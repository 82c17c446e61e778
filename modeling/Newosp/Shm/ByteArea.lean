import Newosp.Lib.ByteWindow
import Newosp.Lib.PowerOfTwo

/-!
# The data area of the byte rings

`ShmSpscByteRing` and `ShmSpmcByteRing` keep messages in one data area whose size is a power of two, with
the same private functions: `RoundDownPow2`, `WriteRaw` and `ReadRaw`. A message is stored as its length in
four bytes followed by its bytes.
-/

namespace Newosp.Shm
open Lib List Function

def roundDownPow2 (v : Nat) : Nat :=
  if v = 0 then 0
  else
    let v := v ||| v >>> 1
    let v := v ||| v >>> 2
    let v := v ||| v >>> 4
    let v := v ||| v >>> 8
    let v := v ||| v >>> 16
    (v >>> 1) + 1

/-- Where `WriteRaw` and `ReadRaw` at `pos` find byte `i` of `len`: up to the end of the area, then from its start. -/
def rawIndex (capacity pos len i : Nat) : Nat :=
  let offset := pos &&& (capacity - 1)
  let first := capacity - offset
  if first ≥ len then offset + i
  else if i < first then offset + i
  else i - first

/-- `WriteRaw` as a whole, byte by byte. -/
def writeRaw (capacity : Nat) (data : Nat → UInt8) (pos : Nat) (src : List UInt8) : Nat → UInt8 :=
  (range src.length).foldl
    (fun data i => update data (rawIndex capacity pos src.length i) (src.getD i 0)) data

/-- `ReadRaw` as a whole: the bytes it copies. -/
def readRaw (capacity : Nat) (data : Nat → UInt8) (pos len : Nat) : List UInt8 :=
  (range len).map fun i => data (rawIndex capacity pos len i)

/-- A message in the area: `[4-byte length][payload]`. -/
def framed (msg : List UInt8) : List UInt8 := leBytes 4 msg.length ++ msg

section

variable {data : Nat → UInt8} {src : List UInt8} {k p : Nat} {xs : List UInt8}

theorem roundDownPow2_eq {v : Nat} (pos : v ≠ 0) (word : v < 4294967296) : roundDownPow2 v = 2 ^ v.log2 := by
  have smeared := (smeared_one v).double.double.double.double.double
  have ones := smeared.eq_ones pos (by simpa using word)
  have rounded : roundDownPow2 v = (2 ^ (v.log2 + 1) - 1) >>> 1 + 1 := by
    rw [roundDownPow2, if_neg pos]
    exact congrArg (fun u => u >>> 1 + 1) ones
  rw [rounded, Nat.shiftRight_one, Nat.pow_succ]
  have := Nat.two_pow_pos v.log2
  omega

theorem rawIndex_eq {k p len i : Nat} (word : k ≤ 32) (lt : i < len) (fits : len ≤ 2 ^ k) :
    rawIndex (2 ^ k) (wrap32 p) len i = (p + i) % 2 ^ k := by
  have low := Nat.mod_lt p (Nat.two_pow_pos k)
  rw [rawIndex, wrap32_mask word, Nat.add_mod p i, Nat.mod_eq_of_lt (a := i) (by omega)]
  generalize p % 2 ^ k = offset at low
  split
  · rw [Nat.mod_eq_of_lt (by omega)]
  · split
    · rw [Nat.mod_eq_of_lt (by omega)]
    · rw [Nat.mod_eq_sub_mod (by omega), Nat.mod_eq_of_lt (by omega)]
      omega

theorem writeRaw_part {k p n : Nat} (word : k ≤ 32)
    (fits : src.length ≤ 2 ^ k) (le : n ≤ src.length) :
    let part := (range n).foldl
      (fun data i => update data (rawIndex (2 ^ k) (wrap32 p) src.length i) (src.getD i 0)) data
    CopiedTo (2 ^ k) part p src (Finset.range n) ∧
    ∀ base xs, base + xs.length ≤ p → p + src.length ≤ base + 2 ^ k → Shows (2 ^ k) data base xs →
      Shows (2 ^ k) part base xs := by
  induction n with
  | zero => exact ⟨copiedTo_empty,fun _ _ _ _ shown => shown⟩
  | succ n ih =>
    obtain ⟨copied,kept⟩ := ih (by omega)
    have here : src[n]? = some (src.getD n 0) := by
      rw [getD_eq_getElem _ _ (by omega), getElem?_eq_getElem]
    simp only [range_succ, foldl_append, foldl_cons, foldl_nil]
    rw [rawIndex_eq word (by omega) fits, Finset.range_add_one]
    refine ⟨copied.insert fits here,?_⟩
    intro base xs past lap shown
    exact (kept base xs past lap shown).update (by omega) (by omega)

theorem writeRaw_shows (word : k ≤ 32)
    (fits : src.length ≤ 2 ^ k) : Shows (2 ^ k) (writeRaw (2 ^ k) data (wrap32 p) src) p src := by
  apply (writeRaw_part word fits le_rfl).1.shows
  intro i lt
  exact Finset.mem_range.2 lt

theorem writeRaw_keeps {k p base : Nat} (word : k ≤ 32)
    (past : base + xs.length ≤ p) (lap : p + src.length ≤ base + 2 ^ k) (shown : Shows (2 ^ k) data base xs) :
    Shows (2 ^ k) (writeRaw (2 ^ k) data (wrap32 p) src) base xs :=
  (writeRaw_part word (by omega) le_rfl).2 base xs past lap shown

theorem readRaw_eq (word : k ≤ 32)
    (fits : xs.length ≤ 2 ^ k) (shown : Shows (2 ^ k) data p xs) : readRaw (2 ^ k) data (wrap32 p) xs.length = xs := by
  apply ext_getElem
  · rw [readRaw, length_map, length_range]
  · intro i _ lt
    simp only [readRaw, getElem_map, getElem_range]
    rw [rawIndex_eq word lt fits]
    exact shown i _ (getElem?_eq_getElem lt)

@[simp] theorem framed_length (msg : List UInt8) : (framed msg).length = msg.length + 4 := by
  rw [framed, length_append, leBytes_length]
  omega

end

end Newosp.Shm
