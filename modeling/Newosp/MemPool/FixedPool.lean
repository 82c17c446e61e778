import Mathlib.Data.Finset.Card
import Newosp.Lib.BitField
import Newosp.Lib.Counter
import Newosp.Lib.Machine

/-!
# `FixedPool` one access at a time

Threads (`ι`) allocate and free blocks. The link of a free block is its first word, which its holder overwrites once the
block is allocated. `Allocate` and `AllocateChecked` differ in how they report that there is no block. The fields after
`pc` are histories: how often the head was updated and when each thread last loaded it, where each block is, which calls
`used_count` counts beside the allocated blocks, and what the calls did.
-/

namespace Newosp.MemPool
open Lib Function

def kFreeIndexShift : Nat := 16
def kFreeIndexMask : Nat := 0xFFFF
def kFreeIndexEmpty : Nat := kFreeIndexMask
def kInvalidIndex : Nat := 0xFFFFFFFF

def packHead (index tag : Nat) : Nat := (tag &&& kFreeIndexMask) <<< kFreeIndexShift ||| index &&& kFreeIndexMask

def headIndex (head : Nat) : Nat := head &&& kFreeIndexMask

def headTag (head : Nat) : Nat := head >>> kFreeIndexShift &&& kFreeIndexMask

def fetchAdd (count : Nat) : Nat := wrapTo 32 (count + 1)

def fetchSub (count : Nat) : Nat := if count = 0 then 0xFFFFFFFF else count - 1

/-- The template parameters with their static assertions, and `alignof(std::max_align_t)`. -/
structure PoolConfig where
  blockSize : Nat
  maxBlocks : Nat
  maxAlign : Nat
  holdsIndex : 4 ≤ blockSize
  some : 0 < maxBlocks
  fitsIndex : maxBlocks ≤ kFreeIndexMask
  aligned : 0 < maxAlign

namespace PoolConfig

variable (cfg : PoolConfig)

/-- `kAlignedBlockSize`: the block size rounded up; the mask `~(align - 1)` clears the remainder by `align`, a power of
two. -/
def alignedBlockSize : Nat := (cfg.blockSize + cfg.maxAlign - 1) / cfg.maxAlign * cfg.maxAlign

/-- `BlockPtr`, as an offset into the storage. -/
def blockPtr (idx : Nat) : Nat := idx * cfg.alignedBlockSize

def ptrToIndex (ptr : Nat) : Nat := ptr / cfg.alignedBlockSize

def ownsPointer (ptr : Nat) : Bool :=
  if ptr ≥ cfg.alignedBlockSize * cfg.maxBlocks then false else ptr % cfg.alignedBlockSize = 0

end PoolConfig

/-- Program counters, in the order of the source: `Allocate`, `Free`. -/
inductive PC
  | idle
  | allocLoad
  | allocNext (head : Nat)
  | allocCas (head next : Nat)
  | allocCount (idx : Nat)
  | allocFlag (idx : Nat)
  | freeLoad (idx : Nat)
  | freeLink (idx head : Nat)
  | freeCas (idx head : Nat)
  | freeCount (idx : Nat)
  | freeFlag (idx : Nat)
  deriving DecidableEq

def PC.holds : PC → Option Nat
  | allocCount b | allocFlag b | freeLoad b | freeLink b _ | freeCas b _ => some b
  | _ => none

/-- The call is counted in `used_count`: from its addition to the block's return, or from taking a block to the
subtraction. -/
def PC.owes : PC → Bool
  | allocFlag _ | freeLoad _ | freeLink .. | freeCas .. | freeCount _ => true
  | _ => false

inductive Place (ι : Type)
  | free
  | allocated
  | transit (t : ι)
  deriving DecidableEq

/-- A block is handed out, its holder gives it back with `Free`, or `Allocate` finds no block. -/
inductive Event (ι : Type)
  | returned (t : ι) (ptr : Nat)
  | freed (t : ι) (ptr : Nat)
  | failed (t : ι)
  deriving DecidableEq

structure State (ι : Type) where
  freeHead : Nat
  word : Nat → Nat
  usedCount : Nat
  allocated : Nat → Bool
  pc : ι → PC
  version : Nat
  loaded : ι → Nat
  place : Nat → Place ι
  owing : Finset ι
  events : List (Event ι)

/-- A thread begins a call or goes on (if `spurious`, a weak compare-and-swap fails), or a holder writes into its block.
-/
inductive Act (ι : Type)
  | allocate (t : ι)
  | free (t : ι) (ptr : Nat)
  | write (idx value : Nat)
  | step (t : ι) (spurious : Bool)

variable {ι : Type} [DecidableEq ι]

namespace State

variable (s : State ι) (t : ι)

def goto (pc : PC) : State ι := { s with pc := update s.pc t pc }

def moveTo (b : Nat) (place : Place ι) : State ι := { s with place := update s.place b place }

/-- `StoreIndex`, or a write of the holder. -/
def setWord (b value : Nat) : State ι := { s with word := update s.word b value }

def enter (e : Event ι) : State ι := { s with events := s.events ++ [e] }

def loadHead : State ι := { s with loaded := update s.loaded t s.version }

def setHead (head : Nat) : State ι := { s with freeHead := head, version := s.version + 1 }

def setCount (count : Nat) (owing : Finset ι) : State ι := { s with usedCount := count, owing }

def setFlag (b : Nat) (flag : Bool) : State ι := { s with allocated := update s.allocated b flag }

def allocLoop : State ι :=
  if headIndex s.freeHead = kFreeIndexEmpty then ((s.loadHead t).enter (.failed t)).goto t .idle
  else (s.loadHead t).goto t (.allocNext s.freeHead)

end State

def beginAllocate (t : ι) (s : State ι) : Option (State ι) :=
  if s.pc t = .idle then some (s.goto t .allocLoad) else none

/-- `Free` of a block that is handed out begins. -/
def beginFree (cfg : PoolConfig) (t : ι) (ptr : Nat) (s : State ι) : Option (State ι) :=
  let b := cfg.ptrToIndex ptr
  if s.pc t = .idle ∧ cfg.blockPtr b = ptr ∧ s.place b = .allocated then
    some ((((s.moveTo b (.transit t)).setCount s.usedCount (insert t s.owing)).enter (.freed t ptr)).goto t (.freeLoad b))
  else none

def stepNext (cfg : PoolConfig) (t : ι) (spurious : Bool) (s : State ι) : Option (State ι) := match s.pc t with
  | .idle => none
  | .allocLoad => some (s.allocLoop t)
  | .allocNext head => some (s.goto t (.allocCas head (s.word (headIndex head))))
  | .allocCas head next =>
    if s.freeHead = head ∧ spurious = false then
      some (((s.setHead (packHead next (headTag head + 1))).moveTo (headIndex head) (.transit t)).goto t
        (.allocCount (headIndex head)))
    else some (s.allocLoop t)
  | .allocCount b => some ((s.setCount (fetchAdd s.usedCount) (insert t s.owing)).goto t (.allocFlag b))
  | .allocFlag b =>
    some (((((s.setFlag b true).moveTo b .allocated).setCount s.usedCount (s.owing.erase t)).enter
      (.returned t (cfg.blockPtr b))).goto t .idle)
  | .freeLoad b => some ((s.loadHead t).goto t (.freeLink b s.freeHead))
  | .freeLink b head => some ((s.setWord b (headIndex head)).goto t (.freeCas b head))
  | .freeCas b head =>
    if s.freeHead = head ∧ spurious = false then
      some (((s.setHead (packHead b (headTag head + 1))).moveTo b .free).goto t (.freeCount b))
    else some ((s.loadHead t).goto t (.freeLink b s.freeHead))
  | .freeCount b => some ((s.setCount (fetchSub s.usedCount) (s.owing.erase t)).goto t (.freeFlag b))
  | .freeFlag b => some ((s.setFlag b false).goto t .idle)

def next (cfg : PoolConfig) : Act ι → State ι → Option (State ι)
  | .allocate t, s => beginAllocate t s
  | .free t ptr, s => beginFree cfg t ptr s
  | .write b value, s => if s.place b = .allocated then some (s.setWord b value) else none
  | .step t spurious, s => stepNext cfg t spurious s

/-- The pool as it is constructed: block `i` is linked to block `i + 1`. -/
def machine (cfg : PoolConfig) : Machine (State ι) (Act ι) where
  init := {
    freeHead := packHead 0 0
    word := fun i => if i + 1 < cfg.maxBlocks then i + 1 else kInvalidIndex
    usedCount := 0
    allocated := fun _ => false
    pc := fun _ => .idle
    version := 0
    loaded := fun _ => 0
    place := fun _ => .free
    owing := ∅
    events := [] }
  next := next cfg

/-- Fewer than 65536 updates of the head lie between a load of it and the compare-and-swap. -/
def recent (s : State ι) : Act ι → Prop
  | .step t _ => match s.pc t with
    | .allocCas .. | .freeCas .. => s.version < s.loaded t + 65536
    | _ => True
  | _ => True

/-! ### The packed head, the counter and the pointers -/

theorem headIndex_eq (head : Nat) : headIndex head = head % 65536 := Nat.and_two_pow_sub_one_eq_mod head 16

theorem headTag_eq (head : Nat) : headTag head = head / 65536 % 65536 := shiftRight_and head 16 16

theorem packHead_eq (index tag : Nat) : packHead index tag = index % 65536 + 65536 * (tag % 65536) := by
  have low : index &&& kFreeIndexMask = index % 65536 := Nat.and_two_pow_sub_one_eq_mod index 16
  have high : tag &&& kFreeIndexMask = tag % 65536 := Nat.and_two_pow_sub_one_eq_mod tag 16
  have fits : index % 65536 < 2 ^ kFreeIndexShift := Nat.mod_lt _ (by decide)
  rw [packHead, low, high, Nat.or_comm]
  exact or_shiftLeft fits _

theorem headIndex_packHead (index tag : Nat) : headIndex (packHead index tag) = index % 65536 := by
  rw [headIndex_eq, packHead_eq]
  omega

theorem headTag_packHead (index tag : Nat) : headTag (packHead index tag) = tag % 65536 := by
  rw [headTag_eq, packHead_eq]
  omega

theorem fetchAdd_wrapTo (n : Nat) : fetchAdd (wrapTo 32 n) = wrapTo 32 (n + 1) := wrapTo_add_left ..

theorem fetchSub_wrapTo (n : Nat) : fetchSub (wrapTo 32 (n + 1)) = wrapTo 32 n := by
  have arithmetic : ∀ m, wrapTo 32 m = m % 4294967296 := fun _ => rfl
  rw [fetchSub, arithmetic, arithmetic]
  by_cases full : (n + 1) % 4294967296 = 0
  · rw [if_pos full]
    omega
  · rw [if_neg full]
    omega

section

variable (cfg : PoolConfig) {b c : Nat}

theorem blockSize_le_aligned : cfg.blockSize ≤ cfg.alignedBlockSize := by
  have rounded := Nat.lt_mul_div_succ (cfg.blockSize + cfg.maxAlign - 1) cfg.aligned
  have aligned := cfg.aligned
  rw [Nat.mul_succ] at rounded
  rw [PoolConfig.alignedBlockSize, mul_comm]
  omega

theorem alignedBlockSize_pos : 0 < cfg.alignedBlockSize :=
  lt_of_lt_of_le (lt_of_lt_of_le (by decide) cfg.holdsIndex) (blockSize_le_aligned cfg)

theorem ptrToIndex_blockPtr (b : Nat) : cfg.ptrToIndex (cfg.blockPtr b) = b :=
  Nat.mul_div_cancel b (alignedBlockSize_pos cfg)

theorem ownsPointer_blockPtr {b : Nat} (inside : b < cfg.maxBlocks) : cfg.ownsPointer (cfg.blockPtr b) = true := by
  have below : cfg.blockPtr b < cfg.alignedBlockSize * cfg.maxBlocks := by
    rw [PoolConfig.blockPtr, mul_comm]
    exact Nat.mul_lt_mul_of_pos_left inside (alignedBlockSize_pos cfg)
  rw [PoolConfig.ownsPointer, if_neg (Nat.not_le.2 below), decide_eq_true_eq]
  exact Nat.mul_mod_left ..

theorem blockPtr_injective (same : cfg.blockPtr b = cfg.blockPtr c) : b = c := by
  rw [← ptrToIndex_blockPtr cfg b, same, ptrToIndex_blockPtr]

theorem blockPtr_apart (less : b < c) : cfg.blockPtr b + cfg.blockSize ≤ cfg.blockPtr c := by
  have fits := blockSize_le_aligned cfg
  calc cfg.blockPtr b + cfg.blockSize ≤ b * cfg.alignedBlockSize + cfg.alignedBlockSize := Nat.add_le_add_left fits _
    _ = (b + 1) * cfg.alignedBlockSize := (Nat.succ_mul _ _).symm
    _ ≤ cfg.blockPtr c := Nat.mul_le_mul_right _ less

end

end Newosp.MemPool
