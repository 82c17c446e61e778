import Mathlib.Data.List.Nodup
import Newosp.Lib.Machine

/-!
# `ConfigStore`

Names are cut to 63 characters when they are stored, and looked up in full. A string is the list of its characters.
-/

namespace Newosp.Config
open Lib List

def kMaxEntries : Nat := 128

def kMaxKeyLen : Nat := 64

def kMaxValueLen : Nat := 256

structure Entry where
  section_ : List UInt8
  key : List UInt8
  value : List UInt8
  deriving DecidableEq

def lower (c : UInt8) : UInt8 := if 65 ≤ c ∧ c ≤ 90 then c + 32 else c

def strCaseEqual : List UInt8 → List UInt8 → Bool
  | a :: as, b :: bs => if lower a = lower b then strCaseEqual as bs else false
  | as, bs => as = bs

def safeCopy (dstSize : Nat) (src : List UInt8) : List UInt8 := src.take (dstSize - 1)

def Entry.names (e : Entry) (section_ key : List UInt8) : Bool :=
  strCaseEqual e.section_ section_ && strCaseEqual e.key key

def findEntry (entries : List Entry) (section_ key : List UInt8) : Option Entry := entries.find? (·.names section_ key)

/-- `GetString`; `none` is the default value. -/
def getString (entries : List Entry) (section_ key : List UInt8) : Option (List UInt8) :=
  (findEntry entries section_ key).map Entry.value

/-- The loop of `AddEntry` over the entries: the new value of the first that has the names. -/
def updateEntry (section_ key value : List UInt8) : List Entry → Option (List Entry)
  | [] => none
  | e :: entries =>
    if e.names section_ key then some ({ e with value := safeCopy kMaxValueLen value } :: entries)
    else (updateEntry section_ key value entries).map (e :: ·)

def addEntry (entries : List Entry) (section_ key value : List UInt8) : Bool × List Entry :=
  match updateEntry section_ key value entries with
  | some entries => (true, entries)
  | none =>
    if kMaxEntries ≤ entries.length then (false, entries)
    else (true, entries ++ [⟨safeCopy kMaxKeyLen section_, safeCopy kMaxKeyLen key, safeCopy kMaxValueLen value⟩])

structure SetString where
  section_ : List UInt8
  key : List UInt8
  value : List UInt8

def machine : Machine (List Entry) SetString := ⟨[], fun a entries => some (addEntry entries a.section_ a.key a.value).2⟩

/-- The names of the call fit. -/
def fits (_ : List Entry) (a : SetString) : Prop := a.section_.length < kMaxKeyLen ∧ a.key.length < kMaxKeyLen

/-- What of a pair of names counts. -/
def pair (section_ key : List UInt8) : List UInt8 × List UInt8 := (section_.map lower, key.map lower)

def Entry.pair (e : Entry) : List UInt8 × List UInt8 := Config.pair e.section_ e.key

variable {entries : List Entry} {s k v : List UInt8}

theorem strCaseEqual_iff (a b : List UInt8) : strCaseEqual a b = true ↔ a.map lower = b.map lower := by
  induction a generalizing b with
  | nil => cases b <;> simp [strCaseEqual]
  | cons x a ih =>
    cases b with
    | nil => simp [strCaseEqual]
    | cons y b => simp [strCaseEqual, ih]

theorem names_iff (e : Entry) : e.names s k = true ↔ e.pair = pair s k := by
  simp [Entry.names, strCaseEqual_iff, Entry.pair, pair]

theorem getString_cons (e : Entry) : getString (e :: entries) s k = if e.names s k then some e.value else getString entries s k := by
  by_cases named : e.names s k = true <;> simp [getString, findEntry, named]

/-- The value of the pair is set; nothing else changes. -/
theorem updateEntry_some {new : List Entry} (eq : updateEntry s k v entries = some new) :
    new.map Entry.pair = entries.map Entry.pair ∧ getString new s k = some (v.take 255) ∧
    ∀ s' k', pair s' k' ≠ pair s k → getString new s' k' = getString entries s' k' := by
  induction entries generalizing new with
  | nil => cases eq
  | cons e entries ih =>
    simp only [updateEntry] at eq
    split at eq
    · rename_i named
      cases eq
      refine ⟨rfl,(getString_cons ..).trans (if_pos named),fun s' k' other => ?_⟩
      have differs : ¬ e.names s' k' = true := by
        rw [names_iff, (names_iff e).1 named]
        exact other.symm
      rw [getString_cons, getString_cons, if_neg differs]
      exact if_neg differs
    · rename_i other
      obtain ⟨rest,updated,rfl⟩ := Option.map_eq_some_iff.1 eq
      obtain ⟨names,value,others⟩ := ih updated
      refine ⟨congrArg (e.pair :: ·) names,?_,fun s' k' apart => ?_⟩
      · rw [getString_cons, if_neg other, value]
      · rw [getString_cons, getString_cons, others s' k' apart]

theorem updateEntry_none (eq : updateEntry s k v entries = none) : pair s k ∉ entries.map Entry.pair := by
  induction entries with
  | nil => exact not_mem_nil
  | cons e entries ih =>
    simp only [updateEntry] at eq
    split at eq
    · cases eq
    · rename_i other
      rw [names_iff] at other
      exact not_mem_cons_of_ne_of_not_mem (Ne.symm other) (ih (Option.map_eq_none_iff.1 eq))

theorem getString_eq_none (absent : pair s k ∉ entries.map Entry.pair) : getString entries s k = none := by
  induction entries with
  | nil => rfl
  | cons e entries ih =>
    rw [map_cons, mem_cons, not_or] at absent
    rw [getString_cons, if_neg (by rw [names_iff]; exact Ne.symm absent.1), ih absent.2]

/-- What `SetString` promises. -/
structure Upserted (entries : List Entry) (a : SetString) (result : Bool × List Entry) : Prop where
  stored : result.1 = true → getString result.2 a.section_ a.key = some (a.value.take 255)
  count : pair a.section_ a.key ∈ entries.map Entry.pair → result.2.length = entries.length
  others : ∀ s k, pair s k ≠ pair a.section_ a.key → getString result.2 s k = getString entries s k

theorem addEntry_upserted {a : SetString} (distinct : (entries.map Entry.pair).Nodup) (short : fits entries a) :
    Upserted entries a (addEntry entries a.section_ a.key a.value) ∧
      ((addEntry entries a.section_ a.key a.value).2.map Entry.pair).Nodup := by
  unfold addEntry
  split
  · rename_i new updated
    obtain ⟨names,value,others⟩ := updateEntry_some updated
    exact ⟨⟨fun _ => value,fun _ => by simpa using congrArg length names,others⟩,names ▸ distinct⟩
  · rename_i missing
    have absent := updateEntry_none missing
    split
    · exact ⟨⟨nofun,fun _ => rfl,fun _ _ _ => rfl⟩,distinct⟩
    · rw [safeCopy, safeCopy, take_of_length_le (Nat.le_sub_one_of_lt short.1),
        take_of_length_le (Nat.le_sub_one_of_lt short.2)]
      generalize new : (⟨a.section_,a.key,safeCopy kMaxValueLen a.value⟩ : Entry) = e
      have names : e.pair = pair a.section_ a.key := by rw [← new]; rfl
      have grown : ∀ s k, getString (entries ++ [e]) s k = (getString entries s k).or (getString [e] s k) := by
        simp [getString, findEntry, Option.map_or]
      refine ⟨⟨fun _ => ?_,fun present => absurd present absent,fun s k other => ?_⟩,?_⟩
      · rw [grown, getString_eq_none absent, getString_cons, if_pos ((names_iff e).2 names), ← new]
        rfl
      · rw [grown, getString_cons, if_neg (by rw [names_iff]; rw [names]; exact other.symm)]
        exact Option.or_none
      · rw [map_append, map_singleton, names]
        exact distinct.append (nodup_singleton _) (disjoint_singleton.2 absent)

/-- **`SetString` is an upsert** in the runs whose names fit. -/
theorem upserts (reached : Reach machine fits entries) : (entries.map Entry.pair).Nodup ∧
    ∀ a, fits entries a → Upserted entries a (addEntry entries a.section_ a.key a.value) := by
  have distinct : (entries.map Entry.pair).Nodup := by
    apply reached.invariant (I := fun entries => (entries.map Entry.pair).Nodup) nodup_nil
    rintro entries _ a - distinct short ⟨⟩
    exact (addEntry_upserted distinct short).2
  exact ⟨distinct,fun a short => (addEntry_upserted distinct short).1⟩

instance (entries : List Entry) (a : SetString) : Decidable (fits entries a) := inferInstanceAs (Decidable (_ ∧ _))

/-- The second call finds the entry of the first in another case. -/
theorem upserts_other_case : ∃ entries, Reach machine fits entries ∧ entries.length = 1 ∧
    Upserted entries ⟨[65],[98],[7]⟩ (addEntry entries [65] [98] [7]) := by
  obtain ⟨entries,reached,one⟩ := reach_of_decided machine fits [⟨[97],[98],[5]⟩, ⟨[65],[66],[6]⟩] (·.length = 1) (by decide)
  exact ⟨entries,reached,one,(upserts reached).2 _ ⟨by decide,by decide⟩⟩

/-- A section name of 64 characters: its entry is not found, and the next call adds it again. -/
theorem long_name_twice : ∃ entries, Reach machine anyStep entries ∧ ¬ (entries.map Entry.pair).Nodup ∧
    (addEntry [] (replicate 64 97) [98] [5]).1 = true ∧
    getString (addEntry [] (replicate 64 97) [98] [5]).2 (replicate 64 97) [98] = none := by
  obtain ⟨entries,reached,twice⟩ := reach_of_schedule machine
    [⟨replicate 64 97,[98],[5]⟩, ⟨replicate 64 97,[98],[5]⟩] (fun entries => ¬ (entries.map Entry.pair).Nodup) (by decide +kernel)
  exact ⟨entries,reached,twice,by decide +kernel⟩

end Newosp.Config
