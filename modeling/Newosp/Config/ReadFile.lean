import Mathlib.Data.List.Basic
import Newosp.Lib.Machine

/-!
# `ReadFileToBuffer`

Every way out of the loop over `read` leads to the same successful return.
-/

namespace Newosp.Config
open Lib List

/-- What one call of `read` returns. -/
inductive ReadResult
  | bytes (n : Nat)
  | interrupted
  | failed

/-- A count that `read` can return: no more than was asked for and is there, and 0 at the end of the file only. -/
def possible (file buf : List UInt8) (bufSize n : Nat) : Prop :=
  n ≤ bufSize - 1 - buf.length ∧ buf.length + n ≤ file.length ∧ (n = 0 → buf.length = file.length)

instance (file buf : List UInt8) (bufSize n : Nat) : Decidable (possible file buf bufSize n) :=
  inferInstanceAs (Decidable (_ ∧ _ ∧ _))

/-- The bytes in the buffer when the loop ends; `none` when it is still reading. -/
def readLoop (file : List UInt8) (bufSize : Nat) : List ReadResult → List UInt8 → Option (List UInt8)
  | [], buf => if bufSize - 1 ≤ buf.length then some buf else none
  | r :: results, buf => if bufSize - 1 ≤ buf.length then some buf else match r with
    | .failed => some buf
    | .interrupted => readLoop file bufSize results buf
    | .bytes n =>
      if possible file buf bufSize n then
        if n = 0 then some buf else readLoop file bufSize results (buf ++ (file.drop buf.length).take n)
      else none

inductive ConfigError
  | kFileNotFound
  | kParseError
  | kFormatNotSupported
  | kBufferFull

/-- The buffer and the count that is returned. -/
def readFileToBuffer (file : Option (List UInt8)) (bufSize : Nat) (results : List ReadResult) :
    Option (Except ConfigError (List UInt8 × Nat)) := match file with
  | none => some (.error .kFileNotFound)
  | some file => (readLoop file bufSize results []).map fun buf => .ok (buf ++ [0], buf.length)

variable {file buf out : List UInt8} {bufSize total : Nat} {results : List ReadResult}

/-- One of the reads that the loop makes fails. -/
def readFails (file : List UInt8) (bufSize : Nat) : List ReadResult → List UInt8 → Bool
  | [], _ => false
  | r :: results, buf => if bufSize - 1 ≤ buf.length then false else match r with
    | .failed => true
    | .interrupted => readFails file bufSize results buf
    | .bytes n => n != 0 && readFails file bufSize results (buf ++ (file.drop buf.length).take n)

/-- The loop stops at a full buffer, the end of the file or a failed read. -/
theorem readLoop_stops (start : buf <+: file) (room : buf.length ≤ bufSize - 1)
    (returned : readLoop file bufSize results buf = some out) :
    out <+: file ∧ out.length ≤ bufSize - 1 ∧
      (out.length = bufSize - 1 ∨ out = file ∨ readFails file bufSize results buf = true) := by
  induction results generalizing buf with
  | nil =>
    obtain ⟨full,⟨⟩⟩ := enabled returned
    exact ⟨start,room,.inl (Nat.le_antisymm room full)⟩
  | cons r results ih =>
    simp only [readLoop, readFails] at returned ⊢
    split at returned
    · cases returned
      exact ⟨start,room,.inl (Nat.le_antisymm room ‹_›)⟩
    · rw [if_neg ‹_›]
      cases r with
      | failed =>
        cases returned
        exact ⟨start,room,.inr (.inr rfl)⟩
      | interrupted => exact ih start room returned
      | bytes n =>
        obtain ⟨⟨asked,-,atEnd⟩,returned⟩ := enabled returned
        split at returned
        · cases returned
          exact ⟨start,room,.inr (.inl (start.eq_of_length (atEnd ‹_›)))⟩
        · obtain ⟨rest,rfl⟩ := start
          simp only [bne_iff_ne.2 ‹_›, Bool.true_and]
          refine ih ?_ ?_ returned
          · simpa using take_prefix n rest
          · simp only [length_append, length_take]
            omega

/-- **A file is read completely, without a failed read,** exactly when it fits and no read fails. -/
theorem file_read_complete (size : 2 ≤ bufSize)
    (returned : readFileToBuffer (some file) bufSize results = some (.ok (out, total))) :
    (out = file ++ [0] ∧ total = file.length ∧ readFails file bufSize results [] = false) ↔
      file.length < bufSize ∧ readFails file bufSize results [] = false := by
  obtain ⟨buf,ran,⟨⟩⟩ := Option.map_eq_some_iff.1 returned
  obtain ⟨part,room,stops⟩ := readLoop_stops nil_prefix (Nat.zero_le _) ran
  constructor
  · rintro ⟨-,whole,good⟩
    exact ⟨by omega,good⟩
  · rintro ⟨fits,good⟩
    have whole : buf = file := by
      rcases stops with full | whole | failed
      · exact part.eq_of_length_le (by omega)
      · exact whole
      · rw [good] at failed
        cases failed
    exact ⟨by rw [whole],by rw [whole],good⟩

/-- The error that would come after the last read is not read. -/
theorem file_read_complete_in_parts :
    readFileToBuffer (some [1, 2, 3]) 4 [.bytes 2, .interrupted, .bytes 1, .failed] = some (.ok ([1, 2, 3, 0], 3)) ∧
    [1, 2, 3, 0] = [1, 2, 3] ++ [(0 : UInt8)] ∧ 3 = [(1 : UInt8), 2, 3].length ∧
    readFails [1, 2, 3] 4 [.bytes 2, .interrupted, .bytes 1, .failed] [] = false := by
  have returned : readFileToBuffer (some [1, 2, 3]) 4 [.bytes 2, .interrupted, .bytes 1, .failed] =
      some (.ok ([1, 2, 3, 0], 3)) := rfl
  exact ⟨returned,(file_read_complete (by decide) returned).2 ⟨by decide,rfl⟩⟩

/-- A file that does not fit, and a read that fails. -/
theorem part_of_file_read : readFileToBuffer (some [1, 2, 3]) 3 [.bytes 2] = some (.ok ([1, 2, 0], 2)) ∧
    readFileToBuffer (some [1, 2, 3]) 8 [.bytes 1, .failed] = some (.ok ([1, 0], 1)) := ⟨rfl, rfl⟩

end Newosp.Config
