import Newosp.Shm.ByteArea

/-!
# What a byte ring is for: a queue of messages

The abstract side of both byte rings: a queue of unread messages, each of which takes its length and four more bytes.
`receive` takes the oldest message, into the caller's buffer if that is large enough.
-/

namespace Newosp.Shm
open Lib List

/-- The bytes the unread messages take. -/
def unread (q : List (List UInt8)) : Nat := (q.map fun msg => msg.length + 4).sum

/-- A `Read` into `out`: what it returns, the buffer afterwards, and the messages left. A message longer
than the buffer is skipped. -/
def receive (out : List UInt8) : List (List UInt8) → (Nat × List UInt8) × List (List UInt8)
  | [] => ((0, out), [])
  | msg :: q =>
    if msg.length ≤ out.length then ((msg.length, msg ++ out.drop msg.length), q) else ((0, out), q)

/-- A message whose length and total fit 32 bits and that is not empty. -/
def Sendable (msg : List UInt8) : Prop := 1 ≤ msg.length ∧ msg.length ≤ 4294967291

/-- The area holds the messages, framed one after the other, from position `tail` on. -/
def Holds (K : Nat) (data : Nat → UInt8) (tail : Nat) (q : List (List UInt8)) : Prop :=
  Shows K data tail (q.flatMap framed)

section

variable {K tail : Nat} {data : Nat → UInt8} {msg : List UInt8} {q : List (List UInt8)} {out : List UInt8}

theorem receive_of_le (fits : msg.length ≤ out.length) :
    receive out (msg :: q) = ((msg.length, msg ++ out.drop msg.length), q) := if_pos fits

theorem receive_of_lt (long : out.length < msg.length) :
    receive out (msg :: q) = ((0, out), q) := if_neg (Nat.not_le.2 long)

@[simp] theorem unread_nil : unread [] = 0 := rfl

@[simp] theorem unread_cons : unread (msg :: q) = msg.length + 4 + unread q := by
  simp only [unread, map_cons, sum_cons]

@[simp] theorem unread_append (q q' : List (List UInt8)) : unread (q ++ q') = unread q + unread q' := by
  induction q with
  | nil => rw [nil_append, unread_nil, zero_add]
  | cons msg q ih => rw [cons_append, unread_cons, unread_cons, ih, ← add_assoc]

theorem eq_nil_of_unread_lt (few : unread q < 4) : q = [] := by
  cases q with
  | nil => rfl
  | cons msg q =>
    rw [unread_cons] at few
    omega

theorem flatMap_framed_length (q : List (List UInt8)) : (q.flatMap framed).length = unread q := by
  induction q with
  | nil => rfl
  | cons msg q ih => rw [flatMap_cons, length_append, framed_length, ih, unread_cons]

theorem holds_nil : Holds K data tail [] := shows_nil

theorem holds_cons : Holds K data tail (msg :: q) ↔ Shows K data tail (leBytes 4 msg.length) ∧
    Shows K data (tail + 4) msg ∧ Holds K data (tail + (msg.length + 4)) q := by
  rw [Holds, flatMap_cons, shows_append, framed_length, framed, shows_append, leBytes_length, and_assoc]
  rfl

theorem Holds.push (h : Holds K data tail q) (len : Shows K data (tail + unread q) (leBytes 4 msg.length))
    (bytes : Shows K data (tail + unread q + 4) msg) : Holds K data tail (q ++ [msg]) := by
  rw [Holds, flatMap_append, shows_append, flatMap_framed_length]
  exact ⟨h,holds_cons.2 ⟨len,bytes,holds_nil⟩⟩

theorem Holds.update (h : Holds K data tail q) {p : Nat} {x : UInt8} (past : tail + unread q ≤ p)
    (lap : p < tail + K) : Holds K (Function.update data (p % K) x) tail q :=
  Shows.update h (by rwa [flatMap_framed_length]) lap

theorem Holds.write {k : Nat} (word : k ≤ 32) (h : Holds (2 ^ k) data tail q)
    (fits : unread q + (msg.length + 4) ≤ 2 ^ k) :
    Holds (2 ^ k) (writeRaw (2 ^ k) (writeRaw (2 ^ k) data (wrap32 (tail + unread q)) (leBytes 4 msg.length))
      (wrap32 (tail + unread q + 4)) msg) tail (q ++ [msg]) := by
  have len : Shows (2 ^ k) (writeRaw (2 ^ k) data (wrap32 (tail + unread q)) (leBytes 4 msg.length))
      (tail + unread q) (leBytes 4 msg.length) := writeRaw_shows word (by rw [leBytes_length]; omega)
  apply Holds.push
  · apply writeRaw_keeps word (by rw [flatMap_framed_length]; omega) (by omega)
    exact writeRaw_keeps word (by rw [flatMap_framed_length]) (by rw [leBytes_length]; omega) h
  · exact writeRaw_keeps word (by rw [leBytes_length]) (by omega) len
  · exact writeRaw_shows word (by omega)

theorem Sendable.leValue_eq (h : Sendable msg) : leValue (leBytes 4 msg.length) = msg.length :=
  leValue_leBytes (by have := h.2; omega)

theorem Sendable.total (h : Sendable msg) : wrap32 (msg.length + 4) = msg.length + 4 :=
  wrap32_of_lt (by have := h.2; omega)

end

end Newosp.Shm
