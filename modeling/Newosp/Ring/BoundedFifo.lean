import Newosp.Ring.SpscRingbuffer

/-!
# The bounded queue that `SpscRingbuffer` stands for

`Fifo` is the queue with what the two sides know of it: the free space at the producer's last load of `tail_`, the
elements at the consumer's last load of `head_`, and what the running batches moved.
-/

namespace Newosp.Ringbuffer
open List

variable {α : Type}

def pushAll (q : List α) : List α → List α
  | [] => q
  | v :: vs => pushAll (q ++ [v]) vs

def popMany : Nat → List α → List α × List α
  | 0, q => ([], q)
  | _ + 1, [] => ([], [])
  | n + 1, v :: q => (v :: (popMany n q).1, (popMany n q).2)

theorem pushAll_eq (q vs : List α) : pushAll q vs = q ++ vs := by
  induction vs generalizing q with
  | nil => rw [pushAll, append_nil]
  | cons v vs ih => rw [pushAll, ih, append_assoc, singleton_append]

theorem popMany_eq (n : Nat) (q : List α) : popMany n q = (q.take n, q.drop n) := by
  induction n generalizing q with
  | zero => rfl
  | succ n ih =>
    cases q with
    | nil => rfl
    | cons v q => rw [popMany, ih, take_succ_cons, drop_succ_cons]

/-- `space` and `seen` are what producer and consumer found last, `pushed` and `popped` what the running batches moved,
`gone` what left. -/
structure Fifo (α : Type) where
  queue : List α
  space : Option Nat
  seen : Option Nat
  pushed : List α
  popped : List α
  gone : List α

namespace Fifo

def empty : Fifo α := ⟨[], none, none, [], [], []⟩

/-- The oldest `n` elements leave, and the consumer's look is used up. -/
def remove (σ : Fifo α) (n : Nat) : Fifo α :=
  { σ with queue := (popMany n σ.queue).2, seen := none, gone := σ.gone ++ (popMany n σ.queue).1 }

@[simp] theorem remove_queue (σ : Fifo α) (n : Nat) : (σ.remove n).queue = σ.queue.drop n := by
  rw [remove, popMany_eq]

end Fifo

/-- What an entry of the history may be, and the queue after it. A result rests on the last look of its own call, which
is then used up. -/
inductive Accepts (size : Nat) : Fifo α → Event α → Fifo α → Prop
  | loadTail (σ : Fifo α) : Accepts size σ .loadTail { σ with space := some (size - σ.queue.length) }
  | loadHead (σ : Fifo α) : Accepts size σ .loadHead { σ with seen := some σ.queue.length }
  | push {σ : Fifo α} {v : α} {room : Nat} : σ.space = some room → 0 < room →
      Accepts size σ (.push v true) { σ with queue := pushAll σ.queue [v], space := none }
  | pushFull {σ : Fifo α} {v : α} : σ.space = some 0 → Accepts size σ (.push v false) { σ with space := none }
  | pushChunk {σ : Fifo α} {vs : List α} {room : Nat} : σ.space = some room → vs.length ≤ room →
      Accepts size σ (.pushChunk vs) { σ with queue := pushAll σ.queue vs, space := none, pushed := σ.pushed ++ vs }
  /-- `PushBatch` pushed the first `n` and stopped short only at a full ring. -/
  | pushBatch {σ : Fifo α} {buf : List α} {n : Nat} : σ.pushed = buf.take n → n ≤ buf.length →
      (n < buf.length → σ.space = some 0) →
      Accepts size σ (.pushBatch buf n) { σ with space := none, pushed := [] }
  | pop {σ : Fifo α} {v : α} {n : Nat} : σ.seen = some n → 0 < n → (popMany 1 σ.queue).1 = [v] →
      Accepts size σ (.pop (some v)) (σ.remove 1)
  | popEmpty {σ : Fifo α} : σ.seen = some 0 → Accepts size σ (.pop none) { σ with seen := none }
  | popChunk {σ : Fifo α} {n m : Nat} : σ.seen = some m → n ≤ m →
      Accepts size σ (.popChunk n) { σ.remove n with popped := σ.popped ++ (popMany n σ.queue).1 }
  /-- `PopBatch` filled the first `n` places, left the others, and stopped short only at an empty ring. -/
  | popBatch {σ : Fifo α} {out buf : List α} {n : Nat} : buf = σ.popped ++ out.drop n → σ.popped.length = n →
      n ≤ out.length → (n < out.length → σ.seen = some 0) →
      Accepts size σ (.popBatch out n buf) { σ with seen := none, popped := [] }
  | discard {σ : Fifo α} {count n : Nat} : σ.seen = some n →
      Accepts size σ (.discard count (min count n)) (σ.remove (min count n))
  | peek {σ : Fifo α} {n : Nat} : σ.seen = some n → Accepts size σ (.peek σ.queue[0]?) { σ with seen := none }
  | elementAt {σ : Fifo α} {i n : Nat} : σ.seen = some n →
      Accepts size σ (.elementAt i σ.queue[i]?) { σ with seen := none }
  | clear {σ : Fifo α} {n : Nat} : σ.seen = some n → Accepts size σ .clear (σ.remove n)

/-- A stretch of history takes the queue from `σ` to `σ'`. -/
inductive Replays (size : Nat) : Fifo α → List (Event α) → Fifo α → Prop
  | nil (σ : Fifo α) : Replays size σ [] σ
  | cons {σ τ υ : Fifo α} {e : Event α} {es : List (Event α)} : Accepts size σ e τ → Replays size τ es υ →
      Replays size σ (e :: es) υ

section

variable {size : Nat} {σ τ υ : Fifo α} {e e' : Event α} {es es' : List (Event α)}

theorem Replays.append (h : Replays size σ es τ) (h' : Replays size τ es' υ) : Replays size σ (es ++ es') υ := by
  induction h with
  | nil => exact h'
  | cons first _ ih => exact .cons first (ih h')

theorem replays_one (h : Accepts size σ e τ) : Replays size σ [e] τ := .cons h (.nil τ)

theorem replays_two (h : Accepts size σ e τ) (h' : Accepts size τ e' υ) : Replays size σ [e, e'] υ :=
  .cons h (replays_one h')

def Event.entered : Event α → List α
  | .push v true => [v]
  | .pushChunk vs => vs
  | _ => []

theorem Accepts.balance (h : Accepts size σ e τ) : τ.gone ++ τ.queue = σ.gone ++ σ.queue ++ e.entered := by
  have moves : ∀ n, (σ.remove n).gone ++ (σ.remove n).queue = σ.gone ++ σ.queue := by
    intro n
    rw [Fifo.remove_queue, Fifo.remove, popMany_eq, append_assoc, take_append_drop]
  cases h <;> simp only [Event.entered, append_nil, pushAll_eq, append_assoc]
  all_goals exact moves _

/-- Elements leave in the order they came, each once. -/
theorem Replays.balance (h : Replays size σ es τ) :
    τ.gone ++ τ.queue = σ.gone ++ σ.queue ++ es.flatMap Event.entered := by
  induction h with
  | nil => rw [flatMap_nil, append_nil]
  | cons first _ ih => rw [ih, first.balance, flatMap_cons, append_assoc]

end

end Newosp.Ringbuffer
