import Newosp.Ring.RingbufferCalls

/-!
# `ProducerClear`

The producer's clear stores into `head_` what it loaded from `tail_`. If the consumer moves on in between, or has looked
at `head_` before the store, `tail_` comes to stand before `head_`. In the history the clear removes all that the ring
holds.
-/

namespace Newosp.Ringbuffer
open Lib

variable {α : Type}

structure ClearState (α : Type) where
  ring : State α
  clearing : Option Nat

inductive ClearAct (α : Type)
  | ring (a : Act α)
  | producerClear
  | storeHead

def clearNext (cfg : Config) (moved : α → α) : ClearAct α → ClearState α → Option (ClearState α)
  | .ring a, s =>
    if a.byProducer ∧ s.clearing.isSome then none else (next cfg moved a s.ring).map (⟨·, s.clearing⟩)
  | .producerClear, s => match s.ring.writer, s.clearing with
    | .idle, none => some { s with clearing := some s.ring.mem.tail }
    | _, _ => none
  | .storeHead, s => match s.ring.writer, s.clearing with
    | .idle, some tail => some ⟨(s.ring.setHead tail).writerTo .idle [.loadHead, .clear], none⟩
    | _, _ => none

def clearMachine (cfg : Config) (moved : α → α) (data : Nat → α) : Machine (ClearState α) (ClearAct α) :=
  ⟨⟨(machine cfg moved data).init, none⟩, clearNext cfg moved⟩

/-- The consumer has looked at `head_` and is about to use what it found. -/
def PopPC.looked : PopPC α → Bool
  | .popTake _ | .popStore .. | .batchCopy .. | .discardStore .. | .clearStore _ => true
  | _ => false

/-- The condition on a step: `head_` is stored while `tail_` is as it was loaded, and not behind the consumer's look. -/
def undisturbed (cfg : Config) (s : ClearState α) : ClearAct α → Prop
  | .ring a => indexFits cfg s.ring a
  | .producerClear => True
  | .storeHead => s.clearing = some s.ring.mem.tail ∧ s.ring.reader.looked = false

/-- The indices are as far apart as there are elements, at most the size; the history is one of the queue. -/
def Bounded (cfg : Config) (s : State α) : Prop := subTo cfg.width s.mem.head s.mem.tail ≤ cfg.bufferSize ∧
  ∃ σ, Replays cfg.bufferSize .empty s.events σ ∧ subTo cfg.width s.mem.head s.mem.tail = σ.queue.length

variable {cfg : Config} {moved : α → α} {data : Nat → α} {s s' : ClearState α} {T : Nat}

theorem ReaderOk.cleared {queue popped : List α} {seen : Option Nat} {pc : PopPC α}
    (h : ReaderOk cfg queue seen popped T pc) (calm : pc.looked = false) : ReaderOk cfg [] none popped T pc := by
  cases pc
  case popTake | popStore | batchCopy | discardStore | clearStore => cases calm
  all_goals exact h

theorem Inv.clear {s : State α} {σ : Fifo α} (h : Inv cfg s σ T) (idle : s.writer = .idle)
    (calm : s.reader.looked = false) :
    ∃ τ, Inv cfg ((s.setHead s.mem.tail).writerTo .idle [.loadHead, .clear]) τ T := by
  have gone : (Fifo.remove { σ with seen := some σ.queue.length } σ.queue.length).queue = [] := by
    rw [Fifo.remove_queue, List.drop_length]
  refine ⟨_,h.replayed.append (replays_two (.loadHead σ) (.clear rfl)),h.tail,?_,?_,?_,h.writer_at idle,?_⟩
  · rw [gone]
    exact h.tail
  · rw [gone]
    exact Nat.zero_le _
  · rw [gone]
    intro i v here
    cases here
  · rw [gone]
    exact h.reader.cleared calm

/-- **Clearing from the producer side keeps the ring together**, in the runs in which no clear is disturbed. -/
theorem clear_keeps_bounded (reached : Reach (clearMachine cfg moved data) (undisturbed cfg) s) :
    Bounded cfg s.ring := by
  have inv : ∃ σ T, Inv cfg s.ring σ T := by
    apply reached.invariant (I := fun s => ∃ σ T, Inv cfg s.ring σ T)
    · exact ⟨.empty,0,@init_inv _ cfg moved data⟩
    · rintro s s' a _ ⟨σ,T,inv⟩ guard step
      cases a with
      | ring a =>
        simp only [clearMachine, clearNext] at step
        split at step
        · cases step
        · obtain ⟨ring,moves,rfl⟩ := Option.map_eq_some_iff.1 step
          exact next_inv inv guard moves
      | producerClear =>
        simp only [clearMachine, clearNext] at step
        split at step <;> cases step
        exact ⟨σ,T,inv⟩
      | storeHead =>
        simp only [clearMachine, clearNext] at step
        split at step <;> cases step
        rename_i tail idle loaded
        obtain ⟨same,calm⟩ := guard
        rw [loaded] at same
        cases same
        obtain ⟨τ,kept⟩ := inv.clear idle calm
        exact ⟨τ,T,kept⟩
  obtain ⟨σ,T,inv⟩ := inv
  have length : subTo cfg.width s.ring.mem.head s.ring.mem.tail = σ.queue.length := by
    rw [inv.head, inv.tail, inv.length_eq]
  exact ⟨length ▸ inv.room,σ,inv.replayed,length⟩

def popping : List (ClearAct Nat) :=
  [.push 5, .producer, .producer, .producer, .producer, .pop, .consumer, .consumer, .consumer].map .ring

instance (cfg : Config) (s : ClearState α) (a : ClearAct α) : Decidable (undisturbed cfg s a) := by
  unfold undisturbed indexFits
  repeat' split
  all_goals infer_instance

theorem clear_keeps_bounded_after_pop : ∃ s, Reach (clearMachine movingPair (fun _ => 0) (fun _ => 9))
    (undisturbed movingPair) s ∧ s.ring.mem.head = 1 ∧ s.ring.mem.tail = 1 ∧ Bounded movingPair s.ring := by
  obtain ⟨s,reached,head,tail⟩ := reach_of_decided (clearMachine movingPair (fun _ => 0) (fun _ => 9))
    (undisturbed movingPair)
    (popping ++ [.ring .consumer, .ring (.push 6)] ++ List.replicate 4 (.ring .producer) ++ [.producerClear, .storeHead])
    (fun s => s.ring.mem.head = 1 ∧ s.ring.mem.tail = 1) (by decide +kernel)
  exact ⟨s,reached,head,tail,clear_keeps_bounded reached⟩

/-- The clear falls between the look of the `Pop` and its store: `tail_` overtakes `head_`. -/
theorem clear_lets_tail_overtake : ∃ s, Reach (clearMachine movingPair (fun _ => 0) (fun _ => 9)) anyStep s ∧
    s.ring.mem.head = 0 ∧ s.ring.mem.tail = 1 ∧ ¬ Bounded movingPair s.ring := by
  obtain ⟨s,reached,head,tail⟩ := reach_of_schedule (clearMachine movingPair (fun _ => 0) (fun _ => 9))
    (popping ++ [.producerClear, .storeHead, .ring .consumer])
    (fun s => s.ring.mem.head = 0 ∧ s.ring.mem.tail = 1) (by decide +kernel)
  refine ⟨s,reached,head,tail,fun bounded => absurd bounded.1 ?_⟩
  rw [head, tail]
  decide

end Newosp.Ringbuffer
