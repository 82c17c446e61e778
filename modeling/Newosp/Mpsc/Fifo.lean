import Mathlib.Data.Fin.VecNotation
import Newosp.Mpsc.Invariant

/-!
# The two rings are bounded first-in first-out queues

A call may be stalled between its load of `producer_pos_` and its load of the sequence number while up to `2 ^ 31 -
depth` positions are claimed. With one more, the difference reads as negative: the call is refused by a queue that is
not full.
-/

namespace Newosp.Mpsc
open Lib List Function
open State (goto_pc_self)

section

theorem nothing_published (h : Inv cfg s) (step : consumerNext cfg s = some t) (refused : t.cpc = .done none) :
    s.claims.length = s.popped.length ∨ ∃ c, s.claims[s.popped.length]? = some c ∧ s.pc c ≠ .done true := by
  have consumer := h.consumer
  cases here : s.cpc <;> simp only [consumerNext, here] at step
  case idle | done out => cases step
  case loadSeq pos out =>
    cases step
    rw [here] at consumer
    obtain ⟨-,rfl⟩ := consumer
    simp only [cfg.index_wrap32, wrap32_add_left] at refused
    split at refused
    · rename_i negative
      exact h.empty_of_negative negative
    · cases refused
  case copy pos out read =>
    obtain ⟨_,⟨⟩⟩ := enabled step
    cases refused
  case storePos pos out =>
    cases step
    cases refused

variable {ι : Type} [DecidableEq ι] {n : Nat} {β : Type} {cfg : Config} {s : State ι n β} {t : State ι n β}

theorem refused_full (h : Inv cfg s) {c : ι} {spurious : Bool}
    (guard : recent cfg s (.producer c spurious)) (step : producerNext cfg c spurious s = some t)
    (refused : t.pc c = .done false) : s.claims.length = s.popped.length + cfg.depth := by
  have call := h.calls c
  cases here : s.pc c <;> simp only [producerNext, here] at step
  case idle | done result => cases step
  case loadPos =>
    cases step
    rw [State.reload_pc_self] at refused
    cases refused
  case loadSeq pos =>
    cases step
    rw [here] at call
    obtain ⟨rfl,old⟩ := call
    simp only [goto_pc_self, cfg.index_wrap32] at refused
    simp only [recent, here] at guard
    split at refused
    · cases refused
    · rename_i nonzero
      split at refused
      · rename_i negative
        exact h.full_of_negative old guard nonzero negative
      · cases refused
  case casPos pos =>
    split at step
    · cases step
      rw [goto_pc_self] at refused
      cases refused
    · cases step
      rw [State.reload_pc_self] at refused
      cases refused
  case copy pos written =>
    obtain ⟨_,⟨⟩⟩ := enabled step
    rw [goto_pc_self] at refused
    cases refused

omit [DecidableEq ι] in
theorem Inv.finds_nothing (h : Inv cfg s) {pos : Nat} {out : Entry n β} (here : s.cpc = .loadSeq pos out)
    (empty : s.claims.length = s.popped.length) : consumerNext cfg s = some { s with cpc := .done none } := by
  have consumer := h.consumer
  rw [here] at consumer
  obtain ⟨-,rfl⟩ := consumer
  have free := h.free s.popped.length empty.le (Nat.lt_add_of_pos_right (Nat.two_pow_pos _))
  have negative : negative32 (sub32 (s.mem.slots (cfg.index (wrap32 s.popped.length))).sequence
      (wrap32 (wrap32 s.popped.length + 1))) := by
    rw [cfg.index_wrap32, free, wrap32_add_left]
    exact (negative32_sub32 (by omega) (by omega)).2 (Nat.lt_succ_self _)
  simp only [consumerNext, here]
  rw [if_pos negative]

variable (cfg) in
/-- The entries are popped in the order of the claims, each once and as it was pushed; what is not popped sits whole in
its slot; and a call is refused for a reason that holds when it returns. -/
structure Fifo (s : State ι n β) : Prop where
  inOrder : s.popped = (s.claims.take s.popped.length).map s.arg
  claimed : ∀ c, s.pc c = .done true → s.claims.count c = 1
  once : ∀ c, (s.claims.take s.popped.length).count c ≤ 1
  popped : ∀ out, s.cpc = .done (some out) → s.popped.getLast? = some out
  room : s.claims.length ≤ s.popped.length + cfg.depth
  unread : ∀ p c, s.popped.length ≤ p → s.claims[p]? = some c → s.pc c = .done true →
    (s.mem.slots (p % cfg.depth)).event = s.arg c
  full : ∀ c spurious t, recent cfg s (.producer c spurious) → producerNext cfg c spurious s = some t →
    t.pc c = .done false → s.claims.length = s.popped.length + cfg.depth
  empty : ∀ t, consumerNext cfg s = some t → t.cpc = .done none →
    s.claims.length = s.popped.length ∨ ∃ c, s.claims[s.popped.length]? = some c ∧ s.pc c ≠ .done true

/-- **The two rings are bounded first-in first-out queues** in every reachable state, if no call is stalled for too
long. -/
theorem ring_is_fifo {garbage : Nat → Entry n β} {args : ι → Entry n β}
    (h : Reach (machine cfg garbage args) (recent cfg) s) : Fifo cfg s := by
  have inv := reach_inv h
  constructor
  case inOrder => exact inv.order
  case claimed =>
    intro c returned
    exact count_eq_one_of_mem inv.nodup ((inv.claimed c).2 (by rw [returned]; rfl))
  case once =>
    intro c
    exact nodup_iff_count_le_one.1 (inv.nodup.sublist (take_sublist ..)) c
  case popped =>
    intro out returned
    have consumer := inv.consumer
    rw [returned] at consumer
    obtain ⟨-,earlier,eq⟩ := consumer
    rw [eq, getLast?_append, getLast?_singleton, Option.some_or]
  case room => exact inv.room
  case unread =>
    intro p c late here returned
    have held := inv.held p c late here
    rw [returned] at held
    exact held.2
  case full => exact fun c spurious t guard step refused => refused_full inv guard step refused
  case empty => exact fun t step refused => nothing_published inv step refused

def depth2 : Config := ⟨1, by decide, by decide⟩

instance (s : State (Fin 2) 2 Nat) (a : Act (Fin 2) 2 Nat) : Decidable (recent depth2 s a) := by
  unfold recent
  repeat' split
  all_goals infer_instance

/-- Push 1 claims after push 0 and is popped after it, although it is published before; the weak compare-exchange of
push 1 fails once. -/
theorem ring_is_fifo_overlapping : ∃ s : State (Fin 2) 2 Nat,
    Reach (machine depth2 (fun _ _ => 9) fun _ _ => 9) (recent depth2) s ∧
    s.popped.map (fun e => (e 0, e 1)) = [(0, 5), (1, 6)] ∧ Fifo depth2 s := by
  exact reach_and_then (machine (ι := Fin 2) depth2 (fun _ _ => 9) fun _ _ => 9)
      [.push 0 ![0, 5], .push 1 ![1, 6], .producer 0 false, .producer 0 false, .producer 1 false, .producer 1 false,
        .producer 0 false, .producer 1 true, .producer 1 false, .producer 1 false, .copyIn 1 1, .copyIn 1 0,
        .producer 1 false, .pop ![9, 9], .consumer, .copyIn 0 0, .copyIn 0 1, .producer 0 false, .pop ![9, 9], .consumer,
        .copyOut 1, .copyOut 0, .consumer, .consumer, .pop ![9, 9], .consumer, .copyOut 0, .copyOut 1, .consumer]
      (by decide +kernel) fun s reached _ => ring_is_fifo reached

end

section

/-- Pushes of entries of one word, numbered from 0 on, into two slots. -/
abbrev pair : Machine (State Nat 1 Nat) (Act Nat 1 Nat) := machine depth2 (fun _ _ => 9) (fun _ _ => 9)

/-- Fewer than `2 ^ 31` positions are claimed while the call of the step is stalled, and the queue is not full. -/
def calm (s : State Nat 1 Nat) (a : Act Nat 1 Nat) : Prop :=
  (∀ c spurious pos, a = .producer c spurious → s.pc c = .loadSeq pos ∨ s.pc c = .casPos pos →
    s.claims.length - s.loaded c < 2147483648) ∧
  s.claims.length < s.popped.length + depth2.depth

def calmAndRecent (s : State Nat 1 Nat) (a : Act Nat 1 Nat) : Prop := calm s a ∧ recent depth2 s a

variable {s t : State Nat 1 Nat} {k : Nat}

structure Round (k : Nat) (s : State Nat 1 Nat) : Prop where
  reached : Reach pair calmAndRecent s
  stalled : s.pc 0 = .loadSeq 0 ∧ s.loaded 0 = 0
  later : ∀ d, k < d → s.pc d = .idle
  claims : s.claims.length = k
  popped : s.popped.length = k
  pops : s.cpc = .idle ∨ ∃ out, s.cpc = .done out

section

variable (reached : Reach pair calmAndRecent s)
include reached

theorem advance {a : Act Nat 1 Nat} (step : next depth2 a s = some t) (claims : s.claims.length ≤ s.popped.length + 1)
    (prompt : ∀ c spurious, a = .producer c spurious → s.pc c = .loadPos ∨ (s.pc c).claimed = true ∨
      s.claims.length = s.loaded c) : Reach pair calmAndRecent t := by
  have two : depth2.depth = 2 := rfl
  refine .step reached ⟨⟨?_,by omega⟩,?_⟩ step
  · rintro c spurious pos rfl here
    rcases prompt c spurious rfl with start | claimed | eq
    · rw [start] at here
      rcases here with no | no <;> cases no
    · rcases here with at_ | at_ <;> rw [at_] at claimed <;> cases claimed
    · omega
  · cases a with
    | producer c spurious =>
      have := prompt c spurious rfl
      simp only [recent]
      split
      · rename_i at_
        rw [at_] at this
        rcases this with no | no | eq
        · cases no
        · cases no
        · omega
      · rename_i at_
        rw [at_] at this
        rcases this with no | no | eq
        · cases no
        · cases no
        · omega
      · trivial
    | _ => trivial

/-- One more push, alone. -/
theorem push_alone {c : Nat} (idle : s.pc c = .idle)
    (empty : s.claims.length = s.popped.length) : ∃ t, Reach pair calmAndRecent t ∧ t.claims = s.claims ++ [c] ∧
      t.popped = s.popped ∧ t.cpc = s.cpc ∧ t.pc = update s.pc c (.done true) ∧
      ∀ d, d ≠ c → t.loaded d = s.loaded d := by
  have inv := reach_inv (reached.mono fun _ _ guard => guard.2)
  have free := inv.free _ le_rfl (by rw [empty]; exact Nat.lt_add_of_pos_right (by decide))
  have word : s.mem.producerPos = wrap32 s.claims.length := inv.producerPos
  let s₁ := { s with arg := update s.arg c fun _ => 7 }.goto c .loadPos
  have r₁ : Reach pair calmAndRecent s₁ := advance reached (a := .push c fun _ => 7) (if_pos idle) (by omega) (by simp)
  let s₂ := s₁.reload c
  have r₂ : Reach pair calmAndRecent s₂ := by
    apply advance r₁ (a := .producer c false)
    · simp only [next, producerNext, s₁, goto_pc_self]
      rfl
    · show s.claims.length ≤ s.popped.length + 1
      omega
    · rintro d spurious ⟨⟩
      exact .inl (goto_pc_self ..)
  have loaded : s₂.loaded c = s.claims.length := by
    show update s.loaded c s.claims.length c = _
    exact update_self ..
  let s₃ := s₂.goto c (.casPos s.mem.producerPos)
  have r₃ : Reach pair calmAndRecent s₃ := by
    apply advance r₂ (a := .producer c false)
    · have zero : sub32 (s.mem.slots (depth2.index s.mem.producerPos)).sequence s.mem.producerPos = 0 := by
        rw [word, depth2.index_wrap32, free, sub32_wrap32_eq_zero (by omega) (by omega)]
      simp only [next, producerNext, s₂, State.reload_pc_self]
      exact congrArg (fun pc => some (s₂.goto c pc)) (if_pos zero)
    · show s.claims.length ≤ s.popped.length + 1
      omega
    · rintro d spurious ⟨⟩
      exact .inr (.inr loaded.symm)
  let s₄ := { s₃ with
    mem := { s₃.mem with producerPos := wrap32 (s.mem.producerPos + 1) }
    claims := s₃.claims ++ [c] }.goto c (.copy s.mem.producerPos ∅)
  have r₄ : Reach pair calmAndRecent s₄ := by
    apply advance r₃ (a := .producer c false)
    · simp only [next, producerNext, s₃, goto_pc_self]
      exact if_pos ⟨rfl,trivial⟩
    · show s.claims.length ≤ s.popped.length + 1
      omega
    · rintro d spurious ⟨⟩
      exact .inr (.inr loaded.symm)
  have length : s₄.claims.length = s.claims.length + 1 := length_append
  let j := depth2.index s.mem.producerPos
  let s₅ := { s₄ with
    mem := s₄.mem.setSlot j { s₄.mem.slots j with event := update (s₄.mem.slots j).event 0 (s₄.arg c 0) } }.goto c
      (.copy s.mem.producerPos {0})
  have r₅ : Reach pair calmAndRecent s₅ := by
    apply advance r₄ (a := .copyIn c 0)
    · simp only [next, copyInNext, s₄, goto_pc_self]
      rfl
    · show s₄.claims.length ≤ s.popped.length + 1
      omega
    · simp
  let s₆ := { s₅ with
    mem := s₅.mem.setSlot j { s₅.mem.slots j with sequence := wrap32 (s.mem.producerPos + 1) } }.goto c (.done true)
  have r₆ : Reach pair calmAndRecent s₆ := by
    apply advance r₅ (a := .producer c false)
    · simp only [next, producerNext, s₅, goto_pc_self]
      apply if_pos
      decide
    · show s₄.claims.length ≤ s.popped.length + 1
      omega
    · rintro d spurious ⟨⟩
      exact .inr (.inl (by rw [goto_pc_self]; rfl))
  refine ⟨s₆,r₆,rfl,rfl,rfl,?_,?_⟩
  · simp only [s₆, s₅, s₄, s₃, s₂, s₁, State.goto, State.reload, update_idem]
  · intro d other
    exact update_of_ne other ..

/-- One more pop, alone. -/
theorem pop_alone (rests : s.cpc.running = false)
    (one : s.claims.length = s.popped.length + 1) (published : ∃ c, Head s c) :
    ∃ t, Reach pair calmAndRecent t ∧ t.claims = s.claims ∧ t.popped.length = s.popped.length + 1 ∧
      (∃ out, t.cpc = .done out) ∧ t.pc = s.pc ∧ t.loaded = s.loaded := by
  have inv := reach_inv (reached.mono fun _ _ guard => guard.2)
  obtain ⟨c,oldest,returned⟩ := published
  have seq : (s.mem.slots (s.popped.length % depth2.depth)).sequence = wrap32 (s.popped.length + 1) := by
    have held := inv.held _ c le_rfl oldest
    rw [returned] at held
    exact held.1
  have word := inv.consumerPos (ConsumerPC.settled rests)
  let pos := s.mem.consumerPos
  let s₁ := { s with cpc := .loadSeq pos fun _ => 9 }
  have r₁ : Reach pair calmAndRecent s₁ := by
    apply advance reached (a := .pop fun _ => 9)
    · exact (popNext_eq _).trans (if_pos rests)
    · exact one.le
    · simp
  let s₂ := { s₁ with cpc := .copy pos (fun _ => 9) ∅ }
  have r₂ : Reach pair calmAndRecent s₂ := by
    apply advance r₁ (a := .consumer)
    · have notNegative : ¬ negative32 (sub32 (s.mem.slots (depth2.index pos)).sequence (wrap32 (pos + 1))) := by
        rw [show pos = wrap32 s.popped.length from word, depth2.index_wrap32, seq, wrap32_add_left,
          negative32_sub32 (by omega) (by omega)]
        omega
      simp only [next, consumerNext, s₁]
      exact congrArg (fun cpc => some { s₁ with cpc := cpc }) (if_neg notNegative)
    · exact one.le
    · simp
  let word₀ := (s.mem.slots (depth2.index pos)).event 0
  let s₃ := { s₂ with cpc := .copy pos (update (fun _ => 9) 0 word₀) {0} }
  have r₃ : Reach pair calmAndRecent s₃ := advance r₂ (a := .copyOut 0) rfl one.le (by simp)
  let s₄ := { s₃ with
    mem := s₃.mem.setSlot (depth2.index pos)
      { s₃.mem.slots (depth2.index pos) with sequence := wrap32 (pos + depth2.depth) }
    popped := s₃.popped ++ [update (fun _ => 9) 0 word₀]
    cpc := .storePos pos (update (fun _ => 9) 0 word₀) }
  have r₄ : Reach pair calmAndRecent s₄ := by
    apply advance r₃ (a := .consumer)
    · simp only [next, consumerNext, s₃]
      apply if_pos
      decide
    · exact one.le
    · simp
  have length : s₄.popped.length = s.popped.length + 1 := length_append
  refine ⟨_,advance r₄ (a := .consumer) rfl ?_ (by simp),rfl,length,⟨_,rfl⟩,rfl,rfl⟩
  show s.claims.length ≤ s₄.popped.length + 1
  omega

end

theorem Round.rests (h : Round k s) : s.cpc.running = false := by
  rcases h.pops with idle | ⟨out,done⟩
  · rw [idle]; rfl
  · rw [done]; rfl

theorem Round.first : ∃ s, Round 0 s := by
  have r₁ := advance (.init (M := pair)) (a := .push 0 fun _ => 7) rfl (by decide) nofun
  refine ⟨_,advance r₁ (a := .producer 0 false) rfl (by decide) ?_,⟨rfl,rfl⟩,?_,rfl,rfl,.inl rfl⟩
  · rintro c spurious ⟨⟩
    exact .inl rfl
  · intro d late
    show update (update pair.init.pc 0 .loadPos) 0 (.loadSeq 0) d = .idle
    rw [update_of_ne (by omega), update_of_ne (by omega)]
    rfl

/-- One more push and its pop. -/
theorem Round.next (h : Round k s) : ∃ t, Round (k + 1) t := by
  have empty : s.claims.length = s.popped.length := h.claims.trans h.popped.symm
  obtain ⟨t,reached,claims,popped,cpc,pc,loaded⟩ := push_alone h.reached (h.later _ (Nat.lt_succ_self k)) empty
  have oldest : t.claims[t.popped.length]? = some (k + 1) := by
    rw [claims, popped, ← empty, getElem?_concat_length]
  obtain ⟨u,reached',claims',popped',returned,pc',loaded'⟩ := pop_alone reached
    (by rw [cpc]; exact h.rests) (by rw [claims, popped, ← empty, length_append, length_singleton])
    ⟨k + 1,oldest,by rw [pc, update_self]⟩
  refine ⟨u,reached',?_,?_,?_,?_,.inr returned⟩
  · rw [pc', pc, update_of_ne (by omega), loaded', loaded 0 (by omega)]
    exact h.stalled
  · intro d late
    rw [pc', pc, update_of_ne (by omega)]
    exact h.later d (by omega)
  · rw [claims', claims, length_append, h.claims, length_singleton]
  · rw [popped', popped, h.popped]

theorem exists_round (k : Nat) : ∃ s, Round k s := by
  induction k with
  | zero => exact Round.first
  | succ k ih =>
    obtain ⟨s,round⟩ := ih
    exact round.next

/-- **A push is refused by a queue that is never full**: `2 ^ 31 - 1` other entries are pushed and popped between its
load of `producer_pos_` and its load of the sequence number. -/
theorem refused_not_full : ∃ s t : State Nat 1 Nat, Reach pair calm s ∧ calm s (.producer 0 false) ∧
    next depth2 (.producer 0 false) s = some t ∧ t.pc 0 = .done false := by
  obtain ⟨s,h⟩ := exists_round 2147483647
  have inv := reach_inv (h.reached.mono fun _ _ guard => guard.2)
  have claims := h.claims
  have popped := h.popped
  -- the slot of position 0 is the one of position `2 ^ 31`, which is free
  have seq : (s.mem.slots (depth2.index 0)).sequence = 2147483648 :=
    inv.free 2147483648 (by omega) (by rw [popped]; decide)
  have refused : next depth2 (.producer 0 false) s = some (s.goto 0 (.done false)) := by
    simp only [next, producerNext, h.stalled.1, seq]
    rfl
  refine ⟨s,_,h.reached.mono fun _ _ guard => guard.1,⟨?_,?_⟩,refused,goto_pc_self ..⟩
  · rintro c spurious pos ⟨⟩ _
    rw [h.stalled.2]
    omega
  · rw [claims, popped]
    decide

end

end Newosp.Mpsc
