import Newosp.Shm.RingBufferSafety

/-!
# When `TryPush` refuses

A push is refused when the slot of the position it loaded does not show that position. If nobody has claimed since the
load, the ring is full. A push that another one overtook in between is refused as well, however empty the ring is.
-/

namespace Newosp.Shm.Ring
open Lib List

section

variable {ι : Type} (s : State ι)

/-- Call `c` is between its first and its last step. -/
def State.running (c : ι) : Prop := s.pc c ≠ .idle ∧ ∀ r, s.pc c ≠ .done r

def Full (cfg : Config) : Prop := s.claims.length = s.popped.length + cfg.slotCount

/-- The condition on a step: a call reads the sequence of a slot only while nobody has claimed the position it loaded. -/
def unovertaken : Act ι → Prop
  | .producer c _ => ∀ pos, s.pc c = .loadSeq pos → s.mem.producerPos = pos
  | _ => True

end

section

theorem Inv.full (h : Inv cfg req s) (other : (s.mem.slots (cfg.index s.mem.producerPos)).sequence ≠ s.mem.producerPos) :
    Full s cfg := by
  rw [h.producerPos, cfg.index_wrap32] at other
  have room := h.room
  by_contra free
  unfold Full at free
  exact other (h.free _ le_rfl (by omega))

variable {ι : Type} [DecidableEq ι] {cfg : Config} {req : ι → List UInt8} {s s' : State ι} {a : Act ι} {c d : ι}
  {pc : PC}

theorem goto_refused (refused : (s.goto d pc).pc c = .done false) :
    s.pc c = .done false ∨ c = d ∧ pc = .done false := by
  simp only [State.goto, Function.update_apply] at refused
  split at refused
  · exact .inr ⟨by assumption,refused⟩
  · exact .inl refused

theorem goto_kept (refused : (s.goto d pc).pc c = .done false) (goes : pc ≠ .done false) : s.pc c = .done false :=
  (goto_refused refused).resolve_right fun both => goes both.2

theorem refused_of_next (step : next cfg req a s = some s') (refused : s'.pc c = .done false) :
    s.pc c = .done false ∨ cfg.slotSize < (req c).length ∨
      ∃ spurious pos, a = .producer c spurious ∧ s.pc c = .loadSeq pos ∧
        (s.mem.slots (cfg.index pos)).sequence ≠ pos := by
  cases a with
  | push d =>
    obtain ⟨_,step⟩ := enabled step
    cases step
    rcases goto_refused refused with old | ⟨rfl,eq⟩
    · exact .inl old
    · split at eq
      · exact .inr (.inl (by assumption))
      · cases eq
  | producer d spurious =>
    simp only [next] at step
    cases here : s.pc d <;> simp only [producerNext, here] at step
    case idle | done => cases step
    case loadSeq pos =>
      cases step
      rcases goto_refused refused with old | ⟨rfl,eq⟩
      · exact .inl old
      · split at eq
        · exact .inr (.inr ⟨spurious,pos,rfl,here,by assumption⟩)
        · cases eq
    case casPos | copy => split at step <;> cases step <;> exact .inl (goto_kept refused (by simp))
    case loadPos | writeSize =>
      cases step
      exact .inl (goto_kept refused (by simp))
  | copyIn d i =>
    simp only [next, copyInNext] at step
    split at step <;> cases step
    exact .inl (goto_kept refused (by simp))
  | pop =>
    simp only [next, popNext] at step
    split at step <;> cases step
    exact .inl refused
  | consumer =>
    simp only [next] at step
    cases here : s.cpc <;> simp only [consumerNext, here] at step
    case idle => cases step
    case copy =>
      obtain ⟨_,step⟩ := enabled step
      cases step
      exact .inl refused
    all_goals
      cases step
      exact .inl refused
  | copyOut i =>
    simp only [next, copyOutNext] at step
    split at step
    · obtain ⟨_,step⟩ := enabled step
      cases step
      exact .inl refused
    · cases step

variable (cfg req) in
/-- Every push that was refused has a message that does not fit a slot, or found the ring full at an instant of the
call. -/
def Justified (past : List (State ι)) : Prop :=
  ∀ s ∈ past, ∀ c, s.pc c = .done false → cfg.slotSize < (req c).length ∨ ∃ t ∈ past, t.running c ∧ Full t cfg

variable {garbage : Nat → Nat → UInt8} {past : List (State ι)}

/-- **A push is not refused without cause**, in the runs in which nobody claims between a call's two loads. -/
theorem refused_only_when_full
    (run : History (machine cfg req garbage) (fun s a => prompt s a ∧ unovertaken s a) past) : Justified cfg req past := by
  apply run.invariant
  · intro s member c refused
    rw [mem_singleton.1 member] at refused
    cases refused
  · intro s s' a past run ih guard step t member c refused
    have older : ∀ t ∈ s :: past, t.pc c = .done false →
        cfg.slotSize < (req c).length ∨ ∃ t ∈ s' :: s :: past, t.running c ∧ Full t cfg := by
      intro t before refused
      refine (ih t before c refused).imp_right ?_
      rintro ⟨t,member,full⟩
      exact ⟨t,mem_cons_of_mem _ member,full⟩
    rcases mem_cons.1 member with rfl | before
    · rcases refused_of_next step refused with old | long | ⟨spurious,pos,rfl,here,other⟩
      · exact older s mem_cons_self old
      · exact .inl long
      · have inv := reach_inv ((run.reach s mem_cons_self).mono fun _ _ both => both.1)
        obtain rfl := guard.2 pos here
        refine .inr ⟨s,mem_cons_of_mem _ mem_cons_self,?_,inv.full other⟩
        rw [State.running, here]
        exact ⟨nofun,nofun⟩
    · exact older t before refused

end

def claim {n : Nat} (c : Fin n) : List (Act (Fin n)) := .push c :: replicate 3 (.producer c false)

def inTimeCheck (s : State (Fin 3)) : Act (Fin 3) → Bool
  | .producer c _ => decide (s.claims.length < 4294967296) && match s.pc c with
    | .loadSeq pos => s.mem.producerPos = pos
    | _ => true
  | _ => true

theorem inTimeCheck_sound (s : State (Fin 3)) (a : Act (Fin 3)) (passes : inTimeCheck s a = true) :
    prompt s a ∧ unovertaken s a := by
  cases a with
  | producer c spurious =>
    obtain ⟨few,next⟩ := Bool.and_eq_true_iff.1 passes
    have few := of_decide_eq_true few
    refine ⟨fun _ _ => by omega,fun pos here => ?_⟩
    rw [here] at next
    exact of_decide_eq_true next
  | _ => exact ⟨trivial,trivial⟩

/-- Two calls have claimed the two slots; the third is refused. -/
theorem refused_only_when_full_third : ∃ s past,
    History (machine slots2 (fun _ : Fin 3 => [7]) fun _ _ => 9) (fun s a => prompt s a ∧ unovertaken s a) (s :: past) ∧
      s.pc 2 = .done false ∧ Justified slots2 (fun _ => [7]) (s :: past) := by
  obtain ⟨s,past,run,_,last⟩ := checkRun_history inTimeCheck_sound
    (show checkRun (machine slots2 (fun _ => [7]) fun _ _ => 9) _ (claim 0 ++ claim 1 ++ [.push 2, .producer 2 false, .producer 2 false]) (fun _ => true)
    (fun s => s.pc 2 = .done false) = true by decide +kernel)
  exact ⟨s,past,run,of_decide_eq_true last,refused_only_when_full run⟩

/-- The first call has loaded position 0 when the second one pushes into it. The first one is refused, although the ring
of two slots was never full. -/
theorem refused_when_overtaken :
    ∃ past, History (machine slots2 twoBytes fun _ _ => 9) anyStep past ∧ ¬ Justified slots2 twoBytes past := by
  have run : checkRun (machine slots2 twoBytes fun _ _ => 9) passAll ([.push 0, .producer 0 false] ++ claim 1 ++
      [.producer 1 false, .copyIn 1 0, .copyIn 1 1, .producer 1 false, .producer 0 false])
      (fun t => t.claims.length ≠ t.popped.length + slots2.slotCount) (fun s => s.pc 0 = .done false) = true := by
    decide +kernel
  obtain ⟨s,past,run,free,last⟩ := checkRun_history (fun _ _ _ => trivial) run
  refine ⟨s :: past,run,fun justified => ?_⟩
  rcases justified s mem_cons_self 0 (of_decide_eq_true last) with long | ⟨t,member,_,full⟩
  · exact absurd long (by decide)
  · exact of_decide_eq_true (free t member) full

end Newosp.Shm.Ring
