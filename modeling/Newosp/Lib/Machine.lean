import Mathlib.Logic.Function.Basic

/-!
# Machines, reachable states and histories

A machine is an initial state and a partial step function indexed by actions: an action names the party that moves and
every choice of the environment. The steps of a run meet a guard, a condition on the state before the step. `checkRun`
evaluates one schedule, so that a concrete run is a single `decide`.
-/

namespace Newosp.Lib
open List

/-- An initial state and a step function; an action that is not enabled gives `none`. -/
structure Machine (σ A : Type) where
  init : σ
  next : A → σ → Option σ

theorem enabled {σ : Type} {p : Prop} [Decidable p] {x : Option σ} {t : σ} (step : (if p then x else none) = some t) :
    p ∧ x = some t := Option.ite_none_right_eq_some.1 step

/-- The guard that excludes no step. -/
def anyStep {σ A : Type} : σ → A → Prop := fun _ _ => True

section

variable {σ A : Type} (M : Machine σ A) {done : σ → Prop} {own : A → Prop} {I : σ → Prop}

/-- The states of the runs whose every step meets `ok`. -/
inductive Reach (ok : σ → A → Prop) : σ → Prop
  | init : Reach ok M.init
  | step {s t : σ} {a : A} : Reach ok s → ok s a → M.next a s = some t → Reach ok t

/-- The visited states of a run whose every step meets `ok`, newest first. -/
inductive History (ok : σ → A → Prop) : List σ → Prop
  | init : History ok [M.init]
  | step {s t : σ} {a : A} {h : List σ} : History ok (s :: h) → ok s a → M.next a s = some t →
      History ok (t :: s :: h)

variable {M} {ok : σ → A → Prop}

/-- The invariant rule: what holds initially and is kept by every step of a reachable
state holds in every reachable state. -/
theorem Reach.invariant (base : I M.init)
    (keep : ∀ s t a, Reach M ok s → I s → ok s a → M.next a s = some t → I t) {s : σ} (h : Reach M ok s) : I s := by
  induction h with
  | init => exact base
  | step reached guard next ih => exact keep _ _ _ reached ih guard next

/-- A weaker guard allows more runs. -/
theorem Reach.mono {ok' : σ → A → Prop} (weaker : ∀ s a, ok s a → ok' s a) {s : σ}
    (h : Reach M ok s) : Reach M ok' s := by
  induction h with
  | init => exact .init
  | step _ guard next ih => exact .step ih (weaker _ _ guard) next

/-- The history rule: a statement about the newest state and the states before it. -/
theorem History.invariant {I : List σ → Prop} (base : I [M.init])
    (keep : ∀ s t a h, History M ok (s :: h) → I (s :: h) → ok s a → M.next a s = some t →
      I (t :: s :: h)) {h : List σ} (hist : History M ok h) : I h := by
  induction hist with
  | init => exact base
  | step past guard next ih => exact keep _ _ _ _ past ih guard next

theorem History.reach {h : List σ} (hist : History M ok h) : ∀ s ∈ h, Reach M ok s := by
  induction hist with
  | init =>
    intro s member
    rw [mem_singleton.1 member]
    exact .init
  | step _ guard next ih =>
    intro s member
    rcases mem_cons.1 member with rfl | older
    · exact .step (ih _ (mem_cons_self ..)) guard next
    · exact ih s older

/-- The state after a schedule, if every action is enabled. -/
def Machine.exec (M : Machine σ A) : List A → σ → Option σ
  | [], s => some s
  | a :: as, s => (M.next a s).bind (M.exec as)

/-- The progress rule: own steps that lower the work and keep `I` lead to the end. -/
theorem Machine.finishes_keeping (work : σ → Nat)
    (advance : ∀ s, I s → ¬ done s → ∃ a t, own a ∧ M.next a s = some t ∧ work t < work s ∧ I t) (s : σ)
    (holds : I s) : ∃ as t, (∀ a ∈ as, own a) ∧ as.length ≤ work s ∧ M.exec as s = some t ∧ done t := by
  induction left : work s using Nat.strongRecOn generalizing s with
  | ind n ih =>
    by_cases finished : done s
    · exact ⟨[],s,(fun a member => absurd member not_mem_nil),Nat.zero_le _,rfl,finished⟩
    · obtain ⟨a,t,mine,step,less,kept⟩ := advance s holds finished
      obtain ⟨as,u,rest,short,run,last⟩ := ih (work t) (by omega) t kept rfl
      refine ⟨a :: as,u,?_,?_,?_,last⟩
      · intro b member
        rcases mem_cons.1 member with rfl | later
        · exact mine
        · exact rest b later
      · rw [length_cons]
        omega
      · rw [Machine.exec, step]
        exact run

/-- The progress rule where every state allows the step. -/
theorem Machine.finishes (work : σ → Nat)
    (advance : ∀ s, ¬ done s → ∃ a t, own a ∧ M.next a s = some t ∧ work t < work s) (s : σ) :
    ∃ as t, (∀ a ∈ as, own a) ∧ as.length ≤ work s ∧ M.exec as s = some t ∧ done t := by
  refine Machine.finishes_keeping (I := fun _ => True) work ?_ s trivial
  intro s _ busy
  obtain ⟨a,t,mine,step,less⟩ := advance s busy
  exact ⟨a,t,mine,step,less,trivial⟩

end

section

variable {σ A : Type} {as : List A} {all final : σ → Bool}

/-- The history of one schedule whose steps pass `g`, newest first; `none` when an action does not pass or is not
enabled. -/
def runFrom (M : Machine σ A) (g : σ → A → Bool) : List A → List σ → Option (List σ)
  | [], h => some h
  | _ :: _, [] => none
  | a :: as, s :: h => if g s a then match M.next a s with
      | some t => runFrom M g as (t :: s :: h)
      | none => none
    else none

/-- The schedule is enabled, every step passes `g`, every visited state `all`, the last `final`. -/
def checkRun (M : Machine σ A) (g : σ → A → Bool) (as : List A) (all final : σ → Bool) : Bool :=
  match runFrom M g as [M.init] with
  | some (s :: h) => (s :: h).all all && final s
  | _ => false

/-- The schedule is enabled, every step passes `g`, some state before the last meets `before`, the
last `final`. -/
def checkPast (M : Machine σ A) (g : σ → A → Bool) (as : List A) (before final : σ → Bool) : Bool :=
  match runFrom M g as [M.init] with
  | some (s :: h) => h.any before && final s
  | _ => false

/-- The check that any enabled step passes. -/
def passAll : σ → A → Bool := fun _ _ => true

variable {M : Machine σ A} {ok : σ → A → Prop} {g : σ → A → Bool}

theorem runFrom_history (sound : ∀ s a, g s a = true → ok s a) :
    ∀ (as : List A) (h h' : List σ), History M ok h → runFrom M g as h = some h' → History M ok h'
  | [], h, h', hist, run => by
    cases run
    exact hist
  | a :: as, [], h', hist, run => by
    cases run
  | a :: as, s :: h, h', hist, run => by
    simp only [runFrom] at run
    split at run
    · rename_i passes
      split at run
      · rename_i t next
        exact runFrom_history sound as _ _ (.step hist (sound s a passes) next) run
      · cases run
    · cases run

theorem checkRun_history (sound : ∀ s a, g s a = true → ok s a) (h : checkRun M g as all final = true) :
    ∃ s rest, History M ok (s :: rest) ∧ (∀ t ∈ s :: rest, all t = true) ∧ final s = true := by
  unfold checkRun at h
  split at h
  · rename_i s rest run
    simp only [Bool.and_eq_true] at h
    exact ⟨s,rest,runFrom_history sound _ _ _ .init run,all_eq_true.1 h.1,h.2⟩
  · cases h

theorem history_of_schedule (M : Machine σ A) (as : List A) {before final : σ → Prop} [DecidablePred before]
    [DecidablePred final] (h : checkPast M passAll as (fun t => before t) (fun s => final s) = true) :
    ∃ s past, History M anyStep (s :: past) ∧ (∃ t ∈ past, before t) ∧ final s := by
  unfold checkPast at h
  split at h
  · rename_i s past run
    simp only [Bool.and_eq_true, any_eq_true, decide_eq_true_eq] at h
    exact ⟨s,past,runFrom_history (fun _ _ _ => trivial) _ _ _ .init run,h⟩
  · cases h

/-- A checked schedule ends in a reachable state. -/
theorem checkRun_reach (sound : ∀ s a, g s a = true → ok s a)
    (h : checkRun M g as all final = true) : ∃ s, Reach M ok s ∧ final s = true := by
  obtain ⟨s,rest,hist,_,last⟩ := checkRun_history sound h
  exact ⟨s,hist.reach s (mem_cons_self ..),last⟩

/-- The run rule: a schedule that evaluates to a state with `P` reaches one. -/
theorem reach_of_run (M : Machine σ A) (sound : ∀ s a, g s a = true → ok s a) (as : List A) (P : σ → Prop)
    [DecidablePred P] (run : checkRun M g as (fun _ => true) (fun s => P s) = true) : ∃ s, Reach M ok s ∧ P s := by
  obtain ⟨s,reached,last⟩ := checkRun_reach sound run
  exact ⟨s,reached,of_decide_eq_true last⟩

theorem reach_of_decided (M : Machine σ A) (ok : σ → A → Prop) [∀ s a, Decidable (ok s a)] (as : List A) (P : σ → Prop)
    [DecidablePred P] (run : checkRun M (fun s a => ok s a) as (fun _ => true) (fun s => P s) = true) :
    ∃ s, Reach M ok s ∧ P s := reach_of_run M (fun _ _ passes => of_decide_eq_true passes) as P run

/-- A run that ends with `P`, and what follows. -/
theorem reach_and_then {P Q : σ → Prop} (M : Machine σ A) {ok : σ → A → Prop} [∀ s a, Decidable (ok s a)] (as : List A)
    [DecidablePred P] (run : checkRun M (fun s a => ok s a) as (fun _ => true) (fun s => P s) = true)
    (follows : ∀ s, Reach M ok s → P s → Q s) : ∃ s, Reach M ok s ∧ P s ∧ Q s := by
  obtain ⟨s,reached,last⟩ := reach_of_decided M ok as P run
  exact ⟨s,reached,last,follows s reached last⟩

theorem reach_of_schedule (M : Machine σ A) (as : List A) (P : σ → Prop) [DecidablePred P]
    (run : checkRun M passAll as (fun _ => true) (fun s => P s) = true) : ∃ s, Reach M anyStep s ∧ P s :=
  reach_of_run M (fun _ _ _ => trivial) as P run

end

/-- A replayed log, after one more entry. -/
theorem foldlM_concat {σ ε : Type} {f : σ → ε → Option σ} {log : List ε} {s t u : σ} {e : ε}
    (before : log.foldlM f s = some t) (last : f t e = some u) : (log ++ [e]).foldlM f s = some u := by
  rw [foldlM_append, before]
  change (f t e).bind some = some u
  rw [last]
  rfl

section

open Function

variable {ι α : Type} [DecidableEq ι] {f : ι → α} {i : ι} {v : α}

theorem update_apart (j : ι) (ne : j ≠ i) : update f i v j = f j := update_of_ne ne ..

/-- What the new value shares with the old one stays. -/
theorem update_same {β : Type} (g : α → β) (eq : g v = g (f i)) (j : ι) : g (update f i v j) = g (f j) := by
  by_cases here : j = i
  · rw [here, update_self, eq]
  · rw [update_of_ne here]

theorem update_eq_iff {z : α} (old : f i ≠ z) (new : v ≠ z) (j : ι) : update f i v j = z ↔ f j = z := by
  by_cases here : j = i
  · rw [here, update_self]
    exact iff_of_false new old
  · rw [update_of_ne here]

end

theorem eq_of_held {α : Type} {held : Option α} {b c : α} (once : held = none ∨ held = some b) (holding : held = some c) :
    c = b := by
  rcases once with rfl | rfl
  · cases holding
  · exact (Option.some.inj holding).symm

theorem holding_moved {ι α π κ : Type} [DecidableEq ι] [DecidableEq α] {pcs pcs' : ι → κ} {place place' : α → π}
    {holds : κ → Option α} {q : ι → π} {t : ι} {pc : κ} {b : α} {new : π} (moved : pcs' = Function.update pcs t pc)
    (placed : place' = Function.update place b new) (before : ∀ u c, holds (pcs u) = some c ↔ place c = q u)
    (now : ∀ c, holds pc = some c ↔ c = b ∧ new = q t) (only : ∀ c, holds (pcs t) = some c → c = b)
    (apart : ∀ u, u ≠ t → place b ≠ q u ∧ new ≠ q u) (u : ι) (c : α) : holds (pcs' u) = some c ↔ place' c = q u := by
  rw [moved, placed, Function.update_apply, Function.update_apply]
  split
  · rename_i own
    subst own
    rw [now]
    split
    · rename_i here
      exact ⟨And.right,fun eq => ⟨here,eq⟩⟩
    · rename_i other
      rw [← before]
      exact ⟨fun both => absurd both.1 other,fun holding => absurd (only c holding) other⟩
  · rename_i other
    rw [before]
    split
    · rename_i here
      rw [here]
      exact iff_of_false (apart u other).1 (apart u other).2
    · rfl

end Newosp.Lib
