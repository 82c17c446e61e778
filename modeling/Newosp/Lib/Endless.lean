import Mathlib.Logic.Function.Iterate
import Newosp.Lib.Machine

/-!
# Endless runs

For what happens "after finitely many steps" a run is the sequence of its states, from any reachable state on.
-/

namespace Newosp.Lib

variable {σ A : Type}

/-- A run without an end, from the reachable state `ρ 0` on: action `α k` takes state `ρ k` to the next one. -/
structure Endless (M : Machine σ A) (ok : σ → A → Prop) (ρ : Nat → σ) (α : Nat → A) : Prop where
  reached : Reach M ok (ρ 0)
  guard : ∀ k, ok (ρ k) (α k)
  next : ∀ k, M.next (α k) (ρ k) = some (ρ (k + 1))

variable {M : Machine σ A} {ok : σ → A → Prop} {ρ : Nat → σ} {α : Nat → A}

theorem Endless.reach (run : Endless M ok ρ α) (k : Nat) : Reach M ok (ρ k) := by
  induction k with
  | zero => exact run.reached
  | succ k ih => exact .step ih (run.guard k) (run.next k)

theorem Endless.exists_of_progress {I : σ → Prop} (choice : σ → A)
    (progress : ∀ s, I s → ok s (choice s) ∧ ∃ t, M.next (choice s) s = some t ∧ I t) {s : σ} (reached : Reach M ok s)
    (start : I s) : ∃ ρ, ρ 0 = s ∧ Endless M ok ρ (fun k => choice (ρ k)) ∧ ∀ k, I (ρ k) := by
  let move : σ → σ := fun s => (M.next (choice s) s).getD s
  have moves : ∀ s, I s → M.next (choice s) s = some (move s) ∧ I (move s) := by
    intro s here
    obtain ⟨-,t,step,there⟩ := progress s here
    have eq : move s = t := by
      simp only [move, step, Option.getD_some]
    rw [eq]
    exact ⟨step,there⟩
  have all : ∀ k, I (move^[k] s) := by
    intro k
    induction k with
    | zero => exact start
    | succ k ih =>
      rw [Function.iterate_succ_apply']
      exact (moves _ ih).2
  refine ⟨fun k => move^[k] s,rfl,⟨reached,fun k => (progress _ (all k)).1,fun k => ?_⟩,all⟩
  rw [Function.iterate_succ_apply']
  exact (moves _ (all k)).1

end Newosp.Lib
