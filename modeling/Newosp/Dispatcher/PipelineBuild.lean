import Newosp.Dispatcher.PipelinePaths
import Newosp.Lib.Machine

/-!
# The pipelines that can be built

`AddEdge` does not check whether the target leads back to the source. As long as no edge closes a cycle, the depth of
the recursion is bounded by the number of stages; a stage with an edge to itself is executed for ever.
-/

namespace Newosp.Dispatcher.Pipeline
open Lib List Relation

/-- The calls that build a pipeline. -/
inductive Build
  | addStage (handler : Bool)
  | addEdge (source target : Int)
  | setEntryStage (stage : Int)

/-- `Pipeline` from its constructor on; a call that fails changes nothing and is no step. -/
def builder (maxStages : Nat) (maxEdges : UInt32) : Machine Pipeline Build where
  init := empty
  next
    | .addStage handler, g => (g.addStage maxStages handler).map Prod.snd
    | .addEdge source target, g =>
      if source < 0 ∨ target < 0 then none else g.addEdge maxEdges source.toNat target.toNat
    | .setEntryStage stage, g => some (g.setEntryStage stage)

/-- The condition on a call: the target of an edge does not lead to its source. -/
def opens (g : Pipeline) : Build → Prop
  | .addEdge source target => ¬ ReflTransGen g.Edge target.toNat source.toNat
  | _ => True

/-- `Execute` returns for every block, in a recursion no deeper than `depth`. -/
def Terminates (g : Pipeline) (depth : Nat) : Prop :=
  ∀ b p, 0 ≤ g.entryStage → g.entryStage.toNat < g.stages.length →
    ∃ q, g.executeStage b depth g.entryStage.toNat p = some q

variable {g g' : Pipeline} {maxStages : Nat} {maxEdges : UInt32} {u v : Nat}

theorem path_cases (edges : ∀ s t, g'.Edge s t → g.Edge s t ∨ s = u ∧ t = v) (opens : ¬ ReflTransGen g.Edge v u) {s t : Nat}
    (path : TransGen g'.Edge s t) : TransGen g.Edge s t ∨ ReflTransGen g.Edge s u ∧ ReflTransGen g.Edge v t := by
  induction path with
  | single edge =>
    rcases edges _ _ edge with old | ⟨rfl,rfl⟩
    · exact .inl (.single old)
    · exact .inr ⟨.refl,.refl⟩
  | tail _ edge ih =>
    rcases edges _ _ edge with old | ⟨rfl,rfl⟩
    · rcases ih with before | ⟨first,on⟩
      · exact .inl (before.tail old)
      · exact .inr ⟨first,on.tail old⟩
    · rcases ih with before | ⟨_,on⟩
      · exact .inr ⟨before.to_reflTransGen,.refl⟩
      · exact absurd on opens

theorem Acyclic.addEdge (acyclic : g.Acyclic) (edges : ∀ s t, g'.Edge s t → g.Edge s t ∨ s = u ∧ t = v)
    (opens : ¬ ReflTransGen g.Edge v u) : g'.Acyclic := by
  intro s cycle
  rcases path_cases edges opens cycle with old | ⟨first,on⟩
  · exact acyclic s old
  · exact opens (on.trans first)

theorem edge_addStage {handler : Bool} {n : Nat} (added : g.addStage maxStages handler = some (n, g')) :
    (∀ s t, g'.Edge s t → g.Edge s t) ∧ g'.stages.length ≤ maxStages := by
  unfold Pipeline.addStage at added
  split at added <;> cases added
  refine ⟨fun s t edge => ?_,by rw [length_append, length_singleton]; omega⟩
  by_cases old : s < g.stages.length
  · rwa [Edge, successors, getElem?_append_left old] at edge
  · rw [Edge, successors, getElem?_append_right (Nat.le_of_not_lt old)] at edge
    cases at_ : s - g.stages.length <;> rw [at_] at edge <;> exact absurd edge not_mem_nil

theorem edge_addEdge (added : g.addEdge maxEdges u v = some g') :
    (∀ s t, g'.Edge s t → g.Edge s t ∨ s = u ∧ t = v) ∧ g'.stages.length = g.stages.length := by
  unfold Pipeline.addEdge at added
  split at added
  · rename_i inside
    dsimp only at added
    split at added <;> cases added
    refine ⟨fun s t edge => ?_,length_set⟩
    by_cases same : s = u
    · subst same
      rw [Edge, successors, getElem?_set_self inside.1] at edge
      rw [Edge, successors, getElem?_eq_getElem inside.1]
      rcases mem_append.1 edge with old | new
      · exact .inl old
      · exact .inr ⟨rfl,mem_singleton.1 new⟩
    · rw [Edge, successors, getElem?_set_ne (Ne.symm same)] at edge
      exact .inl edge
  · cases added

/-- No call closes a cycle that the condition does not name. -/
theorem acyclic_of_builds (built : Reach (builder maxStages maxEdges) opens g) :
    g.Acyclic ∧ g.stages.length ≤ maxStages := by
  apply built.invariant
  · refine ⟨acyclic_of_falling id fun s t edge => ?_,Nat.zero_le _⟩
    exact absurd edge not_mem_nil
  · rintro g g' call _ ⟨acyclic,few⟩ opens built
    cases call with
    | addStage handler =>
      obtain ⟨⟨n,g'⟩,added,rfl⟩ := Option.map_eq_some_iff.1 built
      obtain ⟨edges,fits⟩ := edge_addStage added
      exact ⟨fun s cycle => acyclic s (TransGen.mono edges s s cycle),fits⟩
    | addEdge source target =>
      simp only [builder] at built
      split at built
      · cases built
      · obtain ⟨edges,length⟩ := edge_addEdge built
        exact ⟨acyclic.addEdge edges opens,length.trans_le few⟩
    | setEntryStage stage =>
      cases built
      exact ⟨acyclic,few⟩

/-- **`Execute` terminates with a recursion no deeper than `MaxStages`**, for every block and every pipeline whose edges
closed no cycle. -/
theorem execute_terminates (built : Reach (builder maxStages maxEdges) opens g) : g.Terminates maxStages := by
  intro b p entry stage
  obtain ⟨acyclic,few⟩ := acyclic_of_builds built
  refine executeStage_returns acyclic (lt_of_lt_of_le ?_ few) p
  -- the entry stage is not below itself
  have itself : (⟨g.entryStage.toNat,stage⟩ : Fin _) ∉ g.below g.entryStage.toNat :=
    fun member => acyclic _ (mem_below.1 member)
  have fewer := Finset.card_lt_univ_of_notMem itself
  rwa [Fintype.card_fin] at fewer

/-- Two stages, with an edge from the first to the second. -/
theorem execute_terminates_chain :
    ∃ g, Reach (builder 2 1) opens g ∧ g.successors 0 = [1] ∧ g.entryStage = 0 ∧ g.Terminates 2 := by
  have built : Reach (builder 2 1) opens _ := .step (a := .setEntryStage 0) (.step (a := .addEdge 0 1)
    (.step (a := .addStage true) (.step (a := .addStage true) .init trivial rfl) trivial rfl) ?_ rfl) trivial rfl
  · exact ⟨_,built,rfl,rfl,execute_terminates built⟩
  · intro path
    rcases path.cases_head with same | ⟨t,edge,_⟩
    · cases same
    · exact absurd edge not_mem_nil

def looped : Pipeline := ⟨[⟨true, [0]⟩], 0, by decide, by decide⟩

theorem looped_runs_on (b depth : Nat) {p : Store} (held : (p.block b).refcount = 1) :
    looped.executeStage b depth 0 p = none := by
  induction depth generalizing p with
  | zero => rfl
  | succ depth ih =>
    have here : looped.stages[0]? = some ⟨true,[0]⟩ := rfl
    simp only [executeStage, here]
    have prepared := prepare_eq (s := 0) held ⟨true,[0]⟩ (by decide)
    simp only at prepared
    rw [prepared, Store.release_eq (Store.settle_refcount ..) (by decide), Store.settle_drop]
    change (looped.executeStage b depth 0 (p.settle b 1 _)).bind some = none
    rw [ih (Store.settle_refcount ..)]
    rfl

theorem looped_never_returns : Reach (builder 8 8) anyStep looped ∧ ∃ b p, 0 ≤ looped.entryStage ∧
    looped.entryStage.toNat < looped.stages.length ∧ ∀ depth, looped.executeStage b depth looped.entryStage.toNat p = none := by
  refine ⟨.step (a := .setEntryStage 0) (.step (a := .addEdge 0 0) (.step (a := .addStage true) .init trivial rfl)
    trivial rfl) trivial rfl, 0, (initStore 1).setRefcount 0 1, by decide, by decide, ?_⟩
  exact fun depth => looped_runs_on 0 depth rfl

end Newosp.Dispatcher.Pipeline
