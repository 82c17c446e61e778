import Mathlib.Data.Fintype.Card
import Newosp.Dispatcher.Pool

/-!
# The stage graph and its synchronous execution

Every stage that completes adds a reference for each of its successors, drops its own, and executes them one after
another by recursion. `fuel` bounds its depth; the number of stages is enough for an acyclic graph.
-/

namespace Newosp.Dispatcher
open Lib List Function

structure StageSlot where
  handler : Bool
  successors : List Nat

/-- `Pipeline`; as `AddEdge` checks, every edge leads to a stage, and `successor_count` is a 32-bit number. -/
structure Pipeline where
  stages : List StageSlot
  entryStage : Int
  valid : ∀ slot ∈ stages, ∀ t ∈ slot.successors, t < stages.length
  counted : ∀ slot ∈ stages, slot.successors.length < 4294967296

namespace Pipeline

def empty : Pipeline where
  stages := []
  entryStage := -1
  valid := fun _ member => absurd member not_mem_nil
  counted := fun _ member => absurd member not_mem_nil

/-- `AddStage`: the index of the new stage, unless the pipeline is full. -/
def addStage (g : Pipeline) (maxStages : Nat) (handler : Bool) : Option (Nat × Pipeline) :=
  if maxStages ≤ g.stages.length then none
  else some (g.stages.length, {
    stages := g.stages ++ [⟨handler, []⟩]
    entryStage := g.entryStage
    valid := by
      intro slot member t edge
      rw [length_append]
      rcases mem_append.1 member with old | new
      · exact lt_of_lt_of_le (g.valid slot old t edge) (Nat.le_add_right ..)
      · rw [mem_singleton.1 new] at edge
        exact absurd edge not_mem_nil
    counted := by
      intro slot member
      rcases mem_append.1 member with old | new
      · exact g.counted slot old
      · rw [mem_singleton.1 new, length_nil]
        decide })

/-- `AddEdge`, for indices that are stages and a source with a free place. -/
def addEdge (g : Pipeline) (maxEdges : UInt32) (source target : Nat) : Option Pipeline :=
  if h : source < g.stages.length ∧ target < g.stages.length then
    let slot := g.stages[source]
    if full : maxEdges.toNat ≤ slot.successors.length then none
    else some {
      stages := g.stages.set source { slot with successors := slot.successors ++ [target] }
      entryStage := g.entryStage
      valid := by
        intro changed member t edge
        rw [length_set]
        rcases mem_or_eq_of_mem_set member with old | rfl
        · exact g.valid changed old t edge
        · rcases mem_append.1 edge with before | new
          · exact g.valid slot (getElem_mem _) t before
          · rw [mem_singleton.1 new]
            exact h.2
      counted := by
        intro changed member
        rcases mem_or_eq_of_mem_set member with old | rfl
        · exact g.counted changed old
        · have word := maxEdges.toNat_lt
          rw [length_append, length_singleton]
          omega }
  else none

def setEntryStage (g : Pipeline) (stage : Int) : Pipeline := { g with entryStage := stage }

def successors (g : Pipeline) (s : Nat) : List Nat := match g.stages[s]? with
  | some slot => slot.successors
  | none => []

def Edge (g : Pipeline) (s t : Nat) : Prop := t ∈ g.successors s

def Acyclic (g : Pipeline) : Prop := ∀ s, ¬ Relation.TransGen g.Edge s s

/-- `ExecuteStage` with `OnStageComplete`, for recursions no deeper than `fuel`. -/
def executeStage (g : Pipeline) (b : Nat) : Nat → Nat → Store → Option Store
  | 0, _, _ => none
  | fuel + 1, s, p => match g.stages[s]? with
    | none => some p
    | some slot =>
      let p := if slot.handler then p.enter (.call s b (p.block b).refcount) else p
      -- references for the successors before this stage's own is dropped
      let p := if 0 < slot.successors.length then p.addRef b slot.successors.length else p
      let (last, p) := p.release b
      if last then some p
      else slot.successors.foldlM (fun p t => executeStage g b fuel t p) p

def execute (g : Pipeline) (b : Nat) (p : Store) : Option (Bool × Store) :=
  if g.entryStage < 0 ∨ g.stages.length ≤ g.entryStage.toNat then some (false, p)
  else (executeStage g b (g.stages.length + 1) g.entryStage.toNat p).map (true, ·)

def entryFanOut (_ : Pipeline) : Nat := 1

end Pipeline

def initialRefcount (g : Pipeline) (consumerCount : Nat) : Nat :=
  if 0 < consumerCount then consumerCount else g.entryFanOut

/-- The first half of `Submit`: the block gets its deadline and its references and becomes ready. -/
def Store.makeReady (p : Store) (cfg : Config) (g : Pipeline) (b payloadSize consumerCount now : Nat) : Store :=
  let deadline := if 0 < cfg.defaultTimeoutMs then wrap64 (now + cfg.defaultTimeoutMs * 1000) else 0
  let p := p.setBlock b { p.block b with payloadSize, deadline, refcount := initialRefcount g consumerCount }
  p.setState b .ready

/-- `Submit`; without an entry stage the block is handed to the notify policy, which does not touch it. -/
def Store.submit (p : Store) (cfg : Config) (g : Pipeline) (b payloadSize consumerCount now : Nat) : Option Store :=
  (g.execute b (p.makeReady cfg g b payloadSize consumerCount now)).map Prod.snd

section

variable {p : Store} {cfg : Config} {g : Pipeline} {b payloadSize consumerCount now : Nat}

theorem Store.makeReady_refcount :
    ((p.makeReady cfg g b payloadSize consumerCount now).block b).refcount = initialRefcount g consumerCount := by
  simp only [makeReady, setState, enter, setBlock, update_self]

theorem Store.makeReady_state : ((p.makeReady cfg g b payloadSize consumerCount now).block b).state = .ready := by
  simp only [makeReady, setState, enter, setBlock, update_self]

theorem Store.makeReady_of_ne {i : Nat} (ne : i ≠ b) :
    (p.makeReady cfg g b payloadSize consumerCount now).block i = p.block i := by
  simp only [makeReady, setState, enter, setBlock, update_of_ne ne]

theorem Store.makeReady_log : (p.makeReady cfg g b payloadSize consumerCount now).log =
    p.log ++ [.change b (p.block b).state .ready] := by
  simp only [makeReady, setState, enter, setBlock, update_self]

theorem initialRefcount_pos : 1 ≤ initialRefcount g consumerCount := by
  unfold initialRefcount
  split
  · assumption
  · exact le_refl 1

theorem Store.submit_eq (entry : 0 ≤ g.entryStage) (stage : g.entryStage.toNat < g.stages.length) :
    p.submit cfg g b payloadSize consumerCount now = g.executeStage b (g.stages.length + 1) g.entryStage.toNat
        (p.makeReady cfg g b payloadSize consumerCount now) := by
  rw [submit, Pipeline.execute, if_neg (by omega), Option.map_map]
  exact Option.map_id'

end

section

variable {g : Pipeline} {s t : Nat}

theorem Pipeline.successors_lt (edge : g.Edge s t) : t < g.stages.length := by
  unfold Edge successors at edge
  split at edge
  · rename_i slot here
    exact g.valid slot (mem_of_getElem? here) t edge
  · exact absurd edge not_mem_nil

theorem Pipeline.acyclic_of_falling (height : Nat → Nat) (falls : ∀ s t, g.Edge s t → height t < height s) :
    g.Acyclic := by
  have below : ∀ s t, Relation.TransGen g.Edge s t → height t < height s := by
    intro s t path
    induction path with
    | single edge => exact falls _ _ edge
    | tail _ edge ih => exact lt_trans (falls _ _ edge) ih
  intro s cycle
  exact lt_irrefl _ (below s s cycle)

noncomputable def Pipeline.below (g : Pipeline) (s : Nat) : Finset (Fin g.stages.length) :=
  open Classical in Finset.univ.filter fun t => Relation.TransGen g.Edge s t

theorem Pipeline.mem_below {s : Nat} {t : Fin g.stages.length} : t ∈ g.below s ↔ Relation.TransGen g.Edge s t := by
  simp [below]

/-- How many stages `s` reaches; it bounds the depth of the recursion from `s`. -/
noncomputable def Pipeline.rank (g : Pipeline) (s : Nat) : Nat := (g.below s).card

theorem Pipeline.rank_le (g : Pipeline) (s : Nat) : g.rank s ≤ g.stages.length := by
  have bound := Finset.card_le_univ (g.below s)
  rwa [Fintype.card_fin] at bound

theorem Pipeline.rank_lt (acyclic : g.Acyclic) (edge : g.Edge s t) : g.rank t < g.rank s := by
  apply Finset.card_lt_card
  rw [Finset.ssubset_iff_of_subset]
  · refine ⟨⟨t,successors_lt edge⟩,?_,?_⟩
    · exact mem_below.2 (.single edge)
    · intro member
      exact acyclic t (mem_below.1 member)
  · intro u member
    exact mem_below.2 (.head edge (mem_below.1 member))

end

end Newosp.Dispatcher
