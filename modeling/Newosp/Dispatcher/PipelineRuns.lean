import Newosp.Dispatcher.Pipeline

/-!
# What an execution of the pipeline does to its block

A stage adds one reference per successor and drops its own. As long as no addition wraps, an execution that starts with
`r` references ends with `r - 1`, logs `trace`, and recycles the block if `r` was one.
-/

namespace Newosp.Dispatcher
open Lib List Function

variable {r s : Nat} {ts : List Nat} {fuel : Nat}

namespace Store

variable {p : Store} {b : Nat}

def settle (p : Store) (b n : Nat) (entries : List Event) : Store := { p.setRefcount b n with log := p.log ++ entries }

/-- The references of block `b` go down to `n`; at none it is recycled. -/
def drop (p : Store) (b n : Nat) (entries : List Event) : Store :=
  if n = 0 then (p.settle b 0 entries).recycle b else p.settle b n entries

@[simp] theorem settle_refcount (n : Nat) (entries : List Event) : ((p.settle b n entries).block b).refcount = n := by
  simp only [settle, setRefcount, setBlock, update_self]

theorem settle_settle (n m : Nat) (entries more : List Event) :
    (p.settle b n entries).settle b m more = p.settle b m (entries ++ more) := by
  simp only [settle, setRefcount, setBlock, update_self, update_idem, append_assoc]

theorem settle_drop (n m : Nat) (entries more : List Event) :
    (p.settle b n entries).drop b m more = p.drop b m (entries ++ more) := by
  simp only [drop, settle_settle]

section

variable (refs : (p.block b).refcount = r)
include refs

theorem settle_self : p.settle b r [] = p := by
  simp only [settle, setRefcount, setBlock, ← refs, update_eq_self, append_nil]

theorem enter_eq (e : Event) : p.enter e = p.settle b r [e] := by
  simp only [enter, settle, setRefcount, setBlock, ← refs, update_eq_self]

theorem addRef_eq {count : Nat} (fits : r + count < 4294967296) :
    p.addRef b count = p.settle b (r + count) [.addRef b count] := by
  simp only [addRef, enter, settle, refs, wrap32_of_lt fits]
  rfl

theorem release_eq (held : 0 < r) : p.release b = (decide (r = 1), p.drop b (r - 1) [.release b r]) := by
  have settled : (p.setRefcount b (r - 1)).enter (.release b r) = p.settle b (r - 1) [.release b r] := rfl
  simp only [release, refs, held, if_true, settled, drop]
  by_cases one : r = 1
  · subst one
    rfl
  · rw [if_neg one, if_neg (by omega), decide_eq_false one]

end

theorem release_zero (refs : (p.block b).refcount = 0) : p.release b = (false, p) := by
  simp only [release, refs, lt_irrefl, if_false]

end Store

namespace Pipeline

section

variable (g : Pipeline) (b : Nat)

/-- The most references pending while the stages of a list run one after another. -/
def peakFrom (peak : Nat → Nat) : List Nat → Nat
  | [] => 0
  | t :: ts => max (peak t + ts.length) (peakFrom peak ts)

/-- The most stage references pending at once while a stage and what it triggers run. -/
def peak : Nat → Nat → Nat
  | 0, _ => 0
  | fuel + 1, s => max ((g.successors s).length + 1) (peakFrom (peak fuel) (g.successors s))

/-- What the stages of a list log when they run one after another, the first under `r` references. -/
def traceFrom (trace : Nat → Nat → List Event) : List Nat → Nat → List Event
  | [], _ => []
  | t :: ts, r => trace t r ++ traceFrom trace ts (r - 1)

/-- What a stage logs when it completes under `r` references, before its successors run. -/
def completion (slot : StageSlot) (s r : Nat) : List Event :=
  let k := slot.successors.length
  (if slot.handler then [.call s b r] else []) ++ (if 0 < k then [.addRef b k] else []) ++ [.release b (r + k)]

def trace : Nat → Nat → Nat → List Event
  | 0, _, _ => []
  | fuel + 1, s, r => match g.stages[s]? with
    | none => []
    | some slot => completion b slot s r ++ traceFrom (trace fuel) slot.successors (r + slot.successors.length - 1)

variable {g b}

theorem successors_lt_peak (fuel s : Nat) : (g.successors s).length < g.peak (fuel + 1) s := Nat.le_max_left ..

theorem mem_traceFrom {trace : Nat → Nat → List Event} {e : Event}
    (member : e ∈ traceFrom trace ts r) : ∃ t ∈ ts, ∃ r', e ∈ trace t r' := by
  induction ts generalizing r with
  | nil => exact absurd member not_mem_nil
  | cons t ts ih =>
    rcases mem_append.1 member with here | later
    · exact ⟨t,mem_cons_self,r,here⟩
    · obtain ⟨u,inside,r',found⟩ := ih later
      exact ⟨u,mem_cons_of_mem _ inside,r',found⟩

theorem trace_inside : ∀ e ∈ g.trace b fuel s r, e.inside = true := by
  induction fuel generalizing s r with
  | zero => exact fun e member => absurd member not_mem_nil
  | succ fuel ih =>
    intro e member
    unfold trace at member
    split at member
    · exact absurd member not_mem_nil
    · rename_i slot here
      rcases mem_append.1 member with own | later
      · have all : ∀ e ∈ completion b slot s r, e.inside = true := by
          unfold completion
          simp only [forall_mem_append, forall_mem_singleton]
          refine ⟨⟨?_,?_⟩,rfl⟩
          · split <;> simp [Event.inside]
          · split <;> simp [Event.inside]
        exact all e own
      · obtain ⟨t,_,r',found⟩ := mem_traceFrom later
        exact ih e found

end

section

variable {g : Pipeline} {b : Nat} {p : Store}

theorem successors_eq {slot : StageSlot} (here : g.stages[s]? = some slot) : g.successors s = slot.successors := by
  rw [successors, here]

theorem prepare_eq (refs : (p.block b).refcount = r) (slot : StageSlot)
    (fits : r + slot.successors.length < 4294967296) :
    (let p := if slot.handler then p.enter (.call s b (p.block b).refcount) else p
      if 0 < slot.successors.length then p.addRef b slot.successors.length else p) =
    p.settle b (r + slot.successors.length) ((if slot.handler then [.call s b r] else []) ++
      if 0 < slot.successors.length then [.addRef b slot.successors.length] else []) := by
  have called : (if slot.handler then p.enter (.call s b (p.block b).refcount) else p) =
      p.settle b r (if slot.handler then [.call s b r] else []) := by
    split
    · rw [refs, Store.enter_eq refs]
    · rw [Store.settle_self refs]
  simp only [called]
  split
  · rw [Store.addRef_eq (Store.settle_refcount ..) fits, Store.settle_settle]
  · rename_i none
    rw [append_nil, show slot.successors.length = 0 by omega, add_zero]

theorem foldlM_eq {run : Nat → Store → Option Store} (peak : Nat → Nat) (trace : Nat → Nat → List Event)
    (each : ∀ t ∈ ts, ∀ (p : Store) r, (p.block b).refcount = r → 1 ≤ r →
      r - 1 + peak t < 4294967296 → run t p = some (p.drop b (r - 1) (trace t r)))
    (some_ : ts ≠ []) {r : Nat} (refs : (p.block b).refcount = r) (enough : ts.length ≤ r)
    (fits : r - ts.length + peakFrom peak ts < 4294967296) :
    ts.foldlM (fun p t => run t p) p = some (p.drop b (r - ts.length) (traceFrom trace ts r)) := by
  induction ts generalizing p r with
  | nil => exact absurd rfl some_
  | cons t ts ih =>
    rw [length_cons] at enough fits ⊢
    simp only [peakFrom] at fits
    rw [foldlM_cons, each t mem_cons_self p r refs (by omega) (by omega)]
    change ts.foldlM (fun p t => run t p) (p.drop b (r - 1) (trace t r)) = _
    by_cases last : ts = []
    · subst last
      simp only [traceFrom, append_nil, length_nil, zero_add]
      rfl
    · have more : 0 < ts.length := length_pos_of_ne_nil last
      have held : p.drop b (r - 1) (trace t r) = p.settle b (r - 1) (trace t r) := by
        rw [Store.drop, if_neg (by omega)]
      rw [held, ih (fun t member => each t (mem_cons_of_mem _ member)) last (Store.settle_refcount ..)
        (by omega) (by omega), Store.settle_drop, Nat.sub_sub, add_comm 1]
      rfl

/-- A stage execution drops one reference if no addition wraps. -/
theorem executeStage_eq (acyclic : g.Acyclic) (deep : g.rank s < fuel)
    (stage : s < g.stages.length) (refs : (p.block b).refcount = r) (held : 1 ≤ r)
    (fits : r - 1 + g.peak fuel s < 4294967296) :
    g.executeStage b fuel s p = some (p.drop b (r - 1) (g.trace b fuel s r)) := by
  -- the depth of the recursion is bounded by the stages still below
  induction fuel generalizing s r p with
  | zero => omega
  | succ fuel ih =>
    obtain ⟨slot,here⟩ : ∃ slot, g.stages[s]? = some slot := ⟨_,getElem?_eq_getElem stage⟩
    have next := successors_eq here
    simp only [peak, next] at fits
    simp only [executeStage, trace, here]
    have prepared := prepare_eq (s := s) refs slot (by omega)
    simp only at prepared
    rw [prepared, Store.release_eq (Store.settle_refcount ..) (by omega), Store.settle_drop]
    by_cases leaf : slot.successors = []
    · have none : slot.successors.length = 0 := by rw [leaf, length_nil]
      simp only [leaf, length_nil, foldlM_nil, add_zero, traceFrom, append_nil, completion]
      split <;> rfl
    · have some_ : 0 < slot.successors.length := length_pos_of_ne_nil leaf
      have kept : ∀ entries, p.drop b (r + slot.successors.length - 1) entries =
          p.settle b (r + slot.successors.length - 1) entries := by
        intro entries
        rw [Store.drop, if_neg (by omega)]
      rw [decide_eq_false (by omega : ¬ r + slot.successors.length = 1), kept]
      simp only [Bool.false_eq_true, if_false]
      rw [foldlM_eq (g.peak fuel) (g.trace b fuel) _ leaf (Store.settle_refcount ..) (by omega)
        (by omega), Store.settle_drop]
      · congr 2
        omega
      · intro t member p r refs held fits
        have edge : g.Edge s t := by
          rw [Edge, next]
          exact member
        have lower := rank_lt acyclic edge
        exact ih (by omega) (successors_lt edge) refs held fits

end

end Pipeline

section

variable {p : Store} {b : Nat}

theorem Store.submit_drop {cfg : Config} {g : Pipeline} (acyclic : g.Acyclic) (entry : 0 ≤ g.entryStage)
    (stage : g.entryStage.toNat < g.stages.length) {payloadSize consumerCount now : Nat}
    (fits : initialRefcount g consumerCount + g.peak (g.stages.length + 1) g.entryStage.toNat ≤ 4294967296) :
    p.submit cfg g b payloadSize consumerCount now =
      some ((p.makeReady cfg g b payloadSize consumerCount now).drop b (initialRefcount g consumerCount - 1)
        (g.trace b (g.stages.length + 1) g.entryStage.toNat (initialRefcount g consumerCount))) := by
  have positive : 1 ≤ initialRefcount g consumerCount := initialRefcount_pos
  have deep : g.rank g.entryStage.toNat < g.stages.length + 1 := Nat.lt_succ_of_le (g.rank_le _)
  rw [Store.submit_eq entry stage]
  exact Pipeline.executeStage_eq acyclic deep stage Store.makeReady_refcount positive (by omega)

end

end Newosp.Dispatcher
