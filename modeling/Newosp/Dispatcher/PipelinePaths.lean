import Newosp.Dispatcher.PipelineRuns

/-!
# An execution visits every path once

A path from a stage is the list of the edges it takes, each by its place among the successors. The execution visits the
paths in depth-first order, under a reference exactly when the pending stage references fit in 32 bits.
-/

namespace Newosp.Dispatcher
open Lib List Function
open Event (call)
open Store (enter setBlock settle settle_refcount)

/-- The stage whose handler a log entry is a call of. -/
def Event.callee : Event → Option Nat
  | .call s _ _ => some s
  | _ => none

namespace Pipeline

section

variable (g : Pipeline) {path : List Nat}

def follow : Nat → List Nat → Option Nat
  | s, [] => some s
  | s, i :: path => match (g.successors s)[i]? with
    | some t => follow t path
    | none => none

def hasHandler (s : Nat) : Bool := match g.stages[s]? with
  | some slot => slot.handler
  | none => false

/-- The paths through each of the successors `ts`, whose places start at `i`. -/
def walkFrom (walk : Nat → List (List Nat)) : List Nat → Nat → List (List Nat)
  | [], _ => []
  | t :: ts, i => (walk t).map (i :: ·) ++ walkFrom walk ts (i + 1)

/-- The paths from a stage in the order in which the execution takes them. -/
def walk : Nat → Nat → List (List Nat)
  | 0, _ => []
  | fuel + 1, s => [] :: walkFrom (walk fuel) (g.successors s) 0

variable {g} {walk : Nat → List (List Nat)}

theorem mem_walkFrom {ts : List Nat} {i : Nat} :
    path ∈ walkFrom walk ts i ↔ ∃ j t rest, ts[j]? = some t ∧ rest ∈ walk t ∧ path = (i + j) :: rest := by
  induction ts generalizing i with
  | nil =>
    constructor
    · exact fun member => absurd member not_mem_nil
    · rintro ⟨j,t,rest,here,_⟩
      cases here
  | cons u ts ih =>
    rw [walkFrom, mem_append, mem_map, ih]
    constructor
    · rintro (⟨rest,member,rfl⟩ | ⟨j,t,rest,here,member,rfl⟩)
      · exact ⟨0,u,rest,rfl,member,rfl⟩
      · refine ⟨j + 1,t,rest,here,member,?_⟩
        rw [add_assoc, add_comm 1]
    · rintro ⟨j,t,rest,here,member,rfl⟩
      cases j with
      | zero =>
        cases here
        exact .inl ⟨rest,member,rfl⟩
      | succ j =>
        refine .inr ⟨j,t,rest,here,member,?_⟩
        rw [add_assoc, add_comm 1]

theorem mem_walk (acyclic : g.Acyclic) {fuel s : Nat} (deep : g.rank s < fuel) :
    path ∈ g.walk fuel s ↔ (g.follow s path).isSome = true := by
  induction fuel generalizing s path with
  | zero => omega
  | succ fuel ih =>
    have below : ∀ {i t : Nat}, (g.successors s)[i]? = some t → g.rank t < fuel := by
      intro i t here
      have lower := rank_lt acyclic (show g.Edge s t from mem_of_getElem? here)
      omega
    rw [walk, mem_cons, mem_walkFrom]
    constructor
    · rintro (rfl | ⟨i,t,rest,here,member,rfl⟩)
      · rfl
      · rw [zero_add, follow, here]
        exact (ih (below here)).1 member
    · intro leads
      cases path with
      | nil => exact .inl rfl
      | cons i rest =>
        right
        unfold follow at leads
        split at leads
        · rename_i t here
          exact ⟨i,t,rest,here,(ih (below here)).2 leads,by rw [zero_add]⟩
        · cases leads

theorem ordered_walkFrom
    (each : ∀ t, (walk t).Pairwise fun earlier later => ¬ later <+: earlier) (ts : List Nat) (i : Nat) :
    (walkFrom walk ts i).Pairwise fun earlier later => ¬ later <+: earlier := by
  induction ts generalizing i with
  | nil => exact List.Pairwise.nil
  | cons t ts ih =>
    rw [walkFrom, pairwise_append]
    refine ⟨?_,ih (i + 1),?_⟩
    · rw [pairwise_map]
      refine (each t).imp ?_
      intro earlier later apart inside
      exact apart (cons_prefix_cons.1 inside).2
    · -- paths through different successors differ in their first edge
      intro earlier front later back inside
      obtain ⟨rest,_,rfl⟩ := mem_map.1 front
      obtain ⟨j,u,rest',_,_,rfl⟩ := mem_walkFrom.1 back
      have same := (cons_prefix_cons.1 inside).1
      omega

theorem ordered_walk (fuel s : Nat) : (g.walk fuel s).Pairwise fun earlier later => ¬ later <+: earlier := by
  induction fuel generalizing s with
  | zero => exact List.Pairwise.nil
  | succ fuel ih =>
    rw [walk, pairwise_cons]
    refine ⟨?_,ordered_walkFrom ih _ 0⟩
    intro later member inside
    obtain ⟨j,t,rest,_,_,rfl⟩ := mem_walkFrom.1 member
    cases prefix_nil.1 inside

theorem nodup_walk (fuel s : Nat) : (g.walk fuel s).Nodup := by
  refine (ordered_walk fuel s).imp ?_
  rintro earlier later apart rfl
  exact apart (prefix_refl _)

end

section

variable {g : Pipeline} {b : Nat}

theorem calls_traceFrom {trace : Nat → Nat → List Event} {walk : Nat → List (List Nat)} {s : Nat}
    (each : ∀ t r, (trace t r).filterMap Event.callee =
      (walk t).filterMap fun path => (g.follow t path).filter g.hasHandler) {ts : List Nat} {i : Nat}
    (place : ∀ j, (g.successors s)[i + j]? = ts[j]?) (r : Nat) : (traceFrom trace ts r).filterMap Event.callee =
      (walkFrom walk ts i).filterMap fun path => (g.follow s path).filter g.hasHandler := by
  induction ts generalizing i r with
  | nil => rfl
  | cons t ts ih =>
    have here : (g.successors s)[i]? = some t := place 0
    rw [traceFrom, walkFrom, filterMap_append, filterMap_append, each t r, filterMap_map,
      ih (i := i + 1) fun j => by rw [add_assoc, add_comm 1]; exact place (j + 1)]
    congr 2
    funext path
    rw [comp_apply, follow, here]

theorem calls_trace (fuel s r : Nat) : (g.trace b fuel s r).filterMap Event.callee =
    (g.walk fuel s).filterMap fun path => (g.follow s path).filter g.hasHandler := by
  induction fuel generalizing s r with
  | zero => rfl
  | succ fuel ih =>
    rw [trace, walk, filterMap_cons]
    cases here : g.stages[s]? with
    | none =>
      have handler : g.hasHandler s = false := by rw [hasHandler, here]
      have next : g.successors s = [] := by rw [successors, here]
      simp only [follow, Option.filter, handler, next, walkFrom, filterMap_nil]
      rfl
    | some slot =>
      have handler : g.hasHandler s = slot.handler := by rw [hasHandler, here]
      have next := successors_eq here
      have own : (completion b slot s r).filterMap Event.callee = if slot.handler then [s] else [] := by
        unfold completion
        simp only [filterMap_append]
        cases slot.handler <;> by_cases leaf : 0 < slot.successors.length <;> simp [leaf, Event.callee]
      simp only [filterMap_append, own, next]
      rw [calls_traceFrom ih (s := s) (i := 0) (fun j => by rw [zero_add, next])]
      have kept : (some s).filter g.hasHandler = if slot.handler then some s else none := by
        rw [← handler]
        rfl
      simp only [follow, kept]
      cases slot.handler <;> rfl

theorem held_trace {fuel s r : Nat} (held : 1 ≤ r) : ∀ t r', call t b r' ∈ g.trace b fuel s r → 1 ≤ r' := by
  induction fuel generalizing s r with
  | zero => exact fun t r' member => absurd member not_mem_nil
  | succ fuel ih =>
    intro t r' member
    unfold trace at member
    split at member
    · exact absurd member not_mem_nil
    · rename_i slot here
      have list : ∀ (ts : List Nat) (n : Nat), ts.length ≤ n →
          call t b r' ∈ traceFrom (g.trace b fuel) ts n → 1 ≤ r' := by
        intro ts
        induction ts with
        | nil => exact fun n _ member => absurd member not_mem_nil
        | cons u ts inner =>
          intro n enough member
          rw [length_cons] at enough
          rcases mem_append.1 member with first | later
          · exact ih (by omega) t r' first
          · exact inner (n - 1) (by omega) later
      rcases mem_append.1 member with own | later
      · have only : ∀ e ∈ completion b slot s r, e.callee = none ∨ e = .call s b r := by
          unfold completion
          simp only [forall_mem_append, forall_mem_singleton]
          refine ⟨⟨?_,?_⟩,.inl rfl⟩
          · split <;> simp
          · split <;> simp [Event.callee]
        rcases only _ own with none | same
        · cases none
        · cases same
          exact held
      · exact list _ _ (by omega) later

end

section

variable {g : Pipeline} {b : Nat} {p q : Store} {r : Nat}

/-- A handler was called on the block while nobody held it. -/
def Unheld (b : Nat) (p q : Store) : Prop := ∃ entries s, q.log = p.log ++ entries ∧ call s b 0 ∈ entries

/-- How `n` stage executions under `r` references can end: nothing wrapped, or a handler ran without a reference or
after a recycle others counted on. -/
structure Outcome (b : Nat) (p q : Store) (r n pending : Nat) : Prop where
  grows : p.log <+: q.log
  word : (q.block b).refcount < 4294967296
  ends : Unheld b p q ∨ (n ≤ r ∧ r - n + pending < 4294967296 ∧ (q.block b).refcount = r - n) ∨
    ((q.block b).refcount = 0 ∧ n < r)

theorem Unheld.later {q' : Store} (h : Unheld b p q) (more : q.log <+: q'.log) : Unheld b p q' := by
  obtain ⟨entries,s,log,member⟩ := h
  obtain ⟨rest,eq⟩ := more
  refine ⟨entries ++ rest,s,?_,mem_append_left _ member⟩
  rw [← eq, log, append_assoc]

theorem Unheld.earlier {p' : Store} (h : Unheld b p q) (less : p'.log <+: p.log) : Unheld b p' q := by
  obtain ⟨entries,s,log,member⟩ := h
  obtain ⟨rest,eq⟩ := less
  refine ⟨rest ++ entries,s,?_,mem_append_right _ member⟩
  rw [log, ← eq, append_assoc]

theorem foldlM_outcome {run : Nat → Store → Option Store} (peak : Nat → Nat) {ts : List Nat}
    (each : ∀ t ∈ ts, ∀ (p q : Store) r, (p.block b).refcount = r → r < 4294967296 → run t p = some q →
      Outcome b p q r 1 (peak t)) (refs : (p.block b).refcount = r) (word : r < 4294967296)
    (done : ts.foldlM (fun p t => run t p) p = some q) : Outcome b p q r ts.length (peakFrom peak ts) := by
  induction ts generalizing p r with
  | nil =>
    cases done
    refine ⟨prefix_refl _,refs ▸ word,.inr (.inl ⟨Nat.zero_le _,?_,refs⟩)⟩
    rw [length_nil, peakFrom]
    exact word
  | cons t ts ih =>
    rw [foldlM_cons] at done
    obtain ⟨m,first,rest⟩ := Option.bind_eq_some_iff.1 done
    obtain ⟨grows,word',ends⟩ := each t mem_cons_self p m r refs word first
    obtain ⟨grows',word'',ends'⟩ := ih (fun t member => each t (mem_cons_of_mem _ member)) rfl word' rest
    refine ⟨grows.trans grows',word'',?_⟩
    simp only [peakFrom, length_cons]
    rcases ends with unheld | ⟨held,fits,drop⟩ | ⟨gone,shared⟩
    · exact .inl (unheld.later grows')
    · rcases ends' with unheld | ⟨held',fits',drop'⟩ | ⟨gone',shared'⟩
      · exact .inl (unheld.earlier grows)
      · exact .inr (.inl ⟨by omega,by omega,by omega⟩)
      · exact .inr (.inr ⟨gone',by omega⟩)
    · -- what is left finds no reference
      rcases ends' with unheld | ⟨held',fits',drop'⟩ | ⟨gone',shared'⟩
      · exact .inl (unheld.earlier grows)
      · exact .inr (.inr ⟨by omega,by omega⟩)
      · omega

theorem Store.drop_refcount (p : Store) (b n : Nat) (entries : List Event) :
    ((p.drop b n entries).block b).refcount = n := by
  unfold Store.drop
  split
  · rename_i none
    simp only [Store.recycle, Store.setState, setBlock, enter, update_self, settle_refcount, none]
  · exact settle_refcount ..

theorem Store.drop_log (p : Store) (b n : Nat) (entries : List Event) :
    ∃ more, (p.drop b n entries).log = p.log ++ (entries ++ more) := by
  unfold Store.drop
  split
  · refine ⟨[.change b ((p.settle b 0 entries).block b).state .free, .recycle b],?_⟩
    rw [Store.recycle_log, ← append_assoc]
    rfl
  · refine ⟨[],?_⟩
    rw [append_nil]
    rfl

theorem prepare_wrapped (p : Store) (s : Nat) (slot : StageSlot) (handler : slot.handler = true)
    (refs : (p.block b).refcount = r) (word : r < 4294967296) :
    (let p := if slot.handler then p.enter (.call s b (p.block b).refcount) else p
      if 0 < slot.successors.length then p.addRef b slot.successors.length else p) =
    p.settle b (wrap32 (r + slot.successors.length))
      (.call s b r :: if 0 < slot.successors.length then [.addRef b slot.successors.length] else []) := by
  simp only [handler, if_true, refs, Store.enter_eq refs]
  split
  · have added : ∀ q : Store, (q.block b).refcount = r → q.addRef b slot.successors.length =
        q.settle b (wrap32 (r + slot.successors.length)) [.addRef b slot.successors.length] := by
      intro q refs
      simp only [Store.addRef, enter, settle, refs]
      rfl
    rw [added _ (settle_refcount ..), Store.settle_settle]
    rfl
  · rename_i none
    rw [show slot.successors.length = 0 by omega, add_zero, wrap32_of_lt word]

theorem unheld_of_call {entries more : List Event} {s r : Nat} (first : call s b r ∈ entries)
    (log : q.log = p.log ++ (entries ++ more)) (zero : r = 0) : Unheld b p q := by
  subst zero
  exact ⟨entries ++ more,s,log,mem_append_left _ first⟩

theorem Outcome.stage {m : Store} {entries : List Event} {s r n k pending : Nat}
    (h : Outcome b m q n k pending) (start : ∃ more, m.log = p.log ++ (entries ++ more))
    (first : call s b r ∈ entries) (word : r < 4294967296) (counted : k < 4294967296)
    (left : n = 0 ∧ wrap32 (r + k) = 0 ∨ n + 1 = wrap32 (r + k)) : Outcome b p q r 1 (max (k + 1) pending) := by
  obtain ⟨more,log⟩ := start
  obtain ⟨tail,eq⟩ := h.grows
  have small := wrap32_lt (r + k)
  have logged : q.log = p.log ++ (entries ++ (more ++ tail)) := by
    rw [← eq, log, append_assoc, append_assoc]
  refine ⟨⟨_,logged.symm⟩,h.word,?_⟩
  by_cases zero : r = 0
  · exact .inl (unheld_of_call first logged zero)
  · have wraps : wrap32 (r + k) = r + k ∨ wrap32 (r + k) + 4294967296 = r + k := by
      unfold wrap32
      omega
    rcases h.ends with unheld | ⟨held,fits,drop⟩ | ⟨gone,shared⟩
    · exact .inl (unheld.earlier ⟨_,log.symm⟩)
    · exact .inr (.inl ⟨by omega,by omega,by omega⟩)
    · exact .inr (.inr ⟨gone,by omega⟩)

theorem executeStage_outcome (acyclic : g.Acyclic) (handlers : ∀ slot ∈ g.stages, slot.handler = true)
    {fuel s r : Nat} (deep : g.rank s < fuel) (stage : s < g.stages.length)
    (refs : (p.block b).refcount = r) (word : r < 4294967296) (done : g.executeStage b fuel s p = some q) :
    Outcome b p q r 1 (g.peak fuel s) := by
  induction fuel generalizing s r p q with
  | zero => omega
  | succ fuel ih =>
    obtain ⟨slot,here⟩ : ∃ slot, g.stages[s]? = some slot := ⟨_,getElem?_eq_getElem stage⟩
    have member := mem_of_getElem? here
    have next := successors_eq here
    have counted := g.counted slot member
    have prepared := prepare_wrapped p s slot (handlers slot member) refs word
    simp only at prepared
    simp only [executeStage, here, prepared] at done
    generalize called : (call s b r :: if 0 < slot.successors.length then
      [Event.addRef b slot.successors.length] else []) = entries at done
    have first : call s b r ∈ entries := by
      rw [← called]
      exact mem_cons_self
    have list : ∀ (m : Store) (n : Nat), (m.block b).refcount = n → n < 4294967296 →
        slot.successors.foldlM (fun p t => g.executeStage b fuel t p) m = some q →
        Outcome b m q n slot.successors.length (peakFrom (g.peak fuel) slot.successors) := by
      intro m n refs word rest
      refine foldlM_outcome (g.peak fuel) ?_ refs word rest
      intro t inside p q r refs word done
      have edge : g.Edge s t := by
        rw [Edge, next]
        exact inside
      have lower := rank_lt acyclic edge
      exact ih (by omega) (successors_lt edge) refs word done
    have small := wrap32_lt (r + slot.successors.length)
    rw [peak, next]
    by_cases none : wrap32 (r + slot.successors.length) = 0
    · rw [none, Store.release_zero (settle_refcount ..)] at done
      refine (list _ 0 (settle_refcount ..) (by decide) done).stage ⟨[],?_⟩ first word counted (.inl ⟨rfl,none⟩)
      rw [append_nil]
      rfl
    · rw [Store.release_eq (settle_refcount ..) (by omega), Store.settle_drop] at done
      by_cases last : wrap32 (r + slot.successors.length) = 1
      · -- the last reference as the count has it: the successors do not run
        simp only [last, decide_true, if_true] at done
        cases done
        obtain ⟨more,log⟩ := Store.drop_log p b (1 - 1) (entries ++ [Event.release b 1])
        rw [append_assoc] at log
        refine ⟨⟨_,log.symm⟩,?_,?_⟩
        · rw [Store.drop_refcount]
          decide
        · by_cases zero : r = 0
          · exact .inl (unheld_of_call first log zero)
          · have wraps : r + slot.successors.length = 1 ∨ 4294967297 = r + slot.successors.length := by
              unfold wrap32 at last
              omega
            rcases wraps with leaf | wrapped
            · have empty : slot.successors = [] := length_eq_zero_iff.1 (by omega)
              refine .inr (.inl ⟨by omega,?_,?_⟩)
              · rw [empty, length_nil, peakFrom]
                omega
              · rw [Store.drop_refcount]
                omega
            · exact .inr (.inr ⟨Store.drop_refcount ..,by omega⟩)
      · simp only [last, decide_false, Bool.false_eq_true, if_false] at done
        rw [Store.drop, if_neg (by omega)] at done
        exact (list _ _ (settle_refcount ..) (by omega) done).stage ⟨_,rfl⟩ first word counted (.inr (by omega))

theorem executeStage_returns (acyclic : g.Acyclic) {fuel s : Nat} (deep : g.rank s < fuel) (p : Store) :
    ∃ q, g.executeStage b fuel s p = some q := by
  induction fuel generalizing s p with
  | zero => omega
  | succ fuel ih =>
    unfold executeStage
    split
    · exact ⟨_,rfl⟩
    · rename_i slot here
      have list : ∀ ts : List Nat, (∀ t ∈ ts, t ∈ slot.successors) → ∀ p,
          ∃ q, ts.foldlM (fun p t => g.executeStage b fuel t p) p = some q := by
        intro ts inside
        induction ts with
        | nil => exact fun p => ⟨p,rfl⟩
        | cons t ts inner =>
          intro p
          have edge : g.Edge s t := by
            rw [Edge, successors_eq here]
            exact inside t mem_cons_self
          have lower := rank_lt acyclic edge
          obtain ⟨m,first⟩ := ih (s := t) (by omega) p
          obtain ⟨q,rest⟩ := inner (fun u member => inside u (mem_cons_of_mem _ member)) m
          refine ⟨q,?_⟩
          rw [foldlM_cons, first]
          exact rest
      have ends : ∀ result : Bool × Store, ∃ q, (if result.1 = true then some result.2
          else slot.successors.foldlM (fun p t => g.executeStage b fuel t p) result.2) = some q := by
        intro result
        split
        · exact ⟨_,rfl⟩
        · exact list _ (fun _ member => member) _
      exact ends _

end

end Pipeline

section

variable {g : Pipeline}

/-- What a `Submit` of block `b` logs: the handlers at the ends of the paths from the entry stage, every path once and
after those it continues, while the block is held; and the block is recycled once, as the last entry. -/
structure Executes (g : Pipeline) (b : Nat) (entries : List Event) : Prop where
  paths : ∃ walk : List (List Nat), walk.Nodup ∧
    (∀ path, path ∈ walk ↔ (g.follow g.entryStage.toNat path).isSome = true) ∧
    (walk.Pairwise fun earlier later => ¬ later <+: earlier) ∧
    entries.filterMap Event.callee =
      walk.filterMap fun path => (g.follow g.entryStage.toNat path).filter g.hasHandler
  held : ∀ s r, call s b r ∈ entries → 1 ≤ r
  recycled : ∃ before, entries = before ++ [.recycle b] ∧ ∀ c, Event.recycle c ∉ before

/-- Every `Submit` of an allocated block with `consumer_count` 0 returns and executes the pipeline. -/
def ExecutesAlways (g : Pipeline) : Prop :=
  ∀ (p : Store) (cfg : Config) (b payloadSize now : Nat), (p.block b).state = .allocated →
    ∃ q entries, p.submit cfg g b payloadSize 0 now = some q ∧ q.log = p.log ++ entries ∧ Executes g b entries

/-- The stage references pending at once fit in the 32-bit count. -/
def PendingFits (g : Pipeline) : Prop := g.peak (g.stages.length + 1) g.entryStage.toNat < 4294967296

theorem executes_trace (acyclic : g.Acyclic) (b : Nat) (st : BlockState) :
    Executes g b (Event.change b st .ready :: (g.trace b (g.stages.length + 1) g.entryStage.toNat 1 ++
      [.change b .ready .free, .recycle b])) := by
  have deep : g.rank g.entryStage.toNat < g.stages.length + 1 := Nat.lt_succ_of_le (g.rank_le _)
  constructor
  case paths =>
    refine ⟨g.walk (g.stages.length + 1) g.entryStage.toNat,Pipeline.nodup_walk ..,?_,
      Pipeline.ordered_walk .., ?_⟩
    · exact fun path => Pipeline.mem_walk acyclic deep
    · rw [← Pipeline.calls_trace (b := b) _ _ 1, filterMap_cons, filterMap_append]
      exact append_nil _
  case held =>
    intro s r member
    rcases mem_cons.1 member with first | rest
    · cases first
    · rcases mem_append.1 rest with inside | last
      · exact Pipeline.held_trace (le_refl 1) s r inside
      · rcases mem_cons.1 last with change | recycle
        · cases change
        · cases mem_singleton.1 recycle
  case recycled =>
    refine ⟨.change b st .ready :: (g.trace b (g.stages.length + 1) g.entryStage.toNat 1 ++
      [.change b .ready .free]), ?_, ?_⟩
    · rw [cons_append, append_assoc]
      rfl
    · intro c member
      rcases mem_cons.1 member with first | rest
      · cases first
      · rcases mem_append.1 rest with inside | last
        · cases Pipeline.trace_inside _ inside
        · cases mem_singleton.1 last

section

variable (acyclic : g.Acyclic) (entry : 0 ≤ g.entryStage) (stage : g.entryStage.toNat < g.stages.length)
include acyclic entry stage

theorem executesAlways_of_fits (fits : PendingFits g) : ExecutesAlways g := by
  intro p cfg b payloadSize now _
  have one : initialRefcount g 0 = 1 := rfl
  unfold PendingFits at fits
  refine ⟨_,_,Store.submit_drop acyclic entry stage (by omega),?_,executes_trace acyclic b (p.block b).state⟩
  have ready : ∀ entries, (((p.makeReady cfg g b payloadSize 0 now).settle b 0 entries).block b).state = .ready := by
    intro entries
    rw [← Store.makeReady_state]
    simp only [settle, Store.setRefcount, setBlock, update_self]
    rfl
  rw [one, Store.drop, if_pos rfl, Store.recycle_log, ready]
  simp only [settle, Store.setRefcount, setBlock, Store.makeReady_log, append_assoc, cons_append, nil_append]

theorem fits_of_executesAlways (handlers : ∀ slot ∈ g.stages, slot.handler = true)
    (always : ExecutesAlways g) : PendingFits g := by
  have deep : g.rank g.entryStage.toNat < g.stages.length + 1 := Nat.lt_succ_of_le (g.rank_le _)
  have start : (((initStore 1).setState 0 .allocated).block 0).state = .allocated := rfl
  obtain ⟨q,entries,returned,log,executes⟩ := always _ ⟨0,0⟩ 0 0 0 start
  rw [Store.submit_eq entry stage] at returned
  have one : initialRefcount g 0 = 1 := rfl
  have outcome := Pipeline.executeStage_outcome acyclic handlers deep stage Store.makeReady_refcount
    (by rw [one]; decide) returned
  rw [one] at outcome
  rcases outcome.ends with ⟨more,s,eq,member⟩ | ⟨_,fits,_⟩ | ⟨_,shared⟩
  · rw [Store.makeReady_log, log, append_assoc] at eq
    have inside : call s 0 0 ∈ entries := by
      rw [append_cancel_left eq]
      exact mem_append_right _ member
    exact absurd (executes.held s 0 inside) (by decide)
  · unfold PendingFits
    omega
  · exact absurd shared (by decide)

end

/-- **Submitting a block executes every path of an acyclic graph once**, if the stage references pending at once
fit in 32 bits; where every stage has a handler, only then. -/
theorem submit_executes_iff (acyclic : g.Acyclic) (entry : 0 ≤ g.entryStage)
    (stage : g.entryStage.toNat < g.stages.length) : (PendingFits g → ExecutesAlways g) ∧
      ((∀ slot ∈ g.stages, slot.handler = true) → ExecutesAlways g → PendingFits g) :=
  ⟨executesAlways_of_fits acyclic entry stage, fits_of_executesAlways acyclic entry stage⟩

/-- A stage with two edges to the next, which has one edge on and one back past it. -/
def diamond : Pipeline where
  stages := [⟨true, [1, 1, 2]⟩, ⟨true, [2]⟩, ⟨true, []⟩]
  entryStage := 0
  valid := by decide
  counted := by decide

theorem diamond_acyclic : diamond.Acyclic := by
  apply Pipeline.acyclic_of_falling fun s => 2 - s
  intro s t edge
  match s, edge with
  | 0, edge =>
    have : t = 1 ∨ t = 1 ∨ t = 2 := by simpa [Pipeline.Edge, Pipeline.successors, diamond] using edge
    omega
  | 1, edge =>
    have : t = 2 := by simpa [Pipeline.Edge, Pipeline.successors, diamond] using edge
    omega
  | 2, edge => exact absurd edge not_mem_nil
  | s + 3, edge => exact absurd edge not_mem_nil

/-- The last stage is reached by three paths. -/
theorem submit_executes_diamond : diamond.Acyclic ∧ ExecutesAlways diamond ∧
    diamond.walk 4 0 = [[], [0], [0, 0], [1], [1, 0], [2]] :=
  ⟨diamond_acyclic, (submit_executes_iff diamond_acyclic (by decide) (by decide)).1
    (by unfold PendingFits; decide +kernel), by decide⟩

/-- As many parallel edges as a 32-bit count allows. -/
def wide : Pipeline where
  stages := [⟨true, List.replicate 4294967295 1⟩, ⟨true, []⟩]
  entryStage := 0
  valid := by
    intro slot member t edge
    rcases mem_cons.1 member with rfl | second
    · rw [eq_of_mem_replicate edge]
      exact Nat.lt_succ_self 1
    · rw [mem_singleton.1 second] at edge
      exact absurd edge not_mem_nil
  counted := by
    intro slot member
    rcases mem_cons.1 member with rfl | second
    · rw [length_replicate]
      decide
    · rw [mem_singleton.1 second, length_nil]
      decide

theorem wide_acyclic : wide.Acyclic := by
  apply Pipeline.acyclic_of_falling fun s => 1 - s
  intro s t edge
  match s, edge with
  | 0, edge =>
    have : t = 1 := eq_of_mem_replicate edge
    omega
  | 1, edge => exact absurd edge not_mem_nil
  | s + 2, edge => exact absurd edge not_mem_nil

/-- The references for the successors wrap to none, and a handler runs on a block that nobody holds. -/
theorem wide_runs_unheld : wide.Acyclic ∧ (∀ slot ∈ wide.stages, slot.handler = true) ∧
    ∀ (p : Store) (cfg : Config) (b payloadSize now : Nat), ∃ q s, p.submit cfg wide b payloadSize 0 now = some q ∧
      Event.call s b 0 ∈ q.log := by
  have entry : 0 ≤ wide.entryStage := Int.le_refl 0
  have stage : wide.entryStage.toNat < wide.stages.length := Nat.succ_pos 1
  have deep : wide.rank wide.entryStage.toNat < wide.stages.length + 1 := Nat.lt_succ_of_le (wide.rank_le _)
  have handlers : ∀ slot ∈ wide.stages, slot.handler = true := by
    intro slot member
    rcases mem_cons.1 member with rfl | second
    · rfl
    · rw [mem_singleton.1 second]
  have full : (wide.successors wide.entryStage.toNat).length = 4294967295 := length_replicate
  refine ⟨wide_acyclic,handlers,?_⟩
  intro p cfg b payloadSize now
  obtain ⟨q,returned⟩ := Pipeline.executeStage_returns (b := b) wide_acyclic deep
    (p.makeReady cfg wide b payloadSize 0 now)
  have one : initialRefcount wide 0 = 1 := rfl
  have outcome := Pipeline.executeStage_outcome wide_acyclic handlers deep stage Store.makeReady_refcount
    (by rw [one]; decide) returned
  rw [one] at outcome
  rcases outcome.ends with ⟨more,s,eq,member⟩ | ⟨_,fits,_⟩ | ⟨_,shared⟩
  · refine ⟨q,s,(Store.submit_eq entry stage).trans returned,?_⟩
    rw [eq]
    exact mem_append_right _ member
  · have large := Pipeline.successors_lt_peak (g := wide) wide.stages.length wide.entryStage.toNat
    rw [full] at large
    omega
  · exact absurd shared (by decide)

end

end Newosp.Dispatcher
