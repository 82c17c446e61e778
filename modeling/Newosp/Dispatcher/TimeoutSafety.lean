import Newosp.Dispatcher.TimeoutExecution

/-!
# When a scan may claim a block

The execution whose block a scan claims does not notice: its releases find no reference and do nothing. That is sound if
no stage is left that adds references and the block is not allocated again before the execution is over (`stays`).
-/

namespace Newosp.Dispatcher.Timeouts
open Lib Function List
open Option (some.inj)

variable {ι : Type} {spurious : Bool}

/-- The scan claims a block only while its execution has no stage with successors before it, a block is allocated only
when no thread executes it any more, and no addition of references wraps. -/
def stays (g : Pipeline) (s : State ι) : Act ι → Prop
  | .alloc _ => ∀ b free, s.free = b :: free → ∀ u, (s.exec u).works ≠ some b
  | .exec t _ => ∀ b u rest, s.exec t = .addRef b u rest → (s.block b).refcount + (g.successors u).length < 2 ^ 32
  | .scan t _ => ∀ kind i cur, s.scan t = .cas kind i cur → (s.block i).refcount = cur →
      ∀ u, (s.exec u).works = some i → Harmless g (s.exec u)
  | _ => True

instance (g : Pipeline) : DecidablePred (Harmless g)
  | .submitState _ | .addRef .. => inferInstanceAs (Decidable False)
  | .stage _ u rest | .handler _ u rest => inferInstanceAs (Decidable (∀ v ∈ u :: rest, g.successors v = []))
  | .releaseLoad _ u rest | .releaseCas _ u rest _ =>
    inferInstanceAs (Decidable (∀ v ∈ g.successors u ++ rest, g.successors v = []))
  | .idle | .allocState _ | .allocFields _ | .owner _ | .submitFields .. | .submitRefcount .. | .recycleState ..
  | .recyclePush .. => inferInstanceAs (Decidable True)

section

variable [DecidableEq ι] {g : Pipeline} {s s' : State ι} {t : ι} {maxBlocks i : Nat} {kind : Kind}

theorem scanOn_eq (s : State ι) (t : ι) (maxBlocks : Nat) (kind : Kind) (i : Nat) :
    ∃ pc, s.scanOn t maxBlocks kind i = s.scanTo t pc ∧ pc.claims = none ∧ pc.unset = 0 ∧ ScanOk pc := by
  unfold State.scanOn
  split
  · exact ⟨_,rfl,rfl,rfl,trivial⟩
  · exact ⟨_,rfl,rfl,rfl,trivial⟩

section

variable (h : Inv g s)
include h

theorem Inv.skip {old : ScanPC} (at_ : s.scan t = old) (calm : old.claims = none) (set : old.unset = 0) :
    Inv g (s.scanOn t maxBlocks kind i) := by
  obtain ⟨pc,eq,claims,unset,ok⟩ := scanOn_eq s t maxBlocks kind i
  rw [eq]
  exact h.scanQuiet at_ (claims.trans calm.symm) (unset.trans set.symm) ok

theorem Inv.claim (calm : (s.scan t).claims = none) (some_ : 0 < (s.block i).refcount)
    (harmless : ∀ u, (s.exec u).works = some i → Harmless g (s.exec u)) :
    Inv g (((s.setRefcount i 0).moveTo i (.claimed t)).scanTo t (.mark kind i)) := by
  obtain ⟨w,live⟩ := h.exists_live some_
  refine h.scanMove rfl ?others (.inl ⟨w,live⟩) (.inr ⟨rfl,rfl⟩) ?only harmless h.nodup
    (h.free_update (by rw [live]; exact nofun)) ?count ?number trivial
  case others =>
    intro c ne
    simp only [State.scanTo, State.moveTo, State.setRefcount, State.setBlock, update_of_ne ne, and_self]
  case only =>
    intro c claimed
    rw [(h.claims t c).2 claimed] at calm
    cases calm
  case count => simp only [State.scanTo, State.moveTo, State.setRefcount, State.setBlock, update_self]
  case number =>
    simp only [openOf, State.scanTo, update_self]
    exact h.number_at live

theorem Inv.claimed {pc : ScanPC} {new : Place ι} (holds : (s.scan t).claims = some i)
    {block : Nat → DataBlock} {free : List Nat} {recycled : Nat → Nat} {place : Nat → Place ι}
    (moves : place = update s.place i new) (others : ∀ c, c ≠ i → recycled c = s.recycled c)
    (refcounts : ∀ c, (block c).refcount = (s.block c).refcount)
    (now : new = .free ∧ pc.claims = none ∧ pc.unset = 0 ∨ new = .claimed t ∧ pc.claims = some i) (nodup : free.Nodup)
    (frees : ∀ c ∈ free, place c = .free)
    (number : recycled i + pc.unset = s.recycled i + (s.scan t).unset) (ok : ScanOk pc) :
    Inv g { s with block := block, free := free, recycled := recycled, scan := update s.scan t pc,
                   place := place } := by
  subst moves
  have old : s.place i = .claimed t := (h.claims t i).1 holds
  refine h.scanMove rfl (fun c ne => ⟨refcounts c,others c ne⟩) (.inr old)
    (now.imp_left fun now => ⟨now.1,now.2.1⟩) ?only ?harmless nodup frees ((refcounts i).trans (h.count_at old))
    ?number ok
  case only =>
    intro c claimed
    rw [(h.claims t c).2 claimed] at holds
    exact some.inj holds
  case harmless =>
    intro u working
    exact ((h.works u i working).resolve_left (by rw [old]; exact nofun)).1
  case number =>
    have before := h.number_at old
    rcases now with ⟨rfl,-,unset⟩ | ⟨rfl,-⟩
    all_goals
      simp only [openOf, update_self] at before ⊢
      omega

omit [DecidableEq ι] in
theorem Inv.unmoved (holds : (s.scan t).claims = some i) : s.place = update s.place i (.claimed t) := by
  rw [← (h.claims t i).1 holds, update_eq_self]

theorem Inv.scanStep (harmless : ∀ kind i cur, s.scan t = .cas kind i cur → (s.block i).refcount = cur →
      ∀ u, (s.exec u).works = some i → Harmless g (s.exec u))
    (step : scanNext maxBlocks t spurious s = some s') : Inv g s' := by
  have ok := h.scans t
  unfold scanNext at step
  cases at_ : s.scan t <;> simp only [at_, Option.some.injEq, reduceCtorEq] at step
  case loadState kind i | check kind i =>
    split at step
    · exact some.inj step ▸ h.scanQuiet at_ rfl rfl trivial
    · exact some.inj step ▸ h.skip at_ rfl rfl
  case loadCount kind i =>
    split at step
    · rename_i some_
      exact some.inj step ▸ h.scanQuiet at_ rfl rfl some_
    · exact some.inj step ▸ h.skip at_ rfl rfl
  case cas kind i cur =>
    rw [at_] at ok
    split at step
    · rename_i wins
      exact some.inj step ▸ h.claim (by rw [at_]; rfl) (wins.1 ▸ ok) (harmless kind i cur at_ wins.1)
    · split at step
      · rename_i some_
        exact some.inj step ▸ h.scanQuiet at_ rfl rfl some_
      · exact some.inj step ▸ h.skip at_ rfl rfl
  case mark kind i =>
    have holds : (s.scan t).claims = some i := by rw [at_]; rfl
    exact step ▸ h.claimed holds (h.unmoved holds) (fun _ _ => rfl) (setState_refcount kind.mark) (.inr ⟨rfl,rfl⟩)
      h.nodup h.free (by rw [at_]; rfl) trivial
  case recycleState kind i =>
    have holds : (s.scan t).claims = some i := by rw [at_]; rfl
    refine step ▸ h.claimed holds (h.unmoved holds) (fun c ne => update_of_ne ne ..) (setState_refcount .free)
      (.inr ⟨rfl,rfl⟩) h.nodup h.free ?_ trivial
    simp only [State.recycle, update_self, at_, ScanPC.unset]
  case recyclePush kind i =>
    have holds : (s.scan t).claims = some i := by rw [at_]; rfl
    have taken : s.place i ≠ .free := by rw [(h.claims t i).1 holds]; simp
    obtain ⟨pc,eq,claims,unset,fine⟩ := scanOn_eq (s.push i) t maxBlocks kind i
    rw [eq] at step
    refine step ▸ h.claimed holds rfl (fun _ _ => rfl) (fun _ => rfl) (.inl ⟨rfl,claims,unset⟩)
      (nodup_cons.2 ⟨h.not_mem_free taken,h.nodup⟩) (h.free_push taken) ?_ fine
    rw [unset, at_]
    rfl

end

end

section

variable [DecidableEq ι] {g : Pipeline} {maxBlocks : Nat} {s s' : State ι} {t : ι}

theorem inv_init : Inv g (machine (ι := ι) g maxBlocks).init where
  nodup := nodup_range
  free := fun _ _ => rfl
  fills := fun _ _ => ⟨nofun, nofun⟩
  recycles := fun _ _ => ⟨nofun, nofun⟩
  claims := fun _ _ => ⟨nofun, nofun⟩
  worker := fun _ _ => nofun
  works := fun _ _ => nofun
  count := fun _ => rfl
  extra := fun _ => nofun
  number := fun _ => rfl
  epoch := fun _ _ mine => by rcases mine with eq | eq | eq <;> cases eq
  execs := fun _ => trivial
  scans := fun _ => trivial

theorem Inv.step {a : Act ι} (h : Inv g s) (guard : stays g s a)
    (step : next g maxBlocks a s = some s') : Inv g s' := by
  cases a <;> simp only [next] at step
  case alloc t =>
    split at step
    · exact h.alloc guard step
    · cases step
  case submit t deadline consumerCount =>
    split at step
    · rename_i b _ at_
      have same : s.setBlock b (s.block b) = s := by simp only [State.setBlock, update_eq_self]
      have next := h.fill (.submitFields b deadline (initialRefcount g consumerCount)) at_ rfl rfl rfl initialRefcount_pos
      rw [same] at next
      exact some.inj step ▸ next
    · cases step
  case exec t spurious =>
    split at step
    · exact h.exec guard step
    · cases step
  case beginScan t kind =>
    split at step
    · rename_i at_
      split at step
      · exact some.inj step ▸ h.scanQuiet at_ rfl rfl trivial
      · cases step
    · cases step
  case scan t spurious => exact h.scanStep guard step

omit [DecidableEq ι] in
theorem eq_of_changed {b c : Nat} {blk : DataBlock} {β : Type} (f : DataBlock → β)
    (changed : f ((s.setBlock b blk).block c) ≠ f (s.block c)) : c = b := by
  by_contra ne
  exact changed (congrArg f (update_of_ne ne ..))

theorem proceed_block (s : State ι) (t : ι) (b : Nat) (work : List Nat) : (s.proceed t b work).block = s.block := by
  cases work with
  | nil => cases where_ : s.place b <;> simp only [State.proceed, where_] <;> rfl
  | cons u rest => rfl

theorem proceed_scan (s : State ι) (t : ι) (b : Nat) (work : List Nat) : (s.proceed t b work).scan = s.scan := by
  cases work with
  | nil => cases where_ : s.place b <;> simp only [State.proceed, where_] <;> rfl
  | cons u rest => rfl

/-- The block whose deadline the next step of a thread stores. -/
def ExecPC.dates : ExecPC → Option Nat
  | .allocFields b | .submitFields b _ _ => some b
  | _ => none

/-- A thread at `pc` may store into block `c`. -/
def Stores (g : Pipeline) (s : State ι) (pc : ExecPC) (c : Nat) : Prop :=
  pc.fills = some c ∨ (pc.works = some c ∧ ¬ Harmless g pc) ∨ (∃ u rest, pc = .releaseCas c u rest (s.block c).refcount) ∨
    ∃ rest, pc = .recycleState c rest

theorem execNext_stores (step : execNext g t spurious s = some s') : s'.scan = s.scan ∧
    (s'.block = s.block ∨ ∃ c blk, s'.block = (s.setBlock c blk).block ∧
      (blk.deadline = (s.block c).deadline ∨ (s.exec t).dates = some c) ∧ Stores g s (s.exec t) c) := by
  unfold execNext at step
  cases at_ : s.exec t <;> simp only [at_] at step
  case idle | owner => cases step
  case allocState | submitRefcount =>
    cases step
    exact ⟨rfl,.inr ⟨_,_,rfl,.inl rfl,.inl rfl⟩⟩
  case allocFields | submitFields =>
    cases step
    exact ⟨rfl,.inr ⟨_,_,rfl,.inr rfl,.inl rfl⟩⟩
  case submitState => split at step <;> cases step <;> exact ⟨rfl,.inr ⟨_,_,rfl,.inl rfl,.inr (.inl ⟨rfl,id⟩)⟩⟩
  case addRef =>
    cases step
    exact ⟨rfl,.inr ⟨_,_,rfl,.inl rfl,.inr (.inl ⟨rfl,id⟩)⟩⟩
  case stage =>
    split at step
    · cases step
      exact ⟨proceed_scan ..,.inl (proceed_block ..)⟩
    · repeat' split at step
      all_goals
        cases step
        exact ⟨rfl,.inl rfl⟩
  case handler => split at step <;> cases step <;> exact ⟨rfl,.inl rfl⟩
  case releaseLoad =>
    split at step <;> cases step
    · exact ⟨rfl,.inl rfl⟩
    · exact ⟨proceed_scan ..,.inl (proceed_block ..)⟩
  case releaseCas c u rest cur =>
    split at step
    · rename_i wins
      have drops : Stores g s (.releaseCas c u rest cur) c := .inr (.inr (.inl ⟨u,rest,by rw [wins.1]⟩))
      split at step <;> cases step
      · exact ⟨rfl,.inr ⟨_,_,rfl,.inl rfl,drops⟩⟩
      · exact ⟨proceed_scan ..,.inr ⟨_,_,proceed_block ..,.inl rfl,drops⟩⟩
    · split at step <;> cases step
      · exact ⟨rfl,.inl rfl⟩
      · exact ⟨proceed_scan ..,.inl (proceed_block ..)⟩
  case recycleState =>
    cases step
    exact ⟨rfl,.inr ⟨_,_,rfl,.inl rfl,.inr (.inr (.inr ⟨_,rfl⟩))⟩⟩
  case recyclePush =>
    cases step
    exact ⟨proceed_scan ..,.inl (proceed_block ..)⟩

def facts (blk : DataBlock) : Nat × BlockState := (blk.refcount, blk.state)

theorem Inv.owns {b : Nat} (h : Inv g s)
    (step : execNext g t spurious s = some s') (changed : facts (s'.block b) ≠ facts (s.block b)) :
    (s.place b).mine t ∧ openOf s (s.place b) = 1 := by
  obtain ⟨_,same | ⟨c,blk,eq,_,stores⟩⟩ := execNext_stores step
  · exact absurd (congrArg facts (congrFun same b)) changed
  · rw [eq] at changed
    rw [eq_of_changed facts changed]
    have lives : s.place c = .live (some t) → (s.place c).mine t ∧ openOf s (s.place c) = 1 := by
      intro live
      rw [live]
      exact ⟨.inr (.inl rfl),rfl⟩
    rcases stores with filling | ⟨working,busy⟩ | ⟨u,rest,at_⟩ | ⟨rest,at_⟩
    · rw [(h.fills t c).1 filling]
      exact ⟨.inl rfl,rfl⟩
    · exact lives (h.live_of_not_harmless rfl working busy)
    · have ok := h.execs t
      rw [at_] at ok
      exact lives (h.live_of_count at_ rfl ok.1)
    · have dropped : s.place c = .dropped t := (h.recycles t c).1 (by rw [at_]; rfl)
      rw [dropped]
      simp only [openOf, at_]
      exact ⟨.inr (.inr rfl),rfl⟩

/-- **Recycled once**: in every such run a block is recycled at most once for each allocation, and a thread changes
its count or state only until its own allocation (number `epoch`) is recycled. -/
theorem recycled_once (reached : Reach (machine g maxBlocks) (stays g) s) :
    (∀ b, s.recycled b ≤ s.allocs b ∧ s.allocs b ≤ s.recycled b + 1) ∧
    ∀ t spurious s', next g maxBlocks (.exec t spurious) s = some s' → ∀ b,
      (s'.block b).refcount ≠ (s.block b).refcount ∨ (s'.block b).state ≠ (s.block b).state →
      (s.exec t).about b ∧ s.recycled b < s.epoch t := by
  have inv : Inv g s := by
    apply reached.invariant inv_init
    intro s s' a _ inv guard step
    exact inv.step guard step
  constructor
  · intro b
    have number := inv.number b
    have most := openOf_le s (s.place b)
    omega
  · intro t spurious s' step b changed
    simp only [next] at step
    split at step
    · have differ : facts (s'.block b) ≠ facts (s.block b) := by
        intro same
        rcases changed with count | state
        · exact count (congrArg Prod.fst same)
        · exact state (congrArg Prod.snd same)
      obtain ⟨mine,isOpen⟩ := inv.owns step differ
      have number := inv.number b
      have epoch := inv.epoch t b mine
      exact ⟨inv.names mine,by omega⟩
    · cases step

def staysCheck [Fintype ι] (g : Pipeline) (s : State ι) : Act ι → Bool
  | .alloc _ => match s.free with
    | b :: _ => decide (∀ u, (s.exec u).works ≠ some b)
    | [] => true
  | .exec t _ => match s.exec t with
    | .addRef b u _ => decide ((s.block b).refcount + (g.successors u).length < 2 ^ 32)
    | _ => true
  | .scan t _ => match s.scan t with
    | .cas _ i cur => decide ((s.block i).refcount = cur → ∀ u, (s.exec u).works = some i → Harmless g (s.exec u))
    | _ => true
  | _ => true

omit [DecidableEq ι] in
theorem stays_of_check [Fintype ι] (s : State ι) (a : Act ι) (passes : staysCheck g s a = true) : stays g s a := by
  cases a with
  | alloc t =>
    intro b free list
    simp only [staysCheck, list] at passes
    exact of_decide_eq_true passes
  | exec t spurious =>
    intro b u rest at_
    simp only [staysCheck, at_] at passes
    exact of_decide_eq_true passes
  | scan t spurious =>
    intro kind i cur at_
    simp only [staysCheck, at_] at passes
    exact of_decide_eq_true passes
  | _ => trivial

def chain : Pipeline where
  stages := [⟨true, [1]⟩, ⟨true, []⟩]
  entryStage := 0
  valid := by decide
  counted := by decide

def enter (t : ι) : List (Act ι) :=
  [.alloc t] ++ replicate 2 (.exec t false) ++ [.submit t 0 0] ++ replicate 4 (.exec t false)

def cleanup (t : ι) : List (Act ι) := [.beginScan t (.cleanup fun _ => true)] ++ replicate 7 (.scan t false)

/-- Another thread cleans up during the handler of the last stage; the execution ends without a further change, and
the block is allocated again. -/
theorem recycled_once_leaf : ∃ s : State Bool, Reach (machine chain 1) (stays chain) s ∧
    s.allocs 0 = 2 ∧ s.recycled 0 = 1 ∧ ∀ b, s.recycled b ≤ s.allocs b ∧ s.allocs b ≤ s.recycled b + 1 := by
  obtain ⟨s,reached,allocs,recycled⟩ := reach_of_run (machine chain 1) (g := staysCheck chain) stays_of_check
      (enter false ++ replicate 5 (.exec false false) ++ cleanup true ++ replicate 2 (.exec false false) ++
        [.alloc false])
      (fun s => s.allocs 0 = 2 ∧ s.recycled 0 = 1) (by decide +kernel)
  exact ⟨s,reached,allocs,recycled,(recycled_once reached).1⟩

/-- The handler of the entry stage cleans up: the stage then adds a reference to the recycled block and drops it,
which recycles the block a second time. -/
theorem cleanup_recycles_twice : (∃ s s' : State Unit, Reach (machine chain 1) anyStep s ∧ s.recycled 0 = s.epoch () ∧
      next chain 1 (.exec () false) s = some s' ∧ (s.block 0).refcount = 0 ∧ (s'.block 0).refcount = 1) ∧
    ∃ s : State Unit, Reach (machine chain 1) anyStep s ∧ s.allocs 0 = 1 ∧ s.recycled 0 = 2 := by
  constructor
  · obtain ⟨s,reached,late,before,after⟩ := reach_of_schedule (machine chain 1)
      (enter () ++ cleanup () ++ [.exec () false])
      (fun s => s.recycled 0 = s.epoch () ∧ (s.block 0).refcount = 0 ∧
        (next chain 1 (.exec () false) s).map (fun s' => (s'.block 0).refcount) = some 1) (by decide +kernel)
    obtain ⟨s',step,count⟩ := Option.map_eq_some_iff.1 after
    exact ⟨s,s',reached,late,step,before,count⟩
  · exact reach_of_schedule (machine chain 1) (enter () ++ cleanup () ++ replicate 5 (.exec () false))
      (fun s => s.allocs 0 = 1 ∧ s.recycled 0 = 2) (by decide +kernel)

end

end Newosp.Dispatcher.Timeouts
