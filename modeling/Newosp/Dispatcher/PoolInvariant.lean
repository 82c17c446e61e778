import Newosp.Dispatcher.PipelineRuns
import Newosp.Lib.Machine

/-!
# The representation invariant of the block pool

`Core`: the list threaded through the blocks holds exactly the free ones, and the counters are its length and the rest.
`Inv` adds what holds between calls, when every block is free, being filled or ready.
-/

namespace Newosp.Dispatcher
open Lib List Function
open Event (change)
open Store (recycle_block setRefcount)

/-- The free list is `free`; every change of state logged so far is allowed. -/
structure Core (maxBlocks : Nat) (p : Store) (free : List Nat) : Prop where
  linked : Linked p.next jobInvalidIndex (jobHeadIndex p.freeHead) free
  mem : ∀ i, i ∈ free ↔ i < maxBlocks ∧ (p.block i).state = .free
  unheld : ∀ i ∈ free, (p.block i).refcount = 0
  freeCount : p.freeCount = free.length
  allocCount : p.allocCount + free.length = maxBlocks
  changes : ∀ b old new, change b old new ∈ p.log → blockStateTransition old new = true

structure Inv (maxBlocks : Nat) (p : Store) (free : List Nat) : Prop extends Core maxBlocks p free where
  states : ∀ i < maxBlocks, (p.block i).state = .free ∨ (p.block i).state = .allocated ∨
    (p.block i).state = .ready
  filling : ∀ i < maxBlocks, (p.block i).state = .allocated → (p.block i).refcount = 0

variable {maxBlocks b : Nat} {p : Store} {free : List Nat} {entries : List Event}

section

variable {blk : DataBlock}

section

variable (h : Core maxBlocks p free)
include h

section

variable (busy : (p.block b).state ≠ .free)
include busy

theorem Core.notMem : b ∉ free := fun member => busy ((h.mem b).1 member).2

theorem Core.setBlock (still : blk.state ≠ .free) : Core maxBlocks (p.setBlock b blk) free := by
  have new := h.notMem busy
  have frame : ∀ i, i ≠ b → (p.setBlock b blk).block i = p.block i := fun i ne => update_of_ne ne ..
  have other : ∀ i ∈ free, i ≠ b := by
    rintro i member rfl
    exact new member
  refine ⟨?_,?_,?_,h.freeCount,h.allocCount,h.changes⟩
  · apply h.linked.congr
    intro i member
    rw [Store.next, frame i (other i member)]
    rfl
  · intro i
    by_cases same : i = b
    · subst same
      have here : (p.setBlock i blk).block i = blk := update_self ..
      rw [here]
      exact ⟨fun member => absurd member new,fun claim => absurd claim.2 still⟩
    · rw [frame i same]
      exact h.mem i
  · intro i member
    rw [frame i (other i member)]
    exact h.unheld i member

theorem Core.setRefcount (n : Nat) : Core maxBlocks (p.setRefcount b n) free := h.setBlock busy busy

end

theorem Core.enter (fine : ∀ b old new, change b old new ∈ entries → blockStateTransition old new = true) :
    Core maxBlocks { p with log := p.log ++ entries } free := by
  refine { h with changes := ?_ }
  intro b old new member
  rcases mem_append.1 member with before | added
  · exact h.changes b old new before
  · exact fine b old new added

theorem Core.setState {st : BlockState} (busy : (p.block b).state ≠ .free) (still : st ≠ .free)
    (allowed : blockStateTransition (p.block b).state st = true) : Core maxBlocks (p.setState b st) free := by
  have stored : Core maxBlocks (p.setBlock b { p.block b with state := st }) free := h.setBlock busy still
  apply stored.enter
  intro b' old new member
  obtain ⟨_,rfl,rfl⟩ := change.inj (mem_singleton.1 member)
  exact allowed

theorem Core.recycle (small : maxBlocks < jobInvalidIndex) (inside : b < maxBlocks) (busy : (p.block b).state ≠ .free)
    (unheld : (p.block b).refcount = 0) (allowed : blockStateTransition (p.block b).state .free = true) :
    Core maxBlocks (p.recycle b) (b :: free) := by
  have new := h.notMem busy
  have word : jobInvalidIndex = 4294967295 := rfl
  have frame : ∀ i, i ≠ b → (p.recycle b).block i = p.block i := by
    intro i ne
    rw [recycle_block, update_of_ne ne]
  have here : (p.recycle b).block b =
      { p.block b with state := .free, nextFree := jobHeadIndex p.freeHead } := by
    rw [recycle_block, update_self]
  have length : free.length < maxBlocks := by
    have subset : (b :: free).toFinset ⊆ Finset.range maxBlocks := by
      intro i member
      rw [mem_toFinset] at member
      rw [Finset.mem_range]
      rcases mem_cons.1 member with rfl | old
      · exact inside
      · exact ((h.mem i).1 old).1
    have card := Finset.card_le_card subset
    rwa [toFinset_card_of_nodup (nodup_cons.2 ⟨new,h.linked.nodup⟩), Finset.card_range] at card
  have counts := h.allocCount
  constructor
  case linked =>
    have head : jobHeadIndex (p.recycle b).freeHead = b := jobHeadIndex_pack (by omega)
    rw [head]
    apply h.linked.push new (by omega)
    · rw [Store.next, here]
    · intro i ne
      rw [Store.next, frame i ne]
      rfl
  case mem =>
    intro i
    by_cases same : i = b
    · subst same
      rw [here]
      exact ⟨fun _ => ⟨inside,rfl⟩,fun _ => mem_cons_self⟩
    · rw [frame i same, mem_cons, h.mem i]
      exact ⟨fun found => found.resolve_left same,.inr⟩
  case unheld =>
    intro i member
    by_cases same : i = b
    · subst same
      rw [here]
      exact unheld
    · rw [frame i same]
      exact h.unheld i ((mem_cons.1 member).resolve_left same)
  case freeCount =>
    have count : (p.recycle b).freeCount = wrap32 (p.freeCount + 1) := rfl
    rw [count, h.freeCount, wrap32_of_lt (by omega), length_cons]
  case allocCount =>
    have count : (p.recycle b).allocCount = sub32 p.allocCount 1 := rfl
    rw [count, sub32_of_le (by omega) (by omega), length_cons]
    omega
  case changes =>
    intro b' old new' member
    rw [Store.recycle_log, mem_append] at member
    rcases member with before | added
    · exact h.changes b' old new' before
    · rcases mem_cons.1 added with this | none
      · obtain ⟨_,rfl,rfl⟩ := change.inj this
        exact allowed
      · cases mem_singleton.1 none

end

theorem Core.pop (h : Core maxBlocks p (b :: free)) (small : maxBlocks < jobInvalidIndex) {tag : Nat}
    (state : blk.state = .allocated) :
    Core maxBlocks
      ({ p with freeHead := jobPackHead (p.next b) tag, freeCount := sub32 p.freeCount 1,
                allocCount := wrap32 (p.allocCount + 1), log := p.log ++ [change b .free .allocated] }.setBlock
        b blk) free := by
  obtain ⟨_,_,rest⟩ := h.linked
  have new : b ∉ free := (nodup_cons.1 h.linked.nodup).1
  have word : jobInvalidIndex = 4294967295 := rfl
  have other : ∀ i ∈ free, i ≠ b := by
    rintro i member rfl
    exact new member
  have counts := h.allocCount
  have count := h.freeCount
  rw [length_cons] at counts count
  constructor
  case linked =>
    have index : p.next b < 4294967296 := by
      cases free with
      | nil =>
        rw [linked_nil.1 rest, word]
        decide
      | cons i free =>
        have inside := ((h.mem i).1 (mem_cons_of_mem _ mem_cons_self)).1
        rw [rest.1]
        omega
    have head : jobHeadIndex (jobPackHead (p.next b) tag) = p.next b := jobHeadIndex_pack index
    simp only [Store.setBlock, head]
    apply rest.congr
    intro i member
    simp only [Store.next, update_of_ne (other i member)]
  case mem =>
    intro i
    by_cases same : i = b
    · subst same
      simp only [Store.setBlock, update_self, state]
      exact ⟨fun member => absurd member new,fun claim => absurd claim.2 (by decide)⟩
    · simp only [Store.setBlock, update_of_ne same]
      rw [← h.mem i, mem_cons]
      exact ⟨.inr,fun found => found.resolve_left same⟩
  case unheld =>
    intro i member
    simp only [Store.setBlock, update_of_ne (other i member)]
    exact h.unheld i (mem_cons_of_mem _ member)
  case freeCount =>
    simp only [Store.setBlock]
    rw [sub32_of_le (by omega) (by omega)]
    omega
  case allocCount =>
    simp only [Store.setBlock]
    rw [wrap32_of_lt (by omega)]
    omega
  case changes =>
    intro b' old new' member
    rcases mem_append.1 member with before | added
    · exact h.changes b' old new' before
    · obtain ⟨_,rfl,rfl⟩ := change.inj (mem_singleton.1 added)
      rfl

end

section

theorem Inv.of_core {free' : List Nat} (h : Inv maxBlocks p free) (core : Core maxBlocks q free')
    (same : ∀ i, i ≠ b → q.block i = p.block i)
    (settled : (q.block b).state = .free ∨ (q.block b).state = .allocated ∧ (q.block b).refcount = 0 ∨
      (q.block b).state = .ready) : Inv maxBlocks q free' := by
  refine { core with states := ?_, filling := ?_ }
  · intro i inside
    by_cases eq : i = b
    · subst eq
      exact settled.imp_right (.imp_left And.left)
    · rw [same i eq]
      exact h.states i inside
  · intro i inside
    by_cases eq : i = b
    · subst eq
      rcases settled with isFree | filling | ready
      · rw [isFree]
        exact nofun
      · exact fun _ => filling.2
      · rw [ready]
        exact nofun
    · rw [same i eq]
      exact h.filling i inside

theorem Store.alloc_eq (cfg : Config) (now : Nat) (reported : p.report cfg = q)
    (some_ : jobHeadIndex q.freeHead ≠ jobInvalidIndex) :
    ∃ tag blk, blk.state = .allocated ∧ blk.refcount = 0 ∧ (p.alloc cfg now).2 =
      { q with
        freeHead := jobPackHead (q.next (jobHeadIndex q.freeHead)) tag
        freeCount := sub32 q.freeCount 1
        allocCount := wrap32 (q.allocCount + 1)
        log := q.log ++ [change (jobHeadIndex q.freeHead) (q.block (jobHeadIndex q.freeHead)).state
          .allocated] }.setBlock (jobHeadIndex q.freeHead) blk := by
  refine ⟨wrap32 (jobHeadTag q.freeHead + 1),{ q.block (jobHeadIndex q.freeHead) with
    state := .allocated
    reserved := if wrap32 (jobHeadTag q.freeHead + 1) = 0 then 1 else wrap32 (jobHeadTag q.freeHead + 1)
    allocTime := now
    payloadSize := 0
    faultId := 0
    deadline := 0
    refcount := 0 }, rfl, rfl, ?_⟩
  simp only [Store.alloc, reported, if_neg some_, Store.setState, Store.setBlock, Store.enter,
    update_self, update_idem]

variable {payloadSize consumerCount now : Nat} {st : BlockState} (h : Inv maxBlocks p free) {q : Store}
include h

theorem Inv.ready (inside : b < maxBlocks) (held : 0 < (p.block b).refcount) : (p.block b).state = .ready := by
  rcases h.states b inside with isFree | filling | ready
  · have := h.unheld b ((h.mem b).2 ⟨inside,isFree⟩)
    omega
  · have := h.filling b inside filling
    omega
  · exact ready

theorem Inv.addRef (inside : b < maxBlocks) (held : 0 < (p.block b).refcount) (count : Nat) :
    Inv maxBlocks (p.addRef b count) free := by
  have ready := h.ready inside held
  have state : ((p.addRef b count).block b).state = .ready := by
    rw [← ready]
    simp only [Store.addRef, Store.enter, setRefcount, Store.setBlock, update_self]
  refine h.of_core ?_ (fun i ne => update_of_ne ne ..) (.inr (.inr state))
  apply (h.toCore.setRefcount (by rw [ready]; decide) _).enter
  intro b' old new member
  cases mem_singleton.1 member

theorem Inv.report (cfg : Config) : Inv maxBlocks (p.report cfg) free := by
  unfold Store.report
  split
  · exact ⟨⟨h.linked,h.mem,h.unheld,h.freeCount,h.allocCount,h.changes⟩,h.states,h.filling⟩
  · exact h

theorem Inv.makeReady (filled : (p.block b).state = .allocated) :
    Inv maxBlocks (p.makeReady cfg g b payloadSize consumerCount now) free := by
  have core : Core maxBlocks (p.makeReady cfg g b payloadSize consumerCount now) free := by
    unfold Store.makeReady
    apply Core.setState
    · apply h.toCore.setBlock
      · rw [filled]
        decide
      · rw [filled]
        decide
    · simp only [Store.setBlock, update_self, filled]
      decide
    · decide
    · simp only [Store.setBlock, update_self, filled]
      rfl
  exact h.of_core core (fun i ne => Store.makeReady_of_ne ne) (.inr (.inr Store.makeReady_state))

variable (small : maxBlocks < jobInvalidIndex) {cfg : Config} {g : Pipeline}
include small

theorem Inv.recycled (core : Core maxBlocks q free) (same : ∀ i, i ≠ b → q.block i = p.block i)
    (inside : b < maxBlocks) (busy : (q.block b).state ≠ .free) (unheld : (q.block b).refcount = 0)
    (allowed : blockStateTransition (q.block b).state .free = true) : ∃ free', Inv maxBlocks (q.recycle b) free' := by
  refine ⟨b :: free,h.of_core (core.recycle small inside busy unheld allowed) (b := b) ?_ ?_⟩
  · intro i ne
    rw [recycle_block, update_of_ne ne, same i ne]
  · rw [recycle_block, update_self]
    exact .inl rfl

theorem Inv.drop (inside : b < maxBlocks) (ready : (p.block b).state = .ready) {n : Nat}
    (quiet : ∀ e ∈ entries, e.inside = true) : ∃ free', Inv maxBlocks (p.drop b n entries) free' := by
  have settled : ∀ m, Core maxBlocks (p.settle b m entries) free := by
    intro m
    apply (h.toCore.setRefcount (by rw [ready]; decide) m).enter
    intro b' old new member
    cases quiet _ member
  have frame : ∀ m i, i ≠ b → (p.settle b m entries).block i = p.block i := by
    intro m i ne
    exact update_of_ne ne ..
  have state : ∀ m, ((p.settle b m entries).block b).state = .ready := by
    intro m
    rw [← ready]
    simp only [Store.settle, setRefcount, Store.setBlock, update_self]
  unfold Store.drop
  split
  · exact h.recycled small (settled 0) (frame 0) inside (by rw [state]; decide) (Store.settle_refcount ..)
      (by rw [state]; rfl)
  · exact ⟨free,h.of_core (settled n) (frame n) (.inr (.inr (state n)))⟩

theorem Inv.release (inside : b < maxBlocks) (held : 0 < (p.block b).refcount) :
    ∃ free', Inv maxBlocks (p.release b).2 free' := by
  rw [Store.release_eq rfl held]
  apply h.drop small inside (h.ready inside held)
  intro e member
  rw [mem_singleton.1 member]
  rfl

theorem Inv.alloc (cfg : Config) (now : Nat) : ∃ free', Inv maxBlocks (p.alloc cfg now).2 free' := by
  have h := h.report cfg
  by_cases exhausted : jobHeadIndex (p.report cfg).freeHead = jobInvalidIndex
  · have unchanged : (p.alloc cfg now).2 = p.report cfg := by
      simp only [Store.alloc, exhausted, if_true]
    rw [unchanged]
    exact ⟨free,h⟩
  · obtain ⟨tag,blk,state,unheld,eq⟩ := Store.alloc_eq cfg now rfl exhausted
    have linked := h.linked
    cases free with
    | nil => exact absurd (linked_nil.1 linked) exhausted
    | cons b free =>
      have head : jobHeadIndex (p.report cfg).freeHead = b := linked.1
      have isFree := ((h.mem b).1 mem_cons_self).2
      rw [eq, head, isFree]
      refine ⟨free,h.of_core (h.toCore.pop small state) (fun i ne => update_of_ne ne ..) (.inr (.inl ?_))⟩
      simp only [Store.setBlock, update_self]
      exact ⟨state,unheld⟩

theorem Inv.reclaim (inside : b < maxBlocks) (due : Nat → DataBlock → Bool)
    (from_ready : blockStateTransition .ready st = true) (to_free : blockStateTransition st .free = true)
    (busy : st ≠ .free) : ∃ free', Inv maxBlocks (p.reclaim due st b).2 free' := by
  unfold Store.reclaim
  simp only
  split
  · rename_i claimed
    have ready := h.ready inside claimed.2.2
    have unclaimed := h.toCore.setRefcount (b := b) (by rw [ready]; decide) 0
    have state : ((p.setRefcount b 0).block b).state = .ready := by
      rw [← ready]
      simp only [setRefcount, Store.setBlock, update_self]
    have marked : Core maxBlocks ((p.setRefcount b 0).setState b st) free :=
      unclaimed.setState (by rw [state]; decide) busy (by rw [state]; exact from_ready)
    have block : ((p.setRefcount b 0).setState b st).block =
        update p.block b { p.block b with refcount := 0, state := st } := by
      simp only [Store.setState, Store.enter, setRefcount, Store.setBlock, update_self,
        update_idem]
    refine h.recycled small marked ?_ inside (by rw [block, update_self]; exact busy)
      (by rw [block, update_self]) (by rw [block, update_self]; exact to_free)
    intro i ne
    rw [block, update_of_ne ne]
  · exact ⟨free,h⟩

theorem Inv.sweep {due : Nat → DataBlock → Bool}
    (from_ready : blockStateTransition .ready st = true) (to_free : blockStateTransition st .free = true)
    (busy : st ≠ .free) {is : List Nat} (inside : ∀ i ∈ is, i < maxBlocks) :
    ∃ free', Inv maxBlocks (Store.sweep due st is p).2 free' := by
  induction is generalizing p free with
  | nil => exact ⟨free,h⟩
  | cons i is ih =>
    obtain ⟨free',kept⟩ := h.reclaim small (inside i mem_cons_self) due from_ready to_free busy
    exact ih kept fun j member => inside j (mem_cons_of_mem _ member)

theorem Inv.submit (acyclic : g.Acyclic) (inside : b < maxBlocks) (filled : (p.block b).state = .allocated)
    (fits : initialRefcount g consumerCount + g.peak (g.stages.length + 1) g.entryStage.toNat ≤ 4294967296) :
    ∃ q free', p.submit cfg g b payloadSize consumerCount now = some q ∧ Inv maxBlocks q free' := by
  have ready : Inv maxBlocks (p.makeReady cfg g b payloadSize consumerCount now) free := h.makeReady filled
  by_cases none : g.entryStage < 0 ∨ g.stages.length ≤ g.entryStage.toNat
  · refine ⟨_,free,?_,ready⟩
    rw [Store.submit, Pipeline.execute, if_pos none]
    rfl
  · obtain ⟨free',kept⟩ := ready.drop small inside Store.makeReady_state Pipeline.trace_inside
    exact ⟨_,free',Store.submit_drop acyclic (by omega) (by omega) fits,kept⟩

end

section

inductive Call
  | alloc (now : Nat)
  | submit (block payloadSize consumerCount now : Nat)
  | release (block : Nat)
  | addRef (block count : Nat)
  | scanTimeout (now : Nat)
  | forceCleanup (predicate : Option (Nat → Bool))

def pool (maxBlocks : Nat) (cfg : Config) (g : Pipeline) : Machine Store Call where
  init := initStore maxBlocks
  next
    | .alloc now, p => some (p.alloc cfg now).2
    | .submit b payloadSize consumerCount now, p => p.submit cfg g b payloadSize consumerCount now
    | .release b, p => some (p.release b).2
    | .addRef b count, p => some (p.addRef b count)
    | .scanTimeout now, p => some (p.scanTimeout maxBlocks now).2
    | .forceCleanup predicate, p => some (p.forceCleanup maxBlocks predicate).2

/-- What a caller owes: a block is submitted when it was allocated, and counted when somebody holds it. -/
def Proper (maxBlocks : Nat) (p : Store) : Call → Prop
  | .submit b _ consumerCount _ => b < maxBlocks ∧ (p.block b).state = .allocated ∧ consumerCount < 4294967296
  | .release b => b < maxBlocks ∧ 1 ≤ (p.block b).refcount
  | .addRef b count => b < maxBlocks ∧ 1 ≤ (p.block b).refcount ∧ count < 4294967296
  | _ => True

/-- The references given to `Submit` and those its stages hold at once fit in 32 bits. -/
def Fits (g : Pipeline) : Call → Prop
  | .submit _ _ consumerCount _ =>
    initialRefcount g consumerCount + g.peak (g.stages.length + 1) g.entryStage.toNat ≤ 4294967296
  | _ => True

instance (maxBlocks : Nat) (p : Store) : (a : Call) → Decidable (Proper maxBlocks p a)
  | .submit .. => inferInstanceAs (Decidable (_ ∧ _ ∧ _))
  | .release _ => inferInstanceAs (Decidable (_ ∧ _))
  | .addRef .. => inferInstanceAs (Decidable (_ ∧ _ ∧ _))
  | .alloc _ | .scanTimeout _ | .forceCleanup _ => inferInstanceAs (Decidable True)

instance (g : Pipeline) : (a : Call) → Decidable (Fits g a)
  | .submit .. => inferInstanceAs (Decidable (_ ≤ _))
  | .alloc _ | .release _ | .addRef .. | .scanTimeout _ | .forceCleanup _ => inferInstanceAs (Decidable True)

/-- The free list visits each free block once and no other, the counters are right, and every change of state
so far is allowed. -/
def Represents (maxBlocks : Nat) (p : Store) : Prop :=
  ∃ free, Linked p.next jobInvalidIndex (jobHeadIndex p.freeHead) free ∧ free.Nodup ∧
    (∀ i, i ∈ free ↔ i < maxBlocks ∧ (p.block i).state = .free ∧ (p.block i).refcount = 0) ∧
    p.freeCount = free.length ∧ p.allocCount = maxBlocks - free.length ∧
    ∀ b old new, change b old new ∈ p.log → blockStateTransition old new = true

variable {cfg : Config} {g : Pipeline} {q : Store}

theorem Inv.represents (h : Inv maxBlocks p free) : Represents maxBlocks p := by
  have count := h.allocCount
  refine ⟨free,h.linked,h.linked.nodup,?_,h.freeCount,by omega,h.changes⟩
  intro i
  constructor
  · intro member
    obtain ⟨inside,isFree⟩ := (h.mem i).1 member
    exact ⟨inside,isFree,h.unheld i member⟩
  · rintro ⟨inside,isFree,_⟩
    exact (h.mem i).2 ⟨inside,isFree⟩

theorem init_inv (some_ : 0 < maxBlocks) (small : maxBlocks < jobInvalidIndex) :
    Inv maxBlocks (initStore maxBlocks) (List.range' 0 maxBlocks) := by
  obtain ⟨n,rfl⟩ : ∃ n, maxBlocks = n + 1 := ⟨maxBlocks - 1,by omega⟩
  refine ⟨⟨?_,?_,fun _ _ => rfl,?_,?_,?_⟩,fun _ _ => .inl rfl,fun _ _ _ => rfl⟩
  · have head : jobHeadIndex (initStore (n + 1)).freeHead = 0 := rfl
    rw [head]
    exact linked_init (by omega) small
  · intro i
    rw [mem_range'_1]
    exact ⟨fun range => ⟨by omega,rfl⟩,fun claim => by omega⟩
  · rw [length_range']
    rfl
  · rw [length_range']
    exact zero_add _
  · intro b old new member
    exact absurd member not_mem_nil

/-- Every call keeps the representation. -/
theorem call_inv (h : Inv maxBlocks p free) (small : maxBlocks < jobInvalidIndex) (acyclic : g.Acyclic)
    {a : Call} (proper : Proper maxBlocks p a) (fits : Fits g a) (done : (pool maxBlocks cfg g).next a p = some q) :
    ∃ free', Inv maxBlocks q free' := by
  have all : ∀ i ∈ List.range maxBlocks, i < maxBlocks := fun i member => mem_range.1 member
  cases a with
  | alloc now =>
    cases done
    exact h.alloc small cfg now
  | submit b payloadSize consumerCount now =>
    obtain ⟨r,free',returned,kept⟩ := h.submit small acyclic proper.1 proper.2.1 fits
    cases returned.symm.trans done
    exact ⟨free',kept⟩
  | release b =>
    cases done
    exact h.release small proper.1 proper.2
  | addRef b count =>
    cases done
    exact ⟨free,h.addRef proper.1 proper.2.1 count⟩
  | scanTimeout | forceCleanup =>
    cases done
    exact h.sweep small rfl rfl (by decide) all

/-- **The pool keeps its representation in every sequence of calls** whose references fit in 32 bits, and every
such call returns. -/
theorem pool_represented (some_ : 0 < maxBlocks) (small : maxBlocks < jobInvalidIndex) (acyclic : g.Acyclic)
    (h : Reach (pool maxBlocks cfg g) (fun p a => Proper maxBlocks p a ∧ Fits g a) p) : Represents maxBlocks p ∧
      ∀ a, Proper maxBlocks p a → Fits g a → ∃ q, (pool maxBlocks cfg g).next a p = some q := by
  have inv : ∃ free, Inv maxBlocks p free := by
    apply h.invariant (I := fun p => ∃ free, Inv maxBlocks p free)
    · exact ⟨_,init_inv some_ small⟩
    · rintro p q a _ ⟨free,inv⟩ ⟨proper,fits⟩ done
      exact call_inv inv small acyclic proper fits done
  obtain ⟨free,inv⟩ := inv
  refine ⟨inv.represents,?_⟩
  intro a proper fits
  cases a with
  | submit b payloadSize consumerCount now =>
    obtain ⟨q,_,returned,_⟩ := inv.submit small acyclic proper.1 proper.2.1 fits
    exact ⟨q,returned⟩
  | _ => exact ⟨_,rfl⟩

/-- A stage that triggers a leaf, a stage with a successor, and the leaf again. -/
def fork : Pipeline where
  stages := [⟨true, [1, 2, 1]⟩, ⟨true, []⟩, ⟨true, [1]⟩]
  entryStage := 0
  valid := by decide
  counted := by decide

theorem fork_acyclic : fork.Acyclic := by
  apply Pipeline.acyclic_of_falling fun s => if s = 0 then 2 else if s = 2 then 1 else 0
  intro s t edge
  match s, edge with
  | 0, edge =>
    have : t = 1 ∨ t = 2 ∨ t = 1 := by simpa [Pipeline.Edge, Pipeline.successors, fork] using edge
    rcases this with rfl | rfl | rfl <;> decide
  | 1, edge => exact absurd edge not_mem_nil
  | 2, edge =>
    have : t = 1 := by simpa [Pipeline.Edge, Pipeline.successors, fork] using edge
    subst this
    decide
  | s + 3, edge => exact absurd edge not_mem_nil

/-- References that add up, a block that is swept, and one that a predicate frees. -/
theorem pool_represented_swept : ∃ p, fork.Acyclic ∧
    Reach (pool 2 ⟨1, 0⟩ fork) (fun p a => Proper 2 p a ∧ Fits fork a) p ∧
    p.log.filter (fun e => decide (e = .recycle 0 ∨ e = .recycle 1)) =
      [.recycle 0, .recycle 0, .recycle 1, .recycle 0] ∧ Represents 2 p := by
  refine exists_and_left.2 ⟨fork_acyclic,reach_and_then (pool 2 ⟨1,0⟩ fork)
      [.alloc 5, .submit 0 8 0 5, .alloc 6, .submit 0 8 2 6, .alloc 7, .submit 1 8 1000 7, .addRef 0 1, .release 0,
        .release 0, .scanTimeout 2000, .alloc 8, .alloc 9, .submit 1 8 2 8, .submit 0 8 3 8,
        .forceCleanup (some fun i => i == 0)] (by decide +kernel) fun p reached _ => ?_⟩
  exact (pool_represented (by decide) (by decide) fork_acyclic reached).1

/-- With the largest `consumer_count` the references of the successors wrap: the first leaf recycles the block, the
next stage revives it and recycles it again. -/
theorem wrapped_count_recycles_twice : ∃ p, fork.Acyclic ∧ Reach (pool 2 ⟨0, 0⟩ fork) (fun p a => Proper 2 p a) p ∧
    p.next (jobHeadIndex p.freeHead) = jobHeadIndex p.freeHead ∧ ¬ Represents 2 p := by
  obtain ⟨p,reached,loop,twice⟩ := reach_of_decided (pool 2 ⟨0,0⟩ fork) (fun p a => Proper 2 p a)
      [.alloc 0, .submit 0 8 4294967295 0]
      (fun p => p.next (jobHeadIndex p.freeHead) = jobHeadIndex p.freeHead ∧
        change 0 .free .free ∈ p.log) (by decide +kernel)
  refine ⟨p,fork_acyclic,reached,loop,?_⟩
  rintro ⟨_,_,_,_,_,_,changes⟩
  cases changes 0 .free .free twice

end

end Newosp.Dispatcher
