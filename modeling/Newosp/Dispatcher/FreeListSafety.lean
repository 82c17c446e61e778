import Newosp.Dispatcher.FreeListSteps

/-!
# No block is lost or handed out twice

The tag of the head counts its updates, so a head that still compares equal was not updated since it was loaded, and the
link read from its block is still there (`Saw`); only the thread inside whose call a block is stores into it.
-/

namespace Newosp.Dispatcher.FreeList
open Lib List Function
open State (endRelease enter goto moveTo share withStore)
open Option (some.inj)

variable {ι : Type} {head now b : Nat} {pc : PC} {maxBlocks : Nat} {s s' : State ι} {free : List Nat} {out : Finset Nat}
  {t : ι} {cfg : Config}
  {events : List (Event ι)}

def accept (out : Finset Nat) : Event ι → Option (Finset Nat)
  | .returned _ b => if b ∈ out then none else some (insert b out)
  | .pushed _ b => if b ∈ out then some (out.erase b) else none
  | .failed _ => some out

/-- The blocks that are out after the events, if every block was returned and put back by turns. -/
def replay (events : List (Event ι)) : Option (Finset Nat) := events.foldlM accept ∅

/-- Thread `t` loaded `head` at version `loaded`. -/
structure Saw (p : Store) (version loaded head : Nat) : Prop where
  past : loaded ≤ version
  tag : jobHeadTag head = wrap32 loaded
  current : loaded = version → p.freeHead = head

def ThreadOk (p : Store) (version loaded : Nat) : PC → Prop
  | .allocNext _ head => Saw p version loaded head ∧ jobHeadIndex head ≠ jobInvalidIndex
  | .allocCas _ head next => Saw p version loaded head ∧ jobHeadIndex head ≠ jobInvalidIndex ∧
      (loaded = version → next = p.next (jobHeadIndex head))
  | .submitState b => 0 < (p.block b).refcount
  | .recycleLink _ head => Saw p version loaded head
  | .recycleCas b head => Saw p version loaded head ∧ p.next b = jobHeadIndex head
  | _ => True

/-- What the blocks show of a call. -/
def PC.shape (pc : PC) : Option Nat × Bool × Option Nat := (pc.holds, pc.taking, pc.drops)

/-- A block that `Alloc` has returned and `Recycle` has not put back. -/
def IsOut (s : State ι) (b : Nat) : Prop := match s.place b with
  | .free => False
  | .owned _ | .shared => True
  | .running t => (s.pc t).taking = false

/-- The pool between two steps: `free` is the free list, `out` the blocks that are out. -/
structure Inv (maxBlocks : Nat) (s : State ι) (free : List Nat) (out : Finset Nat) : Prop where
  tag : jobHeadTag s.store.freeHead = wrap32 s.version
  linked : Linked s.store.next jobInvalidIndex (jobHeadIndex s.store.freeHead) free
  mem : ∀ b, b ∈ free ↔ b < maxBlocks ∧ s.place b = .free
  inside : ∀ b, s.place b ≠ .free → b < maxBlocks
  running : ∀ t b, (s.pc t).holds = some b ↔ s.place b = .running t
  replayed : replay s.events = some out
  isOut : ∀ b, b ∈ out ↔ IsOut s b
  counted : ∀ b, s.place b = .shared →
    (s.store.block b).refcount = s.refs b + (s.releasing b).card ∧ 0 < (s.store.block b).refcount
  dropping : ∀ t b, t ∈ s.releasing b ↔ (s.pc t).drops = some b
  dropped : ∀ t b, (s.pc t).drops = some b → s.place b = .shared
  threads : ∀ t, ThreadOk s.store s.version (s.loaded t) (s.pc t)

/-- The references of block `b` after a step of `t`. -/
structure Referred (s s' : State ι) (t : ι) (pc : PC) (b : Nat) (new : Place ι) : Prop where
  releasing : ∀ c, c ≠ b → s'.releasing c = s.releasing c
  drops : ∀ c, c ≠ b → (pc.drops = some c ↔ (s.pc t).drops = some c)
  droppers : ∀ u, u ∈ s'.releasing b ↔ (s'.pc u).drops = some b
  dropped : ∀ u, (s'.pc u).drops = some b → new = .shared
  counted : new = .shared → (s'.store.block b).refcount = s'.refs b + (s'.releasing b).card ∧
    0 < (s'.store.block b).refcount

structure Listed (maxBlocks : Nat) (s s' : State ι) (free : List Nat) : Prop where
  version : s.version ≤ s'.version
  tag : jobHeadTag s'.store.freeHead = wrap32 s'.version
  head : s'.version = s.version → s'.store.freeHead = s.store.freeHead ∧
    s'.store.next (jobHeadIndex s.store.freeHead) = s.store.next (jobHeadIndex s.store.freeHead)
  linked : Linked s'.store.next jobInvalidIndex (jobHeadIndex s'.store.freeHead) free
  mem : ∀ c, c ∈ free ↔ c < maxBlocks ∧ s'.place c = .free

section

variable {p p' : Store} {version version' loaded : Nat}

theorem Saw.mono (h : Saw p version loaded head) (later : version ≤ version')
    (same : version' = version → p'.freeHead = p.freeHead) : Saw p' version' loaded head := by
  refine ⟨le_trans h.past later,h.tag,?_⟩
  intro now
  have past := h.past
  rw [same (by omega)]
  exact h.current (by omega)

theorem ThreadOk.mono (h : ThreadOk p version loaded pc) (later : version ≤ version')
    (same : version' = version → p'.freeHead = p.freeHead)
    (top : version' = version → p'.next (jobHeadIndex p.freeHead) = p.next (jobHeadIndex p.freeHead))
    (mine : ∀ b, pc.holds = some b → p'.block b = p.block b) : ThreadOk p' version' loaded pc := by
  cases pc with
  | allocNext now head => exact ⟨h.1.mono later same,h.2⟩
  | allocCas now head next =>
    obtain ⟨saw,valid,link⟩ := h
    refine ⟨saw.mono later same,valid,?_⟩
    intro now
    have past := saw.past
    rw [link (by omega), ← saw.current (by omega), top (by omega)]
  | submitState b =>
    have block := mine b rfl
    rw [ThreadOk, block]
    exact h
  | recycleLink b head => exact Saw.mono h later same
  | recycleCas b head =>
    refine ⟨h.1.mono later same,?_⟩
    rw [Store.next, mine b rfl]
    exact h.2
  | _ => trivial

theorem Saw.eq_version {p : Store} {version loaded : Nat} (saw : Saw p version loaded head)
    (tag : jobHeadTag p.freeHead = wrap32 version) (recent : version < loaded + 4294967296)
    (same : p.freeHead = head) : loaded = version := by
  have past := saw.past
  apply wrap32_inj (by omega) (by omega)
  rw [← saw.tag, ← tag, same]

theorem Saw.swapped {first : Nat} {free' : List Nat} (saw : Saw s.store s.version s.version head)
    (word : first < 4294967296) (linked : Linked s.store.next jobInvalidIndex first free')
    {place : Nat → Place ι} (mem : ∀ c, c ∈ free' ↔ c < maxBlocks ∧ place c = .free) {pcs : ι → PC} :
    Listed maxBlocks s
      { s.setHead (jobPackHead first (wrap32 (jobHeadTag head + 1))) with place := place, pc := pcs, events := events }
      free' := by
  refine ⟨Nat.le_succ _,?_,fun same => absurd same (Nat.succ_ne_self _),?_,mem⟩
  · change jobHeadTag (jobPackHead first (wrap32 (jobHeadTag head + 1))) = wrap32 (s.version + 1)
    rw [jobHeadTag_pack word, saw.tag, wrap32_add_left]
  · change Linked s.store.next jobInvalidIndex (jobHeadIndex (jobPackHead first _)) free'
    rw [jobHeadIndex_pack word]
    exact linked

theorem other_dropped (drops : (s.pc t).drops = some b) (still : pc.drops = none) (c : Nat) (ne : c ≠ b) :
    pc.drops = some c ↔ (s.pc t).drops = some c := by
  rw [drops, still]
  exact ⟨nofun,fun same => absurd (some.inj same).symm ne⟩

theorem place_kept (shared : s.place b = .shared) : s.place = update s.place b .shared := by
  rw [← shared, update_eq_self]

end

section

variable (h : Inv maxBlocks s free out)
include h

theorem Inv.top_ne (small : maxBlocks < jobInvalidIndex) (used : s.place b ≠ .free) :
    jobHeadIndex s.store.freeHead ≠ b := by
  rintro rfl
  have linked := h.linked
  cases free with
  | nil =>
    have inside := h.inside _ used
    rw [linked_nil.1 linked] at inside
    omega
  | cons c free =>
    rw [linked.1] at used
    exact used ((h.mem c).1 mem_cons_self).2

theorem Inv.no_droppers (unshared : s.place b ≠ .shared) : s.releasing b = ∅ ∧ ∀ u, (s.pc u).drops ≠ some b := by
  have none : ∀ u, (s.pc u).drops ≠ some b := fun u drops => unshared (h.dropped u b drops)
  refine ⟨?_,none⟩
  rw [Finset.eq_empty_iff_forall_notMem]
  exact fun u member => none u ((h.dropping u b).1 member)

theorem Inv.dropper (drops : (s.pc t).drops = some b) : s.place b = .shared ∧ t ∈ s.releasing b ∧
    (s.store.block b).refcount = s.refs b + (s.releasing b).card ∧ 0 < (s.releasing b).card := by
  have shared := h.dropped t b drops
  have member := (h.dropping t b).2 drops
  exact ⟨shared,member,(h.counted b shared).1,Finset.card_pos.2 ⟨t,member⟩⟩

theorem Inv.empty (none : jobHeadIndex s.store.freeHead = jobInvalidIndex) : ∀ b < maxBlocks, s.place b ≠ .free := by
  intro b inside isFree
  have linked := h.linked
  rw [none] at linked
  have empty : free = [] := linked.unique rfl
  have member := (h.mem b).2 ⟨inside,isFree⟩
  rw [empty] at member
  exact absurd member not_mem_nil

end

variable [DecidableEq ι]

structure Moved (s s' : State ι) (t : ι) (pc : PC) (b : Nat) (new : Place ι) : Prop where
  pcs : s'.pc = update s.pc t pc
  loaded : s'.loaded = s.loaded
  place : s'.place = update s.place b new
  refs : ∀ c, c ≠ b → s'.refs c = s.refs c
  frame : ∀ c, c ≠ b → s'.store.block c = s.store.block c
  held : (s.pc t).holds = none ∨ (s.pc t).holds = some b
  holds : pc.holds = if new = .running t then some b else none
  after : ∀ u, new = .running u → u = t

theorem beginNext_some (step : beginNext t pc s = some s') : s.pc t = .idle ∧ some (s.goto t pc) = some s' := by
  unfold beginNext at step
  split at step
  · rename_i idle
    exact ⟨idle,step⟩
  · cases step

section

variable {new : Place ι} {b : Nat} {out' : Finset Nat} {free' : List Nat} (h : Inv maxBlocks s free out)
include h

theorem Inv.quiet (small : maxBlocks < jobInvalidIndex) {now : PC} {store : Store} {loads : ι → Nat}
    (here : s.pc t = now) (loaded : ∀ u, u ≠ t → loads u = s.loaded u)
    (replayed : replay events = some out) (head : store.freeHead = s.store.freeHead)
    (frame : ∀ b, s.place b ≠ .running t → store.block b = s.store.block b) (shape : pc.shape = now.shape)
    (ok : ThreadOk store s.version (loads t) pc) :
    Inv maxBlocks ({ s with store, loaded := loads, events }.goto t pc) free out := by
  subst here
  obtain ⟨holds,taking,drops⟩ : pc.holds = (s.pc t).holds ∧ pc.taking = (s.pc t).taking ∧ pc.drops = (s.pc t).drops := by
    simpa only [PC.shape, Prod.mk.injEq] using shape
  constructor
  case tag => exact head ▸ h.tag
  case linked =>
    refine head ▸ h.linked.congr fun b member => ?_
    simp only [goto, Store.next, frame b (by rw [((h.mem b).1 member).2]; exact nofun)]
  case mem => exact h.mem
  case inside => exact h.inside
  case running => exact fun u b => by simpa only [goto, update_same PC.holds holds] using h.running u b
  case replayed => exact replayed
  case isOut =>
    intro b
    rw [h.isOut b]
    simp only [IsOut, goto, update_same PC.taking taking]
  case counted =>
    intro b shared
    simp only [goto, frame b (by rw [show s.place b = .shared from shared]; exact nofun)]
    exact h.counted b shared
  case dropping => exact fun u b => by simpa only [goto, update_same PC.drops drops] using h.dropping u b
  case dropped => exact fun u b => by simpa only [goto, update_same PC.drops drops] using h.dropped u b
  case threads =>
    refine (forall_update_iff s.pc fun u q => ThreadOk store s.version (loads u) q).2 ⟨ok,fun u mine => ?_⟩
    rw [loaded u mine]
    refine (h.threads u).mono le_rfl (fun _ => head) ?_ ?_
    · intro _
      rw [Store.next, frame _ fun running => h.top_ne small (by rw [running]; exact nofun) rfl]
      rfl
    · intro b held
      apply frame
      rw [(h.running u b).1 held]
      intro clash
      exact mine (Place.running.inj clash)

theorem Inv.sameList (small : maxBlocks < jobInvalidIndex)
    (m : Moved s s' t pc b new) (used : s.place b ≠ .free) (busy : new ≠ .free) (version : s'.version = s.version)
    (first : s'.store.freeHead = s.store.freeHead) : Listed maxBlocks s s' free := by
  refine ⟨le_of_eq version.symm,by rw [first, version, h.tag],fun _ => ⟨first,?_⟩,?_,?_⟩
  · rw [Store.next, m.frame _ (h.top_ne small used)]
    rfl
  · rw [first]
    apply h.linked.congr
    intro c member
    rw [Store.next, m.frame]
    · rfl
    · rintro rfl
      exact used ((h.mem c).1 member).2
  · intro c
    rw [h.mem c, m.place, update_eq_iff used busy]

variable (m : Moved s s' t pc b new) (replayed : replay s'.events = some out')
  (others : ∀ c, c ≠ b → (c ∈ out' ↔ c ∈ out)) (isOut : b ∈ out' ↔ IsOut s' b)
  (ok : ThreadOk s'.store s'.version (s.loaded t) pc)
include m replayed others isOut ok

theorem Inv.move (r : Referred s s' t pc b new) (l : Listed maxBlocks s s' free') (inside : b < maxBlocks)
    (before : ∀ u, u ≠ t → s.place b ≠ .running u) : Inv maxBlocks s' free' out' := by
  have holds : ∀ c, pc.holds = some c ↔ c = b ∧ new = .running t := by
    intro c
    rw [m.holds]
    split
    · rename_i mine
      exact ⟨fun eq => ⟨(some.inj eq).symm,mine⟩,fun both => by rw [both.1]⟩
    · rename_i other
      exact ⟨nofun,fun both => absurd both.2 other⟩
  have here : s'.place b = new := by rw [m.place, update_self]
  have elsewhere : ∀ c, c ≠ b → s'.place c = s.place c := fun c ne => by rw [m.place, update_of_ne ne]
  have mine : s'.pc t = pc := by rw [m.pcs, update_self]
  have theirs : ∀ u, u ≠ t → s'.pc u = s.pc u := fun u ne => by rw [m.pcs, update_of_ne ne]
  constructor
  case tag => exact l.tag
  case linked => exact l.linked
  case mem => exact l.mem
  case inside =>
    intro c busy
    by_cases same : c = b
    · rw [same]
      exact inside
    · rw [elsewhere c same] at busy
      exact h.inside c busy
  case running =>
    refine holding_moved m.pcs m.place h.running holds (fun _ => eq_of_held m.held) ?_
    exact fun u own => ⟨before u own,fun running => own (m.after u running)⟩
  case replayed => exact replayed
  case isOut =>
    intro c
    by_cases same : c = b
    · rw [same]
      exact isOut
    · rw [others c same, h.isOut c, IsOut, IsOut, elsewhere c same]
      cases where_ : s.place c with
      | running u =>
        have other : u ≠ t := by
          rintro rfl
          exact same (eq_of_held m.held ((h.running u c).2 where_))
        simp only [theirs u other]
      | _ => rfl
  case counted =>
    intro c shared
    by_cases same : c = b
    · subst same
      exact r.counted (here.symm.trans shared)
    · rw [elsewhere c same] at shared
      rw [m.frame c same, m.refs c same, r.releasing c same]
      exact h.counted c shared
  case dropping =>
    intro u c
    by_cases same : c = b
    · subst same
      exact r.droppers u
    · rw [r.releasing c same, h.dropping u c]
      by_cases own : u = t
      · subst own
        rw [mine, r.drops c same]
      · rw [theirs u own]
  case dropped =>
    intro u c dropping
    by_cases same : c = b
    · subst same
      rw [here]
      exact r.dropped u dropping
    · rw [elsewhere c same]
      apply h.dropped u c
      by_cases own : u = t
      · subst own
        rw [mine, r.drops c same] at dropping
        exact dropping
      · rw [theirs u own] at dropping
        exact dropping
  case threads =>
    intro u
    rw [m.loaded]
    by_cases own : u = t
    · subst own
      rw [mine]
      exact ok
    · rw [theirs u own]
      refine (h.threads u).mono l.version (fun now => (l.head now).1) (fun now => (l.head now).2) ?_
      intro c theirs
      apply m.frame
      intro same
      rw [same] at theirs
      exact before u own ((h.running u b).1 theirs)

section

variable (releasing : s'.releasing = s.releasing) (idle : (s.pc t).drops = none) (still : pc.drops = none)
  (counted : new = .shared → (s'.store.block b).refcount = s'.refs b ∧ 0 < (s'.store.block b).refcount)
include releasing idle still counted

theorem Inv.transfer (l : Listed maxBlocks s s' free') (inside : b < maxBlocks) (unshared : s.place b ≠ .shared)
    (before : ∀ u, u ≠ t → s.place b ≠ .running u) : Inv maxBlocks s' free' out' := by
  obtain ⟨nobody,none⟩ := h.no_droppers unshared
  have quiet : ∀ u, (s'.pc u).drops = (s.pc u).drops := by
    intro u
    rw [m.pcs, update_same PC.drops (still.trans idle.symm)]
  refine h.move m replayed others isOut ok ⟨fun c _ => by rw [releasing],?drops,?droppers,?dropped,?counted⟩ l inside
    before
  case drops =>
    intro c _
    rw [idle, still]
  case droppers =>
    intro u
    rw [releasing, quiet]
    exact h.dropping u b
  case dropped =>
    intro u dropping
    rw [quiet] at dropping
    exact absurd dropping (none u)
  case counted =>
    rw [releasing, nobody, Finset.card_empty, add_zero]
    exact counted

theorem Inv.hand (small : maxBlocks < jobInvalidIndex) (old : s.place b = .owned t ∨ s.place b = .running t)
    (busy : new ≠ .free) (version : s'.version = s.version) (first : s'.store.freeHead = s.store.freeHead) :
    Inv maxBlocks s' free out' := by
  have used : s.place b ≠ .free ∧ s.place b ≠ .shared := by
    rcases old with owned | running
    · rw [owned]
      exact ⟨nofun,nofun⟩
    · rw [running]
      exact ⟨nofun,nofun⟩
  refine h.transfer m replayed others isOut ok releasing idle still counted
    (h.sameList small m used.1 busy version first) (h.inside b used.1) used.2 ?_
  intro u other running
  rcases old with owned | mine
  · rw [owned] at running
    cases running
  · rw [mine] at running
    exact other (Place.running.inj running).symm

end

end

section

variable (h : Inv maxBlocks s free out) (small : maxBlocks < jobInvalidIndex) {gen : Nat}
include h small

theorem Inv.within {now : PC} (here : s.pc t = now) {p : Store} (head : p.freeHead = s.store.freeHead)
    (frame : ∀ b, now.holds ≠ some b → p.block b = s.store.block b) (shape : pc.shape = now.shape)
    (ok : ThreadOk p s.version (s.loaded t) pc) : Inv maxBlocks ((s.withStore p).goto t pc) free out := by
  refine h.quiet small here (fun _ _ => rfl) h.replayed head ?_ shape ok
  intro b elsewhere
  apply frame
  rw [← here]
  intro holding
  exact elsewhere ((h.running t b).1 holding)

theorem Inv.load {now : PC} (here : s.pc t = now) (shape : pc.shape = now.shape)
    (ok : Saw s.store s.version s.version s.store.freeHead → ThreadOk s.store s.version s.version pc) :
    Inv maxBlocks ((s.loadHead t).goto t pc) free out := by
  refine h.quiet small here (fun u other => update_of_ne other ..) h.replayed rfl (fun _ _ => rfl) shape ?_
  rw [update_self]
  exact ok ⟨le_rfl,h.tag,fun _ => rfl⟩

theorem Inv.allocLoop (here : s.pc t = pc) (shape : pc.shape = (none, false, none)) :
    Inv maxBlocks (s.allocLoop t now) free out := by
  unfold State.allocLoop
  split
  · exact h.quiet small here (fun u other => update_of_ne other ..) (foldlM_concat h.replayed rfl) rfl (fun _ _ => rfl)
      shape.symm trivial
  · rename_i some_
    exact h.load small here shape.symm fun saw => ⟨saw,some_⟩

theorem Inv.pop {now head next : Nat} (pc : s.pc t = .allocCas now head next)
    (recent : s.version < s.loaded t + 4294967296) (same : s.store.freeHead = head) :
    ∃ free', Inv maxBlocks (((s.setHead (jobPackHead next (wrap32 (jobHeadTag head + 1)))).moveTo
      (jobHeadIndex head) (.running t)).goto t (.takeFreeCount now (jobHeadIndex head) gen)) free' out := by
  have thread := h.threads t
  rw [pc] at thread
  obtain ⟨saw,some_,link⟩ := thread
  have current := saw.eq_version h.tag recent same
  have linked := h.linked
  rw [same] at linked
  cases free with
  | nil => exact absurd (linked_nil.1 linked) some_
  | cons b free =>
    obtain ⟨rfl,_,rest⟩ := linked
    obtain ⟨inside,isFree⟩ := (h.mem _).1 mem_cons_self
    have nodup := nodup_cons.1 h.linked.nodup
    have word : next < 4294967296 := by
      rw [link current]
      cases free with
      | nil =>
        rw [linked_nil.1 rest]
        decide
      | cons c free =>
        have below := ((h.mem c).1 (mem_cons_of_mem _ mem_cons_self)).1
        have bound : jobInvalidIndex = 4294967295 := rfl
        rw [rest.1]
        omega
    have unshared : s.place (jobHeadIndex head) ≠ .shared := by rw [isFree]; exact nofun
    refine ⟨free,?_⟩
    refine h.transfer ⟨rfl,rfl,rfl,fun _ _ => rfl,fun _ _ => rfl,.inl (pc ▸ rfl),(if_pos rfl).symm,?after⟩ h.replayed
      (fun _ _ => Iff.rfl) ?isOut trivial rfl (pc ▸ rfl) rfl nofun
      ((current ▸ saw : Saw s.store s.version s.version head).swapped word (link current ▸ rest) ?mem) inside unshared
      ?before
    case after => exact fun u running => (Place.running.inj running).symm
    case before =>
      intro u _
      rw [isFree]
      exact nofun
    case mem =>
      intro c
      change c ∈ free ↔ c < maxBlocks ∧ update s.place (jobHeadIndex head) (.running t) c = .free
      by_cases top : c = jobHeadIndex head
      · rw [top, update_self]
        exact ⟨fun member => absurd member nodup.1,fun both => absurd both.2 nofun⟩
      · rw [update_of_ne top, ← h.mem c, mem_cons]
        exact ⟨.inr,fun found => found.resolve_left top⟩
    case isOut =>
      have before : jobHeadIndex head ∉ out := by
        rw [h.isOut, IsOut, isFree]
        exact id
      simp only [IsOut, goto, moveTo, update_self, before, false_iff]
      exact nofun

theorem Inv.push (pc : s.pc t = .recycleCas b head) (recent : s.version < s.loaded t + 4294967296)
    (same : s.store.freeHead = head) :
    ∃ free' out', Inv maxBlocks ((((s.setHead (jobPackHead b (wrap32 (jobHeadTag head + 1)))).moveTo b .free).enter
      (.pushed t b)).goto t (.recycleFreeCount b)) free' out' := by
  have thread := h.threads t
  rw [pc] at thread
  obtain ⟨saw,link⟩ := thread
  have current := saw.eq_version h.tag recent same
  have running : s.place b = .running t := (h.running t b).1 (by rw [pc]; rfl)
  have inside := h.inside b (by rw [running]; exact nofun)
  have word : b < 4294967296 := lt_trans (lt_trans inside small) (by decide)
  have new : b ∉ free := by
    rw [h.mem, running]
    exact nofun
  have isOut : b ∈ out := by
    rw [h.isOut, IsOut, running]
    simp only [pc, PC.taking]
  have linked := h.linked
  rw [same] at linked
  refine ⟨b :: free,out.erase b,?_⟩
  refine h.transfer ⟨rfl,rfl,rfl,fun _ _ => rfl,fun _ _ => rfl,.inr (pc ▸ rfl),(if_neg nofun).symm,nofun⟩ ?replayed
    ?others ?isOut trivial rfl (pc ▸ rfl) rfl nofun
    ((current ▸ saw : Saw s.store s.version s.version head).swapped word
      (linked.push new (by omega) link fun _ _ => rfl) ?mem) inside ?unshared ?before
  case unshared =>
    rw [running]
    exact nofun
  case before =>
    intro u other elsewhere
    rw [running] at elsewhere
    exact other (Place.running.inj elsewhere).symm
  case mem =>
    intro c
    change c ∈ b :: free ↔ c < maxBlocks ∧ update s.place b .free c = .free
    by_cases here : c = b
    · rw [here, update_self]
      exact ⟨fun _ => ⟨inside,rfl⟩,fun _ => mem_cons_self⟩
    · rw [update_of_ne here, ← h.mem c, mem_cons]
      exact ⟨fun found => found.resolve_left here,.inr⟩
  case replayed =>
    apply foldlM_concat h.replayed
    exact if_pos isOut
  case others =>
    intro c ne
    rw [Finset.mem_erase]
    exact ⟨fun both => both.2,fun member => ⟨ne,member⟩⟩
  case isOut =>
    simp only [IsOut, goto, enter, moveTo, update_self, Finset.mem_erase, ne_eq, not_true_eq_false, false_and]

theorem Inv.give (pc : s.pc t = .takeFields now b gen) {blk : DataBlock} :
    Inv maxBlocks ((((s.withStore (s.store.setBlock b blk)).moveTo b (.owned t)).enter (.returned t b)).goto t
      .idle) free (insert b out) := by
  have running : s.place b = .running t := (h.running t b).1 (by rw [pc]; rfl)
  have inside : b ∉ out := by
    rw [h.isOut, IsOut, running]
    simp only [pc, PC.taking, Bool.true_eq_false, not_false_eq_true]
  refine h.hand ⟨rfl,rfl,rfl,fun _ _ => rfl,update_apart,.inr (pc ▸ rfl),(if_neg nofun).symm,nofun⟩ ?replayed ?others
    ?isOut trivial rfl (pc ▸ rfl) rfl nofun small (.inr running) nofun rfl rfl
  case replayed =>
    apply foldlM_concat h.replayed
    exact if_neg inside
  case others =>
    intro c ne
    rw [Finset.mem_insert]
    exact ⟨fun found => found.resolve_left ne,.inr⟩
  case isOut =>
    simp only [IsOut, goto, enter, moveTo, update_self, Finset.mem_insert, true_or]

theorem beginSubmit_step {payloadSize consumerCount : Nat}
    (step : beginSubmit t b payloadSize consumerCount s = some s') : Inv maxBlocks s' free out := by
  unfold beginSubmit at step
  obtain ⟨owned,step⟩ := enabled step
  obtain ⟨idle,⟨⟩⟩ := beginNext_some step
  replace idle : s.pc t = .idle := idle
  refine h.hand ⟨rfl,rfl,rfl,fun _ _ => rfl,fun _ _ => rfl,.inl (idle ▸ rfl),(if_pos rfl).symm,?after⟩ h.replayed
    (fun _ _ => Iff.rfl) ?isOut trivial rfl (idle ▸ rfl) rfl nofun small (.inl owned) nofun rfl rfl
  case after => exact fun u running => (Place.running.inj running).symm
  case isOut =>
    rw [h.isOut, IsOut, owned]
    simp only [IsOut, goto, moveTo, update_self, PC.taking]

theorem Inv.submit (pc : s.pc t = .submitState b) :
    Inv maxBlocks ((((s.withStore (s.store.setState b .ready)).moveTo b .shared).share b
      (s.store.block b).refcount ∅).goto t .idle) free out := by
  have running : s.place b = .running t := (h.running t b).1 (by rw [pc]; rfl)
  have positive := h.threads t
  rw [pc] at positive
  have nobody := (h.no_droppers (b := b) (by rw [running]; exact nofun)).1
  refine h.hand ⟨rfl,rfl,rfl,update_apart,update_apart,.inr (pc ▸ rfl),(if_neg nofun).symm,nofun⟩ h.replayed
    (fun _ _ => Iff.rfl) ?isOut trivial ?releasing (pc ▸ rfl) rfl ?counted small (.inr running) nofun rfl rfl
  case releasing =>
    change update s.releasing b ∅ = s.releasing
    rw [← nobody, update_eq_self]
  case counted =>
    intro _
    have count : (((s.store.setState b .ready).block b)).refcount = (s.store.block b).refcount := by
      simp only [Store.setState, Store.enter, Store.setBlock, update_self]
    simp only [goto, share, moveTo, withStore, update_self, count]
    exact ⟨trivial,positive⟩
  case isOut =>
    rw [h.isOut, IsOut, running]
    simp only [IsOut, goto, share, moveTo, withStore, update_self, pc, PC.taking]

theorem Inv.refer (new : Place ι) (m : Moved s s' t pc b new) (r : Referred s s' t pc b new)
    (shared : s.place b = .shared) (busy : new ≠ .free) (version : s'.version = s.version)
    (first : s'.store.freeHead = s.store.freeHead) (events : s'.events = s.events) (isOut : IsOut s' b)
    (ok : ThreadOk s'.store s'.version (s.loaded t) pc) : Inv maxBlocks s' free out := by
  have used : s.place b ≠ .free := by
    rw [shared]
    exact nofun
  have before : b ∈ out := by
    rw [h.isOut, IsOut, shared]
    trivial
  refine h.move m (by rw [events, h.replayed]) (fun _ _ => Iff.rfl) (iff_of_true before isOut) ok r
    (h.sameList small m used busy version first) (h.inside b used) ?_
  intro u _
  rw [shared]
  exact nofun

omit small in
theorem Inv.undropped (still : pc.drops = none) (u : ι) :
    u ∈ (s.releasing b).erase t ↔ (update s.pc t pc u).drops = some b := by
  rw [Finset.mem_erase]
  by_cases own : u = t
  · rw [own, update_self, still]
    exact ⟨fun both => absurd rfl both.1,nofun⟩
  · rw [update_of_ne own, ← h.dropping]
    exact ⟨fun both => both.2,fun found => ⟨own,found⟩⟩

theorem beginRelease_step (step : beginRelease t b s = some s') : Inv maxBlocks s' free out := by
  unfold beginRelease at step
  obtain ⟨⟨shared,positive⟩,step⟩ := enabled step
  obtain ⟨idle,⟨⟩⟩ := beginNext_some step
  replace idle : s.pc t = .idle := idle
  have fresh : t ∉ s.releasing b := by
    rw [h.dropping, idle]
    exact nofun
  have counted := h.counted b shared
  refine h.refer small .shared
    ⟨rfl,rfl,place_kept shared,update_apart,fun _ _ => rfl,.inl (idle ▸ rfl),(if_neg nofun).symm,nofun⟩
    ⟨update_apart,?drops,?droppers,fun _ _ => rfl,?counted⟩ shared nofun rfl rfl rfl ?isOut trivial
  case drops =>
    intro c ne
    rw [idle]
    exact ⟨fun same => absurd (some.inj same).symm ne,nofun⟩
  case droppers =>
    intro u
    simp only [goto, share, update_self, Finset.mem_insert]
    by_cases own : u = t
    · rw [own, update_self]
      exact ⟨fun _ => rfl,fun _ => .inl rfl⟩
    · rw [update_of_ne own, ← h.dropping]
      exact ⟨fun found => found.resolve_left own,.inr⟩
  case counted =>
    intro _
    simp only [goto, share, update_self, Finset.card_insert_of_notMem fresh]
    omega
  case isOut =>
    simp only [IsOut, goto, share, shared]

theorem Inv.drop {cur : Nat} (pc : s.pc t = .releaseCas b cur) (same : (s.store.block b).refcount = cur)
    (more : cur ≠ 1) : Inv maxBlocks ((s.withStore (s.store.setRefcount b (cur - 1))).endRelease t b) free out := by
  have drops : (s.pc t).drops = some b := by rw [pc]; rfl
  obtain ⟨shared,member,counted,some_⟩ := h.dropper drops
  refine h.refer small .shared
    ⟨rfl,rfl,place_kept shared,update_apart,update_apart,.inl (pc ▸ rfl),(if_neg nofun).symm,nofun⟩
    ⟨update_apart,other_dropped drops rfl,?droppers,fun _ _ => rfl,?counted⟩ shared nofun rfl rfl rfl ?isOut trivial
  case droppers =>
    simp only [endRelease, goto, share, withStore, update_self]
    exact h.undropped rfl
  case counted =>
    intro _
    simp only [endRelease, goto, share, withStore, Store.setRefcount, Store.setBlock,
      update_self, Finset.card_erase_of_mem member]
    omega
  case isOut =>
    simp only [IsOut, endRelease, goto, share, withStore, shared]

theorem Inv.dropLast (pc : s.pc t = .releaseCas b 1) (same : (s.store.block b).refcount = 1) :
    Inv maxBlocks ((((s.withStore (s.store.setRefcount b (1 - 1))).endRelease t b).moveTo b (.running t)).goto t
      (.recycleState b)) free out := by
  have drops : (s.pc t).drops = some b := by rw [pc]; rfl
  obtain ⟨shared,member,counted,some_⟩ := h.dropper drops
  have alone : s.releasing b = {t} := by
    rw [Finset.eq_singleton_iff_unique_mem]
    exact ⟨member,fun u other => Finset.card_le_one.1 (by omega) u other t member⟩
  have pcs : (update (update s.pc t .idle) t (PC.recycleState b)) =
      update s.pc t (.recycleState b) := update_idem ..
  refine h.refer small (.running t)
    ⟨pcs,rfl,rfl,update_apart,update_apart,.inl (pc ▸ rfl),(if_pos rfl).symm,?after⟩
    ⟨update_apart,other_dropped drops rfl,?droppers,?dropped,nofun⟩ shared nofun rfl rfl rfl ?isOut trivial
  case after => exact fun u running => (Place.running.inj running).symm
  case droppers =>
    simp only [endRelease, goto, moveTo, share, withStore, update_self, pcs]
    exact h.undropped rfl
  case dropped =>
    intro u drop
    simp only [endRelease, goto, moveTo, share, withStore, pcs] at drop
    rw [← h.undropped rfl, alone, Finset.erase_singleton] at drop
    exact absurd drop (Finset.notMem_empty u)
  case isOut =>
    simp only [IsOut, endRelease, goto, moveTo, share, withStore, update_self, PC.taking]

/-- A step of a running call. -/
theorem stepNext_inv {spurious : Bool} (guard : recent s (.step t spurious))
    (step : stepNext cfg t spurious s = some s') : ∃ free' out', Inv maxBlocks s' free' out' := by
  have thread := h.threads t
  unfold recent at guard
  have apart : ∀ {b : Nat} (blk : DataBlock), (s.pc t).holds = some b →
      ∀ c, (s.pc t).holds ≠ some c → (s.store.setBlock b blk).block c = s.store.block c := by
    intro b blk mine c other
    apply update_of_ne
    rintro rfl
    exact other mine
  cases pc : s.pc t <;> simp only [stepNext, pc, Option.some.injEq, reduceCtorEq] at step <;> rw [pc] at apart thread
  case allocCount now =>
    cases step
    have head : (s.store.report cfg).freeHead = s.store.freeHead ∧ (s.store.report cfg).block = s.store.block := by
      unfold Store.report
      split <;> exact ⟨rfl,rfl⟩
    exact ⟨free,out,h.within small pc head.1 (fun b _ => by rw [head.2]) rfl trivial⟩
  case allocHead now =>
    cases step
    exact ⟨free,out,h.allocLoop small pc rfl⟩
  case allocNext now head =>
    cases step
    exact ⟨free,out,h.within small pc rfl (fun _ _ => rfl) rfl ⟨thread.1,thread.2,fun _ => rfl⟩⟩
  case allocCas now head next =>
    simp only [pc] at guard
    split at step
    · rename_i same
      cases step
      obtain ⟨free',kept⟩ := h.pop small pc guard same.1
      exact ⟨free',out,kept⟩
    · cases step
      exact ⟨free,out,h.allocLoop small pc rfl⟩
  case takeFreeCount | takeAllocCount | recycleAllocCount | recycleFreeCount =>
    cases step
    exact ⟨free,out,h.within small pc rfl (fun _ _ => rfl) rfl trivial⟩
  case takeState | recycleState =>
    cases step
    exact ⟨free,out,h.within small pc rfl (apart _ rfl) rfl trivial⟩
  case takeFields now b gen =>
    cases step
    exact ⟨free,insert b out,h.give small pc⟩
  case submitRefcount b payloadSize consumerCount =>
    cases step
    refine ⟨free,out,h.within small pc rfl (apart _ rfl) rfl ?_⟩
    simp only [ThreadOk, Store.setBlock, update_self]
    split
    · assumption
    · decide
  case submitState b =>
    cases step
    exact ⟨free,out,h.submit small pc⟩
  case releaseLoad b =>
    have shared := h.dropped t b (by rw [pc]; rfl)
    rw [if_pos (h.counted b shared).2] at step
    cases step
    exact ⟨free,out,h.within small pc rfl (fun _ _ => rfl) rfl trivial⟩
  case releaseCas b cur =>
    have shared := h.dropped t b (by rw [pc]; rfl)
    rw [if_pos (h.counted b shared).2] at step
    split at step
    · rename_i same
      split at step
      · rename_i last
        cases step
        subst last
        exact ⟨free,out,h.dropLast small pc same.1⟩
      · rename_i more
        cases step
        exact ⟨free,out,h.drop small pc same.1 more⟩
    · cases step
      exact ⟨free,out,h.within small pc rfl (fun _ _ => rfl) rfl trivial⟩
  case recycleHead b =>
    cases step
    exact ⟨free,out,h.load small pc rfl id⟩
  case recycleLink b head =>
    cases step
    refine ⟨free,out,h.within small pc rfl (apart _ rfl) rfl ⟨Saw.mono thread le_rfl fun _ => rfl,?_⟩⟩
    simp only [Store.next, Store.setBlock, update_self]
  case recycleCas b head =>
    simp only [pc] at guard
    split at step
    · rename_i same
      cases step
      exact h.push small pc guard same.1
    · cases step
      exact ⟨free,out,h.load small pc rfl id⟩

end

section

variable {a : Act ι} {u : ι}

/-- Every step keeps the pool together. -/
theorem next_inv (h : Inv maxBlocks s free out) (small : maxBlocks < jobInvalidIndex) (guard : recent s a)
    (step : next cfg a s = some s') : ∃ free' out', Inv maxBlocks s' free' out' := by
  cases a with
  | alloc t now =>
    obtain ⟨idle,⟨⟩⟩ := beginNext_some step
    exact ⟨free,out,h.within small idle rfl (fun _ _ => rfl) rfl trivial⟩
  | submit t b payloadSize consumerCount => exact ⟨free,out,beginSubmit_step h small step⟩
  | release t b => exact ⟨free,out,beginRelease_step h small step⟩
  | step t spurious => exact stepNext_inv h small guard step

theorem init_inv (some_ : 0 < maxBlocks) (small : maxBlocks < jobInvalidIndex) :
    Inv maxBlocks (machine (ι := ι) cfg maxBlocks).init (List.range' 0 maxBlocks) ∅ where
  tag := by
    have head : (machine (ι := ι) cfg maxBlocks).init.store.freeHead = jobPackHead 0 0 := rfl
    rw [head]
    rfl
  linked := by
    obtain ⟨n,rfl⟩ : ∃ n, maxBlocks = n + 1 := ⟨maxBlocks - 1,by omega⟩
    have head : (machine (ι := ι) cfg (n + 1)).init.store.freeHead = jobPackHead 0 0 := rfl
    rw [head, jobHeadIndex_pack (by decide)]
    exact linked_init (by omega) small
  mem := by
    intro b
    rw [mem_range'_1]
    exact ⟨fun range => ⟨by omega,rfl⟩,fun both => ⟨Nat.zero_le _,by omega⟩⟩
  inside := fun b busy => absurd rfl busy
  running := fun t b => ⟨nofun,nofun⟩
  replayed := rfl
  isOut := fun b => ⟨fun member => absurd member (Finset.notMem_empty b),False.elim⟩
  counted := nofun
  dropping := fun t b => ⟨fun member => absurd member (Finset.notMem_empty t),nofun⟩
  dropped := nofun
  threads := fun _ => trivial

/-- Every block was returned by `Alloc` and put back by `Recycle` by turns; every block is in one place, the free list,
its owner or a call; and an `Alloc` that gives up finds no block free at its last load. -/
structure Sound (maxBlocks : Nat) (M : Machine (State ι) (Act ι)) (s : State ι) : Prop where
  byTurns : ∃ out, replay s.events = some out ∧ ∀ b, b ∈ out ↔ IsOut s b
  partition : ∃ free, Linked s.store.next jobInvalidIndex (jobHeadIndex s.store.freeHead) free ∧ free.Nodup ∧
    (∀ b < maxBlocks, b ∈ free ↔ s.place b = .free) ∧ (∀ b ∈ free, b < maxBlocks) ∧
    (∀ b t, s.place b = .running t ↔ (s.pc t).holds = some b) ∧
    ∀ b < maxBlocks, s.place b = .shared → 0 < (s.store.block b).refcount
  givesUp : ∀ a s' t, M.next a s = some s' → s'.events = s.events ++ [.failed t] → ∀ b < maxBlocks, s.place b ≠ .free

theorem failed_of_loop (failed : (s.allocLoop t now).events = s.events ++ [.failed u]) :
    jobHeadIndex s.store.freeHead = jobInvalidIndex := by
  unfold State.allocLoop at failed
  split at failed
  · assumption
  · exact absurd (append_cancel_left (failed.symm.trans (append_nil _).symm)) (cons_ne_nil _ _)

theorem next_failed (step : next cfg a s = some s') (failed : s'.events = s.events ++ [.failed u]) :
    jobHeadIndex s.store.freeHead = jobInvalidIndex := by
  have silent : ∀ r : State ι, some r = some s' → r.events ≠ s.events := by
    rintro r same quiet
    rw [some.inj same, failed] at quiet
    exact absurd (append_cancel_left (quiet.trans (append_nil _).symm)) (cons_ne_nil _ _)
  have other : ∀ (r : State ι) (e : Event ι), some r = some s' → r.events = s.events ++ [e] → e = .failed u := by
    intro r e same eq
    rw [some.inj same, failed] at eq
    exact (singleton_inj.1 (append_cancel_left eq)).symm
  cases a with
  | alloc t now =>
    exact absurd (by simp) (silent _ (beginNext_some step).2)
  | submit t b | release t b =>
    obtain ⟨_,step⟩ := enabled step
    exact absurd (by simp) (silent _ (beginNext_some step).2)
  | step t spurious =>
    simp only [next] at step
    cases pc : s.pc t <;> simp only [stepNext, pc] at step
    case idle => cases step
    case allocHead =>
      rw [← some.inj step] at failed
      exact failed_of_loop failed
    case allocCas =>
      split at step
      · exact absurd (by simp) (silent _ step)
      · rw [← some.inj step] at failed
        exact failed_of_loop failed
    case takeFields now b gen => cases other _ (.returned t b) step (by simp)
    case releaseLoad => split at step <;> exact absurd (by simp) (silent _ step)
    case releaseCas =>
      split at step
      · split at step <;> exact absurd (by simp) (silent _ step)
      · split at step <;> exact absurd (by simp) (silent _ step)
    case recycleCas b head =>
      split at step
      · cases other _ (.pushed t b) step (by simp)
      · exact absurd (by simp) (silent _ step)
    -- the others store into the pool and go on
    all_goals exact absurd (by simp) (silent _ step)

/-- **No block is lost or handed out twice**, in every interleaving of any number of threads. -/
theorem blocks_partitioned (some_ : 0 < maxBlocks) (small : maxBlocks < jobInvalidIndex)
    (h : Reach (machine (ι := ι) cfg maxBlocks) recent s) : Sound maxBlocks (machine cfg maxBlocks) s := by
  have inv : ∃ free out, Inv maxBlocks s free out := by
    apply h.invariant (I := fun s => ∃ free out, Inv maxBlocks s free out)
    · exact ⟨_,_,init_inv some_ small⟩
    · rintro s t a _ ⟨free,out,inv⟩ guard step
      exact next_inv inv small guard step
  obtain ⟨free,out,inv⟩ := inv
  constructor
  case byTurns => exact ⟨out,inv.replayed,inv.isOut⟩
  case partition =>
    refine ⟨free,inv.linked,inv.linked.nodup,?_,fun b member => ((inv.mem b).1 member).1,
      fun b t => (inv.running t b).symm, fun b _ shared => (inv.counted b shared).2⟩
    intro b inside
    rw [inv.mem b]
    exact ⟨fun both => both.2,fun isFree => ⟨inside,isFree⟩⟩
  case givesUp =>
    intro a s' t step failed
    exact inv.empty (next_failed step failed)

instance (s : State ι) (a : Act ι) : Decidable (recent s a) := by
  unfold recent
  repeat' split
  all_goals infer_instance

def steps (t : Bool) (n : Nat) : List (Act Bool) := List.replicate n (.step t false)

/-- One thread stalls after it has read the link of the first block; the other takes both blocks and puts the first one
back. The stalled compare-and-swap fails on the tag, and a third `Alloc` finds no block. -/
def stalledPop : List (Act Bool) :=
  [.alloc false 1] ++ steps false 3 ++ [.alloc true 2] ++ steps true 8 ++ [.alloc true 3] ++ steps true 8 ++
    [.submit true 0 4 0] ++ steps true 2 ++ [.release true 0] ++ steps true 8 ++ steps false 1 ++ steps false 6 ++
    [.alloc true 4] ++ steps true 2

theorem blocks_partitioned_stalled : ∃ s : State Bool, Reach (machine ⟨0, 0⟩ 2) recent s ∧
    s.events = [.returned true 0, .returned true 1, .pushed true 0, .returned false 0, .failed true] ∧
    Sound 2 (machine ⟨0, 0⟩ 2) s := by
  refine reach_and_then (machine ⟨0,0⟩ 2) stalledPop (by decide +kernel) fun s reached _ => ?_
  exact blocks_partitioned (by decide) (by decide) reached

end

end Newosp.Dispatcher.FreeList
