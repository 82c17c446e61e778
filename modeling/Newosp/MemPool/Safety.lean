import Newosp.MemPool.Links

/-!
# No block is lost or handed out twice

`Links` keeps the free list together. `Books` says what the calls have reported and counted: a block is returned only
when it is not handed out, and `used_count` is ahead of the handed out blocks by the calls that owe it.
-/

namespace Newosp.MemPool
open Lib List Function

instance (s : State ι) (a : Act ι) : Decidable (recent s a) := by
  unfold recent
  repeat' split
  all_goals infer_instance

variable {ι : Type} [DecidableEq ι] {cfg : PoolConfig} {s s' : State ι} {b : Nat} {t : ι} {ptr : Nat}

def accept (out : Finset Nat) : Event ι → Option (Finset Nat)
  | .returned _ ptr => if ptr ∈ out then none else some (insert ptr out)
  | .freed _ ptr => if ptr ∈ out then some (out.erase ptr) else none
  | .failed _ => some out

/-- The pointers that are out after the events, if every pointer was returned and freed by turns. -/
def replay (events : List (Event ι)) : Option (Finset Nat) := events.foldlM accept ∅

def handedOut (cfg : PoolConfig) (s : State ι) : Finset Nat :=
  (Finset.range cfg.maxBlocks).filter fun b => s.place b = .allocated

/-- What the calls have reported and counted. -/
structure Books (cfg : PoolConfig) (s : State ι) : Prop where
  owing : ∀ t, t ∈ s.owing ↔ (s.pc t).owes = true
  counted : s.usedCount = wrapTo 32 ((handedOut cfg s).card + s.owing.card)
  replayed : replay s.events = some ((handedOut cfg s).image cfg.blockPtr)

theorem mem_handedOut : b ∈ handedOut cfg s ↔ b < cfg.maxBlocks ∧ s.place b = .allocated := by
  rw [handedOut, Finset.mem_filter, Finset.mem_range]

theorem handedOut_congr (same : ∀ c, s'.place c = .allocated ↔ s.place c = .allocated) :
    handedOut cfg s' = handedOut cfg s := by
  ext c
  rw [mem_handedOut, mem_handedOut, same]

theorem handedOut_elsewhere {new : Place ι} (place : s'.place = update s.place b new)
    (old : s.place b ≠ .allocated) (other : new ≠ .allocated) : handedOut cfg s' = handedOut cfg s := by
  apply handedOut_congr
  rw [place]
  exact update_eq_iff old other

theorem handedOut_insert (inside : b < cfg.maxBlocks) (place : s'.place = update s.place b .allocated) :
    handedOut cfg s' = insert b (handedOut cfg s) := by
  ext c
  rw [mem_handedOut, Finset.mem_insert, mem_handedOut, place]
  by_cases here : c = b
  · rw [here, update_self]
    exact ⟨fun _ => .inl rfl,fun _ => ⟨inside,rfl⟩⟩
  · rw [update_of_ne here]
    exact ⟨.inr,fun found => found.resolve_left here⟩

theorem handedOut_erase (new : Place ι) (other : new ≠ .allocated)
    (place : s'.place = update s.place b new) : handedOut cfg s' = (handedOut cfg s).erase b := by
  ext c
  rw [mem_handedOut, Finset.mem_erase, mem_handedOut, place]
  by_cases here : c = b
  · rw [here, update_self]
    exact ⟨fun both => absurd both.2 other,fun both => absurd rfl both.1⟩
  · rw [update_of_ne here]
    exact ⟨fun both => ⟨here,both⟩,fun both => both.2⟩

theorem mem_image_blockPtr {out : Finset Nat} : cfg.blockPtr b ∈ out.image cfg.blockPtr ↔ b ∈ out := by
  rw [Finset.mem_image]
  constructor
  · rintro ⟨c,member,same⟩
    rw [← blockPtr_injective cfg same]
    exact member
  · exact fun member => ⟨b,member,rfl⟩

section

variable {pc : PC}

omit [DecidableEq ι] in
theorem owing_insert [DecidableEq ι] (h : ∀ u, u ∈ s.owing ↔ (s.pc u).owes = true) (owes : pc.owes = true) (u : ι) :
    u ∈ insert t s.owing ↔ (update s.pc t pc u).owes = true := by
  rw [Finset.mem_insert, h]
  by_cases own : u = t
  · rw [own, update_self]
    exact ⟨fun _ => owes,fun _ => .inl rfl⟩
  · rw [update_of_ne own]
    exact ⟨fun found => found.resolve_left own,.inr⟩

theorem owing_erase (h : ∀ u, u ∈ s.owing ↔ (s.pc u).owes = true) (clear : pc.owes = false) (u : ι) :
    u ∈ s.owing.erase t ↔ (update s.pc t pc u).owes = true := by
  rw [Finset.mem_erase, h]
  by_cases own : u = t
  · rw [own, update_self, clear]
    exact ⟨fun both => absurd rfl both.1,nofun⟩
  · rw [update_of_ne own]
    exact ⟨fun both => both.2,fun owes => ⟨own,owes⟩⟩

variable (h : Books cfg s)
include h

theorem Books.keep (pcs : s'.pc = update s.pc t pc) (owes : pc.owes = (s.pc t).owes)
    (owing : s'.owing = s.owing) (count : s'.usedCount = s.usedCount) (out : handedOut cfg s' = handedOut cfg s)
    (events : s'.events = s.events ∨ s'.events = s.events ++ [.failed t]) : Books cfg s' where
  owing u := by
    rw [owing, h.owing, pcs, update_same PC.owes owes]
  counted := by rw [count, out, owing, h.counted]
  replayed := by
    rw [out]
    rcases events with silent | failed
    · rw [silent]
      exact h.replayed
    · rw [failed]
      exact foldlM_concat h.replayed rfl

theorem Books.recount (place : s'.place = s.place) (events : s'.events = s.events)
    (owing : ∀ u, u ∈ s'.owing ↔ (s'.pc u).owes = true)
    (counted : s'.usedCount = wrapTo 32 ((handedOut cfg s).card + s'.owing.card)) : Books cfg s' := by
  have out : handedOut cfg s' = handedOut cfg s := handedOut_congr fun c => by rw [place]
  refine ⟨owing,?_,?_⟩
  · rw [out]
    exact counted
  · rw [out, events]
    exact h.replayed

theorem Books.count (pc : s.pc t = .allocCount b) :
    Books cfg ((s.setCount (fetchAdd s.usedCount) (insert t s.owing)).goto t (.allocFlag b)) := by
  have new : t ∉ s.owing := by
    rw [h.owing, pc]
    exact nofun
  apply h.recount
  case place => rfl
  case events => rfl
  case owing => exact owing_insert h.owing rfl
  case counted =>
    change fetchAdd s.usedCount = wrapTo 32 ((handedOut cfg s).card + (insert t s.owing).card)
    rw [h.counted, fetchAdd_wrapTo, Finset.card_insert_of_notMem new, add_assoc]

theorem Books.give (pc : s.pc t = .allocFlag b) (inside : b < cfg.maxBlocks) (transit : s.place b ≠ .allocated) :
    Books cfg (((((s.setFlag b true).moveTo b .allocated).setCount s.usedCount (s.owing.erase t)).enter
      (.returned t (cfg.blockPtr b))).goto t .idle) := by
  have member : t ∈ s.owing := by
    rw [h.owing, pc]
    rfl
  have new : b ∉ handedOut cfg s := fun found => transit (mem_handedOut.1 found).2
  constructor
  case owing => exact owing_erase h.owing rfl
  case counted =>
    rw [handedOut_insert (s := s) inside rfl, Finset.card_insert_of_notMem new]
    change s.usedCount = wrapTo 32 ((handedOut cfg s).card + 1 + (s.owing.erase t).card)
    rw [h.counted, ← Finset.card_erase_add_one member]
    congr 1
    omega
  case replayed =>
    rw [handedOut_insert (s := s) inside rfl, Finset.image_insert]
    apply foldlM_concat h.replayed
    exact if_neg (by rw [mem_image_blockPtr]; exact new)

theorem Books.take (idle : s.pc t = .idle) (inside : b < cfg.maxBlocks) (used : s.place b = .allocated) :
    Books cfg ((((s.moveTo b (.transit t)).setCount s.usedCount (insert t s.owing)).enter
      (.freed t (cfg.blockPtr b))).goto t (.freeLoad b)) := by
  have new : t ∉ s.owing := by
    rw [h.owing, idle]
    exact nofun
  have member : b ∈ handedOut cfg s := mem_handedOut.2 ⟨inside,used⟩
  constructor
  case owing => exact owing_insert h.owing rfl
  case counted =>
    rw [handedOut_erase (s := s) (.transit t) nofun rfl]
    change s.usedCount = wrapTo 32 (((handedOut cfg s).erase b).card + (insert t s.owing).card)
    rw [h.counted, Finset.card_insert_of_notMem new, ← Finset.card_erase_add_one member]
    congr 1
    omega
  case replayed =>
    rw [handedOut_erase (s := s) (.transit t) nofun rfl,
      Finset.image_erase fun c d same => blockPtr_injective cfg same]
    apply foldlM_concat h.replayed
    exact if_pos (mem_image_blockPtr.2 member)

theorem Books.discount (pc : s.pc t = .freeCount b) :
    Books cfg ((s.setCount (fetchSub s.usedCount) (s.owing.erase t)).goto t (.freeFlag b)) := by
  have member : t ∈ s.owing := by
    rw [h.owing, pc]
    rfl
  apply h.recount
  case place => rfl
  case events => rfl
  case owing => exact owing_erase h.owing rfl
  case counted =>
    change fetchSub s.usedCount = wrapTo 32 ((handedOut cfg s).card + (s.owing.erase t).card)
    rw [h.counted, ← Finset.card_erase_add_one member, ← add_assoc, fetchSub_wrapTo]

end

section

variable {free : List Nat} {a : Act ι} {u : ι}

def Inv (cfg : PoolConfig) (s : State ι) : Prop := (∃ free, Links cfg s free) ∧ Books cfg s

theorem Inv.allocLoop (h : Inv cfg s) (holds : (s.pc t).holds = none) (owes : (s.pc t).owes = false) :
    Inv cfg (s.allocLoop t) := by
  obtain ⟨⟨free,links⟩,books⟩ := h
  unfold State.allocLoop
  split
  · exact ⟨⟨free,links.load rfl rfl rfl rfl rfl rfl holds.symm fun _ => trivial⟩,
      books.keep rfl owes.symm rfl rfl rfl (.inr rfl)⟩
  · rename_i some_
    exact ⟨⟨free,links.load rfl rfl rfl rfl rfl rfl holds.symm fun saw => ⟨saw,some_⟩⟩,
      books.keep rfl owes.symm rfl rfl rfl (.inl rfl)⟩

/-- A step of a running call. -/
theorem stepNext_inv (h : Inv cfg s) {spurious : Bool} (guard : recent s (.step t spurious))
    (step : stepNext cfg t spurious s = some s') : Inv cfg s' := by
  have loop := h.allocLoop (t := t)
  obtain ⟨⟨free,links⟩,books⟩ := h
  have thread := links.threads t
  unfold recent at guard
  cases pc : s.pc t <;> simp only [stepNext, pc] at step guard <;> rw [pc] at thread loop
  case idle => cases step
  case allocLoad =>
    cases step
    exact loop rfl rfl
  case allocNext head =>
    cases step
    exact ⟨⟨free,links.quiet rfl rfl rfl rfl (fun _ _ => rfl) (fun _ _ => rfl) (by rw [pc]; rfl)
      ⟨⟨thread.1.past,thread.1.tag,thread.1.current⟩,thread.2,fun _ => rfl⟩⟩,
      books.keep rfl (by rw [pc]; rfl) rfl rfl rfl (.inl rfl)⟩
  case allocCas head next =>
    split at step
    · rename_i same
      cases step
      refine ⟨links.pop pc guard same.1,books.keep rfl (by rw [pc]; rfl) rfl rfl ?_ (.inl rfl)⟩
      have top := links.top_free
      rw [same.1] at top
      exact handedOut_elsewhere rfl (by rw [top]; exact nofun) nofun
    · cases step
      exact loop rfl rfl
  case allocCount b =>
    cases step
    exact ⟨⟨free,links.quiet rfl rfl rfl rfl (fun _ _ => rfl) (fun _ _ => rfl) (by rw [pc]; rfl) trivial⟩,
      books.count pc⟩
  case allocFlag b =>
    cases step
    have holds : (s.pc t).holds = some b := by rw [pc]; rfl
    have transit := (links.holding t b).1 holds
    refine ⟨⟨free,?_⟩,books.give pc (links.inside b (by rw [transit]; exact nofun)) (by rw [transit]; exact nofun)⟩
    exact links.hand ⟨rfl,rfl,rfl,rfl,fun u other => links.apart holds other,.inr holds,.inr ⟨rfl,nofun⟩⟩
      (by rw [transit]; exact nofun) nofun rfl rfl trivial
  case freeLoad b =>
    cases step
    exact ⟨⟨free,links.load rfl rfl rfl rfl rfl rfl (by rw [pc]; rfl) id⟩,
      books.keep rfl (by rw [pc]; rfl) rfl rfl rfl (.inl rfl)⟩
  case freeLink b head =>
    cases step
    refine ⟨⟨free,?_⟩,books.keep rfl (by rw [pc]; rfl) rfl rfl rfl (.inl rfl)⟩
    refine links.quiet rfl rfl rfl rfl (fun _ _ => rfl) ?_ (by rw [pc]; rfl)
      ⟨⟨thread.past,thread.tag,thread.current⟩,update_self ..⟩
    intro c other
    apply update_of_ne
    rintro rfl
    exact other (by rw [pc]; rfl)
  case freeCas b head =>
    split at step
    · rename_i same
      cases step
      refine ⟨links.push pc guard same.1,books.keep rfl (by rw [pc]; rfl) rfl rfl ?_ (.inl rfl)⟩
      have transit := (links.holding t b).1 (by rw [pc]; rfl)
      exact handedOut_elsewhere rfl (by rw [transit]; exact nofun) nofun
    · cases step
      exact ⟨⟨free,links.load rfl rfl rfl rfl rfl rfl (by rw [pc]; rfl) id⟩,
        books.keep rfl (by rw [pc]; rfl) rfl rfl rfl (.inl rfl)⟩
  case freeCount b =>
    cases step
    exact ⟨⟨free,links.quiet rfl rfl rfl rfl (fun _ _ => rfl) (fun _ _ => rfl) (by rw [pc]; rfl) trivial⟩,
      books.discount pc⟩
  case freeFlag b =>
    cases step
    exact ⟨⟨free,links.quiet rfl rfl rfl rfl (fun _ _ => rfl) (fun _ _ => rfl) (by rw [pc]; rfl) trivial⟩,
      books.keep rfl (by rw [pc]; rfl) rfl rfl rfl (.inl rfl)⟩

theorem beginFree_inv (h : Inv cfg s) (step : beginFree cfg t ptr s = some s') : Inv cfg s' := by
  obtain ⟨⟨free,links⟩,books⟩ := h
  simp only [beginFree] at step
  obtain ⟨enabled,step⟩ := enabled step
  obtain ⟨idle,pointer,used⟩ := enabled
  cases step
  have busy : s.place (cfg.ptrToIndex ptr) ≠ .free := by
    rw [used]
    exact nofun
  generalize cfg.ptrToIndex ptr = b at pointer used busy
  subst pointer
  refine ⟨⟨free,?_⟩,books.take idle (links.inside b busy) used⟩
  refine links.hand ⟨rfl,rfl,rfl,rfl,?before,.inl ?held,.inl ⟨rfl,rfl⟩⟩ busy nofun rfl rfl trivial
  case before =>
    intro u _
    rw [used]
    exact nofun
  case held => rw [idle]; rfl

/-- Every step keeps the pool together. -/
theorem next_inv (h : Inv cfg s) (guard : recent s a) (step : next cfg a s = some s') : Inv cfg s' := by
  cases a with
  | allocate t =>
    obtain ⟨⟨free,links⟩,books⟩ := h
    simp only [next, beginAllocate] at step
    obtain ⟨idle,⟨⟩⟩ := enabled step
    exact ⟨⟨free,links.quiet rfl rfl rfl rfl (fun _ _ => rfl) (fun _ _ => rfl) (by rw [idle]; rfl) trivial⟩,
      books.keep rfl (by rw [idle]; rfl) rfl rfl rfl (.inl rfl)⟩
  | free t ptr => exact beginFree_inv h step
  | write b value =>
    obtain ⟨⟨free,links⟩,books⟩ := h
    simp only [next] at step
    obtain ⟨used,⟨⟩⟩ := enabled step
    exact ⟨⟨free,links.write used⟩,books.recount rfl rfl books.owing books.counted⟩
  | step t spurious => exact stepNext_inv h guard step

theorem init_links : Links cfg (machine (ι := ι) cfg).init (List.range' 0 cfg.maxBlocks) where
  tag := by
    change headTag (packHead 0 0) = 0
    decide
  linked := by
    have some_ := cfg.some
    have small : cfg.maxBlocks ≤ 65535 := cfg.fitsIndex
    obtain ⟨n,last⟩ : ∃ n, cfg.maxBlocks = n + 1 := ⟨cfg.maxBlocks - 1,by omega⟩
    change Linked _ kFreeIndexEmpty (headIndex (packHead 0 0)) _
    rw [headIndex_packHead, last]
    refine linked_range ?_ ?_ cfg.fitsIndex (by omega)
    · intro j inner
      change (if j + 1 < cfg.maxBlocks then j + 1 else kInvalidIndex) % 65536 = j + 1
      rw [if_pos inner]
      omega
    · intro j outer
      change (if j + 1 < cfg.maxBlocks then j + 1 else kInvalidIndex) % 65536 = kFreeIndexEmpty
      rw [if_neg (by omega)]
      rfl
  mem b := by
    rw [mem_range'_1]
    exact ⟨fun range => ⟨by omega,rfl⟩,fun both => ⟨Nat.zero_le _,by omega⟩⟩
  inside b busy := absurd rfl busy
  holding t b := ⟨nofun,nofun⟩
  threads _ := trivial

theorem init_books : Books cfg (machine (ι := ι) cfg).init := by
  have nothing : handedOut cfg (machine (ι := ι) cfg).init = ∅ := by
    rw [Finset.eq_empty_iff_forall_notMem]
    intro b member
    exact absurd (mem_handedOut.1 member).2 nofun
  refine ⟨fun t => ⟨fun member => absurd member (Finset.notMem_empty t),nofun⟩,?_,?_⟩
  · rw [nothing]
    rfl
  · rw [nothing]
    rfl

theorem failed_of_loop (failed : (s.allocLoop t).events = s.events ++ [.failed u]) :
    u = t ∧ headIndex s.freeHead = kFreeIndexEmpty := by
  unfold State.allocLoop at failed
  split at failed
  · rename_i none
    have same := singleton_inj.1 (append_cancel_left failed)
    exact ⟨(Event.failed.inj same).symm,none⟩
  · exact absurd (append_cancel_left (failed.symm.trans (append_nil _).symm)) (cons_ne_nil _ _)

theorem next_failed (step : next cfg a s = some s') (failed : s'.events = s.events ++ [.failed u]) :
    s.pc u ≠ .idle ∧ headIndex s.freeHead = kFreeIndexEmpty := by
  have silent : ∀ r : State ι, some r = some s' → r.events = s.events → False := by
    rintro r same quiet
    rw [Option.some.inj same, failed] at quiet
    exact cons_ne_nil _ _ (append_cancel_left (quiet.trans (append_nil _).symm))
  have other : ∀ (r : State ι) (e : Event ι), some r = some s' → r.events = s.events ++ [e] → e = .failed u := by
    intro r e same eq
    rw [Option.some.inj same, failed] at eq
    exact (singleton_inj.1 (append_cancel_left eq)).symm
  cases a with
  | allocate t =>
    simp only [next, beginAllocate] at step
    obtain ⟨_,step⟩ := enabled step
    exact (silent _ step rfl).elim
  | free t ptr =>
    simp only [next, beginFree] at step
    obtain ⟨_,step⟩ := enabled step
    cases other _ (.freed t ptr) step rfl
  | write b value =>
    simp only [next] at step
    obtain ⟨_,step⟩ := enabled step
    exact (silent _ step rfl).elim
  | step t spurious =>
    simp only [next] at step
    cases pc : s.pc t <;> simp only [stepNext, pc] at step
    case idle => cases step
    case allocLoad =>
      rw [← Option.some.inj step] at failed
      obtain ⟨rfl,none⟩ := failed_of_loop failed
      exact ⟨by rw [pc]; exact nofun,none⟩
    case allocCas =>
      split at step
      · exact (silent _ step rfl).elim
      · rw [← Option.some.inj step] at failed
        obtain ⟨rfl,none⟩ := failed_of_loop failed
        exact ⟨by rw [pc]; exact nofun,none⟩
    case allocFlag b => cases other _ (.returned t (cfg.blockPtr b)) step rfl
    case freeCas => split at step <;> exact (silent _ step rfl).elim
    -- the others report nothing
    all_goals exact (silent _ step rfl).elim

end

/-- The pointers were returned and freed by turns, those that are out belong to the pool and do not overlap; every block
is in one place, the free list, its holder or a call; an `Allocate` that gives up finds the list empty; and the pool
counts its blocks. -/
structure Sound (cfg : PoolConfig) (s : State ι) : Prop where
  byTurns : ∃ out, replay s.events = some out ∧
    (∀ ptr, ptr ∈ out ↔ ∃ b, s.place b = .allocated ∧ cfg.blockPtr b = ptr) ∧
    (∀ ptr ∈ out, cfg.ownsPointer ptr = true) ∧
    ∀ ptr ∈ out, ∀ ptr' ∈ out, ptr < ptr' → ptr + cfg.blockSize ≤ ptr'
  partition : ∃ free, Linked s.link kFreeIndexEmpty (headIndex s.freeHead) free ∧ free.Nodup ∧
    (∀ b, b ∈ free ↔ b < cfg.maxBlocks ∧ s.place b = .free) ∧
    (∀ b t, (s.pc t).holds = some b ↔ s.place b = .transit t) ∧ ∀ b, s.place b ≠ .free → b < cfg.maxBlocks
  givesUp : ∀ a s' t, next cfg a s = some s' → s'.events = s.events ++ [.failed t] →
    s.pc t ≠ .idle ∧ Linked s.link kFreeIndexEmpty (headIndex s.freeHead) [] ∧ ∀ b < cfg.maxBlocks, s.place b ≠ .free
  counted : (∀ t, s.pc t = .idle) → s.usedCount = (handedOut cfg s).card

theorem Links.mem_out {free : List Nat} (links : Links cfg s free) :
    ptr ∈ (handedOut cfg s).image cfg.blockPtr ↔ ∃ b, s.place b = .allocated ∧ cfg.blockPtr b = ptr := by
  rw [Finset.mem_image]
  constructor
  · rintro ⟨b,member,pointer⟩
    exact ⟨b,(mem_handedOut.1 member).2,pointer⟩
  · rintro ⟨b,used,pointer⟩
    exact ⟨b,mem_handedOut.2 ⟨links.inside b (by rw [used]; exact nofun),used⟩,pointer⟩

theorem Inv.sound (h : Inv cfg s) : Sound cfg s := by
  obtain ⟨⟨free,links⟩,books⟩ := h
  constructor
  case byTurns =>
    refine ⟨_,books.replayed,fun ptr => links.mem_out,?_,?_⟩
    · intro ptr member
      obtain ⟨b,found,rfl⟩ := Finset.mem_image.1 member
      exact ownsPointer_blockPtr cfg (mem_handedOut.1 found).1
    · intro ptr member ptr' member' less
      obtain ⟨b,_,rfl⟩ := Finset.mem_image.1 member
      obtain ⟨c,_,rfl⟩ := Finset.mem_image.1 member'
      exact blockPtr_apart cfg (Nat.lt_of_mul_lt_mul_right less)
  case partition =>
    exact ⟨free,links.linked,links.linked.nodup,links.mem,fun b t => links.holding t b,links.inside⟩
  case givesUp =>
    intro a s' t step failed
    obtain ⟨running,none⟩ := next_failed step failed
    obtain ⟨empty,nobody⟩ := links.empty none
    subst empty
    exact ⟨running,links.linked,nobody⟩
  case counted =>
    intro idle
    have settled : s.owing = ∅ := by
      rw [Finset.eq_empty_iff_forall_notMem]
      intro t owes
      rw [books.owing, idle] at owes
      cases owes
    have few : (handedOut cfg s).card ≤ cfg.maxBlocks := by
      calc (handedOut cfg s).card ≤ (Finset.range cfg.maxBlocks).card := Finset.card_filter_le _ _
        _ = cfg.maxBlocks := Finset.card_range _
    have small : cfg.maxBlocks ≤ 65535 := cfg.fitsIndex
    rw [books.counted, settled, Finset.card_empty, add_zero]
    apply wrapTo_of_lt
    omega

/-- **No block is lost or handed out twice**, in every interleaving of any number of threads. -/
theorem pool_sound (h : Reach (machine (ι := ι) cfg) recent s) : Sound cfg s := by
  have inv : Inv cfg s := by
    apply h.invariant
    case base => exact ⟨⟨_,init_links⟩,init_books⟩
    case keep =>
      intro s s' a _ before guard step
      exact next_inv before guard step
  exact inv.sound

def smallPool : PoolConfig := ⟨20, 2, 16, by decide, Nat.two_pos, by decide, by decide⟩

def steps (t : Bool) (n : Nat) : List (Act Bool) := List.replicate n (.step t false)

/-- One thread stalls before it reads the link of the first block. The other takes both blocks, writes into the first
and puts it back. The stalled compare-and-swap fails on the tag, and a third `Allocate` finds no block. -/
def stalledPop : List (Act Bool) :=
  [.allocate false] ++ steps false 1 ++ [.allocate true] ++ steps true 5 ++ [.allocate true] ++ steps true 5 ++
    [.write 0 1] ++ steps false 1 ++ [.free true 0] ++ steps true 5 ++ steps false 5 ++ [.allocate true] ++ steps true 1

def stalledEvents : List (Event Bool) :=
  [.returned true 0, .returned true 32, .freed true 0, .returned false 0, .failed true]

theorem pool_sound_stalled : ∃ s : State Bool, Reach (machine smallPool) recent s ∧
    s.events = stalledEvents ∧ s.usedCount = 2 ∧ Sound smallPool s := by
  obtain ⟨s,reached,events,count⟩ := reach_of_decided (machine smallPool) recent stalledPop
      (fun s => s.events = stalledEvents ∧ s.usedCount = 2) (by decide +kernel)
  exact ⟨s,reached,events,count,pool_sound reached⟩

end Newosp.MemPool
