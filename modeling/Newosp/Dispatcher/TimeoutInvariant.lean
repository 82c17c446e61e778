import Newosp.Dispatcher.TimeoutSteps

/-!
# What the executions and the scans keep

The place of a block fixes its reference count and how often it was recycled. A thread may still execute a block that
was claimed or recycled under it, but then only stages without successors are left.
-/

namespace Newosp.Dispatcher.Timeouts
open Lib Function

variable {ι : Type}

section

variable (g : Pipeline)

def Harmless : ExecPC → Prop
  | .submitState _ | .addRef .. => False
  | .stage _ u rest | .handler _ u rest => ∀ v ∈ u :: rest, g.successors v = []
  | .releaseLoad _ u rest | .releaseCas _ u rest _ => ∀ v ∈ g.successors u ++ rest, g.successors v = []
  | _ => True

def pending : ExecPC → Nat
  | .submitState _ => 1
  | .stage _ _ rest | .handler _ _ rest | .addRef _ _ rest => 1 + rest.length
  | .releaseLoad _ u rest | .releaseCas _ u rest _ => 1 + (g.successors u).length + rest.length
  | _ => 0

/-- The references of the execution of a live block. -/
def held (exec : ι → ExecPC) : Option ι → Nat
  | some t => pending g (exec t)
  | none => 0

def countOf (s : State ι) (b : Nat) : Place ι → Nat
  | .live worker => s.extra b + held g s.exec worker
  | _ => 0

def ExecPC.unset : ExecPC → Nat
  | .recycleState .. => 1
  | _ => 0

def ScanPC.unset : ScanPC → Nat
  | .mark .. | .recycleState .. => 1
  | _ => 0

/-- How many allocations of a block are not yet recycled, according to its place. -/
def openOf (s : State ι) : Place ι → Nat
  | .free => 0
  | .filling _ | .live _ => 1
  | .dropped t => (s.exec t).unset
  | .claimed t => (s.scan t).unset

/-- The block is in the hands of thread `t`. -/
def Place.mine (t : ι) (p : Place ι) : Prop := p = .filling t ∨ p = .live (some t) ∨ p = .dropped t

def ExecOk : ExecPC → Prop
  | .submitFields _ _ r | .submitRefcount _ r => 1 ≤ r
  | .stage _ u rest | .handler _ u rest => ∀ v ∈ u :: rest, v < g.stages.length
  | .addRef _ u rest => 0 < (g.successors u).length ∧ ∀ v ∈ u :: rest, v < g.stages.length
  | .releaseLoad _ u rest => ∀ v ∈ u :: rest, v < g.stages.length
  | .releaseCas _ u rest cur => 0 < cur ∧ ∀ v ∈ u :: rest, v < g.stages.length
  | .recycleState _ rest | .recyclePush _ rest => rest = []
  | _ => True

def ScanOk : ScanPC → Prop
  | .cas _ _ cur => 0 < cur
  | _ => True

structure Inv (s : State ι) : Prop where
  nodup : s.free.Nodup
  free : ∀ b ∈ s.free, s.place b = .free
  fills : ∀ t b, (s.exec t).fills = some b ↔ s.place b = .filling t
  recycles : ∀ t b, (s.exec t).recycles = some b ↔ s.place b = .dropped t
  claims : ∀ t b, (s.scan t).claims = some b ↔ s.place b = .claimed t
  worker : ∀ t b, s.place b = .live (some t) → (s.exec t).works = some b
  works : ∀ t b, (s.exec t).works = some b → s.place b = .live (some t) ∨
    Harmless g (s.exec t) ∧ (s.place b = .free ∨ ∃ u, s.place b = .claimed u)
  count : ∀ b, (s.block b).refcount = countOf g s b (s.place b)
  extra : ∀ b, s.place b = .live none → 0 < s.extra b
  number : ∀ b, s.recycled b + openOf s (s.place b) = s.allocs b
  epoch : ∀ t b, (s.place b).mine t → s.epoch t = s.allocs b
  execs : ∀ t, ExecOk g (s.exec t)
  scans : ∀ t, ScanOk (s.scan t)

end

section

variable {g : Pipeline} {s : State ι} {t : ι} {b c : Nat} {pc : ExecPC} {new : Place ι} {p : Place ι}

theorem ExecPC.of_fills (filling : pc.fills = some b) : pc.works = none ∧ pc.recycles = none ∧ pc.unset = 0 := by
  cases pc <;> cases filling <;> exact ⟨rfl,rfl,rfl⟩

theorem ExecPC.of_works (working : pc.works = some b) : pc.fills = none ∧ pc.recycles = none ∧ pc.unset = 0 := by
  cases pc <;> cases working <;> exact ⟨rfl,rfl,rfl⟩

theorem ExecPC.of_recycles (recycling : pc.recycles = some b) : pc.fills = none ∧ pc.works = none := by
  cases pc <;> cases recycling <;> exact ⟨rfl,rfl⟩

/-- The block that a program counter is about. -/
def ExecPC.about (pc : ExecPC) (b : Nat) : Prop := pc.fills = some b ∨ pc.works = some b ∨ pc.recycles = some b

theorem ExecPC.about_unique (one : pc.about b) (two : pc.about c) : c = b := by
  rcases one with one | one | one
  · obtain ⟨idle,calm,_⟩ := ExecPC.of_fills one
    simp only [ExecPC.about, one, idle, calm, reduceCtorEq, or_false, Option.some.injEq] at two
    exact two.symm
  · obtain ⟨full,calm,_⟩ := ExecPC.of_works one
    simp only [ExecPC.about, one, full, calm, reduceCtorEq, or_false, false_or, Option.some.injEq] at two
    exact two.symm
  · obtain ⟨full,idle⟩ := ExecPC.of_recycles one
    simp only [ExecPC.about, one, full, idle, reduceCtorEq, false_or, Option.some.injEq] at two
    exact two.symm

theorem Inv.names (h : Inv g s) (mine : (s.place b).mine t) : (s.exec t).about b := by
  rcases mine with filling | live | dropped
  · exact .inl ((h.fills t b).2 filling)
  · exact .inr (.inl (h.worker t b live))
  · exact .inr (.inr ((h.recycles t b).2 dropped))

theorem Inv.only (h : Inv g s) (named : (s.exec t).about b) (c : Nat) (mine : (s.place c).mine t) : c = b :=
  ExecPC.about_unique named (h.names mine)

theorem Inv.alone (h : Inv g s) (mine : (s.place b).mine t) (u : ι) (ne : u ≠ t) : (s.exec u).works ≠ some b := by
  intro working
  rcases h.works u b working with live | ⟨_,isFree | ⟨v,claimed⟩⟩
  · rcases mine with eq | eq | eq <;> rw [live] at eq <;> cases eq
    exact ne rfl
  · rcases mine with eq | eq | eq <;> rw [isFree] at eq <;> cases eq
  · rcases mine with eq | eq | eq <;> rw [claimed] at eq <;> cases eq

/-- The place of a block and the program counter of the thread that put it there say the same. -/
inductive Named (t : ι) (b : Nat) : Place ι → ExecPC → Prop
  | filling {pc : ExecPC} : pc.fills = some b → Named t b (.filling t) pc
  | live {pc : ExecPC} : pc.works = some b → Named t b (.live (some t)) pc
  | dropped {pc : ExecPC} : pc.recycles = some b → Named t b (.dropped t) pc
  | left : Named t b (.live none) .idle
  | freed : Named t b .free .idle

theorem Named.about_iff (now : Named t b new pc) : (∀ c, pc.fills = some c ↔ c = b ∧ new = .filling t) ∧
    (∀ c, pc.recycles = some c ↔ c = b ∧ new = .dropped t) ∧ ∀ c, pc.works = some c ↔ c = b ∧ new = .live (some t) := by
  cases now with
  | filling eq =>
    obtain ⟨idle,calm,-⟩ := ExecPC.of_fills eq
    simp [eq, idle, calm, eq_comm]
  | live eq =>
    obtain ⟨full,calm,-⟩ := ExecPC.of_works eq
    simp [eq, full, calm, eq_comm]
  | dropped eq =>
    obtain ⟨full,idle⟩ := ExecPC.of_recycles eq
    simp [eq, full, idle, eq_comm]
  | left | freed => simp [ExecPC.fills, ExecPC.recycles, ExecPC.works]

theorem Named.apart (now : Named t b new pc) {u : ι} (ne : u ≠ t) : ¬ new.mine u := by
  rintro (rfl | rfl | rfl) <;> cases now <;> exact ne rfl

theorem Named.unclaimed (now : Named t b new pc) (u : ι) : new ≠ .claimed u := by
  rintro rfl
  cases now

theorem Inv.number_at (h : Inv g s) (at_ : s.place b = p) : s.recycled b + openOf s p = s.allocs b := at_ ▸ h.number b

theorem Inv.count_at (h : Inv g s) (at_ : s.place b = p) : (s.block b).refcount = countOf g s b p := at_ ▸ h.count b

end

section

variable [DecidableEq ι] {g : Pipeline} {s s' : State ι} {t : ι} {block : Nat → DataBlock} {b : Nat} {new : Place ι}

theorem Inv.quiet (h : Inv g s) (pc : ExecPC) (count : ∀ b, (block b).refcount = (s.block b).refcount)
    (fills : pc.fills = (s.exec t).fills) (recycles : pc.recycles = (s.exec t).recycles)
    (unset : pc.unset = (s.exec t).unset)
    (worker : ∀ b, s.place b = .live (some t) → pc.works = some b ∧ pending g pc = pending g (s.exec t))
    (works : ∀ b, pc.works = some b → s.place b = .live (some t) ∨
      Harmless g pc ∧ (s.place b = .free ∨ ∃ u, s.place b = .claimed u))
    (ok : ExecOk g pc) : Inv g { s with block := block, exec := update s.exec t pc } := by
  refine { h with fills := ?fills, recycles := ?recycles, worker := ?worker, works := ?works, count := ?count,
                  number := ?number, execs := ?execs }
  case fills =>
    intro u b
    rw [update_same ExecPC.fills fills]
    exact h.fills u b
  case recycles =>
    intro u b
    rw [update_same ExecPC.recycles recycles]
    exact h.recycles u b
  case worker =>
    refine (forall_update_iff s.exec fun u pc => ∀ b, s.place b = .live (some u) → pc.works = some b).2 ?_
    exact ⟨fun b live => (worker b live).1,fun u _ => h.worker u⟩
  case works =>
    refine (forall_update_iff s.exec fun u pc => ∀ b, pc.works = some b → s.place b = .live (some u) ∨
      Harmless g pc ∧ (s.place b = .free ∨ ∃ v, s.place b = .claimed v)).2 ?_
    exact ⟨works,fun u _ => h.works u⟩
  case count =>
    intro b
    rw [count, h.count b]
    cases where_ : s.place b with
    | live holder =>
      cases holder with
      | none => rfl
      | some u =>
        have pends : pending g (update s.exec t pc u) = pending g (s.exec u) := by
          by_cases own : u = t
          · subst own
            rw [update_self]
            exact (worker b where_).2
          · rw [update_of_ne own]
        simp only [countOf, held, pends]
    | _ => rfl
  case number =>
    intro b
    rw [← h.number b]
    cases s.place b with
    | dropped u => simp only [openOf, update_same ExecPC.unset unset]
    | _ => rfl
  case execs => exact (forall_update_iff s.exec fun _ => ExecOk g).2 ⟨ok,fun u _ => h.execs u⟩

theorem Inv.scanQuiet (h : Inv g s) {old pc : ScanPC} (at_ : s.scan t = old) (claims : pc.claims = old.claims)
    (unset : pc.unset = old.unset) (ok : ScanOk pc) : Inv g (s.scanTo t pc) := by
  subst at_
  refine { h with claims := ?_, number := ?_, scans := ?_, count := h.count, epoch := h.epoch }
  · intro u b
    rw [State.scanTo, update_same ScanPC.claims claims]
    exact h.claims u b
  · intro b
    change s.recycled b + openOf (s.scanTo t pc) (s.place b) = s.allocs b
    rw [← h.number b]
    cases s.place b with
    | claimed u => simp only [openOf, State.scanTo, update_same ScanPC.unset unset]
    | _ => rfl
  · exact (forall_update_iff s.scan fun _ => ScanOk).2 ⟨ok,fun u _ => h.scans u⟩

theorem Inv.move (h : Inv g s) {pc : ExecPC}
    (frame : s' = { s with block := s'.block, free := s'.free, exec := update s.exec t pc,
                           place := update s.place b new, extra := s'.extra, allocs := s'.allocs,
                           recycled := s'.recycled, epoch := s'.epoch })
    (others : ∀ c, c ≠ b → (s'.block c).refcount = (s.block c).refcount ∧ s'.extra c = s.extra c ∧
      s'.allocs c = s.allocs c ∧ s'.recycled c = s.recycled c)
    (epoch : ∀ u, u ≠ t → s'.epoch u = s.epoch u)
    (old : (s.place b).mine t ∨ s.place b = .free ∧ (s.exec t = .idle ∧ ∀ u, (s.exec u).works ≠ some b))
    (now : Named t b new pc) (nodup : s'.free.Nodup) (free : ∀ c ∈ s'.free, s'.place c = .free)
    (count : (s'.block b).refcount = countOf g s' b new) (extra : new = .live none → 0 < s'.extra b)
    (number : s'.recycled b + openOf s' new = s'.allocs b) (own : new.mine t → s'.epoch t = s'.allocs b)
    (ok : ExecOk g pc) : Inv g s' := by
  have place : s'.place = update s.place b new := by rw [frame]
  have here : s'.place b = new := by rw [place, update_self]
  have elsewhere : ∀ c, c ≠ b → s'.place c = s.place c := fun c ne => by rw [place, update_of_ne ne]
  have execs : s'.exec = update s.exec t pc := by rw [frame]
  have mine : s'.exec t = pc := by rw [execs, update_self]
  have theirs : ∀ u, u ≠ t → s'.exec u = s.exec u := fun u ne => by rw [execs, update_of_ne ne]
  have scan : s'.scan = s.scan := by rw [frame]
  obtain ⟨fills,recycles,works⟩ := now.about_iff
  have only : ∀ c, (s.place c).mine t → c = b := by
    rcases old with owned | ⟨-,idle,-⟩
    · exact h.only (h.names owned)
    · intro c owned
      have about := h.names owned
      rw [idle] at about
      rcases about with eq | eq | eq <;> cases eq
  have alone : ∀ u, u ≠ t → (s.exec u).works ≠ some b := by
    rcases old with owned | ⟨-,-,quiet⟩
    · exact h.alone owned
    · exact fun u _ => quiet u
  have beforeApart : ∀ u, (u ≠ t → ¬ (s.place b).mine u) ∧ s.place b ≠ .claimed u := by
    intro u
    rcases old with (eq | eq | eq) | ⟨eq,-⟩ <;> rw [eq] <;> refine ⟨?_,nofun⟩ <;>
      rintro ne (own | own | own) <;> cases own
    all_goals exact ne rfl
  have afterApart : ∀ u, u ≠ t → ¬ new.mine u := fun u ne => now.apart ne
  constructor
  case nodup => exact nodup
  case free => exact free
  case fills =>
    refine holding_moved execs place h.fills fills (fun c eq => only c (.inl ((h.fills t c).1 eq))) ?_
    exact fun u ne => ⟨fun eq => (beforeApart u).1 ne (.inl eq),fun eq => afterApart u ne (.inl eq)⟩
  case recycles =>
    refine holding_moved execs place h.recycles recycles (fun c eq => only c (.inr (.inr ((h.recycles t c).1 eq)))) ?_
    exact fun u ne => ⟨fun eq => (beforeApart u).1 ne (.inr (.inr eq)),fun eq => afterApart u ne (.inr (.inr eq))⟩
  case claims =>
    intro u c
    rw [scan, h.claims]
    by_cases at_b : c = b
    · rw [at_b, here]
      exact ⟨fun eq => absurd eq (beforeApart u).2,fun eq => absurd eq (now.unclaimed u)⟩
    · rw [elsewhere c at_b]
  case worker =>
    intro u c live
    by_cases at_b : c = b
    · rw [at_b, here] at live
      by_cases same : u = t
      · rw [same, mine, at_b]
        exact (works b).2 ⟨rfl,same ▸ live⟩
      · exact absurd (.inr (.inl live)) (afterApart u same)
    · rw [elsewhere c at_b] at live
      by_cases same : u = t
      · rw [same] at live
        exact absurd (only c (.inr (.inl live))) at_b
      · rw [theirs u same]
        exact h.worker u c live
  case works =>
    intro u c working
    by_cases same : u = t
    · rw [same, mine] at working
      obtain ⟨at_b,live⟩ := (works c).1 working
      rw [at_b, here, same]
      exact .inl live
    · rw [theirs u same] at working ⊢
      have at_c : c ≠ b := by
        rintro rfl
        exact alone u same working
      rw [elsewhere c at_c]
      exact h.works u c working
  case count =>
    intro c
    by_cases at_b : c = b
    · rw [at_b, here]
      exact count
    · rw [(others c at_b).1, h.count c, elsewhere c at_b]
      cases where_ : s.place c with
      | live holder =>
        have same : held g s'.exec holder = held g s.exec holder := by
          cases holder with
          | none => rfl
          | some u =>
            have other : u ≠ t := by
              rintro rfl
              exact at_b (only c (.inr (.inl where_)))
            simp only [held, theirs u other]
        simp only [countOf, (others c at_b).2.1, same]
      | _ => rfl
  case extra =>
    intro c live
    by_cases at_b : c = b
    · rw [at_b, here] at live
      rw [at_b]
      exact extra live
    · rw [elsewhere c at_b] at live
      rw [(others c at_b).2.1]
      exact h.extra c live
  case number =>
    intro c
    by_cases at_b : c = b
    · rw [at_b, here]
      exact number
    · obtain ⟨_,_,allocs,recycled⟩ := others c at_b
      rw [allocs, recycled, elsewhere c at_b, ← h.number c]
      cases where_ : s.place c with
      | dropped u =>
        have other : u ≠ t := by
          rintro rfl
          exact at_b (only c (.inr (.inr where_)))
        simp only [openOf, theirs u other]
      | claimed u => simp only [openOf, scan]
      | _ => rfl
  case epoch =>
    intro u c owned
    by_cases at_b : c = b
    · rw [at_b, here] at owned
      rw [at_b]
      by_cases same : u = t
      · rw [same] at owned ⊢
        exact own owned
      · exact absurd owned (afterApart u same)
    · rw [elsewhere c at_b] at owned
      by_cases same : u = t
      · rw [same] at owned
        exact absurd (only c owned) at_b
      · rw [epoch u same, (others c at_b).2.2.1]
        exact h.epoch u c owned
  case execs =>
    rw [execs]
    exact (forall_update_iff s.exec fun _ => ExecOk g).2 ⟨ok,fun u _ => h.execs u⟩
  case scans => rw [scan]; exact h.scans

theorem Inv.scanMove (h : Inv g s) {pc : ScanPC}
    (frame : s' = { s with block := s'.block, free := s'.free, scan := update s.scan t pc,
                           place := update s.place b new, recycled := s'.recycled })
    (others : ∀ c, c ≠ b → (s'.block c).refcount = (s.block c).refcount ∧ s'.recycled c = s.recycled c)
    (old : (∃ w, s.place b = .live w) ∨ s.place b = .claimed t)
    (now : new = .free ∧ pc.claims = none ∨ new = .claimed t ∧ pc.claims = some b)
    (only : ∀ c, s.place c = .claimed t → c = b)
    (harmless : ∀ u, (s.exec u).works = some b → Harmless g (s.exec u))
    (nodup : s'.free.Nodup) (free : ∀ c ∈ s'.free, s'.place c = .free) (count : (s'.block b).refcount = 0)
    (number : s'.recycled b + openOf s' new = s'.allocs b) (ok : ScanOk pc) : Inv g s' := by
  have place : s'.place = update s.place b new := by rw [frame]
  have here : s'.place b = new := by rw [place, update_self]
  have elsewhere : ∀ c, c ≠ b → s'.place c = s.place c := fun c ne => by rw [place, update_of_ne ne]
  have scan : s'.scan = update s.scan t pc := by rw [frame]
  have exec : s'.exec = s.exec := by rw [frame]
  have extra : s'.extra = s.extra := by rw [frame]
  have allocs : s'.allocs = s.allocs := by rw [frame]
  have after : new = .free ∨ new = .claimed t := now.imp And.left And.left
  have claims : ∀ c, pc.claims = some c ↔ c = b ∧ new = .claimed t := by
    intro c
    rcases now with ⟨rfl,eq⟩ | ⟨rfl,eq⟩ <;> simp [eq, eq_comm]
  -- a block that a thread fills, executes or recycles is another one, or becomes another place
  have stays : ∀ (q : Place ι) c, s'.place c = q → q ≠ .free → (∀ u, q ≠ .claimed u) → s.place c = q := by
    intro q c eq notFree notClaimed
    have ne : c ≠ b := by
      rintro rfl
      rw [here] at eq
      rcases after with isFree | claimed
      · exact notFree (eq ▸ isFree)
      · exact notClaimed t (eq ▸ claimed)
    rw [← elsewhere c ne, eq]
  have stayed : ∀ (q : Place ι) c, s.place c = q → (∀ w, q ≠ .live w) → (∀ u, q ≠ .claimed u) → s'.place c = q := by
    intro q c eq notLive notClaimed
    have ne : c ≠ b := by
      rintro rfl
      rcases old with ⟨w,live⟩ | claimed
      · exact notLive w (eq ▸ live)
      · exact notClaimed t (eq ▸ claimed)
    rw [elsewhere c ne, eq]
  constructor
  case nodup => exact nodup
  case free => exact free
  case fills =>
    intro u c
    rw [exec, h.fills]
    exact ⟨fun eq => stayed _ c eq nofun nofun,fun eq => stays _ c eq nofun nofun⟩
  case recycles =>
    intro u c
    rw [exec, h.recycles]
    exact ⟨fun eq => stayed _ c eq nofun nofun,fun eq => stays _ c eq nofun nofun⟩
  case claims =>
    refine holding_moved scan place h.claims claims (fun c eq => only c ((h.claims t c).1 eq)) fun u other => ⟨?_,?_⟩
    · intro claimed
      rcases old with ⟨w,eq⟩ | eq <;> rw [claimed] at eq <;> cases eq
      exact other rfl
    · intro claimed
      rcases after with eq | eq <;> rw [claimed] at eq <;> cases eq
      exact other rfl
  case worker =>
    intro u c live
    rw [exec]
    exact h.worker u c (stays _ c live nofun nofun)
  case works =>
    intro u c working
    rw [exec] at working ⊢
    by_cases at_b : c = b
    · rw [at_b, here]
      refine .inr ⟨harmless u (at_b ▸ working),?_⟩
      exact after.imp_right fun claimed => ⟨t,claimed⟩
    · rw [elsewhere c at_b]
      exact h.works u c working
  case count =>
    intro c
    by_cases at_b : c = b
    · rw [at_b, here, count]
      rcases after with rfl | rfl <;> rfl
    · rw [(others c at_b).1, h.count c, elsewhere c at_b]
      cases s.place c with
      | live holder => simp only [countOf, held, extra, exec]
      | _ => rfl
  case extra =>
    intro c live
    rw [extra]
    exact h.extra c (stays _ c live nofun nofun)
  case number =>
    intro c
    by_cases at_b : c = b
    · rw [at_b, here]
      exact number
    · rw [allocs, (others c at_b).2, elsewhere c at_b, ← h.number c]
      cases where_ : s.place c with
      | dropped u => simp only [openOf, exec]
      | claimed u =>
        have other : u ≠ t := by
          rintro rfl
          exact at_b (only c where_)
        simp only [openOf, scan, update_of_ne other]
      | _ => rfl
  case epoch =>
    intro u c owned
    have epoch : s'.epoch = s.epoch := by rw [frame]
    rw [epoch, allocs]
    apply h.epoch u c
    rcases owned with eq | eq | eq
    · exact .inl (stays _ c eq nofun nofun)
    · exact .inr (.inl (stays _ c eq nofun nofun))
    · exact .inr (.inr (stays _ c eq nofun nofun))
  case execs => rw [exec]; exact h.execs
  case scans =>
    rw [scan]
    exact (forall_update_iff s.scan fun _ => ScanOk).2 ⟨ok,fun u _ => h.scans u⟩

end

end Newosp.Dispatcher.Timeouts
