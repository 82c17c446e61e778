import Newosp.Dispatcher.TimeoutInvariant

/-!
# The steps of an execution keep the invariant

As long as the block has references, the thread that executes it is the one its place names, and each step moves the
count together with the references that are still to be dropped. Without references the execution is stale.
-/

namespace Newosp.Dispatcher.Timeouts
open Lib List Function
open ExecPC (of_fills of_works unset)
open State (moveTo)

variable {ι : Type}

section

variable {g : Pipeline} {s : State ι} {t : ι} {b c : Nat} {pc : ExecPC}

/-- A thread that executes a block counts on a reference. -/
theorem pending_pos (working : pc.works = some b) : 0 < pending g pc := by
  cases pc <;> cases working <;> simp only [pending] <;> omega

theorem Inv.live_of_not_harmless (h : Inv g s) (at_ : s.exec t = pc) (working : pc.works = some b)
    (not : ¬ Harmless g pc) : s.place b = .live (some t) := by
  subst at_
  exact (h.works t b working).resolve_right fun stale => not stale.1

theorem Inv.live_of_count (h : Inv g s) (at_ : s.exec t = pc) (working : pc.works = some b)
    (some_ : 0 < (s.block b).refcount) : s.place b = .live (some t) := by
  subst at_
  rcases h.works t b working with live | ⟨_,isFree | ⟨u,claimed⟩⟩
  · exact live
  · rw [h.count, isFree] at some_
    exact absurd some_ (lt_irrefl 0)
  · rw [h.count, claimed] at some_
    exact absurd some_ (lt_irrefl 0)

theorem Inv.not_live_of_count (h : Inv g s) (none_ : (s.block b).refcount = 0) (w : Option ι) :
    s.place b ≠ .live w := by
  intro live
  have count := h.count b
  rw [none_, live] at count
  cases w with
  | none =>
    have := h.extra b live
    simp only [countOf, held] at count
    omega
  | some u =>
    have := pending_pos (g := g) (h.worker u b live)
    simp only [countOf, held] at count
    omega

theorem Inv.exists_live (h : Inv g s) (some_ : 0 < (s.block b).refcount) : ∃ w, s.place b = .live w := by
  have count := h.count b
  cases where_ : s.place b with
  | live w => exact ⟨w,rfl⟩
  | _ =>
    rw [where_] at count
    simp only [countOf] at count
    omega

theorem ExecPC.unset_le (pc : ExecPC) : pc.unset ≤ 1 := by
  cases pc <;> simp only [unset] <;> omega

theorem ScanPC.unset_le (pc : ScanPC) : pc.unset ≤ 1 := by
  cases pc <;> simp only [ScanPC.unset] <;> omega

theorem openOf_le (s : State ι) (p : Place ι) : openOf s p ≤ 1 := by
  cases p with
  | dropped t => exact ExecPC.unset_le _
  | claimed t => exact ScanPC.unset_le _
  | _ => simp only [openOf]; omega

section

variable (h : Inv g s) (taken : s.place b ≠ .free)
include h taken

theorem Inv.not_mem_free : b ∉ s.free := fun member => taken (h.free b member)

theorem Inv.free_update {new : Place ι} : ∀ c ∈ s.free, update s.place b new c = .free := by
  intro c member
  have ne : c ≠ b := by
    rintro rfl
    exact h.not_mem_free taken member
  rw [update_of_ne ne]
  exact h.free c member

theorem Inv.free_push : ∀ c ∈ b :: s.free, update s.place b .free c = .free := by
  intro c member
  rcases mem_cons.1 member with rfl | older
  · exact update_self ..
  · exact h.free_update taken c older

end

end

/-- The program counter of an execution that goes on with the stages `work`. -/
def ExecPC.resume (b : Nat) : List Nat → ExecPC
  | [] => .idle
  | u :: rest => .stage b u rest

section

variable [DecidableEq ι] {g : Pipeline} {s s' : State ι} {t : ι} {b : Nat} {old : ExecPC} {rest : List Nat}
  {block : Nat → DataBlock}
  {n : Nat} {work : List Nat}

omit [DecidableEq ι] in
@[simp] theorem setState_refcount (st : BlockState) (c : Nat) :
    ((s.setState b st).block c).refcount = (s.block c).refcount := update_same DataBlock.refcount (by rfl) c

variable (h : Inv g s) {u : Nat}
include h

theorem Inv.fill (pc : ExecPC) (at_ : s.exec t = old) (filling : old.fills = some b) (now : pc.fills = some b)
    {blk : DataBlock} (count : blk.refcount = (s.block b).refcount) (ok : ExecOk g pc) :
    Inv g ((s.setBlock b blk).goto t pc) := by
  subst at_
  obtain ⟨idle,calm,set⟩ := of_fills now
  obtain ⟨idle₀,calm₀,set₀⟩ := of_fills filling
  refine h.quiet pc (update_same DataBlock.refcount count) (now.trans filling.symm) (calm.trans calm₀.symm)
    (set.trans set₀.symm) ?worker ?works ok
  case worker =>
    intro c live
    rw [h.worker t c live] at idle₀
    cases idle₀
  case works =>
    intro c working
    rw [idle] at working
    cases working

theorem Inv.advance (pc : ExecPC) (count : ∀ b, (block b).refcount = (s.block b).refcount)
    (at_ : s.exec t = old) (working : old.works = some b) (now : pc.works = some b)
    (pends : pending g pc = pending g old) (harmless : Harmless g old → Harmless g pc) (ok : ExecOk g pc) :
    Inv g { s with block := block, exec := update s.exec t pc } := by
  subst at_
  obtain ⟨full,calm,set⟩ := of_works now
  obtain ⟨full₀,calm₀,set₀⟩ := of_works working
  refine h.quiet pc count (full.trans full₀.symm) (calm.trans calm₀.symm) (set.trans set₀.symm) ?worker ?works ok
  case worker =>
    intro c live
    exact ⟨now.trans (working.symm.trans (h.worker t c live)),pends⟩
  case works =>
    intro c eq
    rcases h.works t c (working.trans (now.symm.trans eq)) with live | ⟨fine,stale⟩
    · exact .inl live
    · exact .inr ⟨harmless fine,stale⟩

theorem Inv.goto (pc : ExecPC) (at_ : s.exec t = old) (working : old.works = some b) (now : pc.works = some b)
    (pends : pending g pc = pending g old) (harmless : Harmless g old → Harmless g pc)
    (ok : ExecOk g pc) : Inv g (s.goto t pc) := h.advance pc (fun _ => rfl) at_ working now pends harmless ok

theorem Inv.stale (working : (s.exec t).works = some b) (gone : ∀ w, s.place b ≠ .live w)
    (harmless : ∀ v ∈ work, g.successors v = []) (valid : ∀ v ∈ work, v < g.stages.length) :
    Inv g (s.proceed t b work) := by
  have worker : ∀ c, s.place c ≠ .live (some t) := by
    intro c live
    have same : c = b := h.only (.inr (.inl working)) c (.inr (.inl live))
    exact gone _ (same ▸ live)
  have place : s.place b = .free ∨ ∃ u, s.place b = .claimed u := ((h.works t b working).resolve_left (gone _)).2
  obtain ⟨full,calm,set⟩ := of_works working
  have eq : s.proceed t b work = s.goto t (ExecPC.resume b work) := by
    cases work with
    | cons u rest => rfl
    | nil => rcases place with isFree | ⟨u,claimed⟩ <;> simp only [State.proceed, ExecPC.resume, *]
  rw [eq]
  refine h.quiet (ExecPC.resume b work) (fun _ => rfl) ?fills ?recycles ?unset
    (fun c live => absurd live (worker c)) ?works ?ok
  case fills => cases work <;> exact full.symm
  case recycles => cases work <;> exact calm.symm
  case unset => cases work <;> exact set.symm
  case works =>
    intro c now
    cases work with
    | nil => cases now
    | cons u rest =>
      cases now
      exact .inr ⟨harmless,place⟩
  case ok =>
    cases work with
    | nil => trivial
    | cons u rest => exact valid

theorem Inv.retain (pc : ExecPC) (live : s.place b = .live (some t)) (now : pc.works = some b)
    (count : n = s.extra b + pending g pc) (ok : ExecOk g pc) : Inv g ((s.setRefcount b n).goto t pc) := by
  have mine : (s.place b).mine t := .inr (.inl live)
  have place : update s.place b (.live (some t)) = s.place := live ▸ update_eq_self b s.place
  refine h.move (by rw [place]; rfl) ?others (fun _ _ => rfl) (.inl mine) (.live now) h.nodup h.free ?count nofun
    (h.number_at live) (fun _ => h.epoch t b mine) ok
  case others =>
    intro c ne
    simp only [State.goto, State.setRefcount, State.setBlock, update_of_ne ne, and_self]
  case count =>
    simp only [State.goto, State.setRefcount, State.setBlock, update_self, countOf, held]
    exact count

theorem Inv.leave (live : s.place b = .live (some t)) {extra : Nat → Nat}
    (others : ∀ c, c ≠ b → (block c).refcount = (s.block c).refcount ∧ extra c = s.extra c)
    (count : (block b).refcount = extra b) (some_ : 0 < extra b) :
    Inv g { s with block := block, extra := extra, exec := update s.exec t .idle,
                   place := update s.place b (.live none) } := by
  refine h.move rfl ?others (fun _ _ => rfl) (.inl (.inr (.inl live))) .left h.nodup ?free count (fun _ => some_)
    (h.number_at live) ?own trivial
  case others =>
    intro c ne
    exact ⟨(others c ne).1,(others c ne).2,rfl,rfl⟩
  case free => exact h.free_update (by rw [live]; exact nofun)
  case own => rintro (eq | eq | eq) <;> cases eq

theorem Inv.dropLast (live : s.place b = .live (some t)) :
    Inv g (((s.setRefcount b 0).moveTo b (.dropped t)).goto t (.recycleState b [])) := by
  have mine : (s.place b).mine t := .inr (.inl live)
  refine h.move rfl ?others (fun _ _ => rfl) (.inl mine) (.dropped rfl) h.nodup ?free ?count nofun ?number
    (fun _ => h.epoch t b mine) rfl
  case others =>
    intro c ne
    simp only [State.goto, moveTo, State.setRefcount, State.setBlock, update_of_ne ne, and_self]
  case free => exact h.free_update (by rw [live]; exact nofun)
  case count =>
    simp only [State.goto, moveTo, State.setRefcount, State.setBlock, update_self, countOf]
  case number =>
    simp only [openOf, State.goto, update_self]
    exact h.number_at live

theorem Inv.reference (at_ : s.exec t = .submitRefcount b n) (some_ : 1 ≤ n) :
    Inv g ({ (s.setRefcount b n).moveTo b (.live (some t)) with
      extra := update s.extra b (n - 1) }.goto t (.submitState b)) := by
  have filling : s.place b = .filling t := (h.fills t b).1 (by rw [at_]; rfl)
  have mine : (s.place b).mine t := .inl filling
  refine h.move rfl ?others (fun _ _ => rfl) (.inl mine) (.live rfl) h.nodup ?free ?count nofun
    (h.number_at filling) (fun _ => h.epoch t b mine) trivial
  case others =>
    intro c ne
    simp only [State.goto, moveTo, State.setRefcount, State.setBlock, update_of_ne ne, and_self]
  case free => exact h.free_update (by rw [filling]; exact nofun)
  case count =>
    simp only [State.goto, moveTo, State.setRefcount, State.setBlock, update_self, countOf, held, pending]
    omega

theorem Inv.recycle (at_ : s.exec t = .recycleState b []) : Inv g ((s.recycle b).goto t (.recyclePush b [])) := by
  have dropped : s.place b = .dropped t := (h.recycles t b).1 (by rw [at_]; rfl)
  have mine : (s.place b).mine t := .inr (.inr dropped)
  have place : update s.place b (.dropped t) = s.place := dropped ▸ update_eq_self b s.place
  have now : Named t b (.dropped t) (.recyclePush b []) := .dropped rfl
  refine h.move (by rw [place]; rfl) ?others (fun _ _ => rfl) (.inl mine) now h.nodup h.free ?count nofun ?number
    (fun _ => h.epoch t b mine) rfl
  case others =>
    intro c ne
    exact ⟨setState_refcount .free c,rfl,rfl,update_of_ne ne ..⟩
  case count => exact (setState_refcount .free b).trans (h.count_at dropped)
  case number =>
    have := h.number_at dropped
    simp only [openOf, at_, unset] at this
    simp only [State.recycle, State.goto, openOf, update_self, unset]
    exact this

theorem Inv.push (at_ : s.exec t = .recyclePush b []) : Inv g ((s.push b).goto t .idle) := by
  have dropped : s.place b = .dropped t := (h.recycles t b).1 (by rw [at_]; rfl)
  have taken : s.place b ≠ .free := by rw [dropped]; exact nofun
  refine h.move rfl (fun _ _ => ⟨rfl,rfl,rfl,rfl⟩) (fun _ _ => rfl) (.inl (.inr (.inr dropped))) .freed
    (nodup_cons.2 ⟨h.not_mem_free taken,h.nodup⟩) (h.free_push taken) (h.count_at dropped) nofun ?number ?own trivial
  case number =>
    have := h.number_at dropped
    simp only [openOf, at_, unset] at this
    exact this
  case own => rintro (eq | eq | eq) <;> cases eq

theorem Inv.alloc (quiet : ∀ b free, s.free = b :: free → ∀ u, (s.exec u).works ≠ some b)
    (step : allocNext t s = some s') : Inv g s' := by
  unfold allocNext at step
  split at step
  case h_2 => cases step
  rename_i b rest idle list
  cases step
  have free : s.place b = .free := h.free b (by rw [list]; exact mem_cons_self ..)
  obtain ⟨fresh,nodup⟩ := nodup_cons.1 (list ▸ h.nodup)
  refine h.move rfl ?others ?epoch (.inr ⟨free,idle,quiet b rest list⟩) (.filling rfl) nodup ?free
    (h.count_at free) nofun ?number ?own trivial
  case others =>
    intro c ne
    exact ⟨rfl,rfl,update_of_ne ne ..,rfl⟩
  case epoch =>
    intro u ne
    exact update_of_ne ne ..
  case free =>
    intro c member
    have ne : c ≠ b := by
      rintro rfl
      exact fresh member
    simp only [State.goto, moveTo, update_of_ne ne]
    exact h.free c (by rw [list]; exact mem_cons_of_mem _ member)
  case number =>
    have := h.number_at free
    simp only [State.goto, moveTo, openOf, update_self] at this ⊢
    omega
  case own =>
    intro _
    simp only [State.goto, moveTo, update_self]

theorem Inv.dropOne (live : s.place b = .live (some t))
    (count : n = s.extra b + work.length) (some_ : 0 < n) (valid : ∀ v ∈ work, v < g.stages.length) :
    Inv g ((s.setRefcount b n).proceed t b work) := by
  cases work with
  | nil =>
    have eq : (s.setRefcount b n).proceed t b [] = ((s.setRefcount b n).moveTo b (.live none)).goto t .idle := by
      have same : (s.setRefcount b n).place b = .live (some t) := live
      simp only [State.proceed, same]
    rw [eq]
    refine h.leave live ?others ?count (count ▸ some_)
    case others =>
      intro c ne
      exact ⟨congrArg DataBlock.refcount (update_of_ne ne ..),rfl⟩
    case count => exact (congrArg DataBlock.refcount (update_self ..)).trans count
  | cons u rest =>
    refine h.retain (.stage b u rest) live rfl ?_ valid
    simp only [pending]
    rw [length_cons] at count
    omega

theorem Inv.submitted (live : s.place b = .live (some t)) (pends : pending g (s.exec t) = 1) :
    Inv g ({ (s.setState b .ready).moveTo b (.live none) with
      extra := update s.extra b (s.extra b + 1) }.goto t .idle) := by
  refine h.leave live ?others ?count ?extra
  case others =>
    intro c ne
    exact ⟨setState_refcount .ready c,update_of_ne ne ..⟩
  case count =>
    have := h.count_at live
    simp only [countOf, held, pends] at this
    simp only [update_self]
    exact (setState_refcount .ready b).trans this
  case extra =>
    simp only [update_self]
    omega

theorem Inv.complete (u : Nat) (rest : List Nat) (at_ : s.exec t = old) (working : old.works = some b)
    (pends : pending g old = 1 + rest.length) (harmless : Harmless g old → ∀ v ∈ u :: rest, g.successors v = [])
    (valid : ∀ v ∈ u :: rest, v < g.stages.length) :
    Inv g (if 0 < (g.successors u).length then s.goto t (.addRef b u rest) else s.goto t (.releaseLoad b u rest)) := by
  split
  · rename_i some_
    refine h.goto (.addRef b u rest) at_ working rfl pends.symm ?_ ⟨some_,valid⟩
    intro fine
    rw [harmless fine u (mem_cons_self ..)] at some_
    exact absurd some_ (lt_irrefl 0)
  · rename_i none_
    have leaf : g.successors u = [] := length_eq_zero_iff.1 (by omega)
    refine h.goto (.releaseLoad b u rest) at_ working rfl ?_ ?_ valid
    · rw [pends]
      simp only [pending, leaf, length_nil]
    · intro fine v member
      rw [leaf, nil_append] at member
      exact harmless fine v (mem_cons_of_mem _ member)

omit h in
omit [DecidableEq ι] in
theorem valid_successors (valid : ∀ v ∈ u :: rest, v < g.stages.length) :
    ∀ v ∈ g.successors u ++ rest, v < g.stages.length := by
  intro v member
  rcases mem_append.1 member with edge | later
  · exact Pipeline.successors_lt edge
  · exact valid v (mem_cons_of_mem _ later)

theorem Inv.releaseNone (at_ : s.exec t = old) (working : old.works = some b)
    (none_ : (s.block b).refcount = 0) (harmless : Harmless g old → ∀ v ∈ g.successors u ++ rest, g.successors v = [])
    (valid : ∀ v ∈ u :: rest, v < g.stages.length) : Inv g (s.proceed t b (g.successors u ++ rest)) := by
  subst at_
  have gone := h.not_live_of_count none_
  exact h.stale working gone (harmless ((h.works t b working).resolve_left (gone _)).1) (valid_successors valid)

theorem Inv.releaseSome {u cur : Nat} (at_ : s.exec t = .releaseCas b u rest cur) (count : (s.block b).refcount = cur) :
    Inv g (if cur = 1 then ((s.setRefcount b (cur - 1)).moveTo b (.dropped t)).goto t (.recycleState b rest)
      else (s.setRefcount b (cur - 1)).proceed t b (g.successors u ++ rest)) := by
  have ok := h.execs t
  rw [at_] at ok
  have live := h.live_of_count at_ rfl (count ▸ ok.1)
  have holds := h.count_at live
  simp only [countOf, held, at_, pending, count] at holds
  split
  · rename_i one
    have leaf : rest = [] := length_eq_zero_iff.1 (by omega)
    rw [one, leaf]
    exact h.dropLast live
  · refine h.dropOne live ?_ ?_ (valid_successors ok.2)
    · rw [length_append]
      omega
    · have := ok.1
      omega

theorem Inv.exec {spurious : Bool}
    (room : ∀ b u rest, s.exec t = .addRef b u rest → (s.block b).refcount + (g.successors u).length < 2 ^ 32)
    (step : execNext g t spurious s = some s') : Inv g s' := by
  have ok := h.execs t
  unfold execNext at step
  cases at_ : s.exec t <;> simp only [at_, Option.some.injEq, reduceCtorEq] at step <;> rw [at_] at ok
  case allocState b =>
    exact step ▸ h.fill _ at_ rfl rfl rfl trivial
  case allocFields b =>
    have filling : s.place b = .filling t := (h.fills t b).1 (by rw [at_]; rfl)
    exact step ▸ h.fill _ at_ rfl rfl (h.count_at filling).symm trivial
  case submitFields b deadline refcount =>
    exact step ▸ h.fill _ at_ rfl rfl rfl ok
  case submitRefcount b refcount =>
    exact step ▸ h.reference at_ ok
  case submitState b =>
    have live := h.live_of_not_harmless at_ rfl id
    split at step
    · cases step
      exact h.submitted live (by rw [at_]; rfl)
    · rename_i entry
      cases step
      refine h.advance (.stage b g.entryStage.toNat []) (setState_refcount .ready) at_ rfl rfl rfl False.elim ?_
      intro v member
      rw [mem_singleton.1 member]
      omega
  case stage b u rest =>
    have bound : u < g.stages.length := ok u (mem_cons_self ..)
    have slot : g.stages[u]? = some g.stages[u] := getElem?_eq_getElem bound
    simp only [slot] at step
    split at step
    · cases step
      exact h.goto (.handler b u rest) at_ rfl rfl rfl id ok
    · have next := h.complete u _ at_ rfl rfl id ok
      have same : g.successors u = g.stages[u].successors := by simp only [Pipeline.successors, slot]
      rw [same] at next
      rw [← apply_ite some] at step
      exact Option.some.inj step ▸ next
  case handler b u rest =>
    have next := h.complete u rest at_ rfl rfl id ok
    rw [← apply_ite some] at step
    exact Option.some.inj step ▸ next
  case addRef b u rest =>
    have live := h.live_of_not_harmless at_ rfl id
    have holds := h.count_at live
    simp only [countOf, held, at_, pending] at holds
    refine step ▸ h.retain _ live rfl ?_ ok.2
    rw [wrap32_of_lt (room b u rest at_), holds]
    simp only [pending]
    omega
  case releaseLoad b u rest =>
    split at step
    · rename_i some_
      cases step
      exact h.goto (.releaseCas b u rest (s.block b).refcount) at_ rfl rfl rfl id ⟨some_,ok⟩
    · cases step
      exact h.releaseNone at_ rfl (by omega) id ok
  case releaseCas b u rest cur =>
    split at step
    · rename_i wins
      have next := h.releaseSome at_ wins.1
      rw [← apply_ite some] at step
      exact Option.some.inj step ▸ next
    · split at step
      · rename_i some_
        cases step
        exact h.goto (.releaseCas b u rest (s.block b).refcount) at_ rfl rfl rfl id ⟨some_,ok.2⟩
      · cases step
        exact h.releaseNone at_ rfl (by omega) id ok.2
  case recycleState b rest =>
    cases (ok : rest = [])
    exact step ▸ h.recycle at_
  case recyclePush b rest =>
    cases (ok : rest = [])
    have free : (s.push b).place b = .free := update_self ..
    simp only [State.proceed, free] at step
    exact step ▸ h.push at_

end

end Newosp.Dispatcher.Timeouts
