import Newosp.Timer.Clients

/-!
# No tick after `Stop`

What ties the scheduler to an object: the tasks registered under its address and its ticks that are collected and not
over. `Stop` must cut both ties; `Remove` cuts the first one only.
-/

namespace Newosp.Timer
open Lib List
open Function (forall_update_iff update update_of_ne update_self)

section

variable {ω : Type}

def Live (s : State ω) (o : ω) (t : Tick) : Prop :=
  (∃ slot, s.sched.Registered slot ∧ slot.ctx = some o ∧ slot.fn = some (.tick t)) ∨
    ∃ p ∈ s.worker.collected, p.ctx = some o ∧ p.fn = some (.tick t)

/-- The scheduler has no pointer to the object: no task under it, and no callback with it running or still to be called.
-/
def Detached (s : State ω) (o : ω) : Prop :=
  (∀ slot, s.sched.Registered slot → slot.ctx ≠ some o) ∧ ∀ p ∈ s.worker.collected, p.ctx ≠ some o

def State.FreshId (s : State ω) : Prop := s.sched.nextId ∉ s.sched.ids

instance (s : State ω) : Decidable s.FreshId := inferInstanceAs (Decidable (_ ∉ _))

/-- A tick is not between its collection and its end when `Stop` removes it, a discovery's receive thread starts, and an
id is given again only after its task has ended. -/
def settled (s : State ω) : Act ω → Prop
  | .owner o ok => match (s.obj o).pc with
    | .startAdd _ => s.FreshId
    | .startReceiver => ok = true
    | .stopRemove t => ∀ p ∈ s.worker.collected, p.ctx = some o → p.fn ≠ some (.tick t)
    | _ => True
  | .add _ _ _ => s.FreshId
  | _ => True

/-- By where its owner stands, the tick of an object is not with the scheduler. -/
def Obj.Released (x : Obj) (comp : Component) (t : Tick) : Prop := match x.pc with
  | .rest stopped => stopped = true ∨ x.running = false
  | .startLock | .startCheck | .stopStore => x.running = false
  | .startSocket | .stopJoin => True
  | .startAdd u => ¬ (u = .timeoutTick ∧ t = .announceTick)
  | .startReceiver => False
  | .stopLock | .stopUnlock => ∀ a b, comp ≠ .multicastDiscovery a b
  | .stopRemove u => u = .timeoutTick ∧ t = .announceTick

/-- `Start` has set `running_` and has not come back. -/
def OwnerPC.starting : OwnerPC → Bool
  | .startAdd _ | .startReceiver => true
  | _ => false

def OwnerPC.tick : OwnerPC → Option Tick
  | .startAdd t | .stopRemove t => some t
  | .startSocket => some .announceTick
  | _ => none

def Obj.Placed (x : Obj) (comp : Component) : Prop :=
  (x.pc.starting = true → x.running = true) ∧ ∀ t ∈ x.pc.tick, t ∈ comp.ticks

/-- The scheduler and the objects agree about the tasks. -/
structure Tied (comp : ω → Component) (s : State ω) : Prop where
  registered : ∀ slot, s.sched.Registered slot → ∀ o, slot.ctx = some o →
    ∃ t ∈ (comp o).ticks, slot.fn = some (.tick t) ∧ slot.id = (s.obj o).ids t
  ids : s.sched.ids.Nodup
  collected : ∀ p ∈ s.worker.collected, ∀ o, p.ctx = some o → ∃ t ∈ (comp o).ticks, p.fn = some (.tick t)
  released : ∀ o, ∀ t ∈ (comp o).ticks, (s.obj o).Released (comp o) t → ¬ Live s o t
  placed : ∀ o, (s.obj o).Placed (comp o)

end

section

variable {ω : Type} {comp : ω → Component} {s u : State ω} {o : ω} {x : Obj} {t : Tick} {sched : Scheduler Fn ω}

section

variable (h : Tied comp s)
include h

theorem Tied.detached (released : ∀ t ∈ (comp o).ticks, (s.obj o).Released (comp o) t) : Detached s o := by
  constructor
  · intro slot registered here
    obtain ⟨t,own,fn,-⟩ := h.registered slot registered o here
    exact h.released o t own (released t own) (.inl ⟨slot,registered,here,fn⟩)
  · intro p member here
    obtain ⟨t,own,fn⟩ := h.collected p member o here
    exact h.released o t own (released t own) (.inr ⟨p,member,here,fn⟩)

theorem Tied.shrink (ids : u.sched.ids.Nodup) (slots : ∀ slot, u.sched.Registered slot → slot.ctx = none ∨
      ∃ old, s.sched.Registered old ∧ slot.fn = old.fn ∧ slot.ctx = old.ctx ∧ slot.id = old.id)
    (pending : ∀ p ∈ u.worker.collected, p ∈ s.worker.collected ∨ ∃ old, s.sched.Registered old ∧ p = ⟨old.fn, old.ctx⟩)
    (objs : ∀ o, (u.obj o).running = (s.obj o).running ∧ (u.obj o).ids = (s.obj o).ids ∧ (u.obj o).pc = (s.obj o).pc) :
    Tied comp u := by
  constructor
  case registered =>
    intro slot registered o here
    rcases slots slot registered with none_ | ⟨old,before,fn,ctx,id_⟩
    · rw [none_] at here
      cases here
    · rw [fn, id_, (objs o).2.1]
      exact h.registered old before o (ctx ▸ here)
  case ids => exact ids
  case collected =>
    intro p member o here
    rcases pending p member with old | ⟨old,before,rfl⟩
    · exact h.collected p old o here
    · obtain ⟨t,own,fn,-⟩ := h.registered old before o here
      exact ⟨t,own,fn⟩
  case released =>
    intro o t own released live
    have released' : (s.obj o).Released (comp o) t := by
      simp only [Obj.Released, (objs o).1, (objs o).2.2] at released
      exact released
    refine h.released o t own released' ?_
    rcases live with ⟨slot,registered,here,tick⟩ | ⟨p,member,here,tick⟩
    · rcases slots slot registered with none_ | ⟨old,before,fn,ctx,-⟩
      · rw [none_] at here
        cases here
      · exact .inl ⟨old,before,ctx ▸ here,fn ▸ tick⟩
    · rcases pending p member with old | ⟨old,before,rfl⟩
      · exact .inr ⟨p,old,here,tick⟩
      · exact .inl ⟨old,before,here,tick⟩
  case placed =>
    intro o
    simp only [Obj.Placed, (objs o).1, (objs o).2.2]
    exact h.placed o

theorem Tied.same (sched : u.sched = s.sched) (fewer : ∀ p ∈ u.worker.collected, p ∈ s.worker.collected)
    (objs : ∀ o, (u.obj o).running = (s.obj o).running ∧ (u.obj o).ids = (s.obj o).ids ∧ (u.obj o).pc = (s.obj o).pc) :
    Tied comp u := by
  refine h.shrink (sched ▸ h.ids) (fun slot there => .inr ⟨slot,sched ▸ there,rfl,rfl,rfl⟩) ?_ objs
  exact fun p member => .inl (fewer p member)

theorem Tied.add (fresh : s.FreshId) (oneShot : Bool) (ms : Nat) (fn : Option Nat) :
    Tied comp { s with sched := (s.sched.enroll oneShot s.clock ms (fn.map .other) none).1 } := by
  rcases s.sched.enroll_cases oneShot s.clock ms (fn.map .other) none with
    ⟨e,eq⟩ | ⟨sched,slot,eq,-,ctx,-,registered,ids⟩
  · rw [eq]
    exact h
  · rw [eq]
    refine h.shrink (ids.nodup_iff.2 (nodup_cons.2 ⟨fresh,h.ids⟩)) ?_ (fun _ => .inl) fun _ => ⟨rfl,rfl,rfl⟩
    intro y there
    rcases registered y there with rfl | before
    · exact .inl ctx
    · exact .inr ⟨y,before,rfl,rfl,rfl⟩

theorem Tied.remove (taskId : Nat) : Tied comp { s with sched := (s.sched.remove taskId).1 } := by
  rcases s.sched.remove_cases taskId with ⟨same,-⟩ | ⟨registered,ids⟩
  · rw [same]
    exact h
  · exact h.shrink (nodup_cons.1 (ids.nodup_iff.1 h.ids)).2
      (fun slot there => .inr ⟨slot,registered slot there,rfl,rfl,rfl⟩) (fun _ => .inl) fun _ => ⟨rfl,rfl,rfl⟩

end

variable [DecidableEq ω] {c : Component}

theorem Live.before {o' : ω} (live : Live ({ s with sched := sched }.set o x) o' t)
    (registered : ∀ slot, sched.Registered slot → s.sched.Registered slot) : Live s o' t :=
  live.imp_left (Exists.imp fun slot there => ⟨registered slot there.1,there.2⟩)

section

variable (h : Tied comp s)
include h

theorem Tied.move (registered : ∀ slot, sched.Registered slot → s.sched.Registered slot)
    (ids : sched.ids.Nodup) (same : x.ids = (s.obj o).ids)
    (released : ∀ t ∈ (comp o).ticks, x.Released (comp o) t → ¬ Live ({ s with sched := sched }.set o x) o t)
    (placed : x.Placed (comp o)) : Tied comp ({ s with sched := sched }.set o x) := by
  have stored : ∀ o', ((s.set o x).obj o').ids = (s.obj o').ids :=
    (forall_update_iff s.obj fun o' y => y.ids = (s.obj o').ids).2 ⟨same,fun _ _ => rfl⟩
  constructor
  case registered =>
    intro slot there o' here
    obtain ⟨t,own,fn,id_⟩ := h.registered slot (registered slot there) o' here
    exact ⟨t,own,fn,id_.trans (congrFun (stored o') t).symm⟩
  case ids => exact ids
  case collected => exact h.collected
  case released =>
    refine (forall_update_iff s.obj fun o' y => ∀ t ∈ (comp o').ticks, y.Released (comp o') t →
      ¬ Live ({ s with sched := sched }.set o x) o' t).2 ⟨released,fun o' _ t own gone live => ?_⟩
    exact h.released o' t own gone (live.before registered)
  case placed =>
    exact (forall_update_iff s.obj fun o' y => y.Placed (comp o')).2 ⟨placed,fun o' _ => h.placed o'⟩

theorem Tied.own (same : x.ids = (s.obj o).ids)
    (released : ∀ t ∈ (comp o).ticks, x.Released (comp o) t → (s.obj o).Released (comp o) t)
    (placed : x.Placed (comp o)) : Tied comp (s.set o x) :=
  h.move (fun _ => id) h.ids same (fun t own gone => h.released o t own (released t own gone)) placed

theorem Tied.enrolled {slot : TaskSlot Fn ω} (fresh : s.FreshId)
    (fn : slot.fn = some (.tick t)) (ctx : slot.ctx = some o) (id_ : slot.id = s.sched.nextId)
    (registered : ∀ old, sched.Registered old → old = slot ∨ s.sched.Registered old)
    (ids : sched.ids.Perm (s.sched.nextId :: s.sched.ids)) (own : t ∈ (comp o).ticks) (gone : ¬ Live s o t)
    (stored : x.ids = update (s.obj o).ids t s.sched.nextId)
    (released : ∀ t' ∈ (comp o).ticks, x.Released (comp o) t' → t' ≠ t ∧ (s.obj o).Released (comp o) t')
    (placed : x.Placed (comp o)) : Tied comp ({ s with sched := sched }.set o x) := by
  -- what is registered now is the new task or was registered before, with its id where it was
  have tasks : ∀ y, sched.Registered y → ∀ o', y.ctx = some o' →
      o' = o ∧ y = slot ∨ s.sched.Registered y ∧ ∀ t', y.fn = some (.tick t') →
        (({ s with sched := sched }.set o x).obj o').ids t' = (s.obj o').ids t' := by
    intro y there o' here
    rcases registered y there with rfl | before
    · exact .inl ⟨Option.some.inj (here.symm.trans ctx),rfl⟩
    · refine .inr ⟨before,fun t' fn' => ?_⟩
      by_cases self : o' = o
      · subst self
        have other : t' ≠ t := by
          rintro rfl
          exact gone (.inl ⟨y,before,here,fn'⟩)
        simp only [State.set, update_self, stored, update_of_ne other]
      · simp only [State.set, update_of_ne self]
  constructor
  case registered =>
    intro y there o' here
    rcases tasks y there o' here with ⟨rfl,rfl⟩ | ⟨before,kept⟩
    · refine ⟨t,own,fn,?_⟩
      simp only [State.set, update_self, stored]
      exact id_
    · obtain ⟨t',own',fn',id'⟩ := h.registered y before o' here
      exact ⟨t',own',fn',id'.trans (kept t' fn').symm⟩
  case ids => exact ids.nodup_iff.2 (nodup_cons.2 ⟨fresh,h.ids⟩)
  case collected => exact h.collected
  case released =>
    -- no other tick is registered
    have before : ∀ o', ∀ t' ∈ (comp o').ticks, (o' = o → t' ≠ t) → (s.obj o').Released (comp o') t' →
        ¬ Live ({ s with sched := sched }.set o x) o' t' := by
      rintro o' t' own' other free (⟨y,there,here,tick⟩ | ⟨p,member,here⟩)
      · rcases tasks y there o' here with ⟨rfl,rfl⟩ | ⟨before,-⟩
        · cases fn.symm.trans tick
          exact other rfl rfl
        · exact h.released o' t' own' free (.inl ⟨y,before,here,tick⟩)
      · exact h.released o' t' own' free (.inr ⟨p,member,here⟩)
    refine (forall_update_iff s.obj fun o' y => ∀ t' ∈ (comp o').ticks, y.Released (comp o') t' →
      ¬ Live ({ s with sched := sched }.set o x) o' t').2 ⟨fun t' own' free => ?_,fun o' other t' own' free => ?_⟩
    · obtain ⟨other,free⟩ := released t' own' free
      exact before o t' own' (fun _ => other) free
    · exact before o' t' own' (fun same => absurd same other) free
  case placed =>
    exact (forall_update_iff s.obj fun o' y => y.Placed (comp o')).2 ⟨placed,fun o' _ => h.placed o'⟩

omit [DecidableEq ω] in
theorem Tied.removed : (∀ slot, (s.sched.remove ((s.obj o).ids t)).1.Registered slot →
      s.sched.Registered slot ∧ ¬ (slot.ctx = some o ∧ slot.fn = some (.tick t))) ∧
    (s.sched.remove ((s.obj o).ids t)).1.ids.Nodup := by
  have named : ∀ slot, s.sched.Registered slot → slot.ctx = some o → slot.fn = some (.tick t) →
      slot.id = (s.obj o).ids t := by
    intro slot registered here tick
    obtain ⟨t',-,fn,id_⟩ := h.registered slot registered o here
    cases fn.symm.trans tick
    exact id_
  rcases s.sched.remove_cases ((s.obj o).ids t) with ⟨same,unknown⟩ | ⟨registered,ids⟩
  · rw [same]
    refine ⟨fun slot there => ⟨there,fun mine => unknown ?_⟩,h.ids⟩
    rw [← named slot there mine.1 mine.2]
    exact there.mem_ids
  · have once := nodup_cons.1 (ids.nodup_iff.1 h.ids)
    refine ⟨fun slot there => ⟨registered slot there,fun mine => once.1 ?_⟩,once.2⟩
    have member := there.mem_ids
    rwa [named slot (registered slot there) mine.1 mine.2] at member

/-- A step of the scheduler thread. -/
theorem Tied.worker (step : workerNext s = some u) : Tied comp u := by
  -- the callbacks that are left, and an object whose mutex is taken or given back
  have quiet : ∀ {pc : WorkerPC ω}, (∀ p ∈ pc.collected, p ∈ s.worker.collected) → Tied comp { s with worker := pc } :=
    fun fewer => h.same rfl fewer fun _ => ⟨rfl,rfl,rfl⟩
  have locked : ∀ {pc : WorkerPC ω} {o : ω} {m : Option Party}, (∀ p ∈ pc.collected, p ∈ s.worker.collected) →
      Tied comp { s.set o { s.obj o with mutex := m } with worker := pc } := by
    intro pc o m fewer
    refine h.same rfl fewer ?_
    exact (forall_update_iff s.obj fun o y => y.running = (s.obj o).running ∧ y.ids = (s.obj o).ids ∧
      y.pc = (s.obj o).pc).2 ⟨⟨rfl,rfl,rfl⟩,fun _ _ => ⟨rfl,rfl,rfl⟩⟩
  unfold workerNext at step
  split at step
  · cases step
  · cases step
    apply quiet
    split <;> exact nofun
  · rename_i here
    obtain ⟨⟨slots,pending⟩,round,rfl⟩ := Option.map_eq_some_iff.1 step
    obtain ⟨kept,collected,sub⟩ := collect_spec round
    refine h.shrink (h.ids.sublist sub) ?_ ?_ fun _ => ⟨rfl,rfl,rfl⟩
    · rintro slot ⟨member,active⟩
      obtain ⟨old,before,on,fn,ctx,id_⟩ := kept slot member active
      exact .inr ⟨old,⟨before,on⟩,fn,ctx,id_⟩
    · intro p member
      obtain ⟨old,before,on,eq⟩ := collected p member
      exact .inr ⟨old,⟨before,on⟩,eq⟩
  · cases step
    exact quiet nofun
  · rename_i p pending here
    cases step
    apply quiet
    rw [here]
    exact fun _ => id
  · rename_i p left holds pending here
    split at step
    · cases step
      apply locked
      rw [here]
      exact fun _ => id
    · split at step
      · cases step
        apply locked
        rw [here]
        exact fun _ => id
      · cases step
    · cases step
      apply quiet
      rw [here]
      exact fun _ => mem_cons_of_mem _

end

theorem afterAdd_ids (c : Component) (x : Obj) (t : Tick) (taskId : Nat) :
    (afterAdd c x t (.ok taskId)).ids = update x.ids t taskId := by
  cases c <;> cases t <;> rfl

theorem afterAdd_refused (c : Component) (x : Obj) (t : Tick) (e : TimerError) :
    (afterAdd c x t (.error e)).ids = x.ids := by
  cases c <;> cases t <;> rfl

theorem afterAdd_released {t' : Tick} (answer : Except TimerError Nat) (running : x.running = true)
    (own : t ∈ c.ticks) (own' : t' ∈ c.ticks) (released : (afterAdd c x t answer).Released c t') :
    ¬ (t = .timeoutTick ∧ t' = .announceTick) ∧ (∀ taskId, answer = .ok taskId → t' ≠ t) := by
  cases c with
  | nodeManager ms | hsmNodeManager ms =>
    cases mem_singleton.1 own
    refine ⟨nofun,fun taskId eq => ?_⟩
    subst eq
    rcases released with no | no
    · cases no
    · cases running.symm.trans no
  | multicastDiscovery a b =>
    rcases mem_cons.1 own with rfl | own
    · have other : t' ≠ .announceTick := fun same => released ⟨rfl,same⟩
      exact ⟨nofun,fun _ _ => other⟩
    · cases mem_singleton.1 own
      cases released

theorem afterAdd_placed (answer : Except TimerError Nat) (running : x.running = true)
    (own : t ∈ c.ticks) : (afterAdd c x t answer).Placed c := by
  cases c with
  | nodeManager ms | hsmNodeManager ms => cases answer <;> exact ⟨nofun,nofun⟩
  | multicastDiscovery a b =>
    rcases mem_cons.1 own with rfl | own
    · refine ⟨fun _ => ?_,fun t' eq => ?_⟩
      · cases answer <;> exact running
      · cases eq
        exact .tail _ (.head _)
    · cases mem_singleton.1 own
      refine ⟨fun _ => ?_,nofun⟩
      cases answer <;> exact running

section

variable (h : Tied comp s)
include h

/-- `Start` adds a tick. -/
theorem Tied.adds (here : (s.obj o).pc = .startAdd t) (fresh : s.FreshId) :
    Tied comp ({ s with sched := (s.enrollTick comp o t).1 }.set o
      (afterAdd (comp o) (s.obj o) t (s.enrollTick comp o t).2)) := by
  have running : (s.obj o).running = true := (h.placed o).1 (by rw [here]; rfl)
  have own : t ∈ (comp o).ticks := (h.placed o).2 t (by rw [here]; rfl)
  have before : ∀ {t'}, ¬ (t = .timeoutTick ∧ t' = .announceTick) → (s.obj o).Released (comp o) t' := by
    intro t' later
    simp only [Obj.Released, here]
    exact later
  rcases s.sched.enroll_cases false s.clock ((comp o).periodMs t) (some (.tick t)) (some o) with
    ⟨e,eq⟩ | ⟨sched,slot,eq,fn,ctx,id_,registered,ids⟩
  · have answer : s.enrollTick comp o t = (s.sched, .error e) := eq
    rw [answer]
    refine h.own (afterAdd_refused ..) ?_ (afterAdd_placed _ running own)
    intro t' own' released
    exact before (afterAdd_released _ running own own' released).1
  · have answer : s.enrollTick comp o t = (sched, .ok s.sched.nextId) := eq
    have free : ¬ (t = .timeoutTick ∧ t = .announceTick) := by
      rintro ⟨rfl,no⟩
      cases no
    rw [answer]
    refine h.enrolled fresh fn ctx id_ registered ids own (h.released o t own (before free)) (afterAdd_ids ..) ?_
      (afterAdd_placed _ running own)
    intro t' own' released
    obtain ⟨later,other⟩ := afterAdd_released _ running own own' released
    exact ⟨other _ rfl,before later⟩

/-- `Stop` removes a tick that is not collected. -/
theorem Tied.removes {pc : OwnerPC} (here : (s.obj o).pc = .stopRemove t)
    (over_ : ∀ p ∈ s.worker.collected, p.ctx = some o → p.fn ≠ some (.tick t))
    (released : ∀ t' ∈ (comp o).ticks, { s.obj o with pc := pc }.Released (comp o) t' →
      t' = t ∨ t = .timeoutTick ∧ t' = .announceTick)
    (placed : { s.obj o with pc := pc }.Placed (comp o)) :
    Tied comp ({ s with sched := (s.sched.remove ((s.obj o).ids t)).1 }.goto o pc) := by
  obtain ⟨gone,ids⟩ := h.removed (o := o) (t := t)
  refine h.move (fun slot there => (gone slot there).1) ids rfl ?_ placed
  intro t' own' free live
  rcases released t' own' free with rfl | before
  · rcases live with ⟨slot,there,mine⟩ | ⟨p,member,ctx,fn⟩
    · exact (gone slot there).2 mine
    · exact over_ p member ctx fn
  · refine h.released o t' own' ?_ (live.before fun slot there => (gone slot there).1)
    simp only [Obj.Released, here]
    exact before

/-- A step of `Start` or `Stop`. -/
theorem Tied.owner {ok : Bool} (guard : settled s (.owner o ok)) (step : ownerNext comp o ok s = some u) :
    Tied comp u := by
  have first : ∀ {c : Component} {t : Tick} {rest : List Tick}, comp o = c → c.ticks = t :: rest →
      ∀ u ∈ some t, u ∈ (comp o).ticks := by
    rintro c t rest kind eq u ⟨⟩
    rw [kind, eq]
    exact .head _
  cases here : (s.obj o).pc <;> simp only [ownerNext, here] at step <;> simp only [settled, here] at guard
  case rest => cases step
  case startLock | stopLock =>
    obtain ⟨_,⟨⟩⟩ := enabled step
    refine h.own rfl (fun t _ => ?_) ⟨nofun,nofun⟩
    simp only [Obj.Released, here]
    exact id
  case startCheck =>
    have free : ¬ (s.obj o).running = true → ∀ t, (s.obj o).Released (comp o) t := by
      intro idle t
      simp only [Obj.Released, here]
      exact eq_false_of_ne_true idle
    have stays : ∀ {m : Option Party}, (s.obj o).running = true →
        Tied comp (s.set o { s.obj o with mutex := m, pc := .rest false }) := by
      intro m running
      refine h.own rfl (fun t _ => ?_) ⟨nofun,nofun⟩
      simp only [Obj.Released, running]
      nofun
    cases kind : comp o <;> simp only [kind] at step <;> split at step <;> cases step
    case nodeManager.isFalse | hsmNodeManager.isFalse =>
      exact h.own rfl (fun t _ _ => free (by assumption) t) ⟨fun _ => rfl,first kind rfl⟩
    case multicastDiscovery.isFalse => exact h.own rfl (fun t _ _ => free (by assumption) t) ⟨nofun,first kind rfl⟩
    all_goals exact stays (by assumption)
  case startSocket =>
    have own : .announceTick ∈ (comp o).ticks := (h.placed o).2 _ (by rw [here]; rfl)
    have free : ∀ {t}, (s.obj o).Released (comp o) t := by
      intro t
      simp only [Obj.Released, here]
    split at step <;> cases step
    · refine h.own rfl (fun _ _ _ => free) ⟨fun _ => rfl,?_⟩
      rintro t ⟨⟩
      exact own
    · exact h.own rfl (fun _ _ _ => free) ⟨nofun,nofun⟩
  case startAdd t =>
    cases step
    exact h.adds here guard
  case startReceiver =>
    simp only [guard, if_true] at step
    cases step
    refine h.own rfl (fun t _ => ?_) ⟨nofun,nofun⟩
    have running : (s.obj o).running = true := (h.placed o).1 (by rw [here]; rfl)
    simp only [Obj.Released, running]
    nofun
  case stopStore =>
    cases kind : comp o <;> simp only [kind] at step
    case multicastDiscovery a b =>
      split at step <;> cases step
      · refine h.own rfl (fun t _ other => ?_) ⟨nofun,nofun⟩
        exact absurd kind (other a b)
      · rename_i idle
        refine h.own rfl (fun t _ _ => ?_) ⟨nofun,nofun⟩
        simp only [Obj.Released, here]
        exact eq_false_of_ne_true idle
    all_goals
      cases step
      refine h.own rfl (fun t _ => ?_) ⟨nofun,first kind rfl⟩
      simp only [Obj.Released]
      nofun
  case stopUnlock =>
    cases kind : comp o <;> simp only [kind] at step <;> cases step
    case multicastDiscovery a b =>
      refine h.own rfl (fun t _ => ?_) ⟨nofun,first kind rfl⟩
      simp only [Obj.Released]
      nofun
    all_goals
      refine h.own rfl (fun t _ _ => ?_) ⟨nofun,nofun⟩
      simp only [Obj.Released, here, kind]
      exact fun _ _ => nofun
  case stopRemove t =>
    have own : t ∈ (comp o).ticks := (h.placed o).2 t (by rw [here]; rfl)
    cases kind : comp o <;> rw [kind] at own
    case multicastDiscovery a b =>
      rcases mem_cons.1 own with rfl | own
      · simp only [kind] at step
        cases step
        refine h.removes here guard (fun t' _ released => .inl released.2) ⟨nofun,?_⟩
        rintro t ⟨⟩
        rw [kind]
        exact .tail _ (.head _)
      · cases mem_singleton.1 own
        simp only [kind] at step
        cases step
        refine h.removes here guard (fun t' own' _ => ?_) ⟨nofun,nofun⟩
        rw [kind] at own'
        rcases mem_cons.1 own' with rfl | own'
        · exact .inr ⟨rfl,rfl⟩
        · exact .inl (mem_singleton.1 own')
    all_goals
      simp only [kind] at step
      cases step
      refine h.removes here guard (fun t' own' _ => .inl ?_) ⟨nofun,nofun⟩
      rw [kind] at own'
      rw [mem_singleton.1 own, mem_singleton.1 own']
  case stopJoin =>
    split at step <;> cases step
    refine h.own rfl (fun t _ _ => ?_) ⟨nofun,nofun⟩
    simp only [Obj.Released, here]

/-- One step of an orderly run. -/
theorem Tied.next {a : Act ω} (guard : settled s a) (step : next comp a s = some u) : Tied comp u := by
  cases a with
  | tick _ | schedulerStop =>
    cases step
    exact h.same rfl (fun _ => id) fun _ => ⟨rfl,rfl,rfl⟩
  | schedulerStart =>
    simp only [Timer.next] at step
    split at step
    · cases step
      exact h.same rfl nofun fun _ => ⟨rfl,rfl,rfl⟩
    · cases step
  | worker => exact h.worker step
  | start o | stop o =>
    cases here : (s.obj o).pc with
    | rest stopped =>
      -- a call of `Start` on a running object leaves its ticks where they are
      cases kind : comp o with
      | _ =>
        simp only [Timer.next, here, kind] at step
        cases step
        refine h.own rfl (fun t _ idle => ?_) ⟨nofun,nofun⟩
        simp only [Obj.Released, here]
        exact .inr idle
    | _ => simp only [Timer.next, here] at step; cases step
  | owner o ok => exact h.owner guard step
  | receiver o =>
    simp only [Timer.next] at step
    split at step
    · cases step
      exact h.own rfl (fun t _ released => released) (h.placed o)
    · cases step
  | add oneShot ms fn =>
    cases step
    exact h.add guard oneShot ms fn
  | remove taskId =>
    cases step
    exact h.remove taskId

end

theorem reach_tied {maxTasks : Nat} (reached : Reach (machine comp maxTasks) settled s) : Tied comp s := by
  have free : ∀ slot, ¬ (Scheduler.init maxTasks : Scheduler Fn ω).Registered slot := by
    rintro slot ⟨member,active⟩
    rw [eq_of_mem_replicate member] at active
    cases active
  have base : Tied comp (machine comp maxTasks).init := by
    constructor
    case registered => exact fun slot there => absurd there (free slot)
    case ids =>
      have none_ : ∀ n, (replicate n (⟨none,none,0,0,0,false,false⟩ : TaskSlot Fn ω)).filterMap
          TaskSlot.claim = [] := by
        intro n
        exact filterMap_eq_nil_iff.2 fun slot member => by rw [eq_of_mem_replicate member]; rfl
      show (filterMap TaskSlot.claim (replicate maxTasks _)).Nodup
      rw [none_]
      exact nodup_nil
    case collected => exact nofun
    case released =>
      rintro o t own released (⟨slot,there,-⟩ | ⟨p,member,-⟩)
      · exact free slot there
      · cases member
    case placed => exact fun o => ⟨nofun,nofun⟩
  exact reached.invariant base fun _ _ _ _ h guard step => h.next guard step

/-- **No tick after `Stop`**, until `Start` is called again: in every orderly run the scheduler has no task and no
collected or running callback with a pointer to the object. -/
theorem detached_after_stop {maxTasks : Nat} (reached : Reach (machine comp maxTasks) settled s)
    (stopped : (s.obj o).pc = .rest true) : Detached s o := by
  apply (reach_tied reached).detached
  intro t own
  simp only [Obj.Released, stopped]
  exact .inl trivial

end

instance {ω : Type} [DecidableEq ω] (s : State ω) (a : Act ω) : Decidable (settled s a) := by
  unfold settled
  repeat' split
  all_goals infer_instance

def oneManager : Fin 1 → Component := fun _ => .nodeManager 1

def oneDiscovery : Fin 1 → Component := fun _ => .multicastDiscovery 1 3

def collectRun {ω : Type} (o : ω) : List (Act ω) :=
  [.start o, .owner o true, .owner o true, .owner o true, .schedulerStart, .worker, .tick 1000000, .worker]

def stopRun {ω : Type} (o : ω) : List (Act ω) := [.stop o, .owner o true, .owner o true, .owner o true, .owner o true]

/-- A manager that is stopped between two rounds. -/
theorem detached_after_stop_between_rounds : ∃ s : State (Fin 1), Reach (machine oneManager 16) settled s ∧
    (s.obj 0).ids .heartbeatTick = 1 ∧ (s.obj 0).pc = .rest true ∧ Detached s 0 := by
  obtain ⟨s,reached,final⟩ := reach_of_decided (machine oneManager 16) settled
      (collectRun 0 ++ replicate 7 .worker ++ stopRun 0)
      (fun s => (s.obj 0).ids .heartbeatTick = 1 && (s.obj 0).pc = .rest true) (by decide +kernel)
  obtain ⟨known,stopped⟩ := Bool.and_eq_true_iff.1 final
  exact ⟨s,reached,of_decide_eq_true known,of_decide_eq_true stopped,
    detached_after_stop reached (of_decide_eq_true stopped)⟩

/-- `Stop` between the collection and the call: the tick runs after `Stop` has returned. And a discovery without its
receive thread stays registered, whatever `Stop` does. -/
theorem tick_after_stop : (∃ s : State (Fin 1), Reach (machine oneManager 16) anyStep s ∧ (s.obj 0).pc = .rest true ∧
      s.worker = .inTask ⟨some (.tick .heartbeatTick), some 0⟩ 2 false []) ∧
    ∃ s : State (Fin 1), Reach (machine oneDiscovery 16) anyStep s ∧ (s.obj 0).pc = .rest true ∧
      s.worker = .inTask ⟨some (.tick .announceTick), some 0⟩ 1 false [⟨some (.tick .timeoutTick), some 0⟩] := by
  constructor
  · exact reach_of_schedule (machine oneManager 16) (collectRun 0 ++ stopRun 0 ++ [.worker])
      (fun s => (s.obj 0).pc = .rest true ∧ s.worker = .inTask ⟨some (.tick .heartbeatTick),some 0⟩ 2 false [])
      (by decide +kernel)
  · exact reach_of_schedule (machine oneDiscovery 16)
      [.start 0, .owner 0 true, .owner 0 true, .owner 0 true, .owner 0 true, .owner 0 false, .stop 0, .owner 0 true,
        .schedulerStart, .worker, .tick 1000000, .worker, .worker]
      (fun s => (s.obj 0).pc = .rest true ∧ s.worker =
        .inTask ⟨some (.tick .announceTick),some 0⟩ 1 false [⟨some (.tick .timeoutTick),some 0⟩]) (by decide +kernel)

end Newosp.Timer
