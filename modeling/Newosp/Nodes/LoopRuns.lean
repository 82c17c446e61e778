import Newosp.Nodes.EventLoop
import Newosp.Lib.Machine

/-!
# Runs of the event loop

`Run` collects the ready descriptors, then the due timers, and calls a hook for each, although a hook has removed or
cancelled it since, and with the user data it had then. The poller's table of user data also holds the wake descriptor
and what was closed without `RemoveFd`, and when it is full forgets the next one.
-/

namespace Newosp.Nodes
open Lib List Function

structure TimerSlot where
  id : UInt32
  periodNs : Nat
  nextFireNs : Nat
  active : Bool
  oneShot : Bool
  deriving DecidableEq

/-- The loop between two calls: `results` and `due` are still to be delivered, then, if `polling`, comes `Wait`.
`latest` is from the last successful `AddFd`; `removed` and `cancelled` are those not added or scheduled anew. -/
structure LoopState where
  loop : EventLoop
  timers : List TimerSlot
  nextTimerId : UInt32
  results : List PollResult
  due : List UInt32
  polling : Bool
  latest : Int → Nat
  removed : List Int
  cancelled : List UInt32

/-- The clock is read in `now`; `accepted` and `ready` are the kernel's answers. -/
inductive LoopAct
  | addFd (fd : Int) (userData : Nat) (accepted : Bool)
  | removeFd (fd : Int)
  | close (fd : Int)
  | schedule (periodMs now : Nat) (oneShot : Bool)
  | cancel (timerId : UInt32)
  | wait (ready : List (Int × Nat))
  | onFd
  | fireExpiredTimers (now : Nat)
  | onTimer

def TimerSlot.held (t : TimerSlot) : Option UInt32 := if t.active then some t.id else none

def LoopState.activeIds (s : LoopState) : List UInt32 := s.timers.filterMap TimerSlot.held

def TimerSlot.expired (now : Nat) (t : TimerSlot) : Bool := t.active && t.nextFireNs ≤ now

/-- A due timer ends, or goes on at the first of its times that is not over. -/
def TimerSlot.fire (now : Nat) (t : TimerSlot) : TimerSlot :=
  if t.expired now then
    if t.oneShot then { t with active := false }
    else { t with nextFireNs := t.nextFireNs + t.periodNs * ((now - t.nextFireNs) / t.periodNs + 1) }
  else t

def loopNext : LoopAct → LoopState → Option LoopState
  | .addFd fd userData accepted, s => match s.loop.addFd fd userData accepted with
    | .ok loop => some { s with loop, latest := update s.latest fd userData, removed := s.removed.filter (· ≠ fd) }
    | .error _ => some s
  | .removeFd fd, s => match s.loop.removeFd fd with
    | .ok loop => some { s with loop, removed := fd :: s.removed }
    | .error _ => some s
  | .close fd, s => some { s with loop := s.loop.close fd }
  | .schedule periodMs now oneShot, s => match s.timers.findIdx? (!·.active) with
    | some i =>
      if periodMs = 0 then some s
      else
        let period := periodMs * 1000000
        some { s with timers := s.timers.set i ⟨s.nextTimerId, period, now + period, true, oneShot⟩,
                      nextTimerId := s.nextTimerId + 1, cancelled := s.cancelled.filter (· ≠ s.nextTimerId) }
    | none => some s
  | .cancel timerId, s => match s.timers.findIdx? (fun t => t.active && t.id = timerId) with
    | some i => some { s with timers := s.timers.modify i ({ · with active := false }),
                              cancelled := timerId :: s.cancelled }
    | none => some s
  | .wait ready, s =>
    if s.polling ∧ s.results = [] ∧ s.due = [] ∧ ∀ e ∈ ready, e.1 ∈ s.loop.poller.watched then
      some { s with results := ready.map fun e => ⟨e.1, e.2, s.loop.poller.lookupTag e.1⟩, polling := false }
    else none
  | .onFd, s => match s.results with
    | _ :: rest => some { s with results := rest }
    | [] => none
  | .fireExpiredTimers now, s =>
    if s.polling = false ∧ s.results = [] then
      some { s with due := (s.timers.filter (·.expired now)).map (·.id), timers := s.timers.map (·.fire now),
                    polling := true }
    else none
  | .onTimer, s => match s.due with
    | _ :: rest => some { s with due := rest }
    | [] => none

def loopMachine (maxFds maxTimers : Nat) (wakeFd : Int) : Machine LoopState LoopAct where
  init := ⟨⟨replicate maxFds ⟨-1, false⟩, ⟨[wakeFd], [⟨wakeFd, 0⟩]⟩⟩, replicate maxTimers ⟨0, 0, 0, false, false⟩, 1, [],
    [], true, fun _ => 0, [], []⟩
  next := loopNext

variable {maxFds maxTimers : Nat} {wakeFd : Int} {s s' : LoopState} {fd : Int} {l l' : EventLoop} {a : LoopAct}

theorem loop_addFd {userData : Nat} {accepted : Bool} (h : l.addFd fd userData accepted = .ok l') :
    l'.poller = ⟨fd :: l.poller.watched, l.poller.storeTag fd userData⟩ := by
  unfold EventLoop.addFd IoPoller.add at h
  grind

theorem loop_removeFd (h : l.removeFd fd = .ok l') :
    l'.poller = ⟨l.poller.watched.filter (· ≠ fd), l.poller.clearTag fd⟩ := by
  unfold EventLoop.removeFd IoPoller.remove at h
  grind

/-! ## Cancellation -/

/-- The condition: what is removed or cancelled has not been collected, and no other timer has its id. -/
def notCollected (s : LoopState) : LoopAct → Prop
  | .removeFd fd => fd ∉ s.results.map (·.fd)
  | .cancel timerId => timerId ∉ s.due ∧ s.activeIds.count timerId ≤ 1
  | _ => True

instance (s : LoopState) (a : LoopAct) : Decidable (notCollected s a) := by
  cases a <;> unfold notCollected <;> infer_instance

/-- What was removed is not watched and not among the results; what was cancelled has no timer and is not due. -/
structure Silent (s : LoopState) : Prop where
  fds : ∀ fd ∈ s.removed, fd ∉ s.loop.poller.watched ∧ fd ∉ s.results.map (·.fd)
  timers : ∀ id ∈ s.cancelled, id ∉ s.due ∧ id ∉ s.activeIds

theorem held_of_fire {now : Nat} {t : TimerSlot} {id : UInt32} (h : (t.fire now).held = some id) : t.held = some id := by
  unfold TimerSlot.fire at h
  grind [TimerSlot.held]

theorem Silent.next (h : Silent s) (guard : notCollected s a) (step : loopNext a s = some s') : Silent s' := by
  cases a <;> simp only [loopNext] at step
  case addFd fd userData accepted =>
    split at step <;> cases step
    · refine ⟨fun gone member => ?_,h.timers⟩
      obtain ⟨was,other⟩ := mem_remaining.1 member
      obtain ⟨unwatched,undelivered⟩ := h.fds gone was
      rw [loop_addFd ‹_›]
      exact ⟨fun watched => (mem_cons.1 watched).elim other unwatched,undelivered⟩
    · exact h
  case removeFd fd =>
    split at step <;> cases step
    · refine ⟨fun gone member => ?_,h.timers⟩
      rw [loop_removeFd ‹_›]
      rcases mem_cons.1 member with rfl | was
      · exact ⟨fun watched => (mem_remaining.1 watched).2 rfl,guard⟩
      · exact ⟨fun watched => (h.fds gone was).1 (mem_remaining.1 watched).1,(h.fds gone was).2⟩
    · exact h
  case close fd =>
    cases step
    exact ⟨fun gone was => ⟨fun watched => (h.fds gone was).1 (mem_remaining.1 watched).1,(h.fds gone was).2⟩,h.timers⟩
  case schedule periodMs now oneShot =>
    split at step
    · rename_i i found
      split at step <;> cases step
      · exact h
      · obtain ⟨slot,here,free⟩ := findIdx?_found found
        refine ⟨h.fds,fun id member => ?_⟩
        obtain ⟨was,other⟩ := mem_filter.1 member
        obtain ⟨calm,gone⟩ := h.timers id was
        refine ⟨calm,fun active => ?_⟩
        have fills : ((s.timers.set i ⟨s.nextTimerId,periodMs * 1000000,now + periodMs * 1000000,true,oneShot⟩).filterMap
            TimerSlot.held).Perm (s.nextTimerId :: s.activeIds) := filterMap_fill here (by simp_all [TimerSlot.held]) rfl
        rcases mem_cons.1 (fills.mem_iff.1 active) with same | before
        · simp [same] at other
        · exact gone before
    · cases step
      exact h
  case cancel timerId =>
    split at step <;> cases step
    · rename_i i found
      obtain ⟨slot,here,active⟩ := findIdx?_found found
      have clears : s.activeIds.Perm (timerId :: (s.timers.modify i ({ · with active := false })).filterMap TimerSlot.held) := by
        rw [modify_eq_set_getElem?, here]
        exact filterMap_clear here (by simp_all [TimerSlot.held]) rfl
      refine ⟨h.fds,fun id member => ?_⟩
      rcases mem_cons.1 member with rfl | was
      · have once := guard.2
        rw [clears.count_eq, count_cons_self] at once
        exact ⟨guard.1,count_eq_zero.1 (Nat.le_zero.1 (Nat.le_of_succ_le_succ once))⟩
      · exact ⟨(h.timers id was).1,fun active => (h.timers id was).2 (clears.mem_iff.2 (mem_cons_of_mem _ active))⟩
    · exact h
  case wait ready =>
    obtain ⟨⟨-,-,-,watched⟩,⟨⟩⟩ := enabled step
    refine ⟨fun gone was => ⟨(h.fds gone was).1,fun member => ?_⟩,h.timers⟩
    simp only [map_map, mem_map] at member
    obtain ⟨e,ready,rfl⟩ := member
    exact (h.fds _ was).1 (watched e ready)
  case onFd =>
    split at step <;> cases step
    rename_i r rest here
    refine ⟨fun gone was => ⟨(h.fds gone was).1,fun member => (h.fds gone was).2 ?_⟩,h.timers⟩
    rw [here]
    exact mem_cons_of_mem _ member
  case fireExpiredTimers now =>
    obtain ⟨-,⟨⟩⟩ := enabled step
    refine ⟨h.fds,fun id was => ⟨fun member => (h.timers id was).2 ?_,fun member => (h.timers id was).2 ?_⟩⟩
    · obtain ⟨t,listed,rfl⟩ := mem_map.1 member
      obtain ⟨there,expired⟩ := mem_filter.1 listed
      exact mem_filterMap.2 ⟨t,there,if_pos (Bool.and_eq_true_iff.1 expired).1⟩
    · simp only [LoopState.activeIds, filterMap_map, mem_filterMap] at member ⊢
      obtain ⟨t,there,held⟩ := member
      exact ⟨t,there,held_of_fire held⟩
  case onTimer =>
    split at step <;> cases step
    rename_i r rest here
    refine ⟨h.fds,fun id was => ⟨fun member => (h.timers id was).1 ?_,(h.timers id was).2⟩⟩
    rw [here]
    exact mem_cons_of_mem _ member

/-- The descriptor or the timer that the next step hands to a hook; the wake descriptor is skipped. -/
def LoopState.calls (s : LoopState) : LoopAct → Option (Int ⊕ UInt32)
  | .onFd => s.results.head?.map fun r => .inl r.fd
  | .onTimer => s.due.head?.map .inr
  | _ => none

/-- **A removed descriptor and a cancelled timer are silent** until they are added or scheduled anew, in the runs that
remove and cancel nothing that has been collected. -/
theorem silent_after_cancel (reached : Reach (loopMachine maxFds maxTimers wakeFd) notCollected s) (a : LoopAct) :
    (∀ fd ∈ s.removed, s.calls a ≠ some (.inl fd)) ∧ ∀ id ∈ s.cancelled, s.calls a ≠ some (.inr id) := by
  have silent : Silent s := by
    apply reached.invariant (I := Silent)
    · exact ⟨fun _ h => absurd h not_mem_nil,fun _ h => absurd h not_mem_nil⟩
    · exact fun s s' a _ h guard step => h.next guard step
  constructor
  · intro fd gone call
    cases a <;> simp only [LoopState.calls, reduceCtorEq, Option.map_eq_some_iff] at call
    · obtain ⟨r,first,⟨⟩⟩ := call
      exact (silent.fds _ gone).2 (mem_map_of_mem (mem_of_head? first))
    · simp at call
  · intro id gone call
    cases a <;> simp only [LoopState.calls, reduceCtorEq, Option.map_eq_some_iff] at call
    · simp at call
    · obtain ⟨r,first,⟨⟩⟩ := call
      exact (silent.timers _ gone).1 (mem_of_head? first)

/-- Two descriptors and a timer, with the wake descriptor 3. -/
def bothReady : List LoopAct := [.addFd 5 1 true, .addFd 6 2 true, .schedule 1 0 false, .wait [(5, 1), (6, 1)], .onFd]

theorem silent_after_cancel_one : ∃ s, Reach (loopMachine 64 16 3) notCollected s ∧ 5 ∈ s.removed ∧ 1 ∈ s.cancelled ∧
    s.calls .onFd = some (.inl 6) ∧ s.calls .onFd ≠ some (.inl 5) := by
  obtain ⟨s,reached,fd,timer,calls⟩ := reach_of_decided (loopMachine 64 16 3) notCollected
    (bothReady ++ [.removeFd 5, .cancel 1])
    (fun s => 5 ∈ s.removed ∧ 1 ∈ s.cancelled ∧ s.calls .onFd = some (.inl 6)) (by decide)
  exact ⟨s,reached,fd,timer,calls,(silent_after_cancel reached _).1 5 fd⟩

/-- The hook for descriptor 5 removes 6, and is followed by the call for 6. -/
theorem called_after_removal : ∃ s, Reach (loopMachine 64 16 3) anyStep s ∧ 6 ∈ s.removed ∧
    s.calls .onFd = some (.inl 6) := reach_of_schedule (loopMachine 64 16 3) (bothReady ++ [.removeFd 6]) _ (by decide)

/-! ## User data -/

/-- The condition: the table has the descriptor or room for it, and no result for it is on the way. -/
def tagFits (s : LoopState) : LoopAct → Prop
  | .addFd fd _ _ => fd ∉ s.results.map (·.fd) ∧
      (fd ∈ s.loop.poller.tags.map (·.fd) ∨ s.loop.poller.tags.length < kMaxEvents)
  | _ => True

instance (s : LoopState) (a : LoopAct) : Decidable (tagFits s a) := by
  cases a <;> unfold tagFits <;> infer_instance

/-- A watched descriptor has one tag, with its latest user data, and so have the results. -/
structure Tagged (s : LoopState) : Prop where
  once : (s.loop.poller.tags.map (·.fd)).Nodup
  watched : ∀ fd ∈ s.loop.poller.watched, ⟨fd, s.latest fd⟩ ∈ s.loop.poller.tags
  results : ∀ r ∈ s.results, r.userData = s.latest r.fd

variable {p : IoPoller} {userData : Nat}

def IoPoller.others (p : IoPoller) (fd : Int) : List FdTag := p.tags.filter (·.fd ≠ fd)

theorem others_of_missing (missing : p.tags.findIdx? (·.fd = fd) = none) : p.others fd = p.tags :=
  filter_eq_self.2 fun tag member => by simpa using findIdx?_eq_none_iff.1 missing tag member

theorem storeTag_perm (userData : Nat) (once : (p.tags.map (·.fd)).Nodup)
    (room : fd ∈ p.tags.map (·.fd) ∨ p.tags.length < kMaxEvents) :
    (p.storeTag fd userData).Perm (⟨fd, userData⟩ :: p.others fd) := by
  unfold IoPoller.storeTag
  split
  · obtain ⟨lt,others⟩ := eraseIdx_perm_filter once ‹_›
    exact (set_perm_cons_eraseIdx lt _).trans (others.cons _)
  · rename_i missing
    have new : fd ∉ p.tags.map (·.fd) := by
      rw [← others_of_missing missing]
      simp [IoPoller.others]
    rw [if_pos (room.resolve_left new), others_of_missing missing]
    exact perm_append_singleton ..

theorem clearTag_perm (fd : Int) (once : (p.tags.map (·.fd)).Nodup) : (p.clearTag fd).Perm (p.others fd) := by
  unfold IoPoller.clearTag
  split
  · exact swapRemove_perm once ‹_› ‹_›
  · rename_i missing
    rw [IoPoller.others, filter_of_missing missing]

theorem others_once (fd : Int) (once : (p.tags.map (·.fd)).Nodup) :
    ((p.others fd).map (·.fd)).Nodup ∧ fd ∉ (p.others fd).map (·.fd) :=
  ⟨once.sublist (filter_sublist.map _), by simp [IoPoller.others]⟩

theorem lookupTag_eq (once : (p.tags.map (·.fd)).Nodup) (member : ⟨fd, userData⟩ ∈ p.tags) :
    p.lookupTag fd = userData := by
  rw [IoPoller.lookupTag, (find?_key once).2 ⟨member,rfl⟩]

theorem Tagged.next (h : Tagged s) (guard : tagFits s a) (step : loopNext a s = some s') : Tagged s' := by
  cases a <;> simp only [loopNext] at step
  case addFd fd userData accepted =>
    split at step <;> cases step
    · obtain ⟨undelivered,room⟩ := guard
      obtain ⟨nodup,fresh⟩ := others_once fd h.once
      have tags := storeTag_perm userData h.once room
      refine ⟨?_,fun w watched => ?_,fun r member => ?_⟩ <;> dsimp only
      · rw [loop_addFd ‹_›, (tags.map (·.fd)).nodup_iff]
        exact nodup_cons.2 ⟨fresh,nodup⟩
      · rw [loop_addFd ‹_›] at watched ⊢
        rw [tags.mem_iff]
        by_cases same : w = fd
        · rw [same, update_self]
          exact mem_cons_self
        · rw [update_of_ne same]
          exact mem_cons_of_mem _ (mem_filter.2 ⟨h.watched w ((mem_cons.1 watched).resolve_left same),by simpa using same⟩)
      · rw [update_of_ne fun same => undelivered (mem_map.2 ⟨r,member,same⟩)]
        exact h.results r member
    · exact h
  case removeFd fd =>
    split at step <;> cases step
    · have tags := clearTag_perm fd h.once
      refine ⟨?_,fun w watched => ?_,h.results⟩
      · rw [loop_removeFd ‹_›, (tags.map (·.fd)).nodup_iff]
        exact (others_once fd h.once).1
      · rw [loop_removeFd ‹_›] at watched ⊢
        obtain ⟨was,other⟩ := mem_remaining.1 watched
        exact tags.mem_iff.2 (mem_filter.2 ⟨h.watched w was,by simpa using other⟩)
    · exact h
  case close fd =>
    cases step
    exact ⟨h.once,fun w watched => h.watched w (mem_remaining.1 watched).1,h.results⟩
  case schedule | cancel =>
    repeat' split at step
    all_goals
      cases step
      exact ⟨h.once,h.watched,h.results⟩
  case wait ready =>
    obtain ⟨⟨-,-,-,watched⟩,⟨⟩⟩ := enabled step
    refine ⟨h.once,h.watched,fun r member => ?_⟩
    obtain ⟨e,there,rfl⟩ := mem_map.1 member
    exact lookupTag_eq h.once (h.watched _ (watched e there))
  case fireExpiredTimers now =>
    obtain ⟨-,⟨⟩⟩ := enabled step
    exact ⟨h.once,h.watched,h.results⟩
  case onFd | onTimer =>
    split at step <;> cases step
    have := h.results
    exact ⟨h.once,h.watched,by simp_all⟩

/-- **A result carries the user data of the latest `AddFd`** of its descriptor, in the runs that add a descriptor only
while its tag fits and no result for it is on the way. -/
theorem results_carry_latest (reached : Reach (loopMachine maxFds maxTimers wakeFd) tagFits s) :
    ∀ r ∈ s.results, r.userData = s.latest r.fd := by
  refine Tagged.results ?_
  apply reached.invariant (I := Tagged)
  · exact ⟨nodup_singleton _,fun w watched => by simp_all [loopMachine],fun _ h => absurd h not_mem_nil⟩
  · exact fun s s' a _ h guard step => h.next guard step

theorem results_carry_latest_two : ∃ s, Reach (loopMachine 64 16 3) tagFits s ∧ s.results = [⟨6, 1, 2⟩] ∧
    s.latest 6 = 2 := by
  obtain ⟨s,reached,pending⟩ := reach_of_decided (loopMachine 64 16 3) tagFits bothReady
    (fun s => s.results = [⟨6,1,2⟩]) (by decide)
  exact ⟨s,reached,pending,(results_carry_latest reached _ (pending ▸ mem_singleton_self _)).symm⟩

/-- With the wake descriptor 3, the 64th descriptor that is added gets no tag. -/
theorem last_tag_lost : ∃ s, Reach (loopMachine 64 16 3) anyStep s ∧ s.results = [⟨67, 1, 0⟩] ∧ s.latest 67 = 67 :=
  reach_of_schedule (loopMachine 64 16 3)
    ((range 64).map (fun i : Nat => .addFd (i + 4) (i + 4) true) ++ [.wait [(67, 1)]]) _ (by decide +kernel)

end Newosp.Nodes
