import Newosp.App.SendAndWait

/-!
# The application threads, and the lifetime of every channel

`ProcessOne` touches a channel only while the message that carries it is the oldest one of the queue and
its reference has not been dropped. The `Release` at its end needs `Acquire` to have run.
-/

namespace Newosp.App
open Lib List
open Function (update_of_ne update_self)

variable {ι κ : Type} {cfg : Setup κ} {req : ι → Request} {s : State ι κ} {i : ι} {k : κ} {s' : State ι κ}

theorem init_sysInv (cfg : Setup κ) (req : ι → Request) : SysInv cfg req (State.init : State ι κ) := by
  have nobody : ∀ (i : ι) (k : κ) (j : Nat), ¬ Posted State.init i k j := by
    rintro i k j ⟨m,found,-⟩
    simp [State.init] at found
  refine ⟨⟨fun k => ?apps,fun _ => trivial⟩,fun i k j _ _ there => absurd there (nobody i k j),fun i sync => ?life,
    fun i k j there => absurd there (nobody i k j),fun _ _ => rfl⟩
  case apps =>
    have pos := cfg.depth_pos
    refine ⟨le_rfl,?_,?_,?_,?_,trivial⟩ <;> simp [State.init, pos]
  case life =>
    have unposted : ¬ IsPosted (State.init : State ι κ) i := fun ⟨k,j,there⟩ => nobody i k j there
    have undropped : ¬ Dropped (State.init : State ι κ) i := fun ⟨k,j,there,_⟩ => nobody i k j there
    have unowed : ¬ Owes (State.init : State ι κ) i := by
      rintro ⟨k,owed⟩
      cases owed
    constructor <;> simp_all [State.init, ResponseChannel.unborn, PC.phase]

/-- The channel of call `i` is deleted at most once, not touched afterwards, and deleted when call and message are
through. -/
structure FreedOnce (s : State ι κ) (i : ι) : Prop where
  unspoilt : (s.chan i).misuses = 0
  atMostOnce : (s.chan i).frees ≤ 1
  freed : (s.chan i).born = true → (∃ r, s.pc i = .done r) →
    (∀ k j, Posted s i k j → j < (s.app k).processed) → (s.chan i).frees = 1

theorem SysInv.freedOnce (h : SysInv cfg req s) (i : ι) : FreedOnce s i := by
  cases sync : (req i).sync with
  | false =>
    have unborn := h.async i sync
    constructor <;> simp [unborn, ResponseChannel.unborn]
  | true =>
    have life := h.life i sync
    constructor
    case unspoilt => exact life.unspoilt
    case atMostOnce =>
      by_cases early : (s.chan i).born = false ∨ 1 ≤ (s.chan i).refCount ∨ (s.pc i).phase = .deleting ∨ Owes s i
      · rw [life.unfreed early]
        exact Nat.zero_le _
      · simp only [not_or] at early
        obtain ⟨alive,noRef,notDeleting,unowed⟩ := early
        have born : (s.chan i).born = true := Bool.eq_true_of_not_eq_false alive
        have nonneg : 0 ≤ (s.chan i).refCount := life.refCount_nonneg born
        exact le_of_eq (life.freed born (by omega) notDeleting unowed)
    case freed =>
      rintro born ⟨r,returned⟩ processed
      have finished : (s.pc i).phase = .done := by rw [returned]; rfl
      have unowed : ¬ Owes s i := by
        rintro ⟨k,owed⟩
        exact lt_irrefl _ (processed k _ (h.owed_posted owed))
      have gone : (s.chan i).acquired = false ∨ Dropped s i := by
        cases counted : (s.chan i).acquired with
        | false => exact .inl rfl
        | true =>
          obtain ⟨k,j,there⟩ := life.acquiredPosted counted
          exact .inr ⟨k,j,there,.inl (processed k j there)⟩
      have count := life.countGone born gone
      rw [finished] at count life
      exact life.freed born count (by simp) unowed

/-! ## Steps of the applications -/

section

variable [DecidableEq κ] {a' : AppState ι} {now pc' : AppPC ι} {chan' : ι → ResponseChannel} (h : SysInv cfg req s)
  {head : Nat}
include h

theorem SysInv.app (posted : a'.posted = (s.app k).posted)
    (life : ∀ d, (req d).sync = true → Life (chan' d) (s.pc d).phase (IsPosted s d)
      (Dropped (s.setApp k a') d) (Owes (s.setApp k a') d)) (async : ∀ d, (req d).sync = false → chan' d = s.chan d) :
    ChanInv req { s.setApp k a' with chan := chan' } := by
  have posted_eq : Posted { s.setApp k a' with chan := chan' } = Posted s := by
    funext d k' j
    by_cases at_k : k' = k
    · subst at_k
      simp [Posted, posted]
    · simp [Posted, update_of_ne at_k]
  constructor
  case unique =>
    rw [posted_eq]
    exact h.unique
  case life =>
    intro d sync
    have same : IsPosted { s.setApp k a' with chan := chan' } d = IsPosted s d := by
      simp only [IsPosted, posted_eq]
    rw [same]
    exact life d sync
  case sender =>
    rw [posted_eq]
    exact h.sender
  case async =>
    intro d off
    rw [← h.async d off]
    exact async d off

omit h in
theorem dropped_same (posted : a'.posted = (s.app k).posted) (past : ∀ j, a'.past j ↔ (s.app k).past j) :
    Dropped (s.setApp k a') = Dropped s := by
  funext d
  simp only [Dropped, eq_iff_iff]
  refine exists_congr fun k' => exists_congr fun j => ?_
  by_cases at_k : k' = k
  · subst at_k
    simp [Posted, posted, past]
  · simp [Posted, update_of_ne at_k]

omit h in
theorem dropped_release (kept : (s.app k).pc.dropped = false) (gone : pc'.dropped = true) (d : ι) :
    Dropped (s.setApp k { s.app k with pc := pc' }) d ↔ Dropped s d ∨ Posted s d k (s.app k).processed := by
  constructor
  · rintro ⟨k',j,there,past⟩
    by_cases at_k : k' = k
    · subst at_k
      have there' : Posted s d k' j := by simpa [Posted] using there
      simp only [State.setApp_app, update_self, AppState.past] at past
      rcases past with lt | ⟨rfl,-⟩
      · exact .inl ⟨k',j,there',.inl lt⟩
      · exact .inr there'
    · refine .inl ⟨k',j,?_,?_⟩
      · simpa [Posted, update_of_ne at_k] using there
      · simpa [update_of_ne at_k] using past
  · rintro (⟨k',j,there,past⟩ | there)
    · by_cases at_k : k' = k
      · subst at_k
        refine ⟨k',j,by simpa [Posted] using there,?_⟩
        rcases past with lt | ⟨-,already⟩
        · exact .inl (by simpa using lt)
        · rw [kept] at already
          cases already
      · exact ⟨k',j,by simpa [Posted, update_of_ne at_k] using there,by simpa [update_of_ne at_k] using past⟩
    · exact ⟨k,_,by simpa [Posted] using there,.inr ⟨by simp,by simpa using gone⟩⟩

omit h in
theorem owes_setApp (d : ι) :
    Owes (s.setApp k a') d ↔ a'.pc.owed = some d ∨ ∃ k', k' ≠ k ∧ (s.app k').pc.owed = some d := by
  constructor
  · rintro ⟨k',owed⟩
    by_cases at_k : k' = k
    · subst at_k
      exact .inl (by simpa using owed)
    · exact .inr ⟨k',at_k,by simpa [update_of_ne at_k] using owed⟩
  · rintro (owed | ⟨k',at_k,owed⟩)
    · exact ⟨k,by simpa using owed⟩
    · exact ⟨k',by simpa [update_of_ne at_k] using owed⟩

omit h in
theorem owes_same {d : ι} (same : a'.pc.owed = some d ↔ (s.app k).pc.owed = some d) :
    Owes (s.setApp k a') d = Owes s d := by
  rw [eq_iff_iff, owes_setApp, same]
  constructor
  · rintro (owed | ⟨k',-,owed⟩)
    · exact ⟨k,owed⟩
    · exact ⟨k',owed⟩
  · rintro ⟨k',owed⟩
    by_cases at_k : k' = k
    · exact .inl (at_k ▸ owed)
    · exact .inr ⟨k',at_k,owed⟩

theorem SysInv.appGoto (here : (s.app k).pc = now) (same : pc'.dropped = now.dropped ∧ pc'.owed = now.owed) :
    ChanInv req (s.setApp k { s.app k with pc := pc' }) := by
  subst here
  refine h.app rfl (fun d sync => ?_) fun _ _ => rfl
  rw [dropped_same, owes_same]
  · exact h.life d sync
  · rw [same.2]
  · rfl
  · simp [AppState.past, same.1]

theorem SysInv.passNull (here : (s.app k).pc = .release head)
    (channel : ((s.app k).queue head).responseChannel = none) :
    ChanInv req (s.setApp k { s.app k with pc := .storeHead head }) := by
  have ring := h.apps k
  have working : Working cfg (s.app k) head := by have := ring.pc; rwa [here] at this
  have nobody : ∀ d, ¬ Posted s d k (s.app k).processed := by
    rintro d ⟨m,found,mine⟩
    rw [ring.entries _ le_rfl working.2, ← working.1] at found
    cases found
    rw [channel] at mine
    cases mine
  refine h.app rfl (fun d sync => ?_) (fun _ _ => rfl)
  have dropped : Dropped (s.setApp k { s.app k with pc := .storeHead head }) d = Dropped s d := by
    rw [eq_iff_iff, dropped_release (by rw [here]; rfl) rfl]
    simp [nobody d]
  rw [dropped, owes_same (by simp [here, AppPC.owed])]
  exact h.life d sync

theorem SysInv.finish (here : (s.app k).pc = .storeHead head) : ChanInv req (s.setApp k { s.app k with
      queueHead := (head + 1) % cfg.queueDepth, pc := .idle,
      processed := (s.app k).processed + 1 }) := by
  refine h.app rfl (fun d sync => ?_) (fun _ _ => rfl)
  rw [dropped_same, owes_same]
  · exact h.life d sync
  · simp [here, AppPC.owed]
  · rfl
  · intro j
    simp only [AppState.past, here, AppPC.dropped, Bool.false_eq_true, and_false, or_false, and_true,
      Nat.lt_succ_iff_lt_or_eq]

theorem SysInv.reply {buf : Option (Nat → UInt8)} {len : Nat}
    (step : replyNext k buf len s = some s') : ChanInv req s' := by
  cases here : (s.app k).pc <;> simp only [replyNext, here] at step
  case handler head ch after =>
    cases ch with
    | none =>
      cases step
      exact ⟨h.unique,h.life,h.sender,h.async⟩
    | some i =>
      cases step
      exact h.appGoto here ⟨rfl,rfl⟩
  all_goals cases step

end

section

variable [DecidableEq ι] [DecidableEq κ] {head : Nat} {ch' : ResponseChannel}

section

variable (h : SysInv cfg req s)
include h

theorem SysInv.appChan {a' : AppState ι} (posted : a'.posted = (s.app k).posted) (sync : (req i).sync = true)
    (own : Life ch' (s.pc i).phase (IsPosted s i) (Dropped (s.setApp k a') i) (Owes (s.setApp k a') i))
    (others : ∀ d, d ≠ i → Dropped (s.setApp k a') d = Dropped s d ∧ Owes (s.setApp k a') d = Owes s d) :
    ChanInv req ((s.setApp k a').setChan i ch') := by
  refine h.app posted (fun d on => ?_) (fun d off => ?_)
  · by_cases self : d = i
    · subst self
      simpa using own
    · obtain ⟨dropped,owes⟩ := others d self
      rw [dropped, owes]
      simpa [update_of_ne self] using h.life d on
  · have self : d ≠ i := by
      rintro rfl
      rw [sync] at off
      cases off
    simp [update_of_ne self]

theorem SysInv.appTouch {now pc' : AppPC ι}
    (here : (s.app k).pc = now) (kept : now.dropped = false) (owes : now.owed = none)
    (ok : Working cfg (s.app k) head ∧ ((s.app k).queue head).responseChannel = some i)
    (dropped : pc'.dropped = false) (owed : pc'.owed = none)
    (words : (s.chan i).frees = 0 → Life.SameWords (s.chan i) ch') :
    ChanInv req ((s.setApp k { s.app k with pc := pc' }).setChan i ch') := by
  subst here
  obtain ⟨there,alive⟩ := h.oldest ok.1 ok.2
  have sync := h.sender i k _ there
  have life := h.life i sync
  have same : Dropped (s.setApp k { s.app k with pc := pc' }) = Dropped s :=
    dropped_same rfl (by simp [AppState.past, dropped, kept])
  refine h.appChan rfl sync ?_ fun d _ => ⟨by rw [same],owes_same (by rw [owed, owes])⟩
  rw [same, owes_same (by rw [owed, owes])]
  exact life.congr (words (life.frees_of_message ⟨k,_,there⟩ (alive kept)))

theorem SysInv.passChannel (here : (s.app k).pc = .release head)
    (channel : ((s.app k).queue head).responseChannel = some i) (counted : (s.chan i).acquired = true) :
    ChanInv req ((s.setApp k { s.app k with
      pc := if (s.chan i).refCount = 1 then .delete head i else .storeHead head }).setChan i (s.chan i).drop) := by
  have ring := h.apps k
  have working : Working cfg (s.app k) head := by have := ring.pc; rwa [here] at this
  obtain ⟨there,alive⟩ := h.oldest working channel
  have kept : ¬ Dropped s i := alive (by rw [here]; rfl)
  have sync := h.sender i k _ there
  have only : ∀ d, Posted s d k (s.app k).processed ↔ d = i := by
    refine fun d => ⟨?_,fun self => self ▸ there⟩
    rintro ⟨m,found,mine⟩
    rw [ring.entries _ le_rfl working.2, ← working.1] at found
    cases found
    rw [channel] at mine
    exact (Option.some.inj mine).symm
  set pc' : AppPC ι := if (s.chan i).refCount = 1 then .delete head i else .storeHead head with pc_def
  have gone : pc'.dropped = true := by
    rw [pc_def]
    split <;> rfl
  have owed : ∀ d, pc'.owed = some d ↔ d = i ∧ (s.chan i).refCount = 1 := by
    intro d
    rw [pc_def]
    split <;> rename_i one <;> simp [AppPC.owed, one, eq_comm]
  have unowing : ∀ d, (s.app k).pc.owed ≠ some d := by simp [here, AppPC.owed]
  refine h.appChan rfl sync ?_ fun d self => ⟨?_,?_⟩
  · have unowed : ¬ Owes s i := fun o => kept ((h.life i sync).owesDropped o).1
    have dropped : Dropped (s.setApp k { s.app k with pc := pc' }) i = True :=
      eq_true ((dropped_release (by rw [here]; rfl) gone i).2 (.inr there))
    have owes : Owes (s.setApp k { s.app k with pc := pc' }) i = ((s.chan i).refCount = 1) := by
      rw [eq_iff_iff, owes_setApp, owed, and_iff_right rfl]
      exact or_iff_left fun ⟨k',_,other⟩ => unowed ⟨k',other⟩
    rw [dropped, owes]
    exact (h.life i sync).drop counted kept
  · rw [eq_iff_iff, dropped_release (by rw [here]; rfl) gone, only]
    simp [self]
  · exact owes_same (iff_of_false (fun last => self ((owed d).1 last).1) (unowing d))

theorem SysInv.appDelete (here : (s.app k).pc = .delete head i) :
    ChanInv req ((s.setApp k { s.app k with pc := .storeHead head }).setChan i (s.chan i).delete) := by
  have pcOk := (h.apps k).pc
  rw [here] at pcOk
  have there := (h.oldest pcOk.1 pcOk.2).1
  have sync := h.sender i k _ there
  have same : Dropped (s.setApp k { s.app k with pc := .storeHead head }) = Dropped s :=
    dropped_same rfl (by simp [AppState.past, here, AppPC.dropped])
  refine h.appChan rfl sync ?_ fun d self => ⟨by rw [same],owes_same (by simp [here, AppPC.owed, Ne.symm self])⟩
  have owes : Owes (s.setApp k { s.app k with pc := .storeHead head }) i = False := by
    rw [eq_iff_iff, owes_setApp, iff_false]
    rintro (owed | ⟨k',at_k,owed⟩)
    · cases owed
    · exact at_k (h.unique _ _ _ _ _ (h.owed_posted owed) there).1
  rw [same, owes]
  exact (h.life i sync).appDelete ⟨k,by rw [here]; rfl⟩

end

/-- The step is not the `Release` of a channel by an application before the call that owns the
channel has run `Acquire`. -/
def acquiredFirst (s : State ι κ) : Act ι κ → Bool
  | .app k => match (s.app k).pc with
    | .release head => match ((s.app k).queue head).responseChannel with
      | some i => (s.chan i).acquired
      | none => true
    | _ => true
  | _ => true

/-- One step of `ProcessOne` that drops no uncounted reference. -/
theorem app_step (h : SysInv cfg req s) (first : acquiredFirst s (.app k) = true)
    (step : appNext cfg k s = some s') : SysInv cfg req s' := by
  refine ⟨h.toMailInv.app_step step,?_⟩
  have pcOk := (h.apps k).pc
  cases here : (s.app k).pc <;> simp only [appNext, here] at step <;> rw [here] at pcOk
  case idle =>
    cases step
    exact h.appGoto here ⟨rfl,rfl⟩
  case loadTail | each =>
    cases step
    refine h.appGoto here ?_
    repeat' split
    all_goals exact ⟨rfl,rfl⟩
  case single head =>
    cases step
    refine h.appGoto here ?_
    split <;> exact ⟨rfl,rfl⟩
  case handler head ch after =>
    cases step
    cases after <;> exact h.appGoto here ⟨rfl,rfl⟩
  case replyLock head i after buf len =>
    split at step <;> cases step
    · exact h.appTouch here rfl rfl pcOk rfl rfl
        fun alive => (Life.touch_sameWords alive).trans (by constructor <;> rfl)
  case replyLen | replySet | replyUnlock =>
    cases step
    exact h.appTouch here rfl rfl pcOk rfl rfl
      fun alive => (Life.touch_sameWords alive).trans (by constructor <;> rfl)
  case replyCopy head i after buf =>
    cases step
    refine h.appTouch here rfl rfl pcOk rfl rfl fun alive => ?_
    cases buf with
    | none => exact Life.touch_sameWords alive
    | some bytes => exact (Life.touch_sameWords alive).trans (by constructor <;> rfl)
  case release head =>
    split at step
    · rename_i none
      cases step
      exact h.passNull here none
    · rename_i i channel
      cases step
      simp only [acquiredFirst, here, channel] at first
      exact h.passChannel here channel first
  case delete head i =>
    cases step
    exact h.appDelete here
  case storeHead head =>
    cases step
    exact h.finish here

theorem reach_sysInv (h : Reach (machine cfg req) (fun s a => acquiredFirst s a = true) s) : SysInv cfg req s := by
  refine h.invariant (init_sysInv cfg req) fun s t a _ inv first step => ?_
  cases a with
  | call i flag => exact call_step inv step
  | app k => exact app_step inv first step
  | reply k buf len => exact ⟨inv.toMailInv.step (a := .reply k buf len) step,inv.reply step⟩

/-- **Lifetime of the channels**: in every run in which `ProcessOne` releases a channel only after `Acquire`, every
channel is freed once and never used after that. -/
theorem channel_freed_once (h : Reach (machine cfg req) (fun s a => acquiredFirst s a = true) s) (i : ι) :
    FreedOnce s i := (reach_sysInv h).freedOnce i

end

/-- One application with one instance, and a queue of two slots. -/
def oneApp : Setup Unit := ⟨[(1, ())], 2, by decide, 64, 16, 1, fun _ i => i = 0⟩

def oneCall : Unit → Request := fun _ => ⟨true, 0, 0x10001, 4, true, 16, 1, none⟩

/-- The call runs to just before its `Acquire`. -/
def callPosts : List (Act Unit Unit) := replicate 10 (.call () false)

/-- `ProcessOne` without a reply, up to the store of `queue_head_`. -/
def appProcesses : List (Act Unit Unit) := replicate 6 (.app ())

/-- The handler replies in time: the call reads the reply and the application frees the channel. -/
theorem channel_freed_once_replied : ∃ s : State Unit Unit,
    Reach (machine oneApp oneCall) (fun s a => acquiredFirst s a = true) s ∧
    (s.pc () = .done (.success 3) ∧ (s.chan ()).frees = 1) ∧ FreedOnce s () := by
  obtain ⟨s,reached,final⟩ := reach_of_run (machine oneApp oneCall) (g := acquiredFirst) (fun _ _ passes => passes)
      (callPosts ++ replicate 3 (.app ()) ++ [.reply () (some fun _ => 7) 3] ++
        replicate 5 (.app ()) ++ replicate 8 (.call () false) ++ replicate 4 (.app ()))
      (fun s => s.pc () = .done (.success 3) ∧ (s.chan ()).frees = 1) (by decide +kernel)
  exact ⟨s,reached,final,channel_freed_once reached ()⟩

/-- `ProcessOne` overtakes the call before its `Acquire`: the channel is deleted under the call, which uses it and
deletes it again. -/
theorem release_before_acquire : ∃ s, Reach (machine oneApp oneCall) anyStep s ∧ ¬ FreedOnce s () := by
  obtain ⟨s,reached,twice,spoilt⟩ := reach_of_schedule (machine oneApp oneCall)
      (callPosts ++ appProcesses ++ replicate 4 (.call () false) ++ replicate 6 (.call () true))
      (fun s => (s.chan ()).frees = 2 ∧ 0 < (s.chan ()).misuses) (by decide +kernel)
  refine ⟨s,reached,fun once => ?_⟩
  have := once.atMostOnce
  omega

end Newosp.App
