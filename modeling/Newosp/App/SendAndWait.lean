import Newosp.App.Lifetime

/-!
# The calls, the queues and the channels together

`SysInv` joins the ring of every `Application` (`AppOk`), what each call relies on inside the posting
lock (`CallOk`) and the life of every channel.
-/

namespace Newosp.App
open Lib List
open Function (forall_update_iff update update_eq_self update_of_ne update_self)

variable {ι κ : Type} {cfg : Setup κ} {req : ι → Request} {s s' : State ι κ} {i : ι} {k : κ} {tail : Nat} {pc' : PC κ}
  {pc : PC κ} {flag : Bool}

section

variable (cfg req)

/-- The message of call `i` is the `j`-th one of application `k`. -/
def Posted (s : State ι κ) (i : ι) (k : κ) (j : Nat) : Prop :=
  ∃ m, (s.app k).posted[j]? = some m ∧ m.responseChannel = some i

def IsPosted (s : State ι κ) (i : ι) : Prop := ∃ k j, Posted s i k j

/-- The application is past the `j`-th message's `Release`. -/
def AppState.past (a : AppState ι) (j : Nat) : Prop := j < a.processed ∨ j = a.processed ∧ a.pc.dropped = true

/-- The application has dropped the reference of the message of call `i`. -/
def Dropped (s : State ι κ) (i : ι) : Prop := ∃ k j, Posted s i k j ∧ (s.app k).past j

def Owes (s : State ι κ) (i : ι) : Prop := ∃ k, (s.app k).pc.owed = some i

/-- The application works on its oldest message. -/
def Working (a : AppState ι) (head : Nat) : Prop := head = a.processed % cfg.queueDepth ∧ a.processed < a.posted.length

/-- What `ProcessOne` relies on. -/
def AppPcOk (a : AppState ι) : AppPC ι → Prop
  | .idle => True
  | .loadTail head => head = a.processed % cfg.queueDepth
  | .each head _ => Working cfg a head
  | .single head => Working cfg a head
  | .handler head ch _ => Working cfg a head ∧ (a.queue head).responseChannel = ch
  | .replyLock head i _ _ _ => Working cfg a head ∧ (a.queue head).responseChannel = some i
  | .replyLen head i _ _ _ => Working cfg a head ∧ (a.queue head).responseChannel = some i
  | .replyCopy head i _ _ => Working cfg a head ∧ (a.queue head).responseChannel = some i
  | .replySet head i _ => Working cfg a head ∧ (a.queue head).responseChannel = some i
  | .replyUnlock head i _ => Working cfg a head ∧ (a.queue head).responseChannel = some i
  | .release head => Working cfg a head
  | .delete head i => Working cfg a head ∧ (a.queue head).responseChannel = some i
  | .storeHead head => Working cfg a head

/-- The ring of an application holds the messages posted and not processed. -/
structure AppOk (a : AppState ι) : Prop where
  le : a.processed ≤ a.posted.length
  room : a.posted.length < a.processed + cfg.queueDepth
  head : a.queueHead = a.processed % cfg.queueDepth
  tail : a.queueTail = a.posted.length % cfg.queueDepth
  entries : ∀ j, a.processed ≤ j → j < a.posted.length →
    a.posted[j]? = some (a.queue (j % cfg.queueDepth))
  pc : AppPcOk cfg a a.pc

/-- What call `i` relies on: the posting lock, the locals read under it, and that only a
synchronous call touches its channel. -/
def CallOk (app : κ → AppState ι) (i : ι) : PC κ → Prop
  | .idle => True
  | .check => True
  | .find => True
  | .lockPost _ => True
  | .loadTail k => (app k).postMutex = some i
  | .loadHead k tail => (app k).postMutex = some i ∧ tail = (app k).queueTail
  | .writeMsg k tail => (app k).postMutex = some i ∧ tail = (app k).queueTail ∧
      (app k).posted.length + 1 < (app k).processed + cfg.queueDepth
  | .storeTail k tail => (app k).postMutex = some i ∧ tail = (app k).queueTail ∧
      (app k).posted.length + 1 < (app k).processed + cfg.queueDepth ∧
      (app k).queue tail = (req i).message cfg i
  | .unlockPost k _ => (app k).postMutex = some i
  | .done _ => True
  | _ => (req i).sync = true

/-- What the queues and the posts rely on, whatever becomes of the channels. -/
structure MailInv (s : State ι κ) : Prop where
  apps : ∀ k, AppOk cfg (s.app k)
  calls : ∀ i, CallOk cfg req s.app i (s.pc i)

/-- The channel of every synchronous call, and that a message is posted once. -/
structure ChanInv (s : State ι κ) : Prop where
  unique : ∀ i k j k' j', Posted s i k j → Posted s i k' j' → k = k' ∧ j = j'
  life : ∀ i, (req i).sync = true →
    Life (s.chan i) (s.pc i).phase (IsPosted s i) (Dropped s i) (Owes s i)
  sender : ∀ i k j, Posted s i k j → (req i).sync = true
  async : ∀ i, (req i).sync = false → s.chan i = .unborn

/-- The queues and the channels together. -/
structure SysInv (s : State ι κ) : Prop extends MailInv cfg req s, ChanInv req s

end

/-- What a call relies on survives changes to applications whose lock it does not hold, and
progress of `ProcessOne`. -/
theorem CallOk.transport {app app' : κ → AppState ι} (h : CallOk cfg req app i pc)
    (held : ∀ k, (app k).postMutex = some i → (app' k).postMutex = some i ∧
      (app' k).queueTail = (app k).queueTail ∧ (app' k).queue = (app k).queue ∧
      (app' k).posted = (app k).posted ∧ (app k).processed ≤ (app' k).processed) : CallOk cfg req app' i pc := by
  cases pc with
  | loadTail k => exact (held k h).1
  | unlockPost k ok => exact (held k h).1
  | loadHead k tail =>
    obtain ⟨mutex,at_⟩ := h
    obtain ⟨mutex',tail',-⟩ := held k mutex
    exact ⟨mutex',by rw [tail', at_]⟩
  | writeMsg k tail =>
    obtain ⟨mutex,at_,room⟩ := h
    obtain ⟨mutex',tail',-,posted,grows⟩ := held k mutex
    exact ⟨mutex',by rw [tail', at_],by rw [posted]; omega⟩
  | storeTail k tail =>
    obtain ⟨mutex,at_,room,message⟩ := h
    obtain ⟨mutex',tail',queue,posted,grows⟩ := held k mutex
    exact ⟨mutex',by rw [tail', at_],by rw [posted]; omega,by rw [queue]; exact message⟩
  | _ => exact h

structure SameApps (s s' : State ι κ) : Prop where
  posted : ∀ k, (s'.app k).posted = (s.app k).posted
  processed : ∀ k, (s'.app k).processed = (s.app k).processed
  dropped : ∀ k, (s'.app k).pc.dropped = (s.app k).pc.dropped
  owed : ∀ k, (s'.app k).pc.owed = (s.app k).pc.owed

namespace SameApps

section

variable (same : SameApps s s')
include same

theorem posted_eq : Posted s' = Posted s := by
  funext i k j
  simp only [Posted, same.posted]

theorem isPosted_eq : IsPosted s' = IsPosted s := by
  funext i
  simp only [IsPosted, same.posted_eq]

theorem dropped_eq : Dropped s' = Dropped s := by
  funext i
  simp only [Dropped, AppState.past, same.posted_eq, same.processed, same.dropped]

theorem owes_eq : Owes s' = Owes s := by
  funext i
  simp only [Owes, same.owed]

end

end SameApps

theorem SysInv.oldest (h : SysInv cfg req s) {head : Nat} (working : Working cfg (s.app k) head)
    (channel : ((s.app k).queue head).responseChannel = some i) :
    Posted s i k (s.app k).processed ∧ ((s.app k).pc.dropped = false → ¬ Dropped s i) := by
  obtain ⟨rfl,lt⟩ := working
  have there : Posted s i k (s.app k).processed :=
    ⟨_,(h.apps k).entries _ le_rfl lt,channel⟩
  refine ⟨there,?_⟩
  rintro kept ⟨k',j,posted,past⟩
  obtain ⟨rfl,rfl⟩ := h.unique _ _ _ _ _ posted there
  rcases past with lt | ⟨-,gone⟩
  · exact lt_irrefl _ lt
  · rw [kept] at gone
    cases gone

theorem SysInv.owed_posted (h : SysInv cfg req s) (owed : (s.app k).pc.owed = some i) :
    Posted s i k (s.app k).processed := by
  have pcOk := (h.apps k).pc
  cases at_ : (s.app k).pc <;> rw [at_] at owed pcOk
  case delete head d =>
    cases owed
    exact (h.oldest pcOk.1 pcOk.2).1
  all_goals cases owed

/-! ## Steps of the calls -/

section

variable {a : AppState ι}

theorem alone_of_held (held : (s.app k).postMutex = some i) (d : ι) (other : d ≠ i) : (s.app k).postMutex ≠ some d := by
  rw [held]
  rintro ⟨⟩
  exact other rfl

theorem getElem?_concat_iff {β : Type} {l : List β} {m x : β} {j : Nat} :
    (l ++ [m])[j]? = some x ↔ l[j]? = some x ∨ j = l.length ∧ m = x := by
  rw [getElem?_append]
  split
  · rename_i lt
    simp [Nat.ne_of_lt lt]
  · rename_i ge
    rw [getElem?_eq_none (Nat.not_lt.1 ge), getElem?_singleton]
    split
    · simp [show j = l.length by omega]
    · simp [show j ≠ l.length by omega]

theorem AppOk.not_past (ok : AppOk cfg a) : ¬ a.past a.posted.length := by
  rintro (lt | ⟨eq,gone⟩)
  · have := ok.le
    omega
  · have pcOk := ok.pc
    cases at_ : a.pc <;> rw [at_] at gone pcOk
    case delete =>
      have := pcOk.1.2
      omega
    case storeHead =>
      have := pcOk.2
      omega
    all_goals cases gone

def AppState.post (cfg : Setup κ) (a : AppState ι) (tail : Nat) (m : AppMessage ι) : AppState ι :=
  { a with queueTail := (tail + 1) % cfg.queueDepth, posted := a.posted ++ [m] }

theorem AppOk.post (ok : AppOk cfg a) {m : AppMessage ι} (at_tail : tail = a.queueTail)
    (room : a.posted.length + 1 < a.processed + cfg.queueDepth) (message : a.queue tail = m) :
    AppOk cfg (a.post cfg tail m) := by
  have grow : ∀ {head}, Working cfg a head → Working cfg (a.post cfg tail m) head :=
    fun w => ⟨w.1,by simpa [AppState.post] using Nat.lt_succ_of_lt w.2⟩
  constructor
  case le => simpa [AppState.post] using Nat.le_succ_of_le ok.le
  case room => simpa [AppState.post] using room
  case head => exact ok.head
  case tail => simp [AppState.post, at_tail, ok.tail, Nat.mod_add_mod]
  case entries =>
    intro j lo hi
    simp only [AppState.post, length_append, length_singleton] at hi
    rw [AppState.post, getElem?_concat_iff]
    by_cases lt : j < a.posted.length
    · exact .inl (ok.entries j lo lt)
    · have last : j = a.posted.length := by omega
      refine .inr ⟨last,?_⟩
      rw [last, ← ok.tail, ← at_tail, message]
  case pc =>
    have pcOk := ok.pc
    show AppPcOk cfg _ a.pc
    cases at_ : a.pc <;> rw [at_] at pcOk
    case idle => trivial
    case loadTail => exact pcOk
    case each | single | release | storeHead => exact grow pcOk
    all_goals exact ⟨grow pcOk.1,pcOk.2⟩

theorem failedPost_ok (cfg : Setup κ) (req : ι → Request) (app : κ → AppState ι) :
    CallOk cfg req app i (failedPost (req i)) := by
  unfold failedPost
  split
  · rename_i sync
    exact sync
  · trivial

theorem failedPost_life {r : Request} {posted dropped owes : Prop}
    (life : r.sync = true → Life (s.chan i) .posting posted dropped owes) (sync : r.sync = true) :
    Life (s.chan i) (failedPost r : PC κ).phase posted dropped owes := by
  unfold failedPost
  rw [if_pos sync]
  exact life sync

theorem AppOk.free (ok : AppOk cfg a) (notFull : (a.queueTail + 1) % cfg.queueDepth ≠ a.queueHead) :
    a.posted.length + 1 < a.processed + cfg.queueDepth := by
  have room := ok.room
  by_contra full
  have last : a.posted.length + 1 = a.processed + cfg.queueDepth := by omega
  rw [ok.tail, ok.head, Nat.mod_add_mod, last, Nat.add_mod_right] at notFull
  exact notFull rfl

theorem AppOk.write (ok : AppOk cfg a) (m : AppMessage ι) (room : a.posted.length + 1 < a.processed + cfg.queueDepth) :
    AppOk cfg { a with queue := update a.queue a.queueTail m } := by
  have other : ∀ j, a.processed ≤ j → j < a.posted.length → j % cfg.queueDepth ≠ a.queueTail := by
    intro j lo hi
    rw [ok.tail]
    exact index_ne (by omega) (by omega) (by omega)
  have working : ∀ {head}, Working cfg a head → head ≠ a.queueTail := by
    rintro head ⟨rfl,lt⟩
    exact other _ le_rfl lt
  constructor
  case le => exact ok.le
  case room => exact ok.room
  case head => exact ok.head
  case tail => exact ok.tail
  case entries =>
    intro j lo hi
    simpa only [update_of_ne (other j lo hi)] using ok.entries j lo hi
  case pc =>
    have pcOk := ok.pc
    show AppPcOk cfg _ a.pc
    cases at_ : a.pc <;> rw [at_] at pcOk
    case idle => trivial
    case loadTail | each | single | release | storeHead => exact pcOk
    all_goals
      refine ⟨pcOk.1,?_⟩
      simpa only [update_of_ne (working pcOk.1)] using pcOk.2

end

section

variable {chan' : ι → ResponseChannel} {a' : AppState ι} (h : MailInv cfg req s)
include h

section

variable [DecidableEq κ]

theorem MailInv.app (appOk : AppOk cfg a')
    (frame : a' = { s.app k with pc := a'.pc, queueHead := a'.queueHead, processed := a'.processed })
    (grows : (s.app k).processed ≤ a'.processed) : MailInv cfg req { s.setApp k a' with chan := chan' } where
  apps := (forall_update_iff s.app fun _ a => AppOk cfg a).2 ⟨appOk, fun k' _ => h.apps k'⟩
  calls := by
    intro d
    refine (h.calls d).transport fun k' held => ?_
    by_cases at_k : k' = k
    · subst at_k
      simp only [State.setApp_app, update_self]
      rw [frame]
      exact ⟨held,rfl,rfl,rfl,grows⟩
    · simpa [update_of_ne at_k] using held

theorem MailInv.appGoto {pc' : AppPC ι} (ok : AppPcOk cfg (s.app k) pc') :
    MailInv cfg req { s.setApp k { s.app k with pc := pc' } with chan := chan' } := by
  have ring := h.apps k
  refine h.app ⟨ring.le,ring.room,ring.head,ring.tail,ring.entries,?_⟩ rfl le_rfl
  cases pc' <;> exact ok

end

variable [DecidableEq ι]

theorem MailInv.move (ok : CallOk cfg req s.app i pc') : MailInv cfg req ({ s with chan := chan' }.goto i pc') where
  apps := h.apps
  calls := (forall_update_iff s.pc (CallOk cfg req s.app)).2 ⟨ok, fun d _ => h.calls d⟩

variable [DecidableEq κ]

theorem MailInv.onApp {pc' : PC κ} (alone : ∀ d, d ≠ i → (s.app k).postMutex ≠ some d)
    (appOk : AppOk cfg a') (ok : CallOk cfg req (update s.app k a') i pc') :
    MailInv cfg req ((s.setApp k a').goto i pc') where
  apps := (forall_update_iff s.app fun _ a => AppOk cfg a).2 ⟨appOk, fun k' _ => h.apps k'⟩
  calls := by
    intro d
    by_cases self : d = i
    · subst self
      simpa using ok
    · rw [State.goto_pc, update_of_ne self]
      refine (h.calls d).transport fun k' mutex => ?_
      have at_k : k' ≠ k := by
        rintro rfl
        exact alone d self mutex
      simpa [update_of_ne at_k] using mutex

/-- One step of a call. -/
theorem MailInv.call_step (step : callNext cfg req i flag s = some s') : MailInv cfg req s' := by
  have call := h.calls i
  cases here : s.pc i <;> simp only [callNext, here] at step <;> rw [here] at call
  case done => cases step
  case idle =>
    cases step
    exact h.move trivial
  case check =>
    cases step
    split
    · exact h.move trivial
    · split
      · rename_i sync
        exact h.move sync
      · exact h.move trivial
  case alloc => split at step <;> cases step <;> exact h.move trivial
  case find =>
    cases step
    split
    · exact h.move (failedPost_ok ..)
    · split
      · exact h.move (failedPost_ok ..)
      · exact h.move trivial
  case lockPost k =>
    obtain ⟨free,⟨⟩⟩ := enabled step
    exact h.onApp (by simp [free]) { h.apps k with } (by simp [CallOk])
  case loadTail k =>
    cases step
    exact h.move ⟨call,rfl⟩
  case loadHead k tail =>
    cases step
    obtain ⟨mutex,rfl⟩ := call
    split
    · exact h.move mutex
    · rename_i notFull
      exact h.move ⟨mutex,rfl,(h.apps k).free notFull⟩
  case writeMsg k tail =>
    cases step
    obtain ⟨mutex,rfl,room⟩ := call
    exact h.onApp (alone_of_held mutex) ((h.apps k).write _ room)
      ⟨by simpa using mutex,by simp,by simpa using room,by simp⟩
  case storeTail k tail =>
    cases step
    obtain ⟨mutex,at_tail,room,message⟩ := call
    exact h.onApp (alone_of_held mutex) ((h.apps k).post at_tail room message) (by simpa [CallOk] using mutex)
  case unlockPost k ok =>
    cases step
    refine h.onApp (alone_of_held call) { h.apps k with } ?_
    split
    · split
      · rename_i sync
        exact sync
      · trivial
    · exact failedPost_ok ..
  -- from here on the call is synchronous and works on its channel
  case failRelease | release =>
    cases step
    refine h.move ?_
    split
    · exact call
    · trivial
  case failDelete | delete =>
    cases step
    exact h.move trivial
  case lockCh | blocked =>
    split at step <;> cases step
    exact h.move call
  case testReplied | wake | readReplied =>
    cases step
    refine h.move ?_
    split <;> exact call
  case acquire | waitUnlock | readLen | copy | unlockCh =>
    cases step
    exact h.move call

/-- One step of `ProcessOne`. -/
theorem MailInv.app_step (step : appNext cfg k s = some s') : MailInv cfg req s' := by
  have ring := h.apps k
  have pcOk := ring.pc
  cases here : (s.app k).pc <;> simp only [appNext, here] at step <;> rw [here] at pcOk
  case idle =>
    cases step
    exact h.appGoto ring.head
  case loadTail head =>
    cases step
    refine h.appGoto ?_
    split
    · trivial
    · rename_i ne
      have working : Working cfg (s.app k) head := by
        refine ⟨pcOk,Nat.lt_of_le_of_ne ring.le fun same => ne ?_⟩
        rw [ring.tail, ← same]
        exact pcOk
      split <;> exact working
  case each head j =>
    cases step
    refine h.appGoto ?_
    split
    · split
      · exact ⟨pcOk,rfl⟩
      · exact pcOk
    · exact pcOk
  case single head =>
    cases step
    refine h.appGoto ?_
    split
    · exact ⟨pcOk,rfl⟩
    · exact pcOk
  case handler head ch after =>
    cases step
    cases after <;> exact h.appGoto pcOk.1
  case replyLock =>
    split at step <;> cases step
    exact h.appGoto pcOk
  case replyLen | replyCopy | replySet | replyUnlock =>
    cases step
    exact h.appGoto pcOk
  case release head =>
    split at step
    · cases step
      exact h.appGoto pcOk
    · rename_i i channel
      cases step
      refine h.appGoto ?_
      split
      · exact ⟨pcOk,channel⟩
      · exact pcOk
  case delete =>
    cases step
    exact h.appGoto pcOk.1
  case storeHead head =>
    cases step
    obtain ⟨at_head,lt⟩ := pcOk
    refine h.app ⟨lt,?_,?_,ring.tail,?_,trivial⟩ rfl (Nat.le_succ _)
    · have room := ring.room
      show (s.app k).posted.length < (s.app k).processed + 1 + cfg.queueDepth
      omega
    · rw [at_head, Nat.mod_add_mod]
    · intro j lo hi
      exact ring.entries j (Nat.le_of_succ_le lo) hi

/-- Every step keeps the queues. -/
theorem MailInv.step {a : Act ι κ} (step : next cfg req a s = some s') : MailInv cfg req s' := by
  cases a with
  | call i flag => exact h.call_step step
  | app k => exact h.app_step step
  | reply k buf len =>
    have pcOk := (h.apps k).pc
    cases here : (s.app k).pc <;> simp only [next, replyNext, here] at step <;> rw [here] at pcOk
    case handler head ch after =>
      cases ch <;> cases step
      · exact h
      · exact h.appGoto pcOk
    all_goals cases step

end

section

variable [DecidableEq ι] {ch' : ResponseChannel}

section

variable (h : SysInv cfg req s)
include h

theorem SysInv.own (life : (req i).sync = true → Life ch' pc'.phase (IsPosted s i) (Dropped s i) (Owes s i))
    (async : (req i).sync = false → ch' = .unborn) : ChanInv req ((s.setChan i ch').goto i pc') where
  unique := h.unique
  life := by
    intro d sync
    rw [State.goto_chan, State.setChan_chan, State.goto_pc]
    by_cases self : d = i
    · subst self
      rw [update_self, update_self]
      exact life sync
    · rw [update_of_ne self, State.setChan_pc, update_of_ne self]
      exact h.life d sync
  sender := h.sender
  async := (forall_update_iff s.chan fun d ch => (req d).sync = false → ch = .unborn).2
    ⟨async, fun d _ => h.async d⟩

theorem SysInv.synchronous (sync : (req i).sync = true)
    (life : Life ch' pc'.phase (IsPosted s i) (Dropped s i) (Owes s i)) : ChanInv req ((s.setChan i ch').goto i pc') :=
  h.own (fun _ => life) fun async => by rw [sync] at async; cases async

theorem SysInv.move (life : (req i).sync = true →
      Life (s.chan i) pc'.phase (IsPosted s i) (Dropped s i) (Owes s i)) : ChanInv req (s.goto i pc') := by
  have moved := h.own life (h.async i)
  simpa only [State.setChan, update_eq_self] using moved

theorem SysInv.hold (here : s.pc i = pc)
    (sync : (req i).sync = true) (holding : pc.phase = .holding) (holding' : pc'.phase = .holding)
    (words : (s.chan i).frees = 0 → Life.SameWords (s.chan i) ch') : ChanInv req ((s.setChan i ch').goto i pc') := by
  have life := h.life i sync
  rw [here, holding] at life
  apply h.synchronous sync
  rw [holding']
  exact life.congr (words (life.frees_of_refs rfl))

end

end

section

variable [DecidableEq ι] [DecidableEq κ]

theorem SysInv.onApp (h : SysInv cfg req s) {a' : AppState ι}
    (frame : a' = { a' with posted := (s.app k).posted, processed := (s.app k).processed, pc := (s.app k).pc })
    (life : (req i).sync = true →
      Life (s.chan i) pc'.phase (IsPosted s i) (Dropped s i) (Owes s i)) :
    ChanInv req ((s.setApp k a').goto i pc') := by
  have same : SameApps s ((s.setApp k a').goto i pc') := by
    rw [frame]
    constructor <;> intro k' <;> by_cases at_k : k' = k
    all_goals first
      | (subst at_k; simp)
      | simp [update_of_ne at_k]
  constructor
  case unique =>
    rw [same.posted_eq]
    exact h.unique
  case life =>
    intro d sync
    rw [same.isPosted_eq, same.dropped_eq, same.owes_eq]
    by_cases self : d = i
    · subst self
      simpa using life sync
    · simpa [update_of_ne self] using h.life d sync
  case sender =>
    rw [same.posted_eq]
    exact h.sender
  case async => exact h.async

theorem posted_post {tail : Nat} {pc' : PC κ} (d : ι) (k' : κ) (j : Nat) :
    Posted ((s.setApp k ((s.app k).post cfg tail ((req i).message cfg i))).goto i pc') d k' j ↔
      Posted s d k' j ∨ k' = k ∧ j = (s.app k).posted.length ∧ d = i ∧ (req i).sync = true := by
  by_cases at_k : k' = k
  · subst at_k
    simp only [Posted, State.goto_app, State.setApp_app, update_self, AppState.post,
      getElem?_concat_iff, or_and_right, exists_or, and_assoc, true_and]
    refine or_congr Iff.rfl ⟨?_,?_⟩
    · rintro ⟨m,last,rfl,channel⟩
      simp only [Request.message] at channel
      obtain ⟨_,channel⟩ := enabled channel
      exact ⟨last,(Option.some.inj channel).symm,‹_›⟩
    · rintro ⟨last,rfl,sync⟩
      exact ⟨_,last,rfl,by simp [Request.message, sync]⟩
  · simp [Posted, at_k]

theorem SysInv.post (h : SysInv cfg req s) {tail : Nat} (here : s.pc i = .storeTail k tail) :
    ChanInv req ((s.setApp k ((s.app k).post cfg tail ((req i).message cfg i))).goto i (.unlockPost k true)) := by
  have unsent : (req i).sync = true → ¬ IsPosted s i := by
    intro sync there
    have := (h.life i sync).postedPhase there
    rw [here] at this
    exact this.2 rfl
  have past_eq : ∀ k' j,
      (update s.app k ((s.app k).post cfg tail ((req i).message cfg i)) k').past j = (s.app k').past j :=
    fun k' j => update_same (AppState.past · j) (by rfl) k'
  constructor
  case unique =>
    intro d k₁ j₁ k₂ j₂ first second
    rw [posted_post] at first second
    rcases first with old₁ | ⟨rfl,rfl,rfl,sync⟩
    · rcases second with old₂ | ⟨rfl,rfl,rfl,sync⟩
      · exact h.unique d _ _ _ _ old₁ old₂
      · exact absurd ⟨_,_,old₁⟩ (unsent sync)
    · rcases second with old₂ | ⟨rfl,rfl,-,-⟩
      · exact absurd ⟨_,_,old₂⟩ (unsent sync)
      · exact ⟨rfl,rfl⟩
  case life =>
    intro d sync
    have life := h.life d sync
    have dropped : Dropped ((s.setApp k ((s.app k).post cfg tail ((req i).message cfg i))).goto i
        (.unlockPost k true)) d = Dropped s d := by
      simp only [Dropped, posted_post, State.goto_app, State.setApp_app, past_eq, eq_iff_iff]
      constructor
      · rintro ⟨k',j,old | ⟨rfl,rfl,-,-⟩,past⟩
        · exact ⟨k',j,old,past⟩
        · exact absurd past (h.apps k').not_past
      · rintro ⟨k',j,old,past⟩
        exact ⟨k',j,.inl old,past⟩
    have owes : Owes ((s.setApp k ((s.app k).post cfg tail ((req i).message cfg i))).goto i
        (.unlockPost k true)) d = Owes s d := by
      have owed := update_same (f := s.app) (v := (s.app k).post cfg tail ((req i).message cfg i))
        (AppPC.owed ∘ AppState.pc) rfl
      simp only [Owes, State.goto_app, State.setApp_app]
      exact propext (exists_congr fun k' => iff_of_eq (congrArg (· = some d) (owed k')))
    rw [dropped, owes, State.goto_pc]
    by_cases self : d = i
    · subst self
      rw [here] at life
      have there : IsPosted ((s.setApp k ((s.app k).post cfg tail ((req d).message cfg d))).goto d
          (.unlockPost k true)) d = True :=
        eq_true ⟨k,_,(posted_post d k _).2 (.inr ⟨rfl,rfl,rfl,sync⟩)⟩
      rw [there, update_self]
      exact life.post
    · have same : IsPosted ((s.setApp k ((s.app k).post cfg tail ((req i).message cfg i))).goto i
          (.unlockPost k true)) d = IsPosted s d := by
        simp [IsPosted, posted_post, self]
      rw [same, update_of_ne self]
      exact life
  case sender =>
    intro d k' j there
    rw [posted_post] at there
    rcases there with old | ⟨-,-,rfl,sync⟩
    · exact h.sender d k' j old
    · exact sync
  case async => exact h.async

/-- One step of a call. -/
theorem call_step (h : SysInv cfg req s) (step : callNext cfg req i flag s = some s') : SysInv cfg req s' := by
  refine ⟨h.toMailInv.call_step step,?_⟩
  have call := h.calls i
  have life := h.life i
  cases here : s.pc i <;> simp only [callNext, here] at step <;> rw [here] at call life
  case done => cases step
  case idle | loadTail =>
    cases step
    exact h.move life
  case check =>
    cases step
    split
    · exact h.move fun sync => (life sync).giveUp
    · split
      · exact h.move life
      · rename_i async
        exact h.move fun sync => absurd sync async
  case alloc =>
    split at step <;> cases step
    · exact h.move fun sync => (life sync).giveUp
    · exact h.synchronous call (life call).alloc
  case find =>
    cases step
    split
    · exact h.move (failedPost_life life)
    · split
      · exact h.move (failedPost_life life)
      · exact h.move life
  case lockPost k =>
    split at step <;> cases step
    exact h.onApp rfl life
  case loadHead k tail =>
    cases step
    split <;> exact h.move life
  case writeMsg k tail =>
    cases step
    exact h.onApp rfl life
  case storeTail k tail =>
    cases step
    exact h.post here
  case unlockPost k ok =>
    cases step
    cases ok with
    | false => exact h.onApp rfl (failedPost_life life)
    | true =>
      refine h.onApp rfl fun sync => ?_
      simp only [sync, if_true]
      exact life sync
  case failRelease =>
    cases step
    obtain ⟨one,dying⟩ := (life call).failRelease
    rw [if_pos one]
    exact h.synchronous call dying
  case acquire =>
    cases step
    exact h.synchronous call (life call).acquire
  case lockCh | blocked =>
    split at step <;> cases step
    exact h.hold here call rfl rfl fun alive => (Life.touch_sameWords alive).trans (by constructor <;> rfl)
  case testReplied | wake | readReplied =>
    cases step
    refine h.hold here call rfl ?_ Life.touch_sameWords
    split <;> rfl
  case waitUnlock | unlockCh =>
    cases step
    exact h.hold here call rfl rfl fun alive => (Life.touch_sameWords alive).trans (by constructor <;> rfl)
  case readLen =>
    cases step
    exact h.hold here call rfl rfl Life.touch_sameWords
  case copy len =>
    cases step
    refine h.hold here call rfl rfl fun alive => ?_
    split
    · exact Life.touch_sameWords alive
    · exact .refl _
  case release res =>
    cases step
    apply h.synchronous call
    have dying := (life call).release
    split <;> rename_i count <;> simpa only [count, if_true, if_false, PC.phase] using dying
  case failDelete | delete _ =>
    cases step
    exact h.synchronous call (life call).delete

end

end Newosp.App
