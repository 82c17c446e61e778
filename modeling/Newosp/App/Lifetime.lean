import Newosp.App.ResponseChannel
import Newosp.Lib.Wrap

/-!
# The lifetime of a response channel

A channel has two owners: the call, and the message, whose reference the call takes with `Acquire` after the post. Every
step keeps `Life` but the `Release` of `ProcessOne` before that `Acquire`: it takes a reference nobody has counted.
-/

namespace Newosp.App
open Lib
open ResponseChannel (touch)

/-- How far a call is with its channel. -/
inductive Phase
  | fresh
  | posting
  | sent
  | holding
  | deleting
  | done
deriving DecidableEq

namespace Phase

/-- The references of the call itself. -/
def refs : Phase → Int
  | .posting => 1
  | .sent => 1
  | .holding => 1
  | _ => 0

end Phase

def PC.phase {κ : Type} : PC κ → Phase
  | .idle => .fresh
  | .check => .fresh
  | .alloc => .fresh
  | .find => .posting
  | .lockPost _ => .posting
  | .loadTail _ => .posting
  | .loadHead _ _ => .posting
  | .writeMsg _ _ => .posting
  | .storeTail _ _ => .posting
  | .unlockPost _ ok => if ok then .sent else .posting
  | .failRelease => .posting
  | .acquire => .sent
  | .failDelete => .deleting
  | .delete _ => .deleting
  | .done _ => .done
  | _ => .holding

/-- The application has dropped the reference of the message it works on. -/
def AppPC.dropped {ι : Type} : AppPC ι → Bool
  | .delete _ _ => true
  | .storeHead _ => true
  | _ => false

/-- The channel the application is about to delete. -/
def AppPC.owed {ι : Type} : AppPC ι → Option ι
  | .delete _ i => some i
  | _ => none

/-! ## One channel and its two owners -/

/-- The channel of a synchronous call in phase `ph`; the message is posted, the application has dropped its reference,
and is about to delete it. -/
structure Life (ch : ResponseChannel) (ph : Phase) (posted dropped owes : Prop) : Prop where
  postedPhase : posted → ph ≠ .fresh ∧ ph ≠ .posting
  sentPosted : ph = .sent → posted
  acquiredPosted : ch.acquired = true → posted
  unborn : ph = .fresh → ch.born = false
  born : ph ≠ .fresh → ph ≠ .done → ch.born = true
  notAcquired : ph = .fresh ∨ ph = .posting ∨ ph = .sent → ch.acquired = false
  acquired : ph = .holding → ch.acquired = true
  acquiredDone : ph = .deleting ∨ ph = .done → posted → ch.acquired = true
  acquiredBorn : ch.acquired = true → ch.born = true
  droppedPosted : dropped → ch.acquired = true
  countKept : ch.born = true → ch.acquired = true → ¬ dropped → ch.refCount = ph.refs + 1
  countGone : ch.born = true → ch.acquired = false ∨ dropped → ch.refCount = ph.refs
  deleting : ph = .deleting → ch.refCount = 0 ∧ ¬ owes
  owesDropped : owes → dropped ∧ ch.refCount = 0
  unfreed : ch.born = false ∨ 1 ≤ ch.refCount ∨ ph = .deleting ∨ owes → ch.frees = 0
  freed : ch.born = true → ch.refCount = 0 → ph ≠ .deleting → ¬ owes → ch.frees = 1
  unspoilt : ch.misuses = 0

namespace Life

variable {ch ch' : ResponseChannel} {ph : Phase} {posted dropped owes : Prop}

structure SameWords (ch ch' : ResponseChannel) : Prop where
  refCount : ch'.refCount = ch.refCount
  born : ch'.born = ch.born
  acquired : ch'.acquired = ch.acquired
  frees : ch'.frees = ch.frees
  misuses : ch'.misuses = ch.misuses

theorem SameWords.refl (ch : ResponseChannel) : SameWords ch ch := ⟨rfl, rfl, rfl, rfl, rfl⟩

theorem SameWords.trans {ch₁ ch₂ ch₃ : ResponseChannel} (h : SameWords ch₁ ch₂) (h' : SameWords ch₂ ch₃) :
    SameWords ch₁ ch₃ :=
  ⟨h'.refCount.trans h.refCount, h'.born.trans h.born, h'.acquired.trans h.acquired,
    h'.frees.trans h.frees, h'.misuses.trans h.misuses⟩

section

theorem gone_of_not_counted (h : ¬ (ch.acquired = true ∧ ¬ dropped)) : ch.acquired = false ∨ dropped := by
  cases eq : ch.acquired with
  | false => exact .inl rfl
  | true => exact .inr (Classical.not_not.1 fun kept => h ⟨eq,kept⟩)

variable (h : Life ch ph posted dropped owes)
include h

theorem congr (w : SameWords ch ch') : Life ch' ph posted dropped owes where
  postedPhase := h.postedPhase
  sentPosted := h.sentPosted
  acquiredPosted := by rw [w.acquired]; exact h.acquiredPosted
  unborn := by rw [w.born]; exact h.unborn
  born := by rw [w.born]; exact h.born
  notAcquired := by rw [w.acquired]; exact h.notAcquired
  acquired := by rw [w.acquired]; exact h.acquired
  acquiredDone := by rw [w.acquired]; exact h.acquiredDone
  acquiredBorn := by rw [w.acquired, w.born]; exact h.acquiredBorn
  droppedPosted := by rw [w.acquired]; exact h.droppedPosted
  countKept := by rw [w.born, w.acquired, w.refCount]; exact h.countKept
  countGone := by rw [w.born, w.acquired, w.refCount]; exact h.countGone
  deleting := by rw [w.refCount]; exact h.deleting
  owesDropped := by rw [w.refCount]; exact h.owesDropped
  unfreed := by rw [w.born, w.refCount, w.frees]; exact h.unfreed
  freed := by rw [w.born, w.refCount, w.frees]; exact h.freed
  unspoilt := by rw [w.misuses]; exact h.unspoilt

theorem frees_of_refs (mine : ph.refs = 1) : ch.frees = 0 := by
  have alive : ch.born = true := h.born (by rintro rfl; cases mine) (by rintro rfl; cases mine)
  refine h.unfreed (.inr (.inl ?_))
  by_cases counted : ch.acquired = true ∧ ¬ dropped
  · have := h.countKept alive counted.1 counted.2
    omega
  · have := h.countGone alive (gone_of_not_counted counted)
    omega

theorem frees_of_message (there : posted) (kept : ¬ dropped) : ch.frees = 0 := by
  cases eq : ch.acquired with
  | true =>
    refine h.unfreed (.inr (.inl ?_))
    rw [h.countKept (h.acquiredBorn eq) eq kept]
    cases ph <;> decide
  | false =>
    refine h.frees_of_refs ?_
    have late := h.acquiredDone
    have holds := h.acquired
    have early := h.postedPhase there
    cases ph <;> simp_all [Phase.refs]

theorem refCount_nonneg (alive : ch.born = true) : 0 ≤ ch.refCount := by
  have refs : 0 ≤ ph.refs := by cases ph <;> decide
  by_cases counted : ch.acquired = true ∧ ¬ dropped
  · have := h.countKept alive counted.1 counted.2
    omega
  · rw [h.countGone alive (gone_of_not_counted counted)]
    exact refs

end

theorem touch_sameWords (alive : ch.frees = 0) : SameWords ch ch.touch := by
  constructor <;> simp [touch, alive]

/-- Before `Acquire` the channel is the call's alone. -/
theorem unshared (h : Life ch ph posted dropped owes) (bare : ch.acquired = false) : ¬ dropped ∧ ¬ owes := by
  have kept : ¬ dropped := fun gone => by simpa [bare] using h.droppedPosted gone
  exact ⟨kept,fun o => kept (h.owesDropped o).1⟩

/-- The channel of a call between its allocation and `Acquire`. -/
theorem alone (h : Life ch ph posted dropped owes) (early : ph = .posting ∨ ph = .sent) :
    ch.born = true ∧ ch.acquired = false ∧ ch.refCount = 1 ∧ ch.frees = 0 ∧ ¬ dropped ∧ ¬ owes := by
  have mine : ph.refs = 1 := by rcases early with rfl | rfl <;> rfl
  have alive : ch.born = true := h.born (by rintro rfl; cases mine) (by rintro rfl; cases mine)
  have bare := h.notAcquired (.inr early)
  exact ⟨alive,bare,(h.countGone alive (.inl bare)).trans mine,h.frees_of_refs mine,h.unshared bare⟩

theorem alloc (h : Life ch .fresh posted dropped owes) :
    Life { ResponseChannel.unborn with born := true } .posting posted dropped owes := by
  have none : ¬ posted := fun there => (h.postedPhase there).1 rfl
  obtain ⟨kept,idle⟩ := h.unshared (h.notAcquired (.inl rfl))
  constructor <;> simp_all [ResponseChannel.unborn, Phase.refs]

theorem giveUp (h : Life ch .fresh posted dropped owes) : Life ch .done posted dropped owes := by
  have none : ¬ posted := fun there => (h.postedPhase there).1 rfl
  have unborn := h.unborn rfl
  have bare := h.notAcquired (.inl rfl)
  obtain ⟨kept,idle⟩ := h.unshared bare
  have unfreed := h.unfreed (.inl unborn)
  have unspoilt := h.unspoilt
  constructor <;> simp_all

theorem post (h : Life ch .posting posted dropped owes) : Life ch .sent True dropped owes := by
  have none : ¬ posted := fun there => (h.postedPhase there).2 rfl
  obtain ⟨alive,bare,count,unfreed,kept,idle⟩ := h.alone (.inl rfl)
  have unspoilt := h.unspoilt
  constructor <;> simp_all [Phase.refs]

theorem acquire (h : Life ch .sent posted dropped owes) : Life ch.acquire .holding posted dropped owes := by
  have there := h.sentPosted rfl
  obtain ⟨alive,bare,count,unfreed,kept,idle⟩ := h.alone (.inr rfl)
  have unspoilt := h.unspoilt
  constructor <;> simp_all [ResponseChannel.acquire, touch, Phase.refs]

theorem failRelease (h : Life ch .posting posted dropped owes) :
    ch.refCount = 1 ∧ Life ch.drop .deleting posted dropped owes := by
  have none : ¬ posted := fun there => (h.postedPhase there).2 rfl
  obtain ⟨alive,bare,count,unfreed,kept,idle⟩ := h.alone (.inl rfl)
  have unspoilt := h.unspoilt
  refine ⟨count,?_⟩
  constructor <;> simp_all [ResponseChannel.drop, touch, Phase.refs]

theorem release (h : Life ch .holding posted dropped owes) :
    Life ch.drop (if ch.refCount = 1 then .deleting else .done) posted dropped owes := by
  have alive := h.born (by simp) (by simp)
  have held := h.acquired rfl
  have there := h.acquiredPosted held
  have unfreed := h.frees_of_refs rfl
  have unspoilt := h.unspoilt
  by_cases gone : dropped
  · have count := h.countGone alive (.inr gone)
    have idle : ¬ owes := fun o => by
      have := (h.owesDropped o).2
      rw [count] at this
      cases this
    constructor <;> simp_all [ResponseChannel.drop, touch, Phase.refs]
  · have count := h.countKept alive held gone
    have idle : ¬ owes := fun o => gone (h.owesDropped o).1
    constructor <;> simp_all [ResponseChannel.drop, touch, Phase.refs]

theorem delete (h : Life ch .deleting posted dropped owes) : Life ch.delete .done posted dropped owes := by
  have alive := h.born (by simp) (by simp)
  have late := h.acquiredDone (.inl rfl)
  obtain ⟨zero,idle⟩ := h.deleting rfl
  have unfreed := h.unfreed (.inr (.inr (.inl rfl)))
  have unspoilt := h.unspoilt
  have counted := h.acquiredPosted
  have gone := h.droppedPosted
  have kept := h.countKept alive
  constructor <;> simp_all [ResponseChannel.delete, touch, Phase.refs]

theorem drop (h : Life ch ph posted dropped owes) (counted : ch.acquired = true) (kept : ¬ dropped) :
    Life ch.drop ph posted True (ch.refCount = 1) := by
  have there := h.acquiredPosted counted
  have alive := h.acquiredBorn counted
  have count := h.countKept alive counted kept
  have unfreed := h.frees_of_message there kept
  have unspoilt := h.unspoilt
  have deleting := h.deleting
  have notYet := h.notAcquired
  have unborn := h.unborn
  constructor <;> cases ph <;> simp_all [ResponseChannel.drop, touch, Phase.refs]

theorem appDelete (h : Life ch ph posted dropped owes) (last : owes) : Life ch.delete ph posted dropped False := by
  obtain ⟨gone,zero⟩ := h.owesDropped last
  have counted := h.droppedPosted gone
  have there := h.acquiredPosted counted
  have alive := h.acquiredBorn counted
  have count := h.countGone alive (.inr gone)
  have unfreed := h.unfreed (.inr (.inr (.inr last)))
  have unspoilt := h.unspoilt
  have deleting := h.deleting
  have unborn := h.unborn
  have notYet := h.notAcquired
  constructor <;> cases ph <;> simp_all [ResponseChannel.delete, touch, Phase.refs]

end Life

end Newosp.App
