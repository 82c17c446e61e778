import Newosp.Bus.SharedSpinLock

/-!
# What `state_` of a `SharedSpinLock` says

A thread that acquires a lock only while it holds no other one shared, and calls `lock()` only at shared depth one, has
one of a few shapes (`ThreadOk`), and `state_` is the word of the holders. The depth of a nested `lock_shared()` is not
in `state_`, but `lock()` subtracts it; and the depth of one lock answers for every other lock of the thread.
-/

namespace Newosp.Bus.SpinLock
open Lib List Function
open SpinLock.State (owners setThread sharers)

theorem int32_of_fits {n : Int} (lower : -2147483648 ≤ n) (upper : n < 2147483648) : int32 n = n := by
  unfold int32 Int.bmod
  dsimp only
  split <;> omega

variable {κ τ : Type} {th' : Thread κ} {l : κ} {s s' : State τ κ} {t : τ} {n : Nat}

section

/-- The thread holds `l` as `front` says, above exclusive holds of other locks. -/
structure Shape (th : Thread κ) (l : κ) (front below : List (κ × Mode)) (depth : Nat) (writer : Bool) : Prop where
  stack : th.stack = front ++ below
  front_lock : ∀ x ∈ front, x.1 = l
  exclusive : ∀ x ∈ below, x.2 = .exclusive
  nodup : below.Nodup
  other : (l, .exclusive) ∉ below
  depth : th.readerDepth = depth
  writer : th.upgradeWriter = writer

/-- The thread holds nothing shared. -/
structure Plain (th : Thread κ) : Prop where
  exclusive : ∀ x ∈ th.stack, x.2 = .exclusive
  nodup : th.stack.Nodup
  depth : th.readerDepth = 0
  writer : th.upgradeWriter = false

/-- The thread holds `l` exclusively above its shared hold. -/
def Upgraded (l : κ) (th : Thread κ) : Prop :=
  th.upgradeDepth = 1 ∧ ∃ below, Shape th l [(l, .exclusive), (l, .shared)] below 0 true

/-- The stack and the thread-local variables at each program counter. -/
def ThreadOk (th : Thread κ) : Prop := match th.pc with
  | .idle => Plain th ∨ (∃ l n below, Shape th l (replicate (n + 1) (l, .shared)) below (n + 1) false) ∨
      ∃ l, Upgraded l th
  | .loadState l => Plain th ∨ Upgraded l th
  | .casShared l v => 0 ≤ v ∧ (Plain th ∨ Upgraded l th)
  | .assertLoad l => ∃ below, Shape th l [(l, .shared)] below 0 false
  | .subShared l => ∃ below, Shape th l [(l, .shared)] below 0 false
  | .upgradeSub l => th.upgradeDepth = 1 ∧ ∃ below, Shape th l [(l, .shared)] below 1 false
  | .lockCas l => Plain th ∨ Upgraded l th ∨ th.upgradeDepth = 1 ∧ ∃ below, Shape th l [(l, .shared)] below 0 true
  | .unlockStore l value => (value = 0 ∧ Plain th ∧ ∃ rest, th.stack = (l, .exclusive) :: rest) ∨
      value = 1 ∧ ∃ below, Shape th l [(l, .exclusive), (l, .shared)] below 1 false
  | .aborted => False

variable {th : Thread κ} {m : κ} {front front' below : List (κ × Mode)} {d d' : Nat} {w w' : Bool} {pc : PC κ}

theorem Shape.plain (h : Shape th l [] below 0 false) : Plain th := by
  have stack : th.stack = below := h.stack
  exact ⟨by rw [stack]; exact h.exclusive,by rw [stack]; exact h.nodup,h.depth,h.writer⟩

theorem Shape.change (h : Shape th l front below d w) (stack : th'.stack = front' ++ below)
    (front_lock : ∀ x ∈ front', x.1 = l) (depth : th'.readerDepth = d') (writer : th'.upgradeWriter = w') :
    Shape th' l front' below d' w' := ⟨stack, front_lock, h.exclusive, h.nodup, h.other, depth, writer⟩

theorem Plain.goto (h : Plain th) : Plain { th with pc } := ⟨h.exclusive,h.nodup,h.depth,h.writer⟩

theorem Shape.goto (h : Shape th l front below d w) : Shape { th with pc } l front below d w :=
  h.change h.stack h.front_lock h.depth h.writer

theorem Upgraded.goto (h : Upgraded l th) : Upgraded l { th with pc } := by
  obtain ⟨once,below,shape⟩ := h
  exact ⟨once,below,shape.goto⟩

theorem Shape.lock_eq (h : Shape th l front below d w) (shared : (l, .shared) ∈ front)
    (alone : ∀ x ∈ th.stack, x.2 = .shared → x.1 = m) : l = m :=
  alone (l, .shared) (by rw [h.stack]; exact mem_append_left _ shared) rfl

theorem Shape.reading_ok (h : Shape th l (replicate (n + 1) (l, .shared)) below (n + 1) false)
    (idle : th.pc = .idle) : ThreadOk th := by
  simp only [ThreadOk, idle]
  exact .inr (.inl ⟨l,n,below,h⟩)

variable [DecidableEq κ]

theorem Plain.shares (h : Plain th) (m : κ) : th.shares m = false := by
  refine decide_eq_false fun held => ?_
  have mode := h.exclusive _ held.1
  cases mode

section

theorem Plain.shape (h : Plain th) (free : th.owns l = false) : Shape th l [] th.stack 0 false :=
  ⟨rfl, fun _ member => absurd member (not_mem_nil), h.exclusive, h.nodup,
    of_decide_eq_false free, h.depth, h.writer⟩

variable (h : Shape th l front below d w)
include h

theorem Shape.owns (m : κ) : th.owns m = decide ((m, .exclusive) ∈ front ∨ (m, .exclusive) ∈ below) := by
  rw [Thread.owns, h.stack]
  simp only [mem_append]

theorem Shape.others (ne : m ≠ l) : th.owns m = decide ((m, .exclusive) ∈ below) ∧ th.shares m = false := by
  have absent : ∀ mode, (m, mode) ∉ front := fun mode member => ne (h.front_lock _ member)
  constructor
  · rw [h.owns]
    simp only [absent, false_or]
  · refine decide_eq_false fun held => ?_
    rw [h.stack] at held
    rcases mem_append.1 held.1 with front | below
    · exact absent _ front
    · have mode := h.exclusive _ below
      cases mode

theorem Shape.agree (h' : Shape th' l front' below d' w') (ne : m ≠ l) :
    th'.owns m = th.owns m ∧ th'.shares m = th.shares m := by
  rw [(h.others ne).1, (h.others ne).2, (h'.others ne).1, (h'.others ne).2]
  exact ⟨rfl,rfl⟩

theorem Shape.owns_self : th.owns l = decide ((l, Mode.exclusive) ∈ front) := by
  rw [h.owns]
  simp only [h.other, or_false]

theorem Shape.shares_self (shared : (l, .shared) ∈ front) (free : (l, .exclusive) ∉ front) (kept : th.pc ≠ .lockCas l) :
    th.shares l = true := by
  refine decide_eq_true ⟨?_,?_,kept⟩
  · rw [h.stack]
    exact mem_append_left _ shared
  · rw [h.stack]
    exact fun member => (mem_append.1 member).elim free h.other

theorem Shape.not_shares_of_owned (owned : (l, .exclusive) ∈ front) : th.shares l = false := by
  refine decide_eq_false fun held => held.2.1 ?_
  rw [h.stack]
  exact mem_append_left _ owned

end

theorem not_shares_of_waiting (waits : th.pc = .lockCas l) : th.shares l = false :=
  decide_eq_false fun held => held.2.2 waits

end

section

variable [Fintype τ] [DecidableEq κ]

structure Inv (s : State τ κ) : Prop where
  threads : ∀ t, ThreadOk (s.thread t)
  words : ∀ l, WordOk (s.state l) (s.sharers l) (s.owners l)

variable {v : Int}

theorem Inv.state_le (h : Inv s) (l : κ) : -1 ≤ s.state l ∧ s.state l ≤ Fintype.card τ := by
  have word := h.words l
  rcases (s.owners l).eq_empty_or_nonempty with none | ⟨t,member⟩
  · have count := word.eq_card none
    have bound := (s.sharers l).card_le_univ
    omega
  · have owned := word.eq_neg_one_iff.2 ⟨t,member⟩
    omega

theorem Inv.not_owns (h : Inv s) (readable : 0 ≤ s.state l) : (s.thread t).owns l = false := by
  have none := (h.words l).noOwner readable
  by_contra owns
  have member : t ∈ s.owners l := mem_threadsWith.2 (by simpa using owns)
  rw [none] at member
  exact absurd member (Finset.notMem_empty _)

variable [DecidableEq τ]

omit [Fintype τ] [DecidableEq κ] in
theorem threads_set (h : ∀ u, ThreadOk (s.thread u)) (ok : ThreadOk th') : ∀ u, ThreadOk (update s.thread t th' u) :=
  (forall_update_iff s.thread fun _ => ThreadOk).2 ⟨ok,fun u _ => h u⟩

theorem Inv.move (h : Inv s) (ok : ThreadOk th')
    (same : ∀ m, th'.owns m = (s.thread t).owns m ∧ th'.shares m = (s.thread t).shares m) :
    Inv (s.setThread t th') := by
  refine ⟨threads_set h.threads ok,fun m => ?_⟩
  have word := h.words m
  rw [sharers, owners] at word ⊢
  rw [setThread, threadsWith_same (same m).1, threadsWith_same (same m).2]
  exact word

theorem Inv.write (h : Inv s) (ok : ThreadOk th')
    (others : ∀ m, m ≠ l → th'.owns m = (s.thread t).owns m ∧ th'.shares m = (s.thread t).shares m)
    (word : WordOk v (threadsWith (Thread.shares l) (update s.thread t th'))
      (threadsWith (Thread.owns l) (update s.thread t th'))) :
    Inv ({ s with state := update s.state l v }.setThread t th') := by
  refine ⟨threads_set h.threads ok,fun m => ?_⟩
  by_cases here : m = l
  · subst here
    simpa only [sharers, owners, setThread, update_self] using word
  · have old := h.words m
    rw [sharers, owners] at old ⊢
    simp only [setThread, update_of_ne here]
    rw [threadsWith_same (others m here).1, threadsWith_same (others m here).2]
    exact old

end

section

variable [Fintype τ] [DecidableEq τ] [DecidableEq κ]

section

variable (h : Inv s) (few : Fintype.card τ < 2147483648)
include h few

theorem Inv.casShared {v : Int}
    (here : (s.thread t).pc = .casShared l v) (current : s.state l = v) :
    Inv ({ s with state := update s.state l (int32 (v + 1)) }.setThread t
      { s.thread t with readerDepth := 1, pc := .idle, stack := (l, .shared) :: (s.thread t).stack }) := by
  have ok := h.threads t
  simp only [ThreadOk, here] at ok
  obtain ⟨readable,shape⟩ := ok
  rw [← current] at readable
  have free : (s.thread t).owns l = false := h.not_owns readable
  rcases shape with plain | ⟨-,below,upgraded⟩
  · have before := plain.shape free
    set th' : Thread κ := { s.thread t with
      readerDepth := 1, pc := .idle, stack := (l, .shared) :: (s.thread t).stack } with th_def
    have after : Shape th' l (replicate 1 (l, .shared)) (s.thread t).stack 1 false :=
      before.change rfl (by simp) rfl plain.writer
    refine h.write (.inr (.inl ⟨l,0,_,after⟩)) (fun m ne => before.agree after ne) ?_
    have fresh : t ∉ s.sharers l := by
      intro member
      have shares := mem_threadsWith.1 member
      rw [plain.shares l] at shares
      cases shares
    have joined := (h.words l).join readable fresh
    have count := joined.eq_card ((h.words l).noOwner readable)
    have bound := (insert t (s.sharers l)).card_le_univ
    rw [← current, int32_of_fits (by omega) (by omega),
      threadsWith_insert (after.shares_self (by simp) (by simp) (by simp [th_def])), threadsWith_same]
    · exact joined
    · rw [free, after.owns_self]
      simp
  · rw [upgraded.owns_self] at free
    simp at free

theorem Inv.subShared (here : (s.thread t).pc = .subShared l) :
    Inv ({ s with state := update s.state l (int32 (s.state l - 1)) }.setThread t
      { s.thread t with pc := .idle, stack := (s.thread t).stack.tail }) := by
  have ok := h.threads t
  simp only [ThreadOk, here] at ok
  obtain ⟨below,before⟩ := ok
  have after : Shape { s.thread t with pc := .idle, stack := (s.thread t).stack.tail } l [] below 0 false :=
    before.change (by rw [before.stack]; rfl) (by simp) before.depth before.writer
  have shares : (s.thread t).shares l = true := before.shares_self (by simp) (by simp) (by rw [here]; simp)
  have member : t ∈ s.sharers l := mem_threadsWith.2 shares
  refine h.write (.inl after.plain) (fun m ne => before.agree after ne) ?_
  have positive := (h.words l).pos_of_sharer member
  have range := h.state_le l
  rw [int32_of_fits (by omega) (by omega), threadsWith_erase (after.plain.shares l), threadsWith_same]
  · exact (h.words l).leave member
  · rw [before.owns_self, after.owns_self]
    simp

theorem Inv.upgradeSub (here : (s.thread t).pc = .upgradeSub l) :
    Inv ({ s with state := update s.state l (int32 (s.state l - (s.thread t).readerDepth)) }.setThread t
      { s.thread t with readerDepth := 0, upgradeWriter := true, pc := .lockCas l }) := by
  have ok := h.threads t
  simp only [ThreadOk, here] at ok
  obtain ⟨once,below,before⟩ := ok
  have after : Shape { s.thread t with readerDepth := 0, upgradeWriter := true, pc := .lockCas l } l
      [(l, .shared)] below 0 true := before.change before.stack (by simp) rfl rfl
  have shares : (s.thread t).shares l = true := before.shares_self (by simp) (by simp) (by rw [here]; simp)
  have member : t ∈ s.sharers l := mem_threadsWith.2 shares
  refine h.write (.inr (.inr ⟨once,below,after⟩)) (fun m ne => before.agree after ne) ?_
  have positive := (h.words l).pos_of_sharer member
  have range := h.state_le l
  rw [before.depth, int32_of_fits (by omega) (by omega), threadsWith_erase (not_shares_of_waiting rfl),
    threadsWith_same]
  · exact (h.words l).leave member
  · rw [before.owns_self, after.owns_self]

end

theorem Inv.lockCas (h : Inv s) (here : (s.thread t).pc = .lockCas l) (current : s.state l = 0) :
    Inv ({ s with state := update s.state l (-1) }.setThread t
      { s.thread t with pc := .idle, stack := (l, .exclusive) :: (s.thread t).stack }) := by
  have ok := h.threads t
  simp only [ThreadOk, here] at ok
  have free : (s.thread t).owns l = false := h.not_owns (by omega)
  have word := h.words l
  rw [current] at word
  have taken := word.take t
  set th' : Thread κ := { s.thread t with
    pc := .idle, stack := (l, .exclusive) :: (s.thread t).stack } with th_def
  have owns : th'.owns l = true := decide_eq_true (mem_cons_self ..)
  have unshared : (s.thread t).shares l = false := not_shares_of_waiting here
  have unshared' : th'.shares l = false := decide_eq_false fun held => held.2.1 (mem_cons_self ..)
  have others : ∀ m, m ≠ l → th'.owns m = (s.thread t).owns m ∧ th'.shares m = (s.thread t).shares m := by
    intro m ne
    simp [Thread.owns, Thread.shares, th_def, ne, here, Ne.symm ne]
  refine h.write ?_ others ?_
  · rcases ok with plain | ⟨-,below,upgraded⟩ | ⟨once,below,dropped⟩
    · refine .inl ⟨?_,?_,plain.depth,plain.writer⟩
      · intro x member
        rcases mem_cons.1 member with rfl | old
        · rfl
        · exact plain.exclusive x old
      · exact nodup_cons.2 ⟨of_decide_eq_false free,plain.nodup⟩
    · rw [upgraded.owns_self] at free
      simp at free
    · refine .inr (.inr ⟨l,once,below,dropped.change ?_ (by simp) dropped.depth dropped.writer⟩)
      simp only [th_def, dropped.stack]
      rfl
  · rw [threadsWith_insert owns, threadsWith_same (unshared'.trans unshared.symm)]
    exact taken

theorem Inv.unlockStore (h : Inv s) {value : Nat} (here : (s.thread t).pc = .unlockStore l value) :
    Inv ({ s with state := update s.state l (int32 value) }.setThread t
      { s.thread t with pc := .idle, stack := (s.thread t).stack.tail }) := by
  have ok := h.threads t
  simp only [ThreadOk, here] at ok
  set th' : Thread κ := { s.thread t with pc := .idle, stack := (s.thread t).stack.tail } with th_def
  rcases ok with ⟨rfl,plain,rest,stack⟩ | ⟨rfl,below,before⟩
  · have owns : (s.thread t).owns l = true := decide_eq_true (by rw [stack]; exact mem_cons_self ..)
    have member : t ∈ s.owners l := mem_threadsWith.2 owns
    have nodup := plain.nodup
    rw [stack] at nodup
    obtain ⟨gone,nodup⟩ := nodup_cons.1 nodup
    have stack' : th'.stack = rest := by simp only [th_def, stack, tail_cons]
    have plain' : Plain th' := by
      refine ⟨?_,by rw [stack']; exact nodup,plain.depth,plain.writer⟩
      rw [stack']
      exact fun x old => plain.exclusive x (by rw [stack]; exact mem_cons_of_mem _ old)
    refine h.write (.inl plain') (fun m ne => ⟨?_,?_⟩) ?_
    · simp [Thread.owns, stack, stack', ne]
    · rw [plain.shares, plain'.shares]
    · have released : th'.owns l = false := decide_eq_false (by rw [stack']; exact gone)
      rw [threadsWith_erase released, threadsWith_same ((plain'.shares l).trans (plain.shares l).symm)]
      exact (h.words l).give member
  · have owns : (s.thread t).owns l = true := by rw [before.owns_self]; simp
    have member : t ∈ s.owners l := mem_threadsWith.2 owns
    have after : Shape th' l (replicate 1 (l, .shared)) below 1 false :=
      before.change (by simp only [th_def, before.stack]; rfl) (by simp) before.depth before.writer
    have released : th'.owns l = false := by rw [after.owns_self]; simp
    refine h.write (.inr (.inl ⟨l,0,below,after⟩)) (fun m ne => before.agree after ne) ?_
    rw [threadsWith_erase released, threadsWith_insert (after.shares_self (by simp) (by simp) (by simp [th_def]))]
    exact (h.words l).downgrade member

end

section

def Alone (s : State τ κ) (t : τ) (l : κ) : Prop := ∀ x ∈ (s.thread t).stack, x.2 = .shared → x.1 = l

/-- A lock is acquired only by a thread that holds no other one shared, `lock()` called only with at most one shared
hold of it, and fewer than `2 ^ 32` are nested. -/
def disciplined [DecidableEq κ] (s : State τ κ) : Act τ κ → Prop
  | .lockShared t l => Alone s t l ∧ (s.thread t).stack.count (l, .shared) + 1 < 4294967296
  | .lock t l => Alone s t l ∧ (s.thread t).stack.count (l, .shared) ≤ 1
  | _ => True

instance [DecidableEq κ] (s : State τ κ) (t : τ) (l : κ) : Decidable (Alone s t l) :=
  inferInstanceAs (Decidable (∀ x ∈ (s.thread t).stack, x.2 = .shared → x.1 = l))

instance [DecidableEq κ] (s : State τ κ) : (a : Act τ κ) → Decidable (disciplined s a)
  | .lockShared t l => inferInstanceAs (Decidable (Alone s t l ∧ _))
  | .lock t l => inferInstanceAs (Decidable (Alone s t l ∧ _))
  | .unlockShared _ | .unlock _ | .step .. => .isTrue trivial

variable [Fintype τ] [DecidableEq τ] [DecidableEq κ] {th : Thread κ}

theorem Shape.count_eq {below : List (κ × Mode)} {d : Nat} {w : Bool}
    (h : Shape th l (replicate n (l, .shared)) below d w) : th.stack.count (l, .shared) = n := by
  have none : below.count (l, .shared) = 0 := by
    refine count_eq_zero.2 fun member => ?_
    have mode := h.exclusive _ member
    cases mode
  rw [h.stack, count_append, count_replicate_self, none, add_zero]

theorem same_holds (stack : th'.stack = th.stack)
    (kept : ∀ m, th'.pc ≠ .lockCas m) (kept' : ∀ m, th.pc ≠ .lockCas m) (m : κ) :
    th'.owns m = th.owns m ∧ th'.shares m = th.shares m := by
  simp [Thread.owns, Thread.shares, stack, kept, kept']

section

variable (h : Inv s) (idle : (s.thread t).pc = .idle)
include h idle

/-- A thread that holds the lock shared may change how often it does. -/
theorem Inv.recount {below : List (κ × Mode)} {n k : Nat}
    (reading : Shape (s.thread t) l (replicate (n + 1) (l, .shared)) below (n + 1) false)
    (after : Shape th' l (replicate (k + 1) (l, .shared)) below (k + 1) false) (idle' : th'.pc = .idle) :
    Inv (s.setThread t th') := by
  refine h.move (after.reading_ok idle') fun m => ?_
  by_cases ne : m = l
  · subst ne
    rw [reading.owns_self, after.owns_self, reading.shares_self (by simp) (by simp) (by simp [idle]),
      after.shares_self (by simp) (by simp) (by simp [idle'])]
    simp
  · exact reading.agree after ne

theorem Inv.lockShared (guard : disciplined s (.lockShared t l)) : Inv (s.setThread t ((s.thread t).lockShared l)) := by
  obtain ⟨alone,room⟩ := guard
  have ok := h.threads t
  simp only [ThreadOk, idle] at ok
  rcases ok with plain | ⟨m,n,below,reading⟩ | ⟨m,once,below,upgraded⟩
  · rw [Thread.lockShared, if_neg (by rw [plain.depth]; decide)]
    exact h.move (.inl plain.goto) (same_holds rfl (by simp) (by simp [idle]))
  · obtain rfl : m = l := reading.lock_eq (by simp) alone
    rw [reading.count_eq] at room
    rw [Thread.lockShared, if_pos (by rw [reading.depth]; omega)]
    refine h.recount idle reading (k := n + 1) (reading.change ?_ (by simp +contextual) ?_ reading.writer) idle
    · rw [reading.stack]
      rfl
    · rw [reading.depth]
      exact wrap32_of_lt room
  · obtain rfl : m = l := upgraded.lock_eq (by simp) alone
    rw [Thread.lockShared, if_neg (by rw [upgraded.depth]; decide)]
    exact h.move (.inr ⟨once,below,upgraded.goto⟩) (same_holds rfl (by simp) (by simp [idle]))

theorem Inv.unlockShared (step : (s.thread t).unlockShared = some th') : Inv (s.setThread t th') := by
  have ok := h.threads t
  simp only [ThreadOk, idle] at ok
  unfold Thread.unlockShared at step
  split at step
  · rename_i l rest stack
    rcases ok with plain | ⟨m,n,below,reading⟩ | ⟨m,once,below,upgraded⟩
    · have mode := plain.exclusive (l, .shared) (by rw [stack]; exact mem_cons_self ..)
      cases mode
    · have top := reading.stack
      rw [stack, replicate_succ, cons_append] at top
      obtain ⟨same,rest_eq⟩ := List.cons.inj top
      obtain ⟨rfl,-⟩ := Prod.mk.inj same
      cases n with
      | zero =>
        rw [if_neg (by rw [reading.depth]; decide)] at step
        cases step
        refine h.move ⟨below,reading.change ?_ reading.front_lock rfl reading.writer⟩ ?_
        · exact reading.stack
        · exact same_holds rfl (by simp) (by simp [idle])
      | succ n =>
        rw [if_pos (by rw [reading.depth]; omega)] at step
        cases step
        refine h.recount idle reading (reading.change rest_eq (by simp +contextual) ?_ reading.writer) idle
        simp only [reading.depth]
        omega
    · have top := upgraded.stack
      rw [stack] at top
      cases top
  · cases step

theorem Inv.lock (guard : disciplined s (.lock t l)) : Inv (s.setThread t ((s.thread t).lock l)) := by
  obtain ⟨alone,once⟩ := guard
  have ok := h.threads t
  simp only [ThreadOk, idle] at ok
  rcases ok with plain | ⟨m,n,below,reading⟩ | ⟨m,depth,below,upgraded⟩
  · rw [Thread.lock, if_neg (by rw [plain.depth]; decide)]
    refine h.move (.inl plain.goto) fun m => ⟨rfl,?_⟩
    rw [plain.shares, plain.goto.shares]
  · obtain rfl : m = l := reading.lock_eq (by simp) alone
    rw [reading.count_eq] at once
    obtain rfl : n = 0 := by omega
    rw [Thread.lock, if_pos (by rw [reading.depth]; decide)]
    refine h.move ⟨reading.depth,below,reading.change reading.stack reading.front_lock
      reading.depth reading.writer⟩ ?_
    exact same_holds rfl (by simp) (by simp [idle])
  · obtain rfl : m = l := upgraded.lock_eq (by simp) alone
    rw [Thread.lock, if_neg (by rw [upgraded.depth]; decide)]
    set th' : Thread κ := { s.thread t with pc := .lockCas m } with th_def
    have after : Shape th' m [(m, .exclusive), (m, .shared)] below 0 true := upgraded.goto
    refine h.move (.inr (.inl ⟨depth,below,after⟩)) fun l => ?_
    by_cases ne : l = m
    · subst ne
      rw [upgraded.owns_self, after.owns_self, upgraded.not_shares_of_owned (by simp),
        after.not_shares_of_owned (by simp)]
      exact ⟨rfl,rfl⟩
    · exact upgraded.agree after ne

theorem Inv.unlock (step : (s.thread t).unlock = some th') : Inv (s.setThread t th') := by
  have ok := h.threads t
  simp only [ThreadOk, idle] at ok
  unfold Thread.unlock at step
  split at step
  · rename_i l rest stack
    rcases ok with plain | ⟨m,n,below,reading⟩ | ⟨m,once,below,upgraded⟩
    · rw [if_neg (by rw [plain.writer]; decide)] at step
      cases step
      exact h.move (.inl ⟨rfl,plain.goto,rest,stack⟩) (same_holds rfl (by simp) (by simp [idle]))
    · have top := reading.stack
      rw [stack, replicate_succ, cons_append] at top
      cases top
    · have top := upgraded.stack
      rw [stack] at top
      obtain ⟨same,-⟩ := List.cons.inj top
      obtain ⟨rfl,-⟩ := Prod.mk.inj same
      rw [if_pos upgraded.writer] at step
      cases step
      refine h.move (.inr ⟨once,below,upgraded.change upgraded.stack upgraded.front_lock once rfl⟩) ?_
      exact same_holds rfl (by simp) (by simp [idle])
  · cases step

end

end

section

variable [Fintype τ] [DecidableEq κ]

theorem init_inv : Inv (State.init : State τ κ) := by
  refine ⟨fun t => .inl ⟨by simp [State.init],by simp [State.init],rfl,rfl⟩,fun l => ?_⟩
  have none : (State.init : State τ κ).sharers l = ∅ ∧ (State.init : State τ κ).owners l = ∅ := by
    constructor <;> ext t <;> simp [sharers, owners, State.init, Thread.shares, Thread.owns]
  rw [none.1, none.2]
  exact .shared ∅

/-- What `state_` of lock `l` says of its holders. -/
structure LockOk (s : State τ κ) (l : κ) : Prop where
  exclusive : s.state l = -1 ↔ ∃ t, (s.thread t).owns l = true
  alone : ∀ t u, (s.thread t).owns l = true → u ≠ t → (s.thread u).owns l = false ∧ (s.thread u).shares l = false
  shared : (∀ t, (s.thread t).owns l = false) → s.state l = (s.sharers l).card
  released : (∀ t, (s.thread t).owns l = false ∧ (s.thread t).shares l = false) → s.state l = 0

theorem Inv.lockOk (h : Inv s) (l : κ) : LockOk s l := by
  have word := h.words l
  have unowned : (∀ t, (s.thread t).owns l = false) → s.owners l = ∅ := by
    intro none
    refine Finset.eq_empty_of_forall_notMem fun t member => ?_
    have owns := mem_threadsWith.1 member
    rw [none t] at owns
    cases owns
  constructor
  case exclusive =>
    rw [word.eq_neg_one_iff]
    simp only [owners, mem_threadsWith]
  case alone =>
    intro t u owns ne
    have mine : t ∈ s.owners l := mem_threadsWith.2 owns
    constructor
    · by_contra also
      exact ne (word.owner_eq mine (mem_threadsWith.2 (by simpa using also)))
    · by_contra shares
      have member : u ∈ s.sharers l := mem_threadsWith.2 (by simpa using shares)
      rw [word.noSharer mine] at member
      exact absurd member (Finset.notMem_empty _)
  case shared => exact fun none => word.eq_card (unowned none)
  case released =>
    intro none
    have empty : s.sharers l = ∅ := by
      refine Finset.eq_empty_of_forall_notMem fun t member => ?_
      have shares := mem_threadsWith.1 member
      rw [(none t).2] at shares
      cases shares
    rw [word.eq_card (unowned fun t => (none t).1), empty]
    rfl

end

section

variable [Fintype τ] [DecidableEq τ] [DecidableEq κ]

/-- One access of a thread. -/
theorem Inv.access (h : Inv s) (few : Fintype.card τ < 2147483648) {spurious : Bool}
    {r : (κ → Int) × Thread κ} (step : (s.thread t).access spurious s.state = some r) :
    Inv ({ s with state := r.1 }.setThread t r.2) := by
  have ok := h.threads t
  cases here : (s.thread t).pc <;> simp only [ThreadOk, here] at ok <;> simp only [Thread.access, here] at step
  case idle => cases step
  case loadState l =>
    cases step
    refine h.move ?_ ?_
    · split
      · rename_i readable
        exact ⟨readable,ok.imp Plain.goto Upgraded.goto⟩
      · exact ok.imp Plain.goto Upgraded.goto
    · refine same_holds rfl ?_ (by simp [here])
      intro m
      split <;> simp
  case casShared l v =>
    split at step
    · rename_i succeeds
      cases step
      exact h.casShared few here succeeds.1
    · cases step
      exact h.move (ok.2.imp Plain.goto Upgraded.goto) (same_holds rfl (by simp) (by simp [here]))
  case assertLoad l =>
    cases step
    obtain ⟨below,shape⟩ := ok
    have member : t ∈ s.sharers l := mem_threadsWith.2 (shape.shares_self (by simp) (by simp) (by simp [here]))
    rw [if_pos ((h.words l).pos_of_sharer member)]
    exact h.move ⟨below,shape.goto⟩ (same_holds rfl (by simp) (by simp [here]))
  case subShared l =>
    cases step
    exact h.subShared few here
  case upgradeSub l =>
    cases step
    exact h.upgradeSub few here
  case lockCas l =>
    split at step
    · rename_i succeeds
      cases step
      exact h.lockCas here succeeds.1
    · cases step
      exact h.move (h.threads t) fun _ => ⟨rfl,rfl⟩
  case unlockStore l value =>
    cases step
    exact h.unlockStore here

/-- One step of disciplined threads. -/
theorem next_inv (h : Inv s) (few : Fintype.card τ < 2147483648) {a : Act τ κ} (guard : disciplined s a)
    (step : next a s = some s') : Inv s' := by
  cases a <;> simp only [next] at step
  case lockShared t l =>
    split at step <;> cases step
    rename_i idle
    exact h.lockShared idle guard
  case unlockShared t =>
    obtain ⟨idle,step⟩ := enabled step
    obtain ⟨th,moved,rfl⟩ := Option.map_eq_some_iff.1 step
    exact h.unlockShared idle moved
  case lock t l =>
    split at step <;> cases step
    rename_i idle
    exact h.lock idle guard
  case unlock t =>
    obtain ⟨idle,step⟩ := enabled step
    obtain ⟨th,moved,rfl⟩ := Option.map_eq_some_iff.1 step
    exact h.unlock idle moved
  case step t spurious =>
    obtain ⟨r,moved,rfl⟩ := Option.map_eq_some_iff.1 step
    exact h.access few moved

theorem reach_inv (few : Fintype.card τ < 2147483648) (h : Reach machine disciplined s) : Inv s := by
  refine h.invariant (I := Inv) init_inv ?_
  intro s t a _ inv guard step
  exact next_inv inv few guard step

/-- **`state_` tells the holders of every lock**, for disciplined threads fewer than `2 ^ 31`; and no
assertion of `unlock_shared()` fails. -/
theorem state_tells_holders (few : Fintype.card τ < 2147483648) (h : Reach machine disciplined s) :
    (∀ l, LockOk s l) ∧ ∀ t, (s.thread t).pc ≠ .aborted := by
  have inv := reach_inv few h
  refine ⟨inv.lockOk,fun t gone => ?_⟩
  have ok := inv.threads t
  simp only [ThreadOk, gone] at ok

end

/-- Thread 0 holds lock 0 shared, upgrades, and owns it. -/
theorem state_tells_holders_upgraded : ∃ s : State (Fin 2) (Fin 2),
    Reach machine disciplined s ∧ (s.thread 0).owns 0 = true ∧ s.state 0 = -1 ∧ LockOk s 0 := by
  obtain ⟨s,reached,owns,word⟩ := reach_of_decided (machine : Machine (State (Fin 2) (Fin 2)) _) disciplined
      [.lockShared 0 0, .step 0 false, .step 0 false, .lock 0 0, .step 0 false, .step 0 false]
      (fun s => (s.thread 0).owns 0 = true ∧ s.state 0 = -1) (by decide +kernel)
  exact ⟨s,reached,owns,word,(state_tells_holders (by decide) reached).1 0⟩

/-- One lock shared twice, then `lock()`: `state_` is `-1` and nobody holds the lock. Two locks shared: `state_` of the
second does not count it. -/
theorem depth_counted_wrongly : (∃ s : State (Fin 1) (Fin 1), Reach machine anyStep s ∧ s.state 0 = -1 ∧ ¬ LockOk s 0) ∧
    ∃ s : State (Fin 1) (Fin 2), Reach machine anyStep s ∧ (s.thread 0).shares 1 = true ∧ ¬ LockOk s 1 := by
  constructor
  · obtain ⟨s,reached,word,unowned⟩ := reach_of_schedule (machine : Machine (State (Fin 1) (Fin 1)) _)
      [.lockShared 0 0, .step 0 false, .step 0 false, .lockShared 0 0, .lock 0 0, .step 0 false]
      (fun s => s.state 0 = -1 ∧ ∀ t, (s.thread t).owns 0 = false) (by decide +kernel)
    refine ⟨s,reached,word,fun ok => ?_⟩
    obtain ⟨t,owns⟩ := ok.exclusive.1 word
    rw [unowned t] at owns
    cases owns
  · obtain ⟨s,reached,word,shares,unowned⟩ := reach_of_schedule (machine : Machine (State (Fin 1) (Fin 2)) _)
      [.lockShared 0 0, .step 0 false, .step 0 false, .lockShared 0 1]
      (fun s => s.state 1 = 0 ∧ (s.thread 0).shares 1 = true ∧ ∀ t, (s.thread t).owns 1 = false) (by decide +kernel)
    refine ⟨s,reached,shares,fun ok => ?_⟩
    have count := ok.shared unowned
    have member : (0 : Fin 1) ∈ s.sharers 1 := mem_threadsWith.2 shares
    have positive := Finset.card_pos.2 ⟨_,member⟩
    omega

end Newosp.Bus.SpinLock
