import Newosp.Shm.MessageQueue
import Newosp.Shm.SpmcByteRing

/-!
# The multi-consumer byte ring is a queue of messages for each consumer

On the abstract side a registered consumer has the messages written since its registration that it has not read; a write
goes to all of them or to none. On the side of the ring there is one stream, followed by the unbounded number `H`.
-/

namespace Newosp.Shm.Spmc
open Lib List Function

variable {k n H tail : Nat} {m : Memory} {c : Channels} {data : Nat → UInt8} {q : List (List UInt8)}

/-- The unread messages of each registered consumer. -/
abbrev Channels : Type := Nat → Option (List (List UInt8))

/-- Whether a message fits the data area beside what every consumer has unread. -/
def Fits (capacity maxConsumers : Nat) (c : Channels) (msg : List UInt8) : Prop :=
  msg.length + 4 ≤ capacity ∧ ∀ i < maxConsumers, ∀ q ∈ c i, unread q + (msg.length + 4) ≤ capacity

instance (capacity maxConsumers : Nat) (c : Channels) (msg : List UInt8) :
    Decidable (Fits capacity maxConsumers c msg) := inferInstanceAs (Decidable (_ ∧ _))

def Channels.set (c : Channels) (i : Nat) (x : Option (List (List UInt8))) : Channels := update c i x

/-- The channels after an operation, if it did what they say. A new consumer gets the first free slot, or `-1`, and has
nothing unread. -/
def accept (capacity maxConsumers : Nat) (c : Channels) : Event → Option Channels
  | .register id => match (range maxConsumers).find? fun i => (c i).isNone with
    | some i => if id = i then some (c.set i (some [])) else none
    | none => if id = -1 then some c else none
  | .unregister id =>
    if id < 0 ∨ id.toNat ≥ maxConsumers then some c else some (c.set id.toNat none)
  | .write msg ok =>
    if Fits capacity maxConsumers c msg then
      if ok = true then some (fun i => (c i).map (· ++ [msg])) else none
    else if ok = false then some c
    else none
  | .read id out returned result => match c id.toNat with
    | some q =>
      if 0 ≤ id ∧ (receive out q).1 = (returned, result) then some (c.set id.toNat (some (receive out q).2))
      else none
    | none => none

def replay (capacity maxConsumers : Nat) (events : List Event) : Option Channels :=
  events.foldlM (accept capacity maxConsumers) (fun _ => none)

def activeSlots (m : Memory) : Finset Nat := (Finset.range m.maxConsumers).filter fun i => m.active i = 1

def Behind (K : Nat) (data : Nat → UInt8) (H tail : Nat) (q : List (List UInt8)) : Prop :=
  ∃ T, tail = wrap32 T ∧ H = T + unread q ∧ unread q ≤ K ∧ Holds K data T q ∧ ∀ msg ∈ q, Sendable msg

def SlotOk (K n : Nat) (data : Nat → UInt8) (H i active tail : Nat) : Option (List (List UInt8)) → Prop
  | none => active = 0
  | some q => i < n ∧ active = 1 ∧ Behind K data H tail q

/-- The memory of the ring behind the channels `c`, when the stream goes on at `H`. -/
structure Ring (k n : Nat) (m : Memory) (c : Channels) (H : Nat) : Prop where
  capacity : m.capacity = 2 ^ k
  consumers : m.maxConsumers = n
  head : m.head = wrap32 H
  slots : ∀ i, SlotOk (2 ^ k) n m.data H i (m.active i) (m.tails i) (c i)
  count : m.consumerCount = (activeSlots m).card

section

variable {i : Nat}

theorem slots_set {K a t : Nat} {active tails : Nat → Nat}
    {x : Option (List (List UInt8))} (old : ∀ j, SlotOk K n data H j (active j) (tails j) (c j))
    (new : SlotOk K n data H i a t x) (j : Nat) :
    SlotOk K n data H j (update active i a j) (update tails i t j) (c.set i x j) := by
  by_cases self : j = i
  · subst self
    rw [Channels.set, update_self, update_self, update_self]
    exact new
  · rw [Channels.set, update_of_ne self, update_of_ne self, update_of_ne self]
    exact old j

theorem activeSlots_register (lt : i < m.maxConsumers) (tails : Nat → Nat) (count : Nat) :
    activeSlots { m with active := update m.active i 1, tails := tails, consumerCount := count } =
      insert i (activeSlots m) := by
  ext j
  by_cases self : j = i
  · subst self
    simp [activeSlots, lt]
  · simp [activeSlots, self]

theorem activeSlots_unregister (i count : Nat) :
    activeSlots { m with active := update m.active i 0, consumerCount := count } = (activeSlots m).erase i := by
  ext j
  by_cases self : j = i
  · subst self
    simp [activeSlots]
  · simp [activeSlots, self]

theorem activeSlots_card_le (m : Memory) : (activeSlots m).card ≤ m.maxConsumers := by
  have := Finset.card_filter_le (Finset.range m.maxConsumers) fun i => m.active i = 1
  rwa [Finset.card_range] at this

variable (h : Ring k n m c H)
include h

theorem Ring.registered (entry : c i = some q) : i < n ∧ m.active i = 1 ∧ Behind (2 ^ k) m.data H (m.tails i) q := by
  have slot := h.slots i
  rw [entry] at slot
  exact slot

theorem Ring.active_eq_zero (i : Nat) : m.active i = 0 ↔ (c i).isNone = true := by
  cases entry : c i with
  | none =>
    have slot := h.slots i
    rw [entry] at slot
    simp [show m.active i = 0 from slot]
  | some q => simp [(h.registered entry).2.1]

theorem Ring.exists_queue (used : m.active i ≠ 0) : ∃ q, c i = some q := by
  cases entry : c i with
  | none => exact absurd ((h.active_eq_zero i).2 (by rw [entry]; rfl)) used
  | some q => exact ⟨q,rfl⟩

theorem register_step (word : n < 4294967296) : ∃ c', accept (2 ^ k) n c (.register (registerConsumer m).1) = some c' ∧
      Ring k n (registerConsumer m).2 c' H := by
  have same : (fun i => decide (m.active i = 0)) = fun i => (c i).isNone := by
    funext i
    rw [Bool.eq_iff_iff, decide_eq_true_iff, h.active_eq_zero i]
  cases free : (range n).find? fun i => (c i).isNone with
  | none =>
    have full : registerConsumer m = (-1, m) := by
      simp only [registerConsumer, h.consumers, same, free]
    rw [full]
    refine ⟨c,?_,h⟩
    simp only [accept, free, if_true]
  | some i =>
    have lt : i < n := mem_range.1 (mem_of_find?_eq_some free)
    have unused := (h.active_eq_zero i).2 (find?_some (p := fun i => (c i).isNone) free)
    have fresh : i ∉ activeSlots m := by simp [activeSlots, unused]
    have granted : registerConsumer m = ((i : Int), { m with
        active := update m.active i 1, tails := update m.tails i m.head,
        consumerCount := wrap32 (m.consumerCount + 1) }) := by
      simp only [registerConsumer, h.consumers, same, free]
    have more := activeSlots_register (m := m) (h.consumers.symm ▸ lt) (update m.tails i m.head)
      (wrap32 (m.consumerCount + 1))
    have room := (congrArg Finset.card more).symm.trans_le (activeSlots_card_le _)
    rw [Finset.card_insert_of_notMem fresh] at room
    rw [granted]
    refine ⟨c.set i (some []),by simp only [accept, free, if_true],h.capacity,h.consumers,h.head,?_,?_⟩
    · apply slots_set h.slots
      exact ⟨lt,rfl,H,h.head,rfl,Nat.zero_le _,holds_nil,(fun _ old => absurd old not_mem_nil)⟩
    · have few : (activeSlots m).card + 1 ≤ n := room.trans_eq h.consumers
      rw [more, Finset.card_insert_of_notMem fresh, h.count, wrap32_of_lt (by omega)]

theorem unregister_step (word : n < 4294967296) (id : Int) :
    ∃ c', accept (2 ^ k) n c (.unregister id) = some c' ∧ Ring k n (unregisterConsumer id m) c' H := by
  by_cases outside : id < 0 ∨ id.toNat ≥ n
  · refine ⟨c,by rw [accept, if_pos outside],?_⟩
    rw [unregisterConsumer, h.consumers, if_pos outside]
    exact h
  · refine ⟨c.set id.toNat none,by rw [accept, if_neg outside],?_⟩
    have inside : ¬ (id < 0 ∨ id.toNat ≥ m.maxConsumers) := by rwa [h.consumers]
    rw [unregisterConsumer, if_neg inside]
    have slots := slots_set (i := id.toNat) (a := 0) (t := m.tails id.toNat) (x := none) h.slots rfl
    rw [update_eq_self] at slots
    by_cases used : m.active id.toNat = 1
    · have member : id.toNat ∈ activeSlots m := by
        simp only [activeSlots, Finset.mem_filter, Finset.mem_range, h.consumers]
        exact ⟨by omega,used⟩
      have room := (activeSlots_card_le m).trans_eq h.consumers
      have positive := Finset.card_pos.2 ⟨_,member⟩
      simp only [if_pos used]
      refine ⟨h.capacity,h.consumers,h.head,slots,?_⟩
      rw [activeSlots_unregister, Finset.card_erase_of_mem member, h.count, sub32_of_le (by omega) positive]
    · have stranger : id.toNat ∉ activeSlots m := by simp [activeSlots, used]
      simp only [if_neg used]
      refine ⟨h.capacity,h.consumers,h.head,slots,?_⟩
      rw [activeSlots_unregister, Finset.erase_eq_of_notMem stranger]
      exact h.count

end

section

variable {msg : List UInt8}

theorem slowestTail_part (h : Ring k n m c H) (word : k ≤ 30) (j : Nat) :
    ∃ S, (range j).foldl (slower m) m.head = wrap32 S ∧ S ≤ H ∧ H ≤ S + 2 ^ k ∧
      (∀ i < j, ∀ q ∈ c i, S + unread q ≤ H) ∧ (S = H ∨ ∃ i < n, ∃ q ∈ c i, S + unread q = H) := by
  have small : 2 ^ k ≤ 2 ^ 30 := Nat.pow_le_pow_right Nat.two_pos word
  induction j with
  | zero => exact ⟨H,h.head,le_rfl,Nat.le_add_right ..,(fun i lt => absurd lt (by omega)),.inl rfl⟩
  | succ j ih =>
    obtain ⟨S,part,le,near,least,found⟩ := ih
    rw [range_succ, foldl_append, part, foldl_cons, foldl_nil]
    cases entry : c j with
    | none =>
      have idle : m.active j = 0 := (h.active_eq_zero j).2 (by rw [entry]; rfl)
      refine ⟨S,by rw [slower, if_neg (by omega)],le,near,?_,found⟩
      intro i lt q member
      by_cases last : i = j
      · subst last
        rw [entry] at member
        cases member
      · exact least i (by omega) q member
    | some q =>
      obtain ⟨slot,active,T,tail,rfl,room,_⟩ := h.registered entry
      have order := positive32_sub32 (a := S) (b := T) (by omega) (by omega)
      by_cases farther : T < S
      · refine ⟨T,?_,by omega,by omega,?_,.inr ⟨j,slot,q,entry,rfl⟩⟩
        · simp only [slower, active, tail, order]
          rw [if_pos (by decide), if_pos farther]
        · intro i lt q' member
          by_cases last : i = j
          · subst last
            rw [entry, Option.mem_some_iff] at member
            rw [member]
          · have := least i (by omega) q' member
            omega
      · refine ⟨S,?_,le,near,?_,found⟩
        · simp only [slower, active, tail, order]
          rw [if_pos (by decide), if_neg farther]
        · intro i lt q' member
          by_cases last : i = j
          · subst last
            rw [entry, Option.mem_some_iff] at member
            rw [← member]
            omega
          · exact least i (by omega) q' member

theorem writeable_iff (h : Ring k n m c H) (word : k ≤ 30) (msg : List UInt8) :
    msg.length + 4 ≤ writeableBytes m ↔ Fits (2 ^ k) n c msg := by
  have small : 2 ^ k ≤ 2 ^ 30 := Nat.pow_le_pow_right Nat.two_pos word
  obtain ⟨S,slowest,le,near,least,found⟩ := slowestTail_part h word n
  have free : writeableBytes m = 2 ^ k - (H - S) := by
    rw [writeableBytes, slowestTail, h.consumers, slowest, h.head, h.capacity,
      sub32_wrap32 le (by omega), sub32_of_le (by omega) (by omega)]
  rw [free]
  constructor
  · intro enough
    refine ⟨by omega,?_⟩
    intro i lt q member
    have := least i lt q member
    omega
  · rintro ⟨total,all⟩
    rcases found with rfl | ⟨i,lt,q,member,eq⟩
    · omega
    · have := all i lt q member
      omega

theorem Behind.write (word : k ≤ 30) (sendable : Sendable msg) (h : Behind (2 ^ k) data H tail q)
    (fits : unread q + (msg.length + 4) ≤ 2 ^ k) :
    Behind (2 ^ k) (writeRaw (2 ^ k) (writeRaw (2 ^ k) data (wrap32 H) (leBytes 4 msg.length))
      (wrap32 (H + 4)) msg) (H + (msg.length + 4)) tail (q ++ [msg]) := by
  obtain ⟨T,eq,rfl,room,holds,all⟩ := h
  have grown : unread (q ++ [msg]) = unread q + (msg.length + 4) := by
    rw [unread_append, unread_cons, unread_nil, add_zero]
  refine ⟨T,eq,by omega,by omega,holds.write (by omega) fits,?_⟩
  intro m member
  rcases mem_append.1 member with old | new
  · exact all m old
  · rw [mem_singleton.1 new]
    exact sendable

theorem write_step (h : Ring k n m c H) (word : k ≤ 30) (sendable : Sendable msg) :
    ∃ c' H', accept (2 ^ k) n c (.write msg (write msg m).1) = some c' ∧ Ring k n (write msg m).2 c' H' := by
  have check := writeable_iff h word msg
  by_cases fits : Fits (2 ^ k) n c msg
  · have enough : ¬ writeableBytes m < wrap32 (msg.length + 4) := by
      rw [sendable.total]
      exact Nat.not_lt.2 (check.2 fits)
    simp only [write, if_neg enough]
    refine ⟨_,H + (msg.length + 4),by rw [accept, if_pos fits, if_pos rfl],h.capacity,h.consumers,?_,?_,
      h.count⟩
    · rw [h.head, sendable.total, wrap32_add_left]
    · intro i
      have slot := h.slots i
      cases entry : c i with
      | none =>
        rw [entry] at slot
        exact slot
      | some q =>
        rw [entry] at slot
        obtain ⟨lt,active,behind⟩ := slot
        refine ⟨lt,active,?_⟩
        simp only [h.capacity, h.head, wrap32_add_left]
        exact behind.write word sendable (fits.2 i lt q entry)
  · have short : writeableBytes m < wrap32 (msg.length + 4) := by
      rw [sendable.total]
      exact Nat.lt_of_not_le fun enough => fits (check.1 enough)
    simp only [write, if_pos short]
    exact ⟨c,H,by rw [accept, if_neg fits, if_pos rfl],h⟩

end

section

variable {q : List (List UInt8)}

theorem Behind.front {msg : List UInt8} (word : k ≤ 30) (h : Behind (2 ^ k) data H tail (msg :: q)) :
    sub32 (wrap32 H) tail = msg.length + 4 + unread q ∧ leValue (readRaw (2 ^ k) data tail 4) = msg.length ∧
    readRaw (2 ^ k) data (wrap32 (tail + 4)) msg.length = msg ∧
    Behind (2 ^ k) data H (wrap32 (tail + msg.length + 4)) q := by
  have small : 2 ^ k ≤ 2 ^ 30 := Nat.pow_le_pow_right Nat.two_pos word
  obtain ⟨T,rfl,rfl,room,holds,all⟩ := h
  obtain ⟨len,bytes,rest⟩ := holds_cons.1 holds
  rw [unread_cons] at room ⊢
  refine ⟨?_,?_,?_,T + (msg.length + 4),?_,by omega,by omega,rest,?_⟩
  · rw [sub32_wrap32 (by omega) (by omega), Nat.add_sub_cancel_left]
  · have four : readRaw (2 ^ k) data (wrap32 T) (leBytes 4 msg.length).length = leBytes 4 msg.length :=
      readRaw_eq (by omega) (by rw [leBytes_length]; omega) len
    rw [leBytes_length] at four
    rw [four, (all msg (mem_cons_self ..)).leValue_eq]
  · rw [wrap32_add_left]
    exact readRaw_eq (by omega) (by omega) bytes
  · rw [add_assoc, wrap32_add_left]
  · intro m member
    exact all m (mem_cons_of_mem _ member)

theorem Behind.nothing (h : Behind (2 ^ k) data H tail []) : sub32 (wrap32 H) tail = 0 := by
  obtain ⟨T,rfl,rfl,_⟩ := h
  rw [sub32_wrap32 le_rfl (by omega)]
  exact Nat.sub_self _

theorem Ring.advance (h : Ring k n m c H) {i : Nat} {q' : List (List UInt8)} (entry : c i = some q)
    (behind : Behind (2 ^ k) m.data H tail q') :
    Ring k n { m with tails := update m.tails i tail } (c.set i (some q')) H := by
  obtain ⟨lt,active,_⟩ := h.registered entry
  have slots := slots_set (a := m.active i) (t := tail) (x := some q') h.slots ⟨lt,active,behind⟩
  rw [update_eq_self] at slots
  exact ⟨h.capacity,h.consumers,h.head,slots,h.count⟩

theorem read_step (h : Ring k n m c H) (word : k ≤ 30) {id : Int} (nonneg : 0 ≤ id)
    (entry : c id.toNat = some q) (out : List UInt8) :
    ∃ c', accept (2 ^ k) n c (.read id out (read id out m).1.1 (read id out m).1.2) = some c' ∧
      Ring k n (read id out m).2 c' H := by
  obtain ⟨lt,active,behind⟩ := h.registered entry
  have inside : ¬ (id < 0 ∨ id.toNat ≥ m.maxConsumers) := by
    rw [h.consumers]
    omega
  have taken : ∀ returned result, (receive out q).1 = (returned, result) →
      accept (2 ^ k) n c (.read id out returned result) = some (c.set id.toNat (some (receive out q).2)) := by
    intro returned result same
    simp only [accept, entry]
    exact if_pos ⟨nonneg,same⟩
  cases q with
  | nil =>
    have empty : read id out m = ((0, out), m) := by
      simp only [read, h.head, behind.nothing, if_neg inside]
      rfl
    rw [empty]
    refine ⟨_,taken 0 out rfl,?_⟩
    have unchanged : c.set id.toNat (some []) = c := by
      rw [Channels.set, ← entry, update_eq_self]
    rw [show (receive out []).2 = [] from rfl, unchanged]
    exact h
  | cons msg q =>
    obtain ⟨available,msgLen,bytes,rest⟩ := behind.front word
    obtain ⟨T,_,_,room,_,all⟩ := behind
    have sendable := all msg (mem_cons_self ..)
    have positive := sendable.1
    have whole : ¬ (msg.length = 0 ∨ msg.length + 4 + unread q < msg.length + 4) := by omega
    have prefixed : ¬ msg.length + 4 + unread q < 4 := by omega
    have passed : read id out m = (if msg.length > out.length then (0, out) else (msg.length, msg ++ out.drop msg.length),
        { m with tails := update m.tails id.toNat (wrap32 (m.tails id.toNat + msg.length + 4)) }) := by
      simp only [read, h.head, h.capacity, available, msgLen, sendable.total, if_neg inside, if_neg prefixed,
        if_neg whole, bytes]
      split <;> rfl
    rw [passed]
    by_cases long : msg.length > out.length
    · rw [if_pos long]
      refine ⟨_,taken 0 out (by rw [receive_of_lt long]),?_⟩
      rw [receive_of_lt long]
      exact h.advance entry rest
    · rw [if_neg long]
      refine ⟨_,taken _ _ (by rw [receive_of_le (Nat.not_lt.1 long)]),?_⟩
      rw [receive_of_le (Nat.not_lt.1 long)]
      exact h.advance entry rest

end

section

variable {limit totalSize maxConsumers : Nat} {s : State}

/-- The guard of the runs: every message written is sendable, and who reads is registered. -/
def valid (s : State) : Act → Prop
  | .write msg => Sendable msg
  | .read id _ => 0 ≤ id ∧ s.mem.active id.toNat ≠ 0
  | _ => True

/-- The operations so far did what the channels `c` say, and the memory is the one behind `c`. -/
def Inv (k n : Nat) (s : State) : Prop := ∃ c H, replay (2 ^ k) n s.events = some c ∧ Ring k n s.mem c H

-- The memory is a variable here: the kernel would otherwise run the operation to compare the two sides.
theorem Inv.intro {events : List Event}
    (replayed : replay (2 ^ k) n events = some c) (ring : Ring k n m c H) : Inv k n ⟨m, events⟩ :=
  ⟨c, H, replayed, ring⟩

/-- Every operation keeps the ring a queue. -/
theorem next_inv (small : k ≤ 30) (word : n < 4294967296) (h : Inv k n s) {a : Act}
    (guard : valid s a) : Inv k n (next a s) := by
  obtain ⟨c,H,replayed,ring⟩ := h
  cases a <;> rw [next]
  case register =>
    obtain ⟨c',takes,ring'⟩ := register_step ring word
    exact .intro (foldlM_concat replayed takes) ring'
  case unregister id =>
    obtain ⟨c',takes,ring'⟩ := unregister_step ring word id
    exact .intro (foldlM_concat replayed takes) ring'
  case write msg =>
    obtain ⟨c',H',takes,ring'⟩ := write_step ring small guard
    exact .intro (foldlM_concat replayed takes) ring'
  case read id out =>
    obtain ⟨nonneg,active⟩ := guard
    obtain ⟨q,entry⟩ := ring.exists_queue active
    obtain ⟨c',takes,ring'⟩ := read_step ring small nonneg entry out
    exact .intro (foldlM_concat replayed takes) ring'

theorem initAt_capacity (accepted : kHeaderSize limit < totalSize) (word : totalSize < 4294967296)
    (small : (initAt limit data totalSize maxConsumers).capacity ≤ 1073741824) :
    ∃ k ≤ 30, (initAt limit data totalSize maxConsumers).capacity = 2 ^ k := by
  have eq : (initAt limit data totalSize maxConsumers).capacity = 2 ^ (totalSize - kHeaderSize limit).log2 :=
    roundDownPow2_eq (by omega) (by omega)
  refine ⟨_,?_,eq⟩
  rw [eq] at small
  exact (Nat.pow_le_pow_iff_right (a := 2) (by decide)).1 (small.trans_eq (by decide : 1073741824 = 2 ^ 30))

theorem init_inv (capacity : (initAt limit data totalSize maxConsumers).capacity = 2 ^ k) :
    Inv k (initAt limit data totalSize maxConsumers).maxConsumers (machine limit data totalSize maxConsumers).init := by
  refine ⟨fun _ => none,0,rfl,capacity,rfl,rfl,fun _ => rfl,?_⟩
  simp [machine, initAt, activeSlots]

theorem reach_inv (accepted : kHeaderSize limit < totalSize) (word : totalSize < 4294967296)
    (small : (initAt limit data totalSize maxConsumers).capacity ≤ 1073741824)
    (h : Reach (machine limit data totalSize maxConsumers) valid s) :
    ∃ k ≤ 30, (initAt limit data totalSize maxConsumers).capacity = 2 ^ k ∧
      Inv k (initAt limit data totalSize maxConsumers).maxConsumers s := by
  obtain ⟨k,low,capacity⟩ : ∃ k ≤ 30, (initAt limit data totalSize maxConsumers).capacity = 2 ^ k :=
    initAt_capacity accepted word small
  have few : (initAt limit data totalSize maxConsumers).maxConsumers < 4294967296 := by
    simp only [initAt, kHeaderSize] at accepted ⊢
    split <;> omega
  refine ⟨k,low,capacity,?_⟩
  refine h.invariant (I := Inv k _) (init_inv capacity) ?_
  intro s t a _ inv guard step
  cases step
  exact next_inv low few inv guard

/-- The operations so far did what the channels say, the words of every slot agree with its channel, and the consumers
are counted. -/
def IsChannels (m₀ : Memory) (s : State) : Prop := ∃ c, replay m₀.capacity m₀.maxConsumers s.events = some c ∧
    (∀ i, s.mem.active i = 1 ↔ ∃ q, c i = some q) ∧
    (∀ i q, c i = some q → i < m₀.maxConsumers ∧ sub32 s.mem.head (s.mem.tails i) = unread q) ∧
    s.mem.consumerCount = (activeSlots s.mem).card

/-- **The byte ring refines a queue of messages for each consumer**, for every size `InitAt` accepts whose data
area is at most `2 ^ 30` bytes and every sequence of operations. -/
theorem spmc_refines_channels (accepted : kHeaderSize limit < totalSize) (word : totalSize < 4294967296)
    (small : (initAt limit data totalSize maxConsumers).capacity ≤ 1073741824)
    (h : Reach (machine limit data totalSize maxConsumers) valid s) :
    IsChannels (initAt limit data totalSize maxConsumers) s := by
  obtain ⟨k,low,capacity,c,H,replayed,ring⟩ := reach_inv accepted word small h
  refine ⟨c,by rwa [capacity],?_,?_,ring.count⟩
  · intro i
    constructor
    · intro active
      exact ring.exists_queue (by omega)
    · rintro ⟨q,entry⟩
      exact (ring.registered entry).2.1
  · intro i q entry
    obtain ⟨lt,_,T,tail,rfl,room,_⟩ := ring.registered entry
    have bound : 2 ^ k ≤ 2 ^ 30 := Nat.pow_le_pow_right Nat.two_pos low
    refine ⟨lt,?_⟩
    rw [ring.head, tail, sub32_wrap32 (by omega) (by omega), Nat.add_sub_cancel_left]

end

instance (s : State) : (a : Act) → Decidable (valid s a)
  | .write msg => inferInstanceAs (Decidable (1 ≤ msg.length ∧ msg.length ≤ 4294967291))
  | .read id _ => inferInstanceAs (Decidable (0 ≤ id ∧ s.mem.active id.toNat ≠ 0))
  | .register => inferInstanceAs (Decidable True)
  | .unregister _ => inferInstanceAs (Decidable True)

/-- Two slots and 16 bytes. A slow consumer blocks a message until it unregisters; its slot goes to a new consumer. -/
theorem spmc_refines_channels_reused : ∃ s, kHeaderSize 2 < 48 ∧ Reach (machine 2 (fun _ => 255) 48 2) valid s ∧
    s.events = [.register 0, .register 1, .register (-1), .write [1, 2, 3] true, .write [4, 5, 6] true,
      .read 1 [0, 0, 0] 3 [1, 2, 3], .write [7] false, .unregister 0, .write [7] true, .register 0,
      .read 1 [0, 0, 0, 9] 3 [4, 5, 6, 9], .write [8, 8] true, .read 0 [0, 0] 2 [8, 8],
      .read 1 [0, 0] 1 [7, 0]] ∧ IsChannels (initAt 2 (fun _ => 255) 48 2) s := by
  refine exists_and_left.2 ⟨by decide,reach_and_then (machine 2 (fun _ => 255) 48 2)
      [.register, .register, .register, .write [1, 2, 3], .write [4, 5, 6], .read 1 [0, 0, 0], .write [7],
        .unregister 0, .write [7], .register, .read 1 [0, 0, 0, 9], .write [8, 8], .read 0 [0, 0],
        .read 1 [0, 0]] (by decide +kernel) fun s reached _ => ?_⟩
  exact spmc_refines_channels (by decide) (by decide) (by decide) reached

/-- A message larger than the data area is refused although no consumer has anything unread, and a message
longer than the buffer of the `Read` that reaches it is never returned. -/
theorem refused_without_consumers_and_skipped :
    (∃ s, Reach (machine 1 (fun _ => 255) 32 1) valid s ∧ (∀ i, s.mem.active i = 0) ∧
      (write [1, 2, 3, 4, 5] s.mem).1 = false) ∧ ∃ s, Reach (machine 1 (fun _ => 255) 40 1) valid s ∧
      s.events = [.register 0, .write [1, 2] true, .write [3] true, .read 0 [0] 0 [0], .read 0 [0] 1 [3],
        .read 0 [0] 0 [0]] := by
  constructor
  · exact ⟨_,.init,fun _ => rfl,by decide +kernel⟩
  · exact reach_of_decided (machine 1 (fun _ => 255) 40 1) valid
      [.register, .write [1, 2], .write [3], .read 0 [0], .read 0 [0], .read 0 [0]] (fun s => s.events = _)
      (by decide +kernel)

end Newosp.Shm.Spmc
