import Mathlib.Data.Fintype.Basic
import Newosp.Lib.Machine
import Newosp.Lib.Wrap

/-!
# `EventQueue` and `FaultRingBuffer` one access at a time

The two rings are the same program. Any number of `TryPush` calls (`ι`) run beside one consumer in `TryPop`; every
access to a sequence word or a position is one step. The `n` words of an entry are copied one at a time, in any order.
The fields after `cpc` are histories.
-/

namespace Newosp.Mpsc
open Lib Function

/-- `Depth` as a power of two; the source asserts no more. A depth of one is left out. -/
structure Config where
  logDepth : Nat
  two_le : 1 ≤ logDepth
  word : logDepth ≤ 31

def Config.depth (cfg : Config) : Nat := 2 ^ cfg.logDepth

def Config.index (cfg : Config) (pos : Nat) : Nat := pos &&& (cfg.depth - 1)

abbrev Entry (n : Nat) (β : Type) := Fin n → β

structure Slot (n : Nat) (β : Type) where
  sequence : Nat
  event : Entry n β

structure Memory (n : Nat) (β : Type) where
  producerPos : Nat
  consumerPos : Nat
  slots : Nat → Slot n β

/-- Program counters of `TryPush`; `copy` is inside the assignment of the entry, with the words written so far. -/
inductive PC (n : Nat)
  | idle
  | loadPos
  | loadSeq (pos : Nat)
  | casPos (pos : Nat)
  | copy (pos : Nat) (written : Finset (Fin n))
  | done (result : Bool)
  deriving DecidableEq

/-- Program counters of `TryPop`; `copy` is inside the assignment to `out`, with the words read so far; `done` has the
entry. -/
inductive ConsumerPC (n : Nat) (β : Type)
  | idle
  | loadSeq (pos : Nat) (out : Entry n β)
  | copy (pos : Nat) (out : Entry n β) (read : Finset (Fin n))
  | storePos (pos : Nat) (out : Entry n β)
  | done (out : Option (Entry n β))

/-- The queue with its running calls, and what happened so far: the calls that claimed positions 0, 1, 2, …, the popped
entries, and the claims when each call last loaded `producer_pos_`. -/
structure State (ι : Type) (n : Nat) (β : Type) where
  mem : Memory n β
  pc : ι → PC n
  arg : ι → Entry n β
  cpc : ConsumerPC n β
  claims : List ι
  popped : List (Entry n β)
  loaded : ι → Nat

/-- A push starts, takes its next step (if `spurious`, a weak compare-exchange fails) or copies word `i`; so does the
consumer. -/
inductive Act (ι : Type) (n : Nat) (β : Type)
  | push (c : ι) (event : Entry n β)
  | producer (c : ι) (spurious : Bool)
  | copyIn (c : ι) (i : Fin n)
  | pop (out : Entry n β)
  | consumer
  | copyOut (i : Fin n)

def Memory.setSlot {n : Nat} {β : Type} (m : Memory n β) (j : Nat) (slot : Slot n β) : Memory n β :=
  { m with slots := update m.slots j slot }

section

variable {ι : Type} [DecidableEq ι] {n : Nat} {β : Type} (cfg : Config)

def State.goto (s : State ι n β) (c : ι) (pc : PC n) : State ι n β := { s with pc := update s.pc c pc }

/-- Call `c` takes the value of `producer_pos_` as its position. -/
def State.reload (s : State ι n β) (c : ι) : State ι n β :=
  { s with loaded := update s.loaded c s.claims.length }.goto c (.loadSeq s.mem.producerPos)

def pushNext (c : ι) (event : Entry n β) (s : State ι n β) : Option (State ι n β) :=
  if s.pc c = .idle then some ({ s with arg := update s.arg c event }.goto c .loadPos) else none

/-- One step of call `c` outside the copy of its entry. -/
def producerNext (c : ι) (spurious : Bool) (s : State ι n β) : Option (State ι n β) :=
  let m := s.mem
  match s.pc c with
  | .idle | .done _ => none
  | .loadPos => some (s.reload c)
  | .loadSeq pos =>
    let diff := sub32 (m.slots (cfg.index pos)).sequence pos
    some <| s.goto c (if diff = 0 then .casPos pos else if negative32 diff then .done false else .loadPos)
  | .casPos pos =>
    if m.producerPos = pos ∧ spurious = false then
      some <| { s with mem := { m with producerPos := wrap32 (pos + 1) }, claims := s.claims ++ [c] }.goto c (.copy pos ∅)
    -- a failed exchange loads the current value
    else some (s.reload c)
  | .copy pos written =>
    if ∀ i, i ∈ written then
      let j := cfg.index pos
      some <| { s with mem := m.setSlot j { m.slots j with sequence := wrap32 (pos + 1) } }.goto c (.done true)
    else none

/-- The assignment of call `c` writes word `i` of its entry. -/
def copyInNext (c : ι) (i : Fin n) (s : State ι n β) : Option (State ι n β) :=
  match s.pc c with
  | .copy pos written =>
    let j := cfg.index pos
    let slot := s.mem.slots j
    let event := update slot.event i (s.arg c i)
    some <| { s with mem := s.mem.setSlot j { slot with event } }.goto c (.copy pos (insert i written))
  | _ => none

/-- `TryPop` is called with the caller's buffer: it loads `consumer_pos_`. -/
def popNext (out : Entry n β) (s : State ι n β) : Option (State ι n β) :=
  match s.cpc with
  | .idle | .done _ => some { s with cpc := .loadSeq s.mem.consumerPos out }
  | _ => none

def consumerNext (s : State ι n β) : Option (State ι n β) :=
  let m := s.mem
  match s.cpc with
  | .idle | .done _ => none
  | .loadSeq pos out =>
    let diff := sub32 (m.slots (cfg.index pos)).sequence (wrap32 (pos + 1))
    some { s with cpc := if negative32 diff then .done none else .copy pos out ∅ }
  | .copy pos out read =>
    if ∀ i, i ∈ read then
      let j := cfg.index pos
      some { s with mem := m.setSlot j { m.slots j with sequence := wrap32 (pos + cfg.depth) },
                    popped := s.popped ++ [out], cpc := .storePos pos out }
    else none
  | .storePos pos out =>
    some { s with mem := { m with consumerPos := wrap32 (pos + 1) }, cpc := .done (some out) }

def copyOutNext (i : Fin n) (s : State ι n β) : Option (State ι n β) :=
  match s.cpc with
  | .copy pos out read =>
    let word := (s.mem.slots (cfg.index pos)).event i
    some { s with cpc := .copy pos (update out i word) (insert i read) }
  | _ => none

def next : Act ι n β → State ι n β → Option (State ι n β)
  | .push c event, s => pushNext c event s
  | .producer c spurious, s => producerNext cfg c spurious s
  | .copyIn c i, s => copyInNext cfg c i s
  | .pop out, s => popNext out s
  | .consumer, s => consumerNext cfg s
  | .copyOut i, s => copyOutNext cfg i s

/-- A new queue; the words of the slots and of the arguments are what the memory held before. -/
def State.init (garbage : Nat → Entry n β) (args : ι → Entry n β) : State ι n β where
  mem := ⟨0, 0, fun j => ⟨j, garbage j⟩⟩
  pc := fun _ => .idle
  arg := args
  cpc := .idle
  claims := []
  popped := []
  loaded := fun _ => 0

def machine (garbage : Nat → Entry n β) (args : ι → Entry n β) : Machine (State ι n β) (Act ι n β) :=
  ⟨.init garbage args, next cfg⟩

/-- `Size`: the two positions are loaded one after the other. -/
def size (prod cons : Nat) : Nat := sub32 prod cons

end

section

variable {ι : Type} [DecidableEq ι] {n : Nat} {β : Type} (s : State ι n β) (c : ι) (pc : PC n)

attribute [simps -fullyApplied mem arg cpc claims popped loaded] State.goto

@[simp] theorem State.goto_pc_self : (s.goto c pc).pc c = pc := update_self ..
theorem State.goto_pc_of_ne {d : ι} (other : d ≠ c) : (s.goto c pc).pc d = s.pc d := update_of_ne other ..
@[simp] theorem State.reload_pc_self : (s.reload c).pc c = .loadSeq s.mem.producerPos := update_self ..

variable {s c pc} {t : State ι n β} {cfg : Config} {i : Fin n}

def PC.running : PC n → Bool
  | .idle | .done _ => false
  | _ => true

def ConsumerPC.running : ConsumerPC n β → Bool
  | .idle | .done _ => false
  | _ => true

theorem ConsumerPC.settled {cpc : ConsumerPC n β} (rests : cpc.running = false) (pos : Nat) (out : Entry n β) :
    cpc ≠ .storePos pos out := by
  rintro rfl
  cases rests

/-- What a step of call `c` leaves alone. -/
structure Own (c : ι) (s t : State ι n β) : Prop where
  others : ∀ d, d ≠ c → t.pc d = s.pc d
  cpc : t.cpc = s.cpc
  popped : t.popped = s.popped
  consumerPos : t.mem.consumerPos = s.mem.consumerPos

omit [DecidableEq ι] in
theorem PC.ne_of_running {pc : PC n} (running : pc.running = true) : pc ≠ .idle ∧ ∀ result, pc ≠ .done result := by
  constructor
  · rintro rfl
    cases running
  · rintro result rfl
    cases running

theorem Own.goto (s : State ι n β) (c : ι) (pc : PC n) : Own c s (s.goto c pc) :=
  ⟨fun _ other => State.goto_pc_of_ne s c pc other, rfl, rfl, rfl⟩

theorem Own.reload (s : State ι n β) (c : ι) : Own c s (s.reload c) :=
  ⟨fun _ other => update_of_ne other .., rfl, rfl, rfl⟩

theorem pushNext_own {event : Entry n β} (step : pushNext c event s = some t) :
    Own c s t ∧ s.pc c = .idle ∧ t.pc c = .loadPos ∧ t.arg c = event ∧ (∀ d, d ≠ c → t.arg d = s.arg d) ∧
      t.claims = s.claims ∧ t.mem = s.mem := by
  unfold pushNext at step
  obtain ⟨idle,⟨⟩⟩ := enabled step
  refine ⟨⟨?_,rfl,rfl,rfl⟩,idle,State.goto_pc_self ..,update_self ..,?_,rfl,rfl⟩
  · exact fun d other => State.goto_pc_of_ne _ c _ other
  · exact fun d other => update_of_ne other ..

theorem producerNext_own {spurious : Bool} (step : producerNext cfg c spurious s = some t) :
    Own c s t ∧ t.arg = s.arg ∧ (s.pc c).running = true ∧ t.pc c ≠ .idle ∧
      (t.claims = s.claims ∨ t.claims = s.claims ++ [c] ∧ s.pc c = .casPos s.mem.producerPos ∧ spurious = false) := by
  cases here : s.pc c <;> simp only [producerNext, here] at step
  case idle | done result => cases step
  case loadPos =>
    cases step
    exact ⟨.reload s c,rfl,rfl,by rw [State.reload_pc_self]; nofun,.inl rfl⟩
  case loadSeq pos =>
    cases step
    refine ⟨.goto _ c _,rfl,rfl,?_,.inl rfl⟩
    rw [State.goto_pc_self]
    split
    · nofun
    · split <;> nofun
  case casPos pos =>
    split at step
    · rename_i success
      cases step
      exact ⟨⟨fun _ other => update_of_ne other ..,rfl,rfl,rfl⟩,rfl,rfl,
        by rw [State.goto_pc_self]; nofun, .inr ⟨rfl,by rw [success.1],success.2⟩⟩
    · cases step
      exact ⟨.reload s c,rfl,rfl,by rw [State.reload_pc_self]; nofun,.inl rfl⟩
  case copy pos written =>
    obtain ⟨_,⟨⟩⟩ := enabled step
    exact ⟨⟨fun _ other => update_of_ne other ..,rfl,rfl,rfl⟩,rfl,rfl,
      by rw [State.goto_pc_self]; nofun, .inl rfl⟩

theorem copyInNext_own (step : copyInNext cfg c i s = some t) :
    Own c s t ∧ t.arg = s.arg ∧ (s.pc c).running = true ∧ (t.pc c).running = true ∧ t.claims = s.claims := by
  unfold copyInNext at step
  split at step
  · rename_i pos written here
    cases step
    exact ⟨⟨fun _ other => update_of_ne other ..,rfl,rfl,rfl⟩,rfl,by rw [here]; rfl,
      by rw [State.goto_pc_self]; rfl, rfl⟩
  · cases step

/-- What a step of the consumer leaves alone. -/
structure Consumes (s t : State ι n β) : Prop where
  pc : t.pc = s.pc
  arg : t.arg = s.arg
  claims : t.claims = s.claims
  loaded : t.loaded = s.loaded
  producerPos : t.mem.producerPos = s.mem.producerPos

omit [DecidableEq ι] in
theorem popNext_eq (out : Entry n β) : popNext out s = if s.cpc.running = false then
    some { s with cpc := .loadSeq s.mem.consumerPos out } else none := by
  cases here : s.cpc <;> simp [popNext, here, ConsumerPC.running]

omit [DecidableEq ι] in
theorem popNext_consumes {out : Entry n β} (step : popNext out s = some t) :
    Consumes s t ∧ s.cpc.running = false ∧ t.cpc = .loadSeq s.mem.consumerPos out ∧ t.popped = s.popped ∧
      t.mem = s.mem := by
  rw [popNext_eq] at step
  obtain ⟨rests,⟨⟩⟩ := enabled step
  exact ⟨⟨rfl,rfl,rfl,rfl,rfl⟩,rests,rfl,rfl,rfl⟩

omit [DecidableEq ι] in
theorem copyOutNext_consumes (step : copyOutNext cfg i s = some t) :
    Consumes s t ∧ t.popped = s.popped ∧ (∃ pos out read, s.cpc = .copy pos out read) ∧
      (∃ pos out read, t.cpc = .copy pos out read) ∧ t.mem = s.mem := by
  unfold copyOutNext at step
  split at step
  · rename_i here
    cases step
    exact ⟨⟨rfl,rfl,rfl,rfl,rfl⟩,rfl,⟨_,_,_,here⟩,⟨_,_,_,rfl⟩,rfl⟩
  · cases step

omit [DecidableEq ι] in
theorem consumerNext_consumes (step : consumerNext cfg s = some t) : Consumes s t ∧ s.cpc.running = true ∧
    ((∃ pos out, s.cpc = .loadSeq pos out ∧ t.popped = s.popped ∧ (t.cpc = .done none ∨ t.cpc = .copy pos out ∅) ∧
        t.mem = s.mem) ∨
      (∃ pos out read, s.cpc = .copy pos out read ∧ t.cpc = .storePos pos out ∧ t.popped = s.popped ++ [out] ∧
        t.mem.consumerPos = s.mem.consumerPos) ∨
      (∃ pos out, s.cpc = .storePos pos out ∧ t.cpc = .done (some out) ∧ t.popped = s.popped)) := by
  cases here : s.cpc <;> simp only [consumerNext, here] at step
  case idle | done out => cases step
  case loadSeq pos out =>
    cases step
    refine ⟨⟨rfl,rfl,rfl,rfl,rfl⟩,rfl,.inl ⟨pos,out,rfl,rfl,?_,rfl⟩⟩
    dsimp only
    split
    · exact .inl rfl
    · exact .inr rfl
  case copy pos out read =>
    obtain ⟨_,⟨⟩⟩ := enabled step
    exact ⟨⟨rfl,rfl,rfl,rfl,rfl⟩,rfl,.inr (.inl ⟨pos,out,read,rfl,rfl,rfl,rfl⟩)⟩
  case storePos pos out =>
    cases step
    exact ⟨⟨rfl,rfl,rfl,rfl,rfl⟩,rfl,.inr (.inr ⟨pos,out,rfl,rfl,rfl⟩)⟩

omit [DecidableEq ι] in
theorem Consumes.kept (h : Consumes s t) : s.claims <+: t.claims ∧ ∀ d, s.pc d ≠ .idle → t.arg d = s.arg d :=
  ⟨by rw [h.claims], fun d _ => by rw [h.arg]⟩

/-- Claims are only added; a begun call keeps its entry. -/
theorem next_kept {a : Act ι n β} (step : next cfg a s = some t) :
    s.claims <+: t.claims ∧ ∀ d, s.pc d ≠ .idle → t.arg d = s.arg d := by
  cases a with
  | push c event =>
    obtain ⟨-,idle,-,-,args,claims,-⟩ := pushNext_own step
    refine ⟨by rw [claims],fun d begun => args d ?_⟩
    rintro rfl
    exact begun idle
  | producer c spurious =>
    obtain ⟨-,args,-,-,claims⟩ := producerNext_own step
    refine ⟨?_,fun d _ => by rw [args]⟩
    rcases claims with same | ⟨more,-⟩
    · rw [same]
    · exact more ▸ List.prefix_append ..
  | copyIn c i =>
    obtain ⟨-,args,-,-,claims⟩ := copyInNext_own step
    exact ⟨by rw [claims],fun d _ => by rw [args]⟩
  | pop out => exact (popNext_consumes step).1.kept
  | consumer => exact (consumerNext_consumes step).1.kept
  | copyOut i => exact (copyOutNext_consumes step).1.kept

end

end Newosp.Mpsc
