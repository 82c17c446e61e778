import Newosp.Bus.Machine

/-!
# What every position of the ring is doing

The `kQueueDepth` positions from the oldest unreleased one on (`InWindow`) cover every node once. The `Status` of a
position says which sequence number its node shows and who owns it. The numbers collide with those of the next lap, but
a call compares only with positions less than one ring from the window (`CallOk`).
-/

namespace Newosp.Bus
open Lib Function
open State (goto_mem goto_pc_of_ne goto_pc_self)

/-- What a position is doing. `reserved` and `consuming` keep the message of the node until it is
overwritten or dispatched. -/
inductive Status (ι : Type)
  | free
  | claimed (c : ι)
  | published (m : ι)
  | reserved (e : ι) (m : Option ι)
  | consuming (m : Option ι)

namespace Status

variable {ι : Type}

/-- The sequence number of a node at position `p`. -/
def seq (depth p : Nat) : Status ι → Nat
  | .free => p
  | .claimed _ => p
  | .published _ => p + 1
  | .reserved _ _ => p + 1 + 2 * depth
  | .consuming _ => p + 1 + depth

/-- The message still waiting in the node, by the call that published it. -/
def message : Status ι → Option ι
  | .free => none
  | .claimed _ => none
  | .published m => some m
  | .reserved _ m => m
  | .consuming m => m

def owner : Status ι → Option ι
  | .claimed c => some c
  | .reserved e _ => some e
  | _ => none

end Status

namespace PC

/-- The position a call owns at this program counter. -/
def position : PC → Option Nat
  | .scanVerify _ _ cons i => some (wrap32 (cons + i))
  | .scanRestore _ _ cons i => some (wrap32 (cons + i))
  | .fetchId h => some h.pos
  | .writeHeader h _ => some h.pos
  | .writePayload h => some h.pos
  | .storePriority h => some h.pos
  | .storeSequence h => some h.pos
  | _ => none

def published : PC → Bool
  | .addEvicted => true
  | .addPublished => true
  | .done .accepted => true
  | _ => false

end PC

def ConsumerPC.busy {ι : Type} : ConsumerPC ι → Bool
  | .readHeader .. => true
  | .readPayload .. => true
  | .release .. => true
  | _ => false

variable {ι α : Type} {cfg : Config} {req : ι → Request α} {s : State ι α} {st : Nat → Status ι} {c : ι}

section

variable (cfg req)

/-- The positions whose nodes the ring shows now. -/
def InWindow (s : State ι α) (p : Nat) : Prop := s.released ≤ p ∧ p < s.released + cfg.queueDepth

/-- The header of node `j` is the one call `m` wrote. -/
def HeaderOf (s : State ι α) (j : Nat) (m : ι) : Prop :=
  s.headerBy j = some m ∧ ∃ id, (s.mem.ring j).header = (req m).header id

def PayloadOf (s : State ι α) (j : Nat) (m : ι) : Prop :=
  s.payloadBy j = some m ∧ (s.mem.ring j).payload = (req m).payload

/-- Node `j` holds the whole message of call `m`. -/
def Content (s : State ι α) (j : Nat) (m : ι) : Prop :=
  HeaderOf req s j m ∧ PayloadOf req s j m ∧ (s.mem.ring j).slotPriority = (req m).priority.code

/-- An evictor's scan stays less than one ring past the consumer position. -/
def ScanOk (s : State ι α) (c : ι) (cons i : Nat) : Prop :=
  (req c).priority = .kHigh ∧ cons ≤ s.mem.consumerPos ∧ 1 ≤ i ∧ i < cfg.queueDepth

/-- Call `c` has not written the node of its position yet; a reserved one holds a message that was seen to be below
`kHigh`. -/
def Untouched (s : State ι α) (st : Nat → Status ι) (c : ι) : Hold → Prop
  | .claimed p => InWindow cfg s p ∧ st p = .claimed c
  | .reserved p => InWindow cfg s p ∧ (req c).priority = .kHigh ∧
      ∃ m, st p = .reserved c (some m) ∧ (req m).priority ≠ .kHigh

/-- Call `c` owns a position and is writing its node. -/
def Writing (s : State ι α) (st : Nat → Status ι) (c : ι) : Hold → Prop
  | .claimed p => InWindow cfg s p ∧ st p = .claimed c
  | .reserved p => InWindow cfg s p ∧ (req c).priority = .kHigh ∧ st p = .reserved c none

/-- What call `c` relies on at each program counter. -/
def CallOk (s : State ι α) (st : Nat → Status ι) (c : ι) : PC → Prop
  | .loadSeq _ pos => pos ≤ s.claims.length
  | .loadCons _ pos => pos ≤ s.claims.length
  | .casPos _ pos => pos ≤ s.claims.length ∧ (pos = s.claims.length → s.claims.length < s.released + cfg.queueDepth)
  | .scanProd _ => (req c).priority = .kHigh
  | .scanCons _ _ => (req c).priority = .kHigh
  | .scanSeq _ _ cons i => ScanOk cfg req s c cons i
  | .scanPeek _ _ cons i => ScanOk cfg req s c cons i
  | .scanCas _ _ cons i => ScanOk cfg req s c cons i
  | .scanVerify _ _ cons i => ScanOk cfg req s c cons i ∧ InWindow cfg s (cons + i) ∧
      ∃ m, st (cons + i) = .reserved c (some m)
  | .scanRestore _ _ cons i => ScanOk cfg req s c cons i ∧ InWindow cfg s (cons + i) ∧
      ∃ m, st (cons + i) = .reserved c (some m)
  | .fetchId h => Untouched cfg req s st c h
  | .writeHeader h _ => Untouched cfg req s st c h
  | .writePayload h => Writing cfg req s st c h ∧ HeaderOf req s (h.pos % cfg.queueDepth) c
  | .storePriority h => Writing cfg req s st c h ∧ HeaderOf req s (h.pos % cfg.queueDepth) c ∧
      PayloadOf req s (h.pos % cfg.queueDepth) c
  | .storeSequence h => Writing cfg req s st c h ∧ Content req s (h.pos % cfg.queueDepth) c
  | _ => True

/-- The consumer works on the oldest unreleased position; `consumer_pos_` is behind by the released positions of the
batch. -/
def ConsumerOk (s : State ι α) (st : Nat → Status ι) : ConsumerPC ι → Prop
  | .idle _ => s.mem.consumerPos = s.released
  | .casSeq _ consPos n => consPos = s.released ∧ s.released = s.mem.consumerPos + n
  | .readHeader _ consPos n => consPos = s.released ∧ s.released = s.mem.consumerPos + n ∧
      ∃ m, st s.released = .consuming (some m)
  | .readPayload _ consPos n header by' => consPos = s.released ∧ s.released = s.mem.consumerPos + n ∧
      ∃ m, st s.released = .consuming (some m) ∧ by' = some m ∧ ∃ id, header = (req m).header id
  | .release _ consPos n => consPos = s.released ∧ s.released = s.mem.consumerPos + n ∧
      st s.released = .consuming none
  | .storePos consPos n => consPos = s.released ∧ s.released = s.mem.consumerPos + n
  | .addProcessed _ => s.mem.consumerPos = s.released

/-- The invariant of the ring and of every program counter. -/
structure RingInv (s : State ι α) (st : Nat → Status ι) : Prop where
  prodPos : s.mem.producerPos = s.claims.length
  claimPos : s.claims.map Prod.snd = List.range s.claims.length
  cons_le : s.mem.consumerPos ≤ s.released
  released_le : s.released ≤ s.claims.length
  room : s.claims.length ≤ s.released + cfg.queueDepth
  free_iff : ∀ p, InWindow cfg s p → (st p = .free ↔ s.claims.length ≤ p)
  sequence : ∀ p, InWindow cfg s p → (s.mem.ring (p % cfg.queueDepth)).sequence = (st p).seq cfg.queueDepth p
  content : ∀ p m, InWindow cfg s p → (st p).message = some m → Content req s (p % cfg.queueDepth) m
  owner : ∀ p c, InWindow cfg s p → (st p).owner = some c → (s.pc c).position = some p
  consuming : ∀ p m, InWindow cfg s p → st p = .consuming m → p = s.released ∧ s.cpc.busy = true
  calls : ∀ c, CallOk cfg req s st c (s.pc c)
  consumer : ConsumerOk req s st s.cpc

/-- The run so far is short enough that no position, and no marker of one, wraps. -/
def Unwrapped (s : State ι α) : Prop := s.claims.length + 3 * cfg.queueDepth < 4294967296

end

section

variable {s' : State ι α} {st' : Nat → Status ι} {p : Nat} {j : Nat} {m : ι}

theorem InWindow.inj {q : Nat} (hp : InWindow cfg s p) (hq : InWindow cfg s q)
    (same : p % cfg.queueDepth = q % cfg.queueDepth) : p = q :=
  index_inj (by have := hp.2; have := hq.1; omega) (by have := hq.2; have := hp.1; omega) same

/-- Node `j` and its history are the same in both states. -/
structure SameNode (s s' : State ι α) (j : Nat) : Prop where
  ring : s'.mem.ring j = s.mem.ring j
  headerBy : s'.headerBy j = s.headerBy j
  payloadBy : s'.payloadBy j = s.payloadBy j

theorem HeaderOf.same (h : HeaderOf req s j m) (same : SameNode s s' j) : HeaderOf req s' j m := by
  rwa [HeaderOf, same.headerBy, same.ring]

theorem PayloadOf.same (h : PayloadOf req s j m) (same : SameNode s s' j) : PayloadOf req s' j m := by
  rwa [PayloadOf, same.payloadBy, same.ring]

theorem Content.same (h : Content req s j m) (same : SameNode s s' j) : Content req s' j m :=
  ⟨h.1.same same,h.2.1.same same,by rw [same.ring]; exact h.2.2⟩

variable (cfg req) in
/-- What the invariant says of a position with status `x`. -/
structure PositionOk (s : State ι α) (p : Nat) (x : Status ι) : Prop where
  free_iff : x = .free ↔ s.claims.length ≤ p
  sequence : (s.mem.ring (p % cfg.queueDepth)).sequence = x.seq cfg.queueDepth p
  content : ∀ m, x.message = some m → Content req s (p % cfg.queueDepth) m
  owner : ∀ c, x.owner = some c → (s.pc c).position = some p
  consuming : ∀ m, x = .consuming m → p = s.released ∧ s.cpc.busy = true

theorem RingInv.position (h : RingInv cfg req s st) (win : InWindow cfg s p) : PositionOk cfg req s p (st p) :=
  ⟨h.free_iff p win, h.sequence p win, fun m => h.content p m win, fun c => h.owner p c win,
    fun m => h.consuming p m win⟩

theorem RingInv.of_positions (prodPos : s.mem.producerPos = s.claims.length)
    (claimPos : s.claims.map Prod.snd = List.range s.claims.length) (cons_le : s.mem.consumerPos ≤ s.released)
    (released_le : s.released ≤ s.claims.length) (room : s.claims.length ≤ s.released + cfg.queueDepth)
    (positions : ∀ p, InWindow cfg s p → PositionOk cfg req s p (st p)) (calls : ∀ c, CallOk cfg req s st c (s.pc c))
    (consumer : ConsumerOk req s st s.cpc) : RingInv cfg req s st where
  prodPos := prodPos
  claimPos := claimPos
  cons_le := cons_le
  released_le := released_le
  room := room
  free_iff p win := (positions p win).free_iff
  sequence p win := (positions p win).sequence
  content p m win := (positions p win).content m
  owner p c win := (positions p win).owner c
  consuming p m win := (positions p win).consuming m
  calls := calls
  consumer := consumer

/-- A position whose node is not written. -/
theorem PositionOk.keep {x : Status ι} (h : PositionOk cfg req s p x)
    (claims : s'.claims.length ≤ p ↔ s.claims.length ≤ p) (node : SameNode s s' (p % cfg.queueDepth))
    (held : ∀ d, x.owner = some d → (s.pc d).position = some p → (s'.pc d).position = some p)
    (head : p = s.released ∧ s.cpc.busy = true → p = s'.released ∧ s'.cpc.busy = true) : PositionOk cfg req s' p x where
  free_iff := h.free_iff.trans claims.symm
  sequence := by rw [node.ring]; exact h.sequence
  content m message := (h.content m message).same node
  owner d owns := held d owns (h.owner d owns)
  consuming m eq := head (h.consuming m eq)

/-- What a call relies on survives the others' steps: counters only grow, and the node it owns keeps status and
contents. -/
theorem CallOk.transport {d : ι} {pc : PC} (h : CallOk cfg req s st d pc)
    (claims : s.claims.length ≤ s'.claims.length) (released : s.released ≤ s'.released)
    (cons : s.mem.consumerPos ≤ s'.mem.consumerPos)
    (mine : ∀ q, InWindow cfg s q → (st q).owner = some d → InWindow cfg s' q ∧ st' q = st q ∧
      SameNode s s' (q % cfg.queueDepth)) : CallOk cfg req s' st' d pc := by
  have scan : ∀ {c i}, ScanOk cfg req s d c i → ScanOk cfg req s' d c i :=
    fun ⟨high,le,lo,hi⟩ => ⟨high,le.trans cons,lo,hi⟩
  have untouched : ∀ {hold}, Untouched cfg req s st d hold → Untouched cfg req s' st' d hold := by
    intro hold u
    cases hold with
    | claimed p =>
      obtain ⟨win,eq,-⟩ := mine p u.1 (by rw [u.2]; rfl)
      exact ⟨win,eq.trans u.2⟩
    | reserved p =>
      obtain ⟨win,high,m,eq,low⟩ := u
      obtain ⟨win',eq',-⟩ := mine p win (by rw [eq]; rfl)
      exact ⟨win',high,m,eq'.trans eq,low⟩
  have writing : ∀ {hold}, Writing cfg req s st d hold → Writing cfg req s' st' d hold ∧
      SameNode s s' (hold.pos % cfg.queueDepth) := by
    intro hold w
    cases hold with
    | claimed p =>
      obtain ⟨win,eq,node⟩ := mine p w.1 (by rw [w.2]; rfl)
      exact ⟨⟨win,eq.trans w.2⟩,node⟩
    | reserved p =>
      obtain ⟨win,high,eq⟩ := w
      obtain ⟨win',eq',node⟩ := mine p win (by rw [eq]; rfl)
      exact ⟨⟨win',high,eq'.trans eq⟩,node⟩
  cases pc with
  | loadSeq id pos => exact le_trans h claims
  | loadCons id pos => exact le_trans h claims
  | casPos id pos =>
    refine ⟨le_trans h.1 claims,fun eq => ?_⟩
    have := h.1
    have := h.2 (by omega)
    omega
  | scanProd | scanCons => exact h
  | scanSeq | scanPeek | scanCas => exact scan h
  | scanVerify | scanRestore =>
    obtain ⟨ok,win,m,eq⟩ := h
    obtain ⟨win',eq',-⟩ := mine _ win (by rw [eq]; rfl)
    exact ⟨scan ok,win',m,eq'.trans eq⟩
  | fetchId hold => exact untouched h
  | writeHeader hold msgId => exact untouched h
  | writePayload hold =>
    obtain ⟨w,header⟩ := h
    obtain ⟨w',node⟩ := writing w
    exact ⟨w',header.same node⟩
  | storePriority hold =>
    obtain ⟨w,header,payload⟩ := h
    obtain ⟨w',node⟩ := writing w
    exact ⟨w',header.same node,payload.same node⟩
  | storeSequence hold =>
    obtain ⟨w,content⟩ := h
    obtain ⟨w',node⟩ := writing w
    exact ⟨w',content.same node⟩
  | _ => trivial

theorem ConsumerOk.transport {cpc : ConsumerPC ι} (h : ConsumerOk req s st cpc)
    (released : s'.released = s.released) (cons : s'.mem.consumerPos = s.mem.consumerPos)
    (head : ∀ m, st s.released = .consuming m → st' s.released = .consuming m) : ConsumerOk req s' st' cpc := by
  cases cpc with
  | readHeader i consPos n =>
    obtain ⟨here,batch,m,eq⟩ := h
    exact ⟨by rw [released, here],by rw [released, cons]; exact batch,m,by rw [released]; exact head _ eq⟩
  | readPayload i consPos n header by' =>
    obtain ⟨here,batch,m,eq,whole⟩ := h
    exact ⟨by rw [released, here],by rw [released, cons]; exact batch,m,by rw [released]; exact head _ eq,whole⟩
  | release i consPos n =>
    obtain ⟨here,batch,eq⟩ := h
    exact ⟨by rw [released, here],by rw [released, cons]; exact batch,by rw [released]; exact head _ eq⟩
  | _ => simpa only [ConsumerOk, released, cons] using h

end

/-! ## Steps of the calls -/

section

variable [DecidableEq ι]

/-- A step of `c` that writes the node of position `p`, which no other party owns, with the new status of that position.
-/
theorem RingInv.own (h : RingInv cfg req s st) {s' : State ι α} {p : Nat} {n : Node α} {hb pb : Nat → Option ι}
    {ev : List (Option ι × ι)} {now pc' : PC} {x y : Status ι}
    (moved : s' = { s with
      mem := s.mem.setNode (p % cfg.queueDepth) n, headerBy := hb, payloadBy := pb, evicted := ev }.goto c pc')
    (headers : ∀ j, j ≠ p % cfg.queueDepth → hb j = s.headerBy j)
    (payloads : ∀ j, j ≠ p % cfg.queueDepth → pb j = s.payloadBy j) (win : InWindow cfg s p) (old : st p = y)
    (mine : y.owner = none ∨ y.owner = some c) (taken : y ≠ .free) (quiet : ∀ m, y ≠ .consuming m)
    (taken' : x ≠ .free) (quiet' : ∀ m, x ≠ .consuming m) (seq : n.sequence = x.seq cfg.queueDepth p)
    (content : ∀ m, x.message = some m → Content req s' (p % cfg.queueDepth) m) (here : s.pc c = now)
    (before : now.position = none ∨ now.position = some p)
    (after : x.owner = none ∨ x.owner = some c ∧ pc'.position = some p)
    (ok : CallOk cfg req s' (update st p x) c pc') : RingInv cfg req s' (update st p x) := by
  subst moved old here
  have elsewhere : ∀ q, InWindow cfg s q → q ≠ p → SameNode s ({ s with
      mem := s.mem.setNode (p % cfg.queueDepth) n, headerBy := hb, payloadBy := pb, evicted := ev }.goto c pc')
      (q % cfg.queueDepth) := by
    intro q wq ne
    have apart : q % cfg.queueDepth ≠ p % cfg.queueDepth := fun same => ne (wq.inj win same)
    exact ⟨update_of_ne apart ..,headers _ apart,payloads _ apart⟩
  refine .of_positions h.prodPos h.claimPos h.cons_le h.released_le h.room ?positions ?calls ?consumer
  case positions =>
    refine (forall_update_iff st fun q x => InWindow cfg s q → PositionOk cfg req _ q x).2 ⟨fun _ => ?_,fun q ne wq => ?_⟩
    · refine ⟨?_,?_,content,?_,fun m eq => absurd eq (quiet' m)⟩
      · exact ⟨fun f => absurd f taken',fun le => absurd ((h.free_iff p win).2 le) taken⟩
      · rw [goto_mem, Memory.setNode_ring, update_self]
        exact seq
      · intro d owns
        rcases after with none | ⟨mine',position⟩
        · rw [none] at owns
          cases owns
        · rw [mine'] at owns
          cases owns
          rw [goto_pc_self]
          exact position
    · refine (h.position wq).keep Iff.rfl (elsewhere q wq ne) (fun d _ held => ?_) id
      by_cases self : d = c
      · subst self
        rcases before with none | here
        · rw [none] at held
          cases held
        · rw [here] at held
          cases held
          exact absurd rfl ne
      · rw [goto_pc_of_ne _ _ _ self]
        exact held
  case calls =>
    refine (forall_update_iff s.pc fun d pc => CallOk cfg req _ _ d pc).2 ⟨ok,fun d self => ?_⟩
    refine (h.calls d).transport le_rfl le_rfl le_rfl fun q wq owns => ?_
    have ne : q ≠ p := by
      rintro rfl
      rcases mine with none | here
      · rw [none] at owns
        cases owns
      · rw [here] at owns
        cases owns
        exact self rfl
    exact ⟨wq,update_of_ne ne ..,elsewhere q wq ne⟩
  case consumer =>
    refine h.consumer.transport rfl rfl fun m eq => ?_
    rw [update_of_ne]
    · exact eq
    · rintro rfl
      exact quiet m eq

theorem RingInv.move (h : RingInv cfg req s st) {m' : Memory α} {g : ι → Nat} {pc' : PC}
    (ring : m'.ring = s.mem.ring) (prod : m'.producerPos = s.mem.producerPos)
    (cons : m'.consumerPos = s.mem.consumerPos) (position : pc'.position = (s.pc c).position)
    (ok : CallOk cfg req s st c pc') : RingInv cfg req ({ s with mem := m', loaded := g }.goto c pc') st := by
  have nodes : ∀ j, SameNode s ({ s with mem := m', loaded := g }.goto c pc') j :=
    fun j => ⟨by rw [goto_mem, ring],rfl,rfl⟩
  refine .of_positions (prod.trans h.prodPos) h.claimPos ?cons_le h.released_le h.room ?positions ?calls
    (h.consumer.transport rfl cons fun _ eq => eq)
  case cons_le =>
    rw [goto_mem, cons]
    exact h.cons_le
  case positions =>
    intro q win
    refine (h.position win).keep Iff.rfl (nodes _) (fun d _ held => ?_) id
    exact (update_same PC.position position d).trans held
  case calls =>
    have up := le_of_eq cons.symm
    refine (forall_update_iff s.pc fun d pc => CallOk cfg req _ st d pc).2 ⟨?_,fun d _ => ?_⟩
    · exact ok.transport le_rfl le_rfl up fun q win _ => ⟨win,rfl,nodes _⟩
    · exact (h.calls d).transport le_rfl le_rfl up fun q win _ => ⟨win,rfl,nodes _⟩

end

end Newosp.Bus
