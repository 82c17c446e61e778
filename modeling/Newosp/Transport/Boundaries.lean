import Newosp.Lib.Machine
import Newosp.Transport.RoundTrip

/-!
# Frame boundaries after an error

A call that gives up in the middle of a frame leaves the connection marked as good, so the next call starts inside a
frame: after 17 would-blocks once a byte has moved, after the header of a frame larger than the buffer, and after the
first part of a v1 frame.
-/

namespace Newosp.Transport
open Lib List

/-- A call on the transport and what the socket does in its loops. A send with a null payload still announces its
length. -/
inductive Call
  | send (f : Frame) (header body : Behaviour)
  | sendNull (f : Frame) (header body : Behaviour)
  | recv (bufSize : Nat) (header body : Behaviour)
  | recvAuto (bufSize : Nat) (first header body : Behaviour)

/-- The result of a call: for a receive, the header and the payload. -/
abbrev Answer := Except TransportError (Option (FrameHeaderV1 × List UInt8))

def Frame.sendNull (cfg : TransportConfig) (header body : Behaviour) (f : Frame) (t : TcpTransport) :
    Option (Except TransportError Unit × TcpTransport) :=
  match f.stamp with
  | none => sendFrame cfg header body f.typeIndex f.senderId (.null f.payload.length) t
  | some stamp =>
    sendFrameV1 cfg header body f.typeIndex f.senderId stamp.seqNum stamp.timestampNs (.null f.payload.length) t

/-- The result of a call with its value changed. -/
def mapAnswer {α β : Type} (g : α → β) (r : Option (Except TransportError α × TcpTransport)) :
    Option (Except TransportError β × TcpTransport) := r.map fun p => (p.1.map g, p.2)

def Call.run (cfg : TransportConfig) : Call → TcpTransport → Option (Answer × TcpTransport)
  | send f header body, t => mapAnswer (fun _ => none) (f.send cfg header body t)
  | sendNull f header body, t => mapAnswer (fun _ => none) (f.sendNull cfg header body t)
  | recv bufSize header body, t => mapAnswer (fun p => some (p.1.toV1, p.2)) (recvFrame header body bufSize t)
  | recvAuto bufSize first header body, t => mapAnswer some (recvFrameAuto first header body bufSize t)

/-- The transport with the peer's frames that are not yet received and the frames sent. -/
structure Link where
  transport : TcpTransport
  remaining : List Frame
  sent : List Frame

def Link.after (l : Link) (t : TcpTransport) : Call → Answer → Link
  | _, .error _ => { l with transport := t }
  | .send f _ _, .ok _ => { l with transport := t, sent := l.sent ++ [f] }
  | .sendNull f _ _, .ok _ => { l with transport := t, sent := l.sent ++ [f] }
  | .recv .., .ok _ => { l with transport := t, remaining := l.remaining.tail }
  | .recvAuto .., .ok _ => { l with transport := t, remaining := l.remaining.tail }

def linkMachine (cfg : TransportConfig) (start : Link) : Machine Link Call where
  init := start
  next c l := (c.run cfg l.transport).map fun p => l.after p.2 c p.1

/-- Both streams stand between two frames; the bytes `missing` of the peer's frames never arrive. -/
structure Aligned (missing : List UInt8) (l : Link) : Prop where
  incoming : l.transport.incoming ++ missing = l.remaining.flatMap Frame.wire
  outgoing : l.transport.outgoing = l.sent.flatMap Frame.wire

/-- The first loop moves no byte or does not give up, the later ones do not give up, the peer's next frame fits the
buffer, and `RecvFrame` is for v0 frames. -/
def Clean (cfg : TransportConfig) (l : Link) : Call → Prop
  | .send _ header body => (Blocked header ∨ Steady header) ∧ Steady body
  | .sendNull f header body =>
    (f.payload = [] ∨ cfg.maxFrameSize < f.payload.length) ∧ (Blocked header ∨ Steady header) ∧ Steady body
  | .recv bufSize header body =>
    (Blocked header ∨ Mild header) ∧ Mild body ∧ ∀ f ∈ l.remaining.head?, f.payload.length ≤ bufSize ∧ f.stamp = none
  | .recvAuto bufSize first header body =>
    (Blocked first ∨ Mild first) ∧ Mild header ∧ Mild body ∧ ∀ f ∈ l.remaining.head?, f.payload.length ≤ bufSize

/-- What a clean call does on an aligned link: it fails without effect, loses the connection, sends a frame, or returns
the next one. -/
inductive Kept (missing : List UInt8) (l : Link) : Call → Option (Answer × TcpTransport) → Prop
  | failed (c : Call) (e : TransportError) : Kept missing l c (some (.error e, l.transport))
  | lost (c : Call) (e : TransportError) (t' : TcpTransport) (down : t'.connected = false) :
      Kept missing l c (some (.error e, t'))
  | sent (f : Frame) (header body : Behaviour) : Kept missing l (.send f header body)
      (some (.ok none, { l.transport with outgoing := l.transport.outgoing ++ f.wire }))
  | sentNull (f : Frame) (header body : Behaviour) : Kept missing l (.sendNull f header body)
      (some (.ok none, { l.transport with outgoing := l.transport.outgoing ++ f.wire }))
  | received (bufSize : Nat) (header body : Behaviour) (f : Frame) (rest : List Frame) (incoming' : List UInt8)
      (next : l.remaining = f :: rest) (stream : incoming' ++ missing = rest.flatMap Frame.wire) :
      Kept missing l (.recv bufSize header body)
        (some (.ok (some (f.header, f.payload)), { l.transport with incoming := incoming' }))
  | receivedAuto (bufSize : Nat) (first header body : Behaviour) (f : Frame) (rest : List Frame)
      (incoming' : List UInt8) (next : l.remaining = f :: rest)
      (stream : incoming' ++ missing = rest.flatMap Frame.wire) :
      Kept missing l (.recvAuto bufSize first header body)
        (some (.ok (some (f.header, f.payload)), { l.transport with incoming := incoming' }))

section

variable {α β : Type} {cfg : TransportConfig} {missing : List UInt8} {l : Link} {c : Call} {f : Frame}
  {first header body : Behaviour} {t : TcpTransport} {bufSize : Nat}

@[simp] theorem mapAnswer_ok (g : α → β) (a : α) (t : TcpTransport) :
    mapAnswer g (some (.ok a, t)) = some (.ok (g a), t) := rfl

theorem Frame.headerBytes_ne_nil (f : Frame) : f.headerBytes ≠ [] := by
  intro empty
  have first := f.headerBytes_take
  rw [empty] at first
  cases first

theorem Frame.sendNull_eq (cfg : TransportConfig) (header body : Behaviour) (f : Frame) (t : TcpTransport) :
    f.sendNull cfg header body t = if t.connected = false then some (.error .notConnected, t)
      else if cfg.maxFrameSize < f.payload.length then some (.error .bufferFull, t)
      else andThen (sendAll header f.headerBytes t) fun _ t => some (.ok (), t) := by
  unfold Frame.sendNull Frame.headerBytes Frame.header
  cases f.stamp with
  | none => rfl
  | some stamp => rfl

theorem Call.run_down (down : t.connected = false) : c.run cfg t = some (.error .notConnected, t) := by
  cases c with
  | send f header body =>
    rw [Call.run, Frame.send_eq, if_pos down]
    rfl
  | sendNull f header body =>
    rw [Call.run, Frame.sendNull_eq, if_pos down]
    rfl
  | recv bufSize header body =>
    rw [Call.run, recvFrame, if_pos down]
    rfl
  | recvAuto bufSize first header body =>
    rw [Call.run, recvFrameAuto, if_pos down]
    rfl

theorem andThen_returns {r : Option (Except TransportError α × TcpTransport)}
    {next : α → TcpTransport → Option (Except TransportError β × TcpTransport)} (returns : ∃ p, r = some p)
    (returns' : ∀ a t, ∃ p, next a t = some p) : ∃ p, andThen r next = some p := by
  obtain ⟨⟨value,t⟩,rfl⟩ := returns
  cases value with
  | ok a => exact returns' a t
  | error e => exact ⟨_,rfl⟩

theorem ite_returns {p : Prop} [Decidable p] {a : α} {r : Option α} (returns : ∃ p, r = some p) :
    ∃ q, (if p then some a else r) = some q := by
  split
  · exact ⟨_,rfl⟩
  · exact returns

theorem sendPayload_returns (body : Behaviour) (data : List UInt8) (t : TcpTransport) :
    ∃ p, sendPayload body t (.bytes data) = some p := by
  rw [sendPayload]
  split
  · exact sendAll_returns body data t
  · exact ⟨_,rfl⟩

theorem recvPayload_returns (body : Behaviour) (bufSize length : Nat) (t : TcpTransport) :
    ∃ p, recvPayload body bufSize length t = some p := by
  rw [recvPayload]
  apply ite_returns
  split
  · exact recvAll_returns body length t
  · exact ⟨_,rfl⟩

theorem recvFrame_returns (header body : Behaviour) (bufSize : Nat) (t : TcpTransport) :
    ∃ p, recvFrame header body bufSize t = some p := by
  rw [recvFrame]
  refine ite_returns (andThen_returns (recvAll_returns _ _ _) ?_)
  intro buf t
  split
  · exact ⟨_,rfl⟩
  · exact ite_returns (andThen_returns (recvPayload_returns _ _ _ _) fun _ _ => ⟨_,rfl⟩)

theorem recvFrameAuto_returns (first header body : Behaviour) (bufSize : Nat) (t : TcpTransport) :
    ∃ p, recvFrameAuto first header body bufSize t = some p := by
  rw [recvFrameAuto]
  refine ite_returns (andThen_returns (recvAll_returns _ _ _) ?_)
  intro magic t
  split
  · refine andThen_returns (recvAll_returns _ _ _) ?_
    intro more t
    split
    · exact ⟨_,rfl⟩
    · exact ite_returns (andThen_returns (recvPayload_returns _ _ _ _) fun _ _ => ⟨_,rfl⟩)
  · split
    · refine andThen_returns (recvAll_returns _ _ _) ?_
      intro more t
      split
      · exact ⟨_,rfl⟩
      · exact ite_returns (andThen_returns (recvPayload_returns _ _ _ _) fun _ _ => ⟨_,rfl⟩)
    · exact ⟨_,rfl⟩

theorem Call.run_returns (cfg : TransportConfig) (c : Call) (t : TcpTransport) : ∃ p, c.run cfg t = some p := by
  have mapped : ∀ {α β : Type} (g : α → β) {r : Option (Except TransportError α × TcpTransport)},
      (∃ p, r = some p) → ∃ p, mapAnswer g r = some p := by
    rintro α β g r ⟨p,rfl⟩
    exact ⟨_,rfl⟩
  cases c with
  | send f header body =>
    apply mapped
    rw [Frame.send_eq]
    exact ite_returns (ite_returns (andThen_returns (sendAll_returns _ _ _) fun _ t => sendPayload_returns _ _ t))
  | sendNull f header body =>
    apply mapped
    rw [Frame.sendNull_eq]
    exact ite_returns (ite_returns (andThen_returns (sendAll_returns _ _ _) fun _ _ => ⟨_,rfl⟩))
  | recv bufSize header body => exact mapped _ (recvFrame_returns header body bufSize t)
  | recvAuto bufSize first header body => exact mapped _ (recvFrameAuto_returns first header body bufSize t)

theorem Frame.sendNull_harmless (harmless : f.payload = [] ∨ cfg.maxFrameSize < f.payload.length) :
    f.sendNull cfg header body t = f.send cfg header body t := by
  rw [Frame.sendNull_eq, Frame.send_eq]
  rcases harmless with empty | large
  · rw [empty]
    rfl
  · rw [if_pos large, if_pos large]

theorem Frame.send_cases (cfg : TransportConfig) (f : Frame) (connected : t.connected = true)
    (patient : Blocked header ∨ Steady header) (steadyBody : Steady body) : (∃ e, f.send cfg header body t = some (.error e, t)) ∨
    (∃ e t', f.send cfg header body t = some (.error e, t') ∧ t'.connected = false) ∨
    f.send cfg header body t = some (.ok (), { t with outgoing := t.outgoing ++ f.wire }) := by
  by_cases within : f.payload.length ≤ cfg.maxFrameSize
  · rcases patient with blocked | steady
    · refine .inl ⟨.wouldBlock,?_⟩
      rw [Frame.send_eq, if_neg (not_disconnected connected), if_neg (Nat.not_lt.2 within),
        sendAll_blocked blocked f.headerBytes_ne_nil, andThen_error]
    · rcases Frame.send_steady connected within steady steadyBody with ⟨e,t',eq,down,-⟩ | sent
      · exact .inr (.inl ⟨e,t',eq,down⟩)
      · exact .inr (.inr sent)
  · refine .inl ⟨.bufferFull,?_⟩
    rw [Frame.send_eq, if_neg (not_disconnected connected), if_pos (Nat.not_le.1 within)]

theorem recvFrame_blocked (connected : t.connected = true) (blocked : Blocked header) :
    recvFrame header body bufSize t = some (.error .wouldBlock, t) := by
  rw [recvFrame, if_neg (not_disconnected connected), recvAll_blocked blocked (by decide), andThen_error]

theorem recvFrameAuto_blocked (connected : t.connected = true) (blocked : Blocked first) :
    recvFrameAuto first header body bufSize t = some (.error .wouldBlock, t) := by
  rw [recvFrameAuto, if_neg (not_disconnected connected), recvAll_blocked blocked (by decide), andThen_error]

/-- A loop that waits behind the peer's last byte loses the connection. -/
theorem recvAll_ended {b : Behaviour} (len : Nat) (mild : Mild b) (ended : t.incoming = []) (positive : 0 < len) :
    Lost (Healthy b ∧ len ≤ t.incoming.length) (recvAll b len t) := by
  rcases recvAll_mild mild len t with lost | ⟨arrived,-⟩
  · exact lost
  · rw [ended, length_nil] at arrived
    omega

section

variable (connected : l.transport.connected = true) (aligned : Aligned missing l) (clean : Clean cfg l c)
include connected aligned clean

/-- One clean call on an aligned link. -/
theorem Call.run_kept : Kept missing l c (c.run cfg l.transport) := by
  cases c with
  | send f header body =>
    obtain ⟨patient,steadyBody⟩ := clean
    rw [Call.run]
    rcases Frame.send_cases cfg f connected patient steadyBody with
      ⟨e,eq⟩ | ⟨e,t',eq,down⟩ | eq <;> rw [eq]
    · exact .failed _ e
    · exact .lost _ e t' down
    · exact .sent f header body
  | sendNull f header body =>
    obtain ⟨harmless,patient,steadyBody⟩ := clean
    rw [Call.run, Frame.sendNull_harmless harmless]
    rcases Frame.send_cases cfg f connected patient steadyBody with
      ⟨e,eq⟩ | ⟨e,t',eq,down⟩ | eq <;> rw [eq]
    · exact .failed _ e
    · exact .lost _ e t' down
    · exact .sentNull f header body
  | recv bufSize header body =>
    obtain ⟨patient,mildBody,fitting⟩ := clean
    rw [Call.run]
    rcases patient with blocked | mild
    · rw [recvFrame_blocked connected blocked]
      exact .failed _ _
    have stream := aligned.incoming
    cases next : l.remaining with
    | nil =>
      rw [next, flatMap_nil] at stream
      have ended := recvAll_ended kHeaderSize mild (append_eq_nil_iff.1 stream).1 (by decide)
      rw [recvFrame, if_neg (not_disconnected connected)]
      obtain ⟨e,t',eq,down,-⟩ := ended.andThen _
      rw [eq]
      exact .lost _ e t' down
    | cons f rest =>
      obtain ⟨within,v0⟩ := fitting f (by rw [next]; rfl)
      rw [next, flatMap_cons] at stream
      rcases recvFrame_mild connected v0 within mild mildBody stream with ⟨e,t',eq,down,-⟩ | ⟨incoming',kept,eq⟩
      · rw [eq]
        exact .lost _ e t' down
      · have shown : f.header = f.headerV0.toV1 := by rw [Frame.header, v0]
        rw [eq, mapAnswer_ok, ← shown]
        exact .received bufSize header body f rest incoming' next kept
  | recvAuto bufSize first header body =>
    obtain ⟨patient,mild,mildBody,fitting⟩ := clean
    rw [Call.run]
    rcases patient with blocked | mildFirst
    · rw [recvFrameAuto_blocked connected blocked]
      exact .failed _ _
    have stream := aligned.incoming
    cases next : l.remaining with
    | nil =>
      rw [next, flatMap_nil] at stream
      have ended := recvAll_ended 4 mildFirst (append_eq_nil_iff.1 stream).1 (by decide)
      rw [recvFrameAuto, if_neg (not_disconnected connected)]
      obtain ⟨e,t',eq,down,-⟩ := ended.andThen _
      rw [eq]
      exact .lost _ e t' down
    | cons f rest =>
      have within := fitting f (by rw [next]; rfl)
      rw [next, flatMap_cons] at stream
      rcases recvFrameAuto_mild connected within mildFirst mild mildBody stream with
        ⟨e,t',eq,down,-⟩ | ⟨incoming',kept,eq⟩
      · rw [eq]
        exact .lost _ e t' down
      · rw [eq, mapAnswer_ok]
        exact .receivedAuto bufSize first header body f rest incoming' next kept

/-- One step keeps the boundaries. -/
theorem Aligned.after {r : Answer} {t' : TcpTransport} (eq : c.run cfg l.transport = some (r, t')) :
    t'.connected = true → Aligned missing (l.after t' c r) := by
  have kept := Call.run_kept connected aligned clean
  rw [eq] at kept
  intro up
  cases kept with
  | failed => exact ⟨aligned.incoming,aligned.outgoing⟩
  | lost _ _ _ down => exact absurd up (by rw [down]; exact Bool.false_ne_true)
  | sent f | sentNull f =>
    refine ⟨aligned.incoming,?_⟩
    change l.transport.outgoing ++ f.wire = (l.sent ++ [f]).flatMap Frame.wire
    rw [flatMap_append, flatMap_singleton, aligned.outgoing]
  | received _ _ _ f rest incoming' next stream | receivedAuto _ _ _ _ f rest incoming' next stream =>
    refine ⟨?_,aligned.outgoing⟩
    change incoming' ++ missing = l.remaining.tail.flatMap Frame.wire
    rw [next, tail_cons, stream]

end

/-- **Clean calls keep the boundaries.** While the connection is up, both streams stand between two frames; every call
returns; one that fails and leaves the connection up has consumed and sent nothing; and a receive that succeeds returns
the peer's next frame. -/
theorem boundaries_kept (cfg : TransportConfig) (missing : List UInt8) (start : Link) (aligned : Aligned missing start)
    (reached : Reach (linkMachine cfg start) (Clean cfg) l) (connected : l.transport.connected = true) :
    Aligned missing l ∧ ∀ c, ∃ r t', c.run cfg l.transport = some (r, t') ∧ (Clean cfg l c →
      (∀ e, r = .error e → t'.connected = true → t' = l.transport) ∧
      (∀ p, r = .ok (some p) → ∃ f rest, l.remaining = f :: rest ∧ p = (f.header, f.payload))) := by
  have inv : l.transport.connected = true → Aligned missing l := by
    apply Reach.invariant (I := fun l => l.transport.connected = true → Aligned missing l) (fun _ => aligned) ?_ reached
    intro s t c _ ih clean next
    obtain ⟨⟨r,t'⟩,eq,rfl⟩ := Option.map_eq_some_iff.1 next
    have moved : (s.after t' c r).transport = t' := by cases c <;> cases r <;> rfl
    intro up
    rw [moved] at up
    cases before : s.transport.connected with
    | true => exact (ih before).after before clean eq up
    | false =>
      rw [Call.run_down before] at eq
      cases eq
      rw [before] at up
      cases up
  refine ⟨inv connected,?_⟩
  intro c
  obtain ⟨⟨r,t'⟩,eq⟩ := c.run_returns cfg l.transport
  refine ⟨r,t',eq,?_⟩
  intro clean
  have kept := Call.run_kept connected (inv connected) clean
  rw [eq] at kept
  constructor
  · rintro e rfl up
    cases kept with
    | failed => rfl
    | lost _ _ _ down => exact absurd up (by rw [down]; exact Bool.false_ne_true)
  · rintro p rfl
    cases kept with
    | received bufSize header body f rest incoming' next => exact ⟨f,rest,next,rfl⟩
    | receivedAuto bufSize first header body f rest incoming' next => exact ⟨f,rest,next,rfl⟩

/-- Two frames of the peer, of which the second stays. -/
def twoFrames : Link := ⟨⟨true, plainFrame.wire ++ stampedFrame.wire, []⟩, [plainFrame, stampedFrame], []⟩

def oneFrame : Link := ⟨⟨true, stampedFrame.wire, []⟩, [stampedFrame], []⟩

/-- A receive that blocks, one that takes the first frame, and again one of each kind. -/
theorem boundaries_kept_read :
    (linkMachine defaultConfig twoFrames).exec
      [.recvAuto 4096 (fun _ => .wouldBlock) drip drip, .recvAuto 4096 drip drip drip] twoFrames = some oneFrame ∧
    Aligned [] oneFrame ∧
    (∃ t, (Call.recvAuto 4096 (fun _ => .wouldBlock) drip drip).run defaultConfig oneFrame.transport =
      some (.error .wouldBlock, t) ∧ t = oneFrame.transport) ∧
    ∃ p t', (Call.recvAuto 4096 drip drip drip).run defaultConfig oneFrame.transport = some (.ok (some p), t') ∧
      p = (stampedFrame.header, stampedFrame.payload) := by
  have mild : Mild drip := drip_fair.1
  have clean : ∀ {first}, (Blocked first ∨ Mild first) → ∀ l, (∀ f ∈ l.remaining.head?, f.payload.length ≤ 4096) →
      Clean defaultConfig l (.recvAuto 4096 first drip drip) := fun patient l fits => ⟨patient,mild,mild,fits⟩
  have blocked : Blocked fun _ => .wouldBlock := fun _ _ => rfl
  have reached : Reach (linkMachine defaultConfig twoFrames) (Clean defaultConfig) oneFrame :=
    .step (.step .init (clean (.inl blocked) _ (by decide)) rfl) (clean (.inr mild) _ (by decide)) rfl
  obtain ⟨aligned,calls⟩ := boundaries_kept defaultConfig [] twoFrames ⟨rfl,rfl⟩ reached rfl
  obtain ⟨_,t,⟨⟩,waited⟩ := calls (.recvAuto 4096 (fun _ => .wouldBlock) drip drip)
  obtain ⟨_,t',⟨⟩,taken⟩ := calls (.recvAuto 4096 drip drip drip)
  obtain ⟨f,rest,⟨⟩,returned⟩ := (taken (clean (.inr mild) _ (by decide))).2 _ rfl
  have unchanged := (waited (clean (.inl blocked) _ (by decide))).1 _ rfl rfl
  exact ⟨rfl,aligned,⟨_,rfl,unchanged⟩,_,_,rfl,returned⟩

def innerFrame : Frame := {
  stamp := none
  typeIndex := 66
  senderId := 77
  payload := []
  fits := stampedFrame.fits }

def outerFrame : Frame := {
  stamp := none
  typeIndex := 1
  senderId := 2
  payload := innerFrame.wire
  fits := by decide }

def flow : Behaviour := fun _ => .moved 4096

def stall : Behaviour := fun i => if i = 0 then .moved 3 else .wouldBlock

/-- Calls that give up inside a frame and leave the connection up. The header of a frame that does not fit is consumed,
and the next receive returns a frame never sent; three bytes of a header are sent or consumed before the would-blocks;
and `RecvFrame` consumes 14 bytes of a v1 frame. -/
theorem boundary_lost : ((Call.recvAuto 4 flow flow flow).run defaultConfig ⟨true, outerFrame.wire, []⟩ =
        some (.error .bufferFull, ⟨true, innerFrame.wire, []⟩) ∧
      (Call.recvAuto 4096 flow flow flow).run defaultConfig ⟨true, innerFrame.wire, []⟩ =
        some (.ok (some (innerFrame.header, [])), ⟨true, [], []⟩) ∧ innerFrame.header ≠ outerFrame.header) ∧
    (Call.send plainFrame stall flow).run defaultConfig ⟨true, [], []⟩ =
      some (.error .wouldBlock, ⟨true, [], plainFrame.wire.take 3⟩) ∧
    (Call.recv 4096 stall flow).run defaultConfig ⟨true, plainFrame.wire, []⟩ =
      some (.error .wouldBlock, ⟨true, plainFrame.wire.drop 3, []⟩) ∧
    (Call.recv 4096 flow flow).run defaultConfig ⟨true, stampedFrame.wire, []⟩ =
      some (.error .invalidFrame, ⟨true, stampedFrame.wire.drop 14, []⟩) := ⟨⟨rfl, rfl, by decide⟩, rfl, rfl, rfl⟩

end

end Newosp.Transport
