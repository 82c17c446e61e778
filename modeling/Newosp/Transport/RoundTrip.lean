import Newosp.Transport.Stream

/-!
# The frame stream round trip

Frames of both versions are sent one after the other. The receiver's socket may hand over the bytes in any portions, and
each loop may meet up to 16 would-blocks; repeated `RecvFrameAuto` then returns the frames that were sent, in order.
-/

namespace Newosp.Transport
open List

/-- Short transfers and at most 16 would-blocks. -/
def Fair (b : Behaviour) : Prop := Mild b ∧ Healthy b

/-- A send, and what the socket does in its loops. -/
structure SendCall where
  frame : Frame
  header : Behaviour
  body : Behaviour

/-- What the socket does in the loops of a receive; `RecvFrame` has no loop of its own for the magic. -/
structure RecvCall where
  first : Behaviour
  header : Behaviour
  body : Behaviour

def SendCall.Fair (c : SendCall) : Prop := Transport.Fair c.header ∧ Transport.Fair c.body

def RecvCall.Fair (c : RecvCall) : Prop := Transport.Fair c.first ∧ Transport.Fair c.header ∧ Transport.Fair c.body

def runCalls {ρ : Type} : List (TcpTransport → Option (ρ × TcpTransport)) → TcpTransport →
    Option (List ρ × TcpTransport)
  | [], t => some ([], t)
  | call :: calls, t => match call t with
    | none => none
    | some (r, t) => (runCalls calls t).map fun p => (r :: p.1, p.2)

def sendFrames (cfg : TransportConfig) (calls : List SendCall) :
    TcpTransport → Option (List (Except TransportError Unit) × TcpTransport) :=
  runCalls (calls.map fun c => c.frame.send cfg c.header c.body)

def recvFrames (bufSize : Nat) (calls : List RecvCall) :
    TcpTransport → Option (List (Except TransportError (FrameHeader × List UInt8)) × TcpTransport) :=
  runCalls (calls.map fun c => recvFrame c.header c.body bufSize)

def recvFramesAuto (bufSize : Nat) (calls : List RecvCall) :
    TcpTransport → Option (List (Except TransportError (FrameHeaderV1 × List UInt8)) × TcpTransport) :=
  runCalls (calls.map fun c => recvFrameAuto c.first c.header c.body bufSize)

/-- A result of `RecvFrame` as `RecvFrameAuto` reports it. -/
def asV1 (r : Except TransportError (FrameHeader × List UInt8)) : Except TransportError (FrameHeaderV1 × List UInt8) :=
  r.map fun p => (p.1.toV1, p.2)

section

variable {ρ : Type} {cfg : TransportConfig} {bufSize : Nat} {t : TcpTransport} {frames : List Frame}
  {rest : List UInt8} {f : Frame} {c : RecvCall}

theorem Lost.false {fine : Prop} {r : Option (Except TransportError ρ × TcpTransport)} (lost : Lost fine r) (good : fine) :
    False := by
  obtain ⟨_,_,_,_,bad⟩ := lost
  exact bad good

theorem runCalls_cons {call : TcpTransport → Option (ρ × TcpTransport)}
    {calls : List (TcpTransport → Option (ρ × TcpTransport))} {r : ρ} {rs : List ρ} {t' t'' : TcpTransport}
    (first : call t = some (r, t')) (more : runCalls calls t' = some (rs, t'')) :
    runCalls (call :: calls) t = some (r :: rs, t'') := by
  rw [runCalls, first]
  simp only [more, Option.map_some]

theorem sendFrames_fair {calls : List SendCall} (fair : ∀ c ∈ calls, c.Fair)
    (within : ∀ c ∈ calls, c.frame.payload.length ≤ cfg.maxFrameSize) (connected : t.connected = true) :
    sendFrames cfg calls t = some (calls.map fun _ => .ok (),
      { t with outgoing := t.outgoing ++ calls.flatMap fun c => c.frame.wire }) := by
  induction calls generalizing t with
  | nil =>
    rw [flatMap_nil, append_nil]
    rfl
  | cons c calls ih =>
    obtain ⟨⟨mild,healthy⟩,⟨mildBody,healthyBody⟩⟩ := fair c mem_cons_self
    rcases Frame.send_steady connected (within c mem_cons_self) mild.steady mildBody.steady with lost | sent
    · exact (lost.false ⟨healthy,healthyBody⟩).elim
    · refine runCalls_cons sent ?_
      have later := ih (fun c mem => fair c (mem_cons_of_mem _ mem)) (fun c mem => within c (mem_cons_of_mem _ mem))
        (show ({ t with outgoing := t.outgoing ++ c.frame.wire } : TcpTransport).connected = true from connected)
      rw [flatMap_cons, ← append_assoc]
      exact later

theorem recvFrameAuto_fair (fair : c.Fair) (within : f.payload.length ≤ bufSize) (connected : t.connected = true)
    (stream : t.incoming = f.wire ++ rest) : recvFrameAuto c.first c.header c.body bufSize t =
      some (.ok (f.header, f.payload), { t with incoming := rest }) := by
  obtain ⟨⟨mildFirst,healthyFirst⟩,⟨mild,healthy⟩,⟨mildBody,healthyBody⟩⟩ := fair
  rcases recvFrameAuto_mild connected within mildFirst mild mildBody ((append_nil _).trans stream) with
    lost | ⟨incoming',same,eq⟩
  · exact (lost.false ⟨⟨healthyFirst,healthy,healthyBody⟩,rfl⟩).elim
  · rw [append_nil] at same
    rw [eq, same]

theorem recvFrame_fair (fair : c.Fair) (v0 : f.stamp = none) (within : f.payload.length ≤ bufSize)
    (connected : t.connected = true) (stream : t.incoming = f.wire ++ rest) :
    recvFrame c.header c.body bufSize t = some (.ok (f.headerV0, f.payload), { t with incoming := rest }) := by
  obtain ⟨-,⟨mild,healthy⟩,⟨mildBody,healthyBody⟩⟩ := fair
  rcases recvFrame_mild connected v0 within mild mildBody ((append_nil _).trans stream) with
    lost | ⟨incoming',same,eq⟩
  · exact (lost.false ⟨⟨healthy,healthyBody⟩,rfl⟩).elim
  · rw [append_nil] at same
    rw [eq, same]

theorem runCalls_frames (call : RecvCall → TcpTransport → Option (ρ × TcpTransport)) (shown : Frame → ρ)
    {calls : List RecvCall} (count : calls.length = frames.length)
    (step : ∀ c ∈ calls, ∀ f ∈ frames, ∀ t rest, t.connected = true → t.incoming = f.wire ++ rest →
      call c t = some (shown f, { t with incoming := rest }))
    (connected : t.connected = true) (stream : t.incoming = frames.flatMap Frame.wire ++ rest) :
    runCalls (calls.map call) t = some (frames.map shown, { t with incoming := rest }) := by
  induction calls generalizing frames t with
  | nil =>
    obtain rfl : frames = [] := length_eq_zero_iff.1 count.symm
    rw [flatMap_nil, nil_append] at stream
    rw [← stream]
    rfl
  | cons c calls ih =>
    obtain ⟨f,frames,rfl⟩ := exists_cons_of_length_eq_add_one count.symm
    rw [flatMap_cons, append_assoc] at stream
    refine runCalls_cons (step c mem_cons_self f mem_cons_self t _ connected stream) ?_
    refine ih (Nat.succ.inj count) ?_ connected rfl
    intro c' mem' f' memF
    exact step c' (mem_cons_of_mem _ mem') f' (mem_cons_of_mem _ memF)

theorem recv_same {c' : RecvCall} (fair : c.Fair) (fair' : c'.Fair) (v0 : f.stamp = none) (connected : t.connected = true)
    (stream : t.incoming = f.wire ++ rest) : recvFrameAuto c.first c.header c.body bufSize t =
      (recvFrame c'.header c'.body bufSize t).map fun p => (asV1 p.1, p.2) := by
  have shown : f.header = f.headerV0.toV1 := by rw [Frame.header, v0]
  by_cases within : f.payload.length ≤ bufSize
  · rw [recvFrameAuto_fair fair within connected stream, recvFrame_fair fair' v0 within connected stream, shown]
    rfl
  · have full : ∀ body t, recvPayload body bufSize f.payload.length t = some (.error .bufferFull, t) :=
      fun _ _ => if_pos (Nat.not_le.1 within)
    obtain ⟨⟨mildFirst,healthyFirst⟩,⟨mild,healthy⟩,-⟩ := fair
    obtain ⟨-,⟨mild',healthy'⟩,-⟩ := fair'
    have auto := recvFrameAuto_header c.body bufSize connected mildFirst mild ((append_nil _).trans stream)
    have plain := recvFrame_header c'.body bufSize connected v0 mild' ((append_nil _).trans stream)
    rcases auto with lost | ⟨incoming₁,same₁,eq₁⟩
    · exact (lost.false ⟨⟨healthyFirst,healthy⟩,rfl⟩).elim
    rcases plain with lost | ⟨incoming₂,same₂,eq₂⟩
    · exact (lost.false ⟨healthy',rfl⟩).elim
    rw [append_nil] at same₁ same₂
    rw [eq₁, eq₂, full, full, same₁, same₂]
    rfl

/-- **The stream round trip.** Whatever portions the sockets move and wherever they would block, up to 16 times in a
loop: all sends succeed, `RecvFrameAuto` returns the frames in order, and when they are all v0 `RecvFrame` returns the
same. -/
theorem stream_round_trip (cfg : TransportConfig) (sends : List SendCall) (recvs recvs' : List RecvCall) (bufSize : Nat)
    (sender receiver : TcpTransport) (later : List UInt8) (sendsFair : ∀ c ∈ sends, c.Fair)
    (recvsFair : ∀ c ∈ recvs, c.Fair) (recvsFair' : ∀ c ∈ recvs', c.Fair)
    (within : ∀ c ∈ sends, c.frame.payload.length ≤ cfg.maxFrameSize) (large : cfg.maxFrameSize ≤ bufSize)
    (count : recvs.length = sends.length) (count' : recvs'.length = sends.length)
    (connected : sender.connected = true) (connected' : receiver.connected = true)
    (stream : receiver.incoming = (sends.flatMap fun c => c.frame.wire) ++ later) :
    sendFrames cfg sends sender = some (sends.map fun _ => .ok (),
      { sender with outgoing := sender.outgoing ++ sends.flatMap fun c => c.frame.wire }) ∧
    recvFramesAuto bufSize recvs receiver =
      some (sends.map fun c => .ok (c.frame.header, c.frame.payload), { receiver with incoming := later }) ∧
    ((∀ c ∈ sends, c.frame.stamp = none) → recvFramesAuto bufSize recvs receiver =
          (recvFrames bufSize recvs' receiver).map (fun p => (p.1.map asV1, p.2)) ∧
      ∀ c ∈ recvs, ∀ c' ∈ recvs', ∀ size, recvFrameAuto c.first c.header c.body size receiver =
        (recvFrame c'.header c'.body size receiver).map fun p => (asV1 p.1, p.2)) := by
  refine ⟨sendFrames_fair sendsFair within connected,?_⟩
  have small : ∀ f ∈ sends.map SendCall.frame, f.payload.length ≤ bufSize := by
    intro f mem
    obtain ⟨c,memC,rfl⟩ := mem_map.1 mem
    exact (within c memC).trans large
  have stream' : receiver.incoming = (sends.map SendCall.frame).flatMap Frame.wire ++ later := by
    rw [stream, flatMap_map]
  have auto := runCalls_frames (fun c => recvFrameAuto c.first c.header c.body bufSize)
    (fun f => .ok (f.header, f.payload)) (count.trans (length_map _).symm)
    (fun c mem f memF _ _ up arrived => recvFrameAuto_fair (recvsFair c mem) (small f memF) up arrived)
    connected' stream'
  rw [map_map] at auto
  refine ⟨auto,?_⟩
  intro v0
  have v0' : ∀ f ∈ sends.map SendCall.frame, f.stamp = none := by
    intro f mem
    obtain ⟨c,memC,rfl⟩ := mem_map.1 mem
    exact v0 c memC
  constructor
  · have plain := runCalls_frames (fun c => recvFrame c.header c.body bufSize)
      (fun f => .ok (f.headerV0, f.payload)) (count'.trans (length_map _).symm)
      (fun c mem f memF _ _ up arrived => recvFrame_fair (recvsFair' c mem) (v0' f memF) (small f memF) up arrived)
      connected' stream'
    rw [recvFramesAuto, recvFrames, auto, plain]
    simp only [Option.map_some, map_map]
    congr 2
    refine map_congr_left ?_
    intro c mem
    simp only [Function.comp, asV1, Except.map, Frame.header, v0 c mem]
  · intro c mem c' mem' size
    cases sends with
    | nil =>
      obtain rfl : recvs = [] := length_eq_zero_iff.1 count
      cases mem
    | cons s sends =>
      rw [flatMap_cons, append_assoc] at stream
      exact recv_same (recvsFair c mem) (recvsFair' c' mem') (v0 s mem_cons_self) connected' stream

/-- Blocks twice, then moves one to three bytes at a time. -/
def drip : Behaviour := fun i => if i < 2 then .wouldBlock else .moved (i % 3 + 1)

theorem drip_fair : Fair drip := by
  constructor
  · refine mild_of_early (k := 2) (by decide) ?_
    intro i late blocked
    rw [drip, if_neg (Nat.not_lt.2 late)] at blocked
    cases blocked
  · intro i
    by_cases early : i < 2
    · exact .inl (if_pos early)
    · exact .inr ⟨_,if_neg early⟩

def plainFrame : Frame := {
  stamp := none
  typeIndex := 7
  senderId := 9
  payload := [1, 2, 3]
  fits := by decide }

def stampedFrame : Frame := {
  stamp := some { seqNum := 5, timestampNs := 0x100000000 }
  typeIndex := 8
  senderId := 9
  payload := []
  fits := by decide }

def defaultConfig : TransportConfig := { maxFrameSize := 4096, fits := by decide }

theorem stream_round_trip_mixed :
    recvFramesAuto 4096 [⟨drip, drip, drip⟩, ⟨drip, drip, drip⟩] ⟨true, plainFrame.wire ++ stampedFrame.wire, []⟩ =
      some ([.ok (plainFrame.header, [1, 2, 3]), .ok (stampedFrame.header, [])], ⟨true, [], []⟩) := by
  have sendFair : ∀ c ∈ [SendCall.mk plainFrame drip drip, ⟨stampedFrame,drip,drip⟩], c.Fair := by
    simp only [mem_cons, not_mem_nil, or_false, forall_eq_or_imp, forall_eq]
    exact ⟨⟨drip_fair,drip_fair⟩,⟨drip_fair,drip_fair⟩⟩
  have recvFair : ∀ c ∈ [RecvCall.mk drip drip drip, ⟨drip,drip,drip⟩], c.Fair := by
    simp only [mem_cons, not_mem_nil, or_false, forall_eq_or_imp, forall_eq]
    exact ⟨⟨drip_fair,drip_fair,drip_fair⟩,⟨drip_fair,drip_fair,drip_fair⟩⟩
  exact (stream_round_trip defaultConfig _ _ _ 4096 ⟨true,[],[]⟩ ⟨true,plainFrame.wire ++ stampedFrame.wire,[]⟩ []
    sendFair recvFair recvFair (by decide) (by decide) rfl rfl rfl rfl (by decide)).2.1

end

end Newosp.Transport
