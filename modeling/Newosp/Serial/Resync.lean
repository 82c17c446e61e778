import Newosp.Serial.RoundTrip

/-!
# Back to the next frame

After any garbage the receiver may stand inside a frame that the noise has announced. Each byte then ends this frame or
lengthens what is collected, less than `frame_max_size` bytes. Between two frames it looks for a sync word only.
-/

namespace Newosp.Serial
open Lib List

variable {cfg : SerialConfig} {r : Receiver}

section

variable {stream : List UInt8} {r' : Receiver} {byte : UInt8}

/-- What a byte that begins no sync word does: the receiver is idle after it, with at most one delivery, or it has one
byte more. -/
def Goes (r r' : Receiver) : Prop :=
  (r'.rxState = .idle ∧ (r'.delivered = r.delivered ∨ r.rxState ≠ .idle ∧ ∃ d, r'.delivered = r.delivered ++ [d])) ∨
    r.rxState ≠ .idle ∧ r'.rxPos = r.rxPos + 1 ∧ r'.delivered = r.delivered

theorem handleAckFrame_delivered (r : Receiver) : (handleAckFrame r).delivered = r.delivered := by
  unfold handleAckFrame
  split <;> rfl

theorem parseHeader_goes (step : parseHeader cfg r = some r') :
    r'.delivered = r.delivered ∧ (r'.rxState = .idle ∨ r'.rxPos = r.rxPos) := by
  unfold parseHeader at step
  split at step
  · cases step
    exact ⟨rfl,.inl rfl⟩
  · dsimp only at step
    split at step
    · cases step
      exact ⟨rfl,.inl rfl⟩
    · obtain ⟨n,-,rfl⟩ := Option.map_eq_some_iff.1 step
      exact ⟨rfl,.inr rfl⟩

theorem validateAndDeliver_goes (step : validateAndDeliver cfg r = some r') :
    r'.rxState = .idle ∧ (r'.delivered = r.delivered ∨ ∃ d, r'.delivered = r.delivered ++ [d]) := by
  simp only [validateAndDeliver, Option.bind_eq_bind, Option.bind_eq_some_iff, Option.pure_def] at step
  obtain ⟨-,-,step⟩ := step
  split at step
  · cases step
    exact ⟨rfl,.inl rfl⟩
  · obtain ⟨n,-,step⟩ := Option.bind_eq_some_iff.1 step
    split at step
    · cases step
      exact ⟨rfl,.inl rfl⟩
    · obtain ⟨-,-,⟨⟩⟩ := Option.bind_eq_some_iff.1 step
      exact ⟨rfl,.inr ⟨_,rfl⟩⟩

theorem feedByte_goes (inside : r.rxPos < cfg.maxFrameSize) (quiet : byte ≠ kSerialSyncByte1)
    (step : feedByte cfg r byte = some r') : Goes r r' := by
  have collected : r.collect cfg byte = some (r.grown byte) := Receiver.collect_eq inside byte
  unfold feedByte at step
  cases state : r.rxState <;> simp only [state, collected, if_neg quiet, Option.map_some, Option.bind_eq_bind,
    Option.bind_some, Option.pure_def] at step
  case idle =>
    cases step
    exact .inl ⟨state,.inl rfl⟩
  case waitSync2 =>
    split at step <;> cases step
    · exact .inr ⟨by rw [state]; nofun,rfl,rfl⟩
    · exact .inl ⟨rfl,.inl rfl⟩
  case waitHeader =>
    split at step
    · cases step
      exact .inl ⟨rfl,.inl (handleAckFrame_delivered _)⟩
    · split at step
      · obtain ⟨same,idle | grown⟩ := parseHeader_goes step
        · exact .inl ⟨idle,.inl same⟩
        · exact .inr ⟨by rw [state]; nofun,grown,same⟩
      · cases step
        exact .inr ⟨by rw [state]; nofun,rfl,rfl⟩
  case waitPayload =>
    obtain ⟨n,-,step⟩ := Option.bind_eq_some_iff.1 step
    split at step <;> cases step <;> exact .inr ⟨by rw [state]; nofun,rfl,rfl⟩
  case waitCrc =>
    split at step
    · obtain ⟨idle,same | delivers⟩ := validateAndDeliver_goes step
      · exact .inl ⟨idle,.inl same⟩
      · exact .inl ⟨idle,.inr ⟨by rw [state]; nofun,delivers⟩⟩
    · cases step
      exact .inr ⟨by rw [state]; nofun,rfl,rfl⟩

theorem receiveByte_goes (inside : r.rxPos < cfg.maxFrameSize) (quiet : byte ≠ kSerialSyncByte1) {now : Nat}
    (step : receiveByte cfg now r byte = some r') : Goes r r' := by
  unfold receiveByte at step
  dsimp only at step
  split at step
  · rcases feedByte_goes (by exact Nat.lt_of_le_of_lt (Nat.zero_le _) inside) quiet step with
      ⟨idle,same | ⟨busy,-⟩⟩ | ⟨busy,-⟩
    · exact .inl ⟨idle,.inl same⟩
    · exact absurd rfl busy
    · exact absurd rfl busy
  · exact feedByte_goes (r := { r with lastByteTimeMs := now }) inside quiet step

theorem quiet_run (least : 13 ≤ cfg.frameMaxSize) (small : cfg.frameMaxSize ≤ cfg.maxFrameSize)
    (bytes : List (Nat × UInt8)) : ∀ {stream r}, Inv cfg stream r → (∀ b ∈ bytes, b.2 ≠ kSerialSyncByte1) →
      (r.rxState = .idle ∨ cfg.frameMaxSize ≤ r.rxPos + bytes.length) → ∃ r' ds, receiveTimed cfg bytes r = some r' ∧
        r'.rxState = .idle ∧ r'.delivered = r.delivered ++ ds ∧ ds.length ≤ 1 ∧ (r.rxState = .idle → ds = []) := by
  induction bytes with
  | nil =>
    intro stream r h _ enough
    have idle : r.rxState = .idle := enough.resolve_right (Nat.not_le.2 (h.below least le_rfl))
    exact ⟨r,[],rfl,idle,(append_nil _).symm,Nat.zero_le _,fun _ => rfl⟩
  | cons byte bytes ih =>
    intro stream r h quiet enough
    obtain ⟨r₁,step,h₁⟩ := h.receiveByte small byte.1 byte.2
    have rest := fun b member => quiet b (mem_cons_of_mem _ member)
    have goes := receiveByte_goes (h.inside small) (quiet byte mem_cons_self) step
    rw [receiveTimed, step, Option.bind_some]
    rcases goes with ⟨idle,delivers⟩ | ⟨busy,grown,same⟩
    · obtain ⟨r',ds,run,idle',eq,-,none_⟩ := ih h₁ rest (.inl idle)
      rw [none_ idle, append_nil] at eq
      rcases delivers with same | ⟨busy,d,more⟩
      · exact ⟨r',[],run,idle',by rw [eq, same, append_nil],Nat.zero_le _,fun _ => rfl⟩
      · exact ⟨r',[d],run,idle',eq.trans more,le_rfl,fun idle => absurd idle busy⟩
    · obtain ⟨r',ds,run,idle',eq,few,-⟩ := ih h₁ rest (.inr (by
        have := enough.resolve_left busy
        rw [length_cons] at this
        omega))
      exact ⟨r',ds,run,idle',by rw [eq, same],few,fun idle => absurd idle busy⟩

end

section

variable {d : Delivery}

def Receiver.Searching (r : Receiver) : Prop := r.rxState = .idle ∨ r.rxState = .waitSync2

theorem Receiver.Searching.step (h : r.Searching) (cfg : SerialConfig) (now : Nat) {byte : UInt8}
    (other : r.rxState = .waitSync2 → byte ≠ kSerialSyncByte2) : ∃ r', receiveByte cfg now r byte = some r' ∧
      r'.delivered = r.delivered ∧ r'.lastByteTimeMs = now ∧
      if byte = kSerialSyncByte1 then r'.rxState = .waitSync2 ∧ r'.rxPos = 1 ∧ r'.rxBuf 0 = byte
      else r'.rxState = .idle := by
  have feed : ∀ {r : Receiver}, r.Searching → (r.rxState = .waitSync2 → byte ≠ kSerialSyncByte2) →
      ∃ r', feedByte cfg r byte = some r' ∧ r'.delivered = r.delivered ∧ r'.lastByteTimeMs = r.lastByteTimeMs ∧
      if byte = kSerialSyncByte1 then r'.rxState = .waitSync2 ∧ r'.rxPos = 1 ∧ r'.rxBuf 0 = byte
      else r'.rxState = .idle := by
    intro r h other
    unfold feedByte
    rcases h with state | state <;> simp only [state, Receiver.begin_eq]
    · split
      · exact ⟨_,rfl,rfl,rfl,rfl,rfl,rfl⟩
      · exact ⟨_,rfl,rfl,rfl,state⟩
    · rw [if_neg (other state)]
      split
      · exact ⟨_,rfl,rfl,rfl,rfl,rfl,rfl⟩
      · exact ⟨_,rfl,rfl,rfl,rfl⟩
  unfold receiveByte
  dsimp only
  split
  · exact feed (r := { r.timeoutError.reset with lastByteTimeMs := now }) (.inl rfl) nofun
  · exact feed (r := { r with lastByteTimeMs := now }) h other

theorem noise_run (cfg : SerialConfig) (noise : List (Nat × UInt8)) : ∀ {r : Receiver},
    (r.rxState = .idle ∧ ¬ [kSerialSyncByte1, kSerialSyncByte2] <:+: noise.map Prod.snd ∨
      r.rxState = .waitSync2 ∧ ¬ [kSerialSyncByte1, kSerialSyncByte2] <:+: kSerialSyncByte1 :: noise.map Prod.snd) →
    ∃ r', receiveTimed cfg noise r = some r' ∧ r'.Searching ∧ r'.delivered = r.delivered := by
  induction noise with
  | nil => exact fun {r} h => ⟨r,rfl,h.imp And.left And.left,rfl⟩
  | cons byte noise ih =>
    intro r h
    rw [map_cons] at h
    have other : r.rxState = .waitSync2 → byte.2 ≠ kSerialSyncByte2 := by
      intro state same
      rcases h with ⟨idle,-⟩ | ⟨-,clean⟩
      · rw [idle] at state
        cases state
      · rw [same] at clean
        exact clean (prefix_append [_, _] _).isInfix
    have clean : ¬ [kSerialSyncByte1, kSerialSyncByte2] <:+: byte.2 :: noise.map Prod.snd := by
      rcases h with ⟨-,clean⟩ | ⟨-,clean⟩
      · exact clean
      · exact fun found => clean (infix_cons found)
    obtain ⟨r₁,step,same,-,next⟩ := Receiver.Searching.step (h.imp And.left And.left) cfg byte.1 other
    obtain ⟨r',run,searching,eq⟩ := ih (r := r₁) (by
      split at next
      · rename_i sync
        rw [sync] at clean
        exact .inr ⟨next.1,clean⟩
      · exact .inl ⟨next,fun found => clean (infix_cons found)⟩)
    exact ⟨r',by rw [receiveTimed, step]; exact run,searching,eq.trans same⟩

theorem frame_after_noise (h : r.Searching) {f : List (Nat × UInt8)} (ok : WellFormed cfg.frameMaxSize (f.map Prod.snd) d)
    (small : cfg.frameMaxSize ≤ cfg.maxFrameSize) (inTime : ∀ b ∈ f.head?, InTime cfg b.1 f.tail) :
    ∃ r', receiveTimed cfg f r = some r' ∧ r'.rxState = .idle ∧ r'.delivered = r.delivered ++ [d] := by
  have size := ok.length_eq
  have sync := ok.sync
  cases f with
  | nil => cases sync
  | cons byte f =>
    rw [map_cons, length_cons] at size
    have first : byte.2 = kSerialSyncByte1 := by
      rw [map_cons, take_succ_cons] at sync
      exact (cons.inj sync).1
    obtain ⟨r₁,step,same,time,next⟩ := h.step cfg byte.1 fun _ => show byte.2 ≠ _ by rw [first]; decide
    rw [if_pos first] at next
    obtain ⟨state,pos,stored⟩ := next
    have begun : At ((byte :: f).map Prod.snd) 1 r₁ r₁ := {
      state := state
      pos := pos
      bytes := by rw [map_cons, take_succ_cons, take_zero, ← stored]; rfl
      core := rfl
      sizes := fun le => absurd le (by decide) }
    obtain ⟨r',run,at_⟩ := At.run (fun h here => h.frame_step ok small here) begun
      (by rw [map_cons, length_cons]; omega) rfl (time ▸ inTime byte rfl)
    have core := at_.core
    simp only [Receiver.core, Prod.mk.injEq] at core
    refine ⟨r',by rw [receiveTimed, step]; exact run,at_.state,core.2.2.1.trans ?_⟩
    rw [← same]
    rfl

end

/-- **The receiver resynchronises.** `frame_max_size` bytes that begin no sync word make it idle, with at most one
delivery; from there noise without a sync word and then a well-formed frame in time lead to the delivery of that frame
and no other. -/
theorem receiver_resynchronises (least : kSerialMinFrameSize ≤ cfg.frameMaxSize)
    (small : cfg.frameMaxSize ≤ cfg.maxFrameSize) (rxBuf : Nat → UInt8) (events : List Event) :
    ∃ r, Event.run cfg events (newReceiver rxBuf) = some r ∧
      (∀ bytes, bytes.length = cfg.frameMaxSize → (∀ b ∈ bytes, b.2 ≠ kSerialSyncByte1) →
        ∃ r' ds, receiveTimed cfg bytes r = some r' ∧ r'.rxState = .idle ∧ r'.delivered = r.delivered ++ ds ∧
          ds.length ≤ 1) ∧
      (r.rxState = .idle → ∀ noise f d, ¬ [kSerialSyncByte1, kSerialSyncByte2] <:+: noise.map Prod.snd →
        WellFormed cfg.frameMaxSize (f.map Prod.snd) d → (∀ b ∈ f.head?, InTime cfg b.1 f.tail) →
        ∃ r', receiveTimed cfg (noise ++ f) r = some r' ∧ r'.rxState = .idle ∧ r'.delivered = r.delivered ++ [d]) := by
  obtain ⟨r,run,inv⟩ := run_inv small rxBuf events
  refine ⟨r,run,?_,?_⟩
  · intro bytes length quiet
    obtain ⟨r',ds,run,idle,eq,few,-⟩ := quiet_run least small bytes inv quiet (.inr (by omega))
    exact ⟨r',ds,run,idle,eq,few⟩
  · intro idle noise f d clean ok inTime
    obtain ⟨r₁,search,searching,same⟩ := noise_run cfg noise (.inl ⟨idle,clean⟩)
    obtain ⟨r',run,idle',eq⟩ := frame_after_noise searching ok small inTime
    refine ⟨r',?_,idle',by rw [eq, same]⟩
    rw [receiveTimed_append, search]
    exact run

/-- A frame whose payload is a sync word, right after noise that ends in the first byte of one. -/
theorem receiver_resynchronises_overlap : ∃ r', receiveTimed smallConfig
      ([(5, 0x55), (6, 0xAA)] ++ (frameBytes 14 3 7 [0xAA, 0x55]).map fun b => (90, b)) (newReceiver fun _ => 0) =
        some r' ∧ r'.rxState = .idle ∧ r'.delivered = [⟨[0xAA, 0x55], 7, 3⟩] := by
  obtain ⟨r,run,-,frames⟩ := @receiver_resynchronises smallConfig (by decide) (by decide) (fun _ => 0) []
  cases run
  refine frames rfl _ _ _ (by decide) ?_ (by decide +kernel)
  rw [map_map]
  exact (List.map_id _).symm ▸ @wellFormed_frameBytes smallConfig [0xAA, 0x55] (by decide) (by decide) 3 7

end Newosp.Serial
