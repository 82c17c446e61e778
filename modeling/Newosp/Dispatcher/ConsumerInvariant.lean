import Newosp.Dispatcher.ConsumerSteps

/-!
# What the references and the masks have to do with each other

A set bit stands for a reference that was not dropped, in one place only: a slot or the hands of a cleanup. The bits of
a living consumer are in its own slot; a cleanup has those of the dead.
-/

namespace Newosp.Dispatcher.Consumers
open Lib Function
open Option (some.inj)

variable {ι ρ : Type}

/-- The slot that the consumer has. -/
def ConsumerPC.slot : ConsumerPC → Option Nat
  | .out | .registerCas _ => none
  | .registerClock i | .registerBeat i _ | .registerMask i | .idle i | .beat i _ | .trackHold i _ | .releaseLoad i _
  | .releaseCas i _ _ | .recycle i _ | .trackRelease i _ | .unregisterMask i | .unregisterBeat i
  | .unregisterActive i => some i

/-- The slot whose mask has the bits of the consumer. -/
def ConsumerPC.tracks : ConsumerPC → Option Nat
  | .idle i | .beat i _ | .trackHold i _ | .releaseLoad i _ | .releaseCas i _ _ | .recycle i _ | .trackRelease i _
  | .unregisterMask i => some i
  | _ => none

/-- The block whose reference is dropped with the bit still set. -/
def ConsumerPC.released : ConsumerPC → Option Nat
  | .recycle _ b | .trackRelease _ b => some b
  | _ => none

/-- The block that the call has a reference to. -/
def ConsumerPC.needs : ConsumerPC → Option Nat
  | .trackHold _ b | .releaseLoad _ b | .releaseCas _ b _ => some b
  | _ => none

/-- The bits that a cleanup has taken and not yet dropped. -/
def CleanupPC.hand : CleanupPC ι → Mask ι
  | .casActive _ mask | .recheck _ mask | .restore _ mask => mask
  | .release _ b mask | .releaseCas _ b mask _ => fun x => if b ≤ x then mask x else none
  | .recycle _ b mask => fun x => if b < x then mask x else none
  | _ => fun _ => none

/-- Where a bit is: in a slot, or in the hands of a cleanup. -/
inductive Place (ρ : Type)
  | slot (i : Nat)
  | hand (r : ρ)

/-- The bits in a place. -/
def State.bits (s : State ι ρ) : Place ρ → Mask ι
  | .slot i => (s.slot i).holdingMask
  | .hand r => (s.cleanup r).hand

/-- A bit is in one place, and stands for a reference that was granted and not dropped. -/
structure Inv (s : State ι ρ) : Prop where
  living : ∀ c b, s.alive c = true → s.drops c b + s.has c b + s.inbox c b ≤ s.grants c b
  dead : ∀ c b, s.alive c = false → s.drops c b ≤ s.grants c b
  needs : ∀ c b, s.alive c = true → (s.pc c).needs = some b → 0 < s.has c b
  unique : ∀ p q b c, s.bits p b = some c → s.bits q b = some c → p = q
  hand : ∀ r b c, (s.cleanup r).hand b = some c → s.alive c = false
  left : ∀ p b c, s.bits p b = some c → s.alive c = false → s.drops c b < s.grants c b
  tracked : ∀ i b c, (s.slot i).holdingMask b = some c → s.alive c = true →
    (s.pc c).tracks = some i ∧ (0 < s.has c b ∨ (s.pc c).released = some b)

section

variable {s : State ι ρ} {c : ι} {r : ρ}

theorem ConsumerPC.slot_of_tracks {pc : ConsumerPC} {i : Nat} (tracks : pc.tracks = some i) : pc.slot = some i := by
  cases pc <;> cases tracks <;> rfl

theorem Inv.drops_le (h : Inv s) (c : ι) (b : Nat) : s.drops c b ≤ s.grants c b := by
  cases life : s.alive c with
  | true =>
    have := h.living c b life
    omega
  | false => exact h.dead c b life

variable {slot : Nat → ConsumerSlot ι} {refcount : Nat → Nat} {taken : Nat → Bool} {pcs : ι → ConsumerPC}
  {inboxes held dropped : ι → Nat → Nat}

theorem Inv.consumer (h : Inv s) (me : s.alive c = true)
    (others : ∀ d, d ≠ c → pcs d = s.pc d ∧ held d = s.has d ∧ inboxes d = s.inbox d ∧ dropped d = s.drops d)
    (bits : ∀ i b d, (slot i).holdingMask b = some d → d = c ∨ (s.slot i).holdingMask b = some d)
    (living : ∀ b, dropped c b + held c b + inboxes c b ≤ s.grants c b)
    (needs : ∀ b, (pcs c).needs = some b → 0 < held c b) (tracked : ∀ i b, (slot i).holdingMask b = some c →
      (pcs c).tracks = some i ∧ (0 < held c b ∨ (pcs c).released = some b)) :
    Inv { s with slot, refcount, taken, pc := pcs, inbox := inboxes, has := held, drops := dropped } := by
  have old : ∀ p b d, d ≠ c → { s with slot }.bits p b = some d → s.bits p b = some d := by
    intro p b d ne set
    cases p with
    | slot i => exact (bits i b d set).resolve_left ne
    | hand r => exact set
  have mine : ∀ p b, { s with slot }.bits p b = some c → ∃ i, p = .slot i ∧ (pcs c).tracks = some i := by
    intro p b set
    cases p with
    | slot i => exact ⟨i,rfl,(tracked i b set).1⟩
    | hand r =>
      rw [h.hand r b c set] at me
      cases me
  have apart : ∀ {d}, s.alive d = false → d ≠ c := by
    rintro d life rfl
    rw [me] at life
    cases life
  constructor
  case living =>
    intro d b life
    by_cases same : d = c
    · rw [same]
      exact living b
    · obtain ⟨_,has,inbox,drops⟩ := others d same
      simp only [has, inbox, drops]
      exact h.living d b life
  case dead =>
    intro d b life
    simp only [(others d (apart life)).2.2.2]
    exact h.dead d b life
  case needs =>
    intro d b life need
    by_cases same : d = c
    · rw [same] at need ⊢
      exact needs b need
    · obtain ⟨pc,has,_,_⟩ := others d same
      simp only [pc] at need
      simp only [has]
      exact h.needs d b life need
  case unique =>
    intro p q b d one two
    by_cases same : d = c
    · rw [same] at one two
      obtain ⟨i,rfl,atI⟩ := mine p b one
      obtain ⟨j,rfl,atJ⟩ := mine q b two
      rw [atI] at atJ
      rw [some.inj atJ]
    · exact h.unique p q b d (old p b d same one) (old q b d same two)
  case hand => exact h.hand
  case left =>
    intro p b d set life
    simp only [(others d (apart life)).2.2.2]
    exact h.left p b d (old p b d (apart life) set) life
  case tracked =>
    intro i b d set life
    by_cases same : d = c
    · rw [same] at set ⊢
      exact tracked i b set
    · obtain ⟨pc,has,_,_⟩ := others d same
      simp only [pc, has]
      exact h.tracked i b d (old (.slot i) b d same set) life

end

section

variable {s s' : State ι ρ} {c : ι} {i b : Nat} {now pc : ConsumerPC} {f : ι → Nat → Nat}

theorem setActive_mask (active : Bool) (j : Nat) :
    ((s.setActive i active).slot j).holdingMask = (s.slot j).holdingMask := update_same ConsumerSlot.holdingMask (by rfl) j

theorem setBeat_mask (now j : Nat) : ((s.setBeat i now).slot j).holdingMask = (s.slot j).holdingMask :=
  update_same ConsumerSlot.holdingMask (by rfl) j

theorem setMask_mask (mask : Mask ι) (j : Nat) :
    ((s.setMask i mask).slot j).holdingMask = if j = i then mask else (s.slot j).holdingMask := by
  simp only [State.setMask, State.setSlot, update_apply]
  split <;> rfl

variable [DecidableEq ι]

section

variable (h : Inv s) (me : s.alive c = true)
include h me

theorem Inv.slots
    (frame : s' = { s with slot := s'.slot, taken := s'.taken, pc := update s.pc c pc })
    (bits : ∀ j b d, (s'.slot j).holdingMask b = some d → d = c ∨ (s.slot j).holdingMask b = some d)
    (needs : ∀ b, pc.needs = some b → 0 < s.has c b) (tracked : ∀ j b, (s'.slot j).holdingMask b = some c →
      pc.tracks = some j ∧ (0 < s.has c b ∨ pc.released = some b)) : Inv s' := by
  rw [frame]
  refine h.consumer (c := c) me ?others bits ?living ?needs ?tracked
  case others => exact fun d ne => ⟨update_of_ne ne ..,rfl,rfl,rfl⟩
  case living => exact fun b => h.living c b me
  case needs =>
    simp only [update_self]
    exact needs
  case tracked =>
    simp only [update_self]
    exact tracked

theorem Inv.walk (at_ : s.pc c = now)
    (frame : s' = { s with slot := s'.slot, taken := s'.taken, pc := update s.pc c pc })
    (masks : ∀ j, (s'.slot j).holdingMask = (s.slot j).holdingMask)
    (tracks : ∀ j, now.tracks = some j → pc.tracks = some j)
    (released : ∀ b, now.released = some b → pc.released = some b)
    (needs : ∀ b, pc.needs = some b → 0 < s.has c b) : Inv s' := by
  subst at_
  refine h.slots me frame ?bits needs ?tracked
  case bits =>
    intro j b d set
    rw [masks] at set
    exact .inr set
  case tracked =>
    intro j b set
    rw [masks] at set
    obtain ⟨at_,holds⟩ := h.tracked j b c set me
    exact ⟨tracks j at_,holds.imp_right (released b)⟩

theorem Inv.clear (at_ : s.pc c = now) (only : ∀ j, now.tracks = some j → j = i) (needs : pc.needs = none) :
    Inv ((s.setMask i fun _ => none).goto c pc) := by
  subst at_
  refine h.slots me rfl ?bits (by rw [needs]; exact nofun) ?tracked
  case bits =>
    intro j b d set
    rw [State.goto, setMask_mask] at set
    split at set
    · cases set
    · exact .inr set
  case tracked =>
    intro j b set
    rw [State.goto, setMask_mask] at set
    split at set
    · cases set
    · rename_i elsewhere
      exact absurd (only j (h.tracked j b c set me).1) elsewhere

theorem Inv.trackHold (at_ : s.pc c = .trackHold i b) :
    Inv ((s.setMask i (update (s.slot i).holdingMask b (some c))).goto c (.idle i)) := by
  refine h.slots me rfl ?bits nofun ?tracked
  case bits =>
    intro j x d set
    rw [State.goto, setMask_mask] at set
    split at set
    · rename_i here
      by_cases same : x = b
      · rw [same, update_self] at set
        exact .inl (some.inj set).symm
      · rw [update_of_ne same] at set
        exact .inr (here ▸ set)
    · exact .inr set
  case tracked =>
    intro j x set
    have holds : 0 < s.has c b := h.needs c b me (by rw [at_]; rfl)
    have before : ∀ {j x}, (s.slot j).holdingMask x = some c → j = i ∧ 0 < s.has c x := by
      intro j x set
      obtain ⟨tracks,some_⟩ := h.tracked j x c set me
      rw [at_] at tracks some_
      exact ⟨(some.inj tracks).symm,some_.resolve_right nofun⟩
    rw [State.goto, setMask_mask] at set
    split at set
    · rename_i here
      rw [here]
      refine ⟨rfl,.inl ?_⟩
      by_cases same : x = b
      · rw [same]
        exact holds
      · rw [update_of_ne same] at set
        exact (before set).2
    · obtain ⟨here,some_⟩ := before set
      rw [here]
      exact ⟨rfl,.inl some_⟩

end

theorem update2_self (f : ι → Nat → Nat) (c : ι) (b n : Nat) : update2 f c b n c b = n := by
  simp only [update2, update_self]

theorem update2_of_ne {d : ι} {n : Nat} (ne : d ≠ c) : update2 f c b n d = f d := update_of_ne ne ..

theorem update2_block {x n : Nat} (ne : x ≠ b) : update2 f c b n c x = f c x := by
  simp only [update2, update_self, update_of_ne ne]

section

variable (h : Inv s) (me : s.alive c = true)
include h me

theorem Inv.trackRelease (at_ : s.pc c = .trackRelease i b) :
    Inv ((s.setMask i (update (s.slot i).holdingMask b none)).goto c (.idle i)) := by
  -- the bits that are left, and what they stand for
  have before : ∀ j x d, ((s.setMask i (update (s.slot i).holdingMask b none)).slot j).holdingMask x = some d →
      (s.slot j).holdingMask x = some d ∧ ¬ (j = i ∧ x = b) := by
    intro j x d set
    rw [setMask_mask] at set
    split at set
    · rename_i here
      by_cases same : x = b
      · rw [same, update_self] at set
        cases set
      · rw [update_of_ne same] at set
        exact ⟨here ▸ set,fun both => same both.2⟩
    · rename_i elsewhere
      exact ⟨set,fun both => elsewhere both.1⟩
  refine h.slots me rfl (fun j x d set => .inr (before j x d set).1) nofun ?_
  intro j x set
  obtain ⟨old,other⟩ := before j x c set
  obtain ⟨tracks,holds⟩ := h.tracked j x c old me
  rw [at_] at tracks holds
  have here : j = i := (some.inj tracks).symm
  refine ⟨here ▸ rfl,.inl (holds.resolve_right ?_)⟩
  intro released
  exact other ⟨here,(some.inj released).symm⟩

theorem Inv.letGo (need : (s.pc c).needs = some b) (frame : s' = { s with
      refcount := s'.refcount
      drops := s'.drops
      has := update2 s.has c b (s.has c b - 1)
      pc := update s.pc c pc })
    (drops : s'.drops = s.drops ∨ s'.drops = update2 s.drops c b (s.drops c b + 1))
    (tracks : pc.tracks = (s.pc c).tracks) (released : pc.released = some b) (noNeed : pc.needs = none) : Inv s' := by
  have some_ : 0 < s.has c b := h.needs c b me need
  have unreleased : (s.pc c).released = none := by
    cases at_ : s.pc c <;> rw [at_] at need <;> cases need <;> rfl
  rw [frame]
  refine h.consumer (c := c) me ?others ?bits ?living ?needs ?tracked
  case others =>
    intro d ne
    refine ⟨update_of_ne ne ..,update2_of_ne ne,rfl,?_⟩
    rcases drops with eq | eq <;> simp only [eq]
    exact update2_of_ne ne
  case bits => exact fun j x d set => .inr set
  case living =>
    intro x
    have before := h.living c x me
    by_cases same : x = b
    · rw [same] at before ⊢
      rcases drops with eq | eq <;> simp only [eq, update2_self] <;> omega
    · rcases drops with eq | eq <;> simp only [eq, update2_block same] <;> exact before
  case needs =>
    intro x eq
    simp only [update_self, noNeed, reduceCtorEq] at eq
  case tracked =>
    intro j x set
    obtain ⟨at_,holds⟩ := h.tracked j x c set me
    rw [unreleased] at holds
    simp only [update_self, tracks, released]
    refine ⟨at_,?_⟩
    by_cases same : x = b
    · exact .inr (congrArg some same.symm)
    · rw [update2_block same]
      exact .inl (holds.resolve_right nofun)

theorem Inv.take (at_ : s.pc c = .idle i) (given : 0 < s.inbox c b) :
    Inv ({ s with
      inbox := update2 s.inbox c b (s.inbox c b - 1)
      has := update2 s.has c b (s.has c b + 1) }.goto c (.trackHold i b)) := by
  refine h.consumer (c := c) me ?others ?bits ?living ?needs ?tracked
  case others => exact fun d ne => ⟨update_of_ne ne ..,update2_of_ne ne,update2_of_ne ne,rfl⟩
  case bits => exact fun j x d set => .inr set
  case living =>
    intro x
    have before := h.living c x me
    by_cases same : x = b
    · rw [same] at before
      simp only [same, update2_self]
      omega
    · simp only [update2_block same]
      exact before
  case needs =>
    intro x need
    rw [update_self] at need
    cases need
    simp only [update2_self]
    omega
  case tracked =>
    intro j x set
    obtain ⟨tracks,holds⟩ := h.tracked j x c set me
    rw [at_] at tracks holds
    have some_ : 0 < s.has c x := holds.resolve_right nofun
    rw [update_self]
    refine ⟨tracks,.inl ?_⟩
    by_cases same : x = b
    · simp only [same, update2_self]
      omega
    · simp only [update2_block same]
      exact some_

theorem Inv.goto (at_ : s.pc c = now) (tracks : ∀ j, now.tracks = some j → pc.tracks = some j)
    (released : ∀ b, now.released = some b → pc.released = some b)
    (needs : ∀ b, pc.needs = some b → 0 < s.has c b) : Inv (s.goto c pc) :=
  h.walk me at_ rfl (fun _ => rfl) tracks released needs

theorem Inv.registerAt (l : Layout) (j : Nat) (at_ : s.pc c = now)
    (tracks : now.tracks = none) (released : now.released = none) : Inv (s.registerAt l c j) := by
  unfold State.registerAt
  split <;> exact h.goto me at_ (by rw [tracks]; exact nofun) (by rw [released]; exact nofun) nofun

theorem Inv.consumerStep {l : Layout} {spurious : Bool} (step : consumerNext l c spurious s = some s') : Inv s' := by
  unfold consumerNext at step
  cases at_ : s.pc c <;> simp only [at_, Option.some.injEq, reduceCtorEq] at step
  case registerCas i =>
    split at step
    · exact some.inj step ▸ h.walk me at_ rfl (setActive_mask true) nofun nofun nofun
    · exact some.inj step ▸ h.registerAt me l (i + 1) at_ rfl rfl
  case registerClock i =>
    exact step ▸ h.goto me at_ nofun nofun nofun
  case registerBeat i now =>
    exact step ▸ h.walk me at_ rfl (setBeat_mask now) nofun nofun nofun
  case registerMask i =>
    exact step ▸ h.clear me at_ nofun rfl
  case beat i now =>
    exact step ▸ h.walk me at_ rfl (setBeat_mask now) (fun _ => id) nofun nofun
  case trackHold i b =>
    exact step ▸ h.trackHold me at_
  case releaseLoad i b =>
    have need : (s.pc c).needs = some b := by rw [at_]; rfl
    split at step
    · refine some.inj step ▸ h.goto me at_ (fun _ => id) nofun ?_
      intro x eq
      exact h.needs c x me (need.trans eq)
    · exact some.inj step ▸ h.letGo me need rfl (.inl rfl) (by rw [at_]; rfl) rfl rfl
  case releaseCas i b cur =>
    have need : (s.pc c).needs = some b := by rw [at_]; rfl
    split at step
    · split at step
      · exact some.inj step ▸ h.letGo me need rfl (.inr rfl) (by rw [at_]; rfl) rfl rfl
      · exact some.inj step ▸ h.letGo me need rfl (.inr rfl) (by rw [at_]; rfl) rfl rfl
    · split at step
      · refine some.inj step ▸ h.goto me at_ (fun _ => id) nofun ?_
        intro x eq
        exact h.needs c x me (need.trans eq)
      · exact some.inj step ▸ h.letGo me need rfl (.inl rfl) (by rw [at_]; rfl) rfl rfl
  case recycle i b =>
    exact step ▸ h.walk me at_ rfl (fun _ => rfl) (fun _ => id) (fun _ => id) nofun
  case trackRelease i b =>
    exact step ▸ h.trackRelease me at_
  case unregisterMask i =>
    exact step ▸ h.clear me at_ (fun _ eq => (some.inj eq).symm) rfl
  case unregisterBeat i =>
    exact step ▸ h.walk me at_ rfl (setBeat_mask 0) nofun nofun nofun
  case unregisterActive i =>
    exact step ▸ h.walk me at_ rfl (setActive_mask false) nofun nofun nofun

end

end

end Newosp.Dispatcher.Consumers
