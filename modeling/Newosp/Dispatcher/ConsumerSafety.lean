import Mathlib.Data.Fintype.Basic
import Newosp.Dispatcher.ConsumerInvariant

/-!
# When the cleanup drops only what is left behind

The cleanup works on a slot: whoever sits in it when the mask is exchanged loses its references. And the mask is behind
the counts between a `Release` and its `TrackBlockRelease`. `orderly` excludes both.
-/

namespace Newosp.Dispatcher.Consumers
open Lib Function
open Option (some.inj)

variable {ι ρ : Type} {spurious : Bool}

/-- A cleanup exchanges the mask of a slot only when no living consumer is in it, and a consumer does not die between
`Release` and `TrackBlockRelease`. -/
def orderly (s : State ι ρ) : Act ι ρ → Prop
  | .cleanup r _ => ∀ i active, s.cleanup r = .exchange i active → ∀ c, s.alive c = true → (s.pc c).slot ≠ some i
  | .die c => (s.pc c).released = none
  | _ => True

section

variable {s s' : State ι ρ} {r : ρ} {i b : Nat} {pc : CleanupPC ι} {mask : Mask ι}
  {slot : Nat → ConsumerSlot ι} {refcount : Nat → Nat} {blocks : Nat → Bool} {cleanup : ρ → CleanupPC ι}
  {dropped : ι → Nat → Nat}

theorem Inv.cleans (h : Inv s) (dest : Place ρ → Place ρ)
    (moves : ∀ p b d, { s with slot, cleanup }.bits p b = some d → ∃ q, s.bits q b = some d ∧ dest q = p)
    (slots : ∀ i j, dest (.slot j) = .slot i → j = i)
    (taken : ∀ q r b d, s.bits q b = some d → dest q = .hand r → s.alive d = false)
    (drops : ∀ d b, dropped d b = s.drops d b ∨
      s.alive d = false ∧ dropped d b ≤ s.grants d b ∧ ∀ p, { s with slot, cleanup }.bits p b ≠ some d) :
    Inv { s with slot, refcount, taken := blocks, cleanup, drops := dropped } := by
  constructor
  case living =>
    intro d b life
    rcases drops d b with same | ⟨gone,_⟩
    · simp only [same]
      exact h.living d b life
    · rw [gone] at life
      cases life
  case dead =>
    intro d b life
    rcases drops d b with same | ⟨_,most,_⟩
    · simp only [same]
      exact h.dead d b life
    · exact most
  case needs => exact h.needs
  case unique =>
    intro p q b d one two
    obtain ⟨from_,set,rfl⟩ := moves p b d one
    obtain ⟨other,set',rfl⟩ := moves q b d two
    rw [h.unique _ _ b d set set']
  case hand =>
    intro r b d set
    obtain ⟨q,old,goes⟩ := moves (.hand r) b d set
    exact taken q r b d old goes
  case left =>
    intro p b d set life
    obtain ⟨q,old,_⟩ := moves p b d set
    rcases drops d b with same | ⟨_,_,gone⟩
    · simp only [same]
      exact h.left q b d old life
    · exact absurd set (gone p)
  case tracked =>
    intro i b d set life
    obtain ⟨q,old,goes⟩ := moves (.slot i) b d set
    cases q with
    | slot j =>
      cases slots i j goes
      exact h.tracked i b d old life
    | hand r =>
      cases (h.hand r b d old).symm.trans life

theorem hand_pass {x : Nat} {d : ι} (set : (CleanupPC.release i (b + 1) mask).hand x = some d) :
    (CleanupPC.release i b mask).hand x = some d := by
  simp only [CleanupPC.hand] at set ⊢
  obtain ⟨later,set⟩ := enabled set
  rw [if_pos (by omega)]
  exact set

theorem hand_whole (mask : Mask ι) : (CleanupPC.release i 0 mask).hand = mask := by
  funext x
  simp only [CleanupPC.hand, Nat.zero_le, if_true]

variable [DecidableEq ρ]

/-- Where a bit is after the exchange of a mask. -/
def Place.taken (i : Nat) (r : ρ) : Place ρ → Place ρ
  | .slot j => if j = i then .hand r else .slot j
  | .hand q => .hand q

theorem Inv.exchange (h : Inv s) (quiet : ∀ c, s.alive c = true → (s.pc c).slot ≠ some i)
    (hand : pc.hand = (s.slot i).holdingMask) : Inv ((s.setMask i fun _ => none).cleanTo r pc) := by
  have took : ∀ b d, (s.slot i).holdingMask b = some d → s.alive d = false := by
    intro b d set
    cases life : s.alive d with
    | false => rfl
    | true => exact absurd (ConsumerPC.slot_of_tracks (h.tracked i b d set life).1) (quiet d life)
  refine h.cleans (Place.taken i r) ?moves ?slots ?taken ?drops
  case moves =>
    intro p b d set
    cases p with
    | slot j =>
      simp only [State.bits] at set
      rw [setMask_mask] at set
      split at set
      · cases set
      · rename_i elsewhere
        exact ⟨.slot j,set,if_neg elsewhere⟩
    | hand q =>
      simp only [State.bits] at set
      by_cases same : q = r
      · rw [same, update_self, hand] at set
        exact ⟨.slot i,set,by rw [same]; exact if_pos rfl⟩
      · rw [update_of_ne same] at set
        exact ⟨.hand q,set,rfl⟩
  case slots =>
    intro j k eq
    simp only [Place.taken] at eq
    split at eq
    · cases eq
    · exact Place.slot.inj eq
  case taken =>
    intro q r' b d set eq
    cases q with
    | slot j =>
      simp only [Place.taken] at eq
      split at eq
      · rename_i here
        rw [here] at set
        exact took b d set
      · cases eq
    | hand q => exact h.hand q b d set
  case drops => exact fun d b => .inl rfl

def Place.restored (i : Nat) (r : ρ) : Place ρ → Place ρ
  | .slot j => .slot j
  | .hand q => if q = r then .slot i else .hand q

section

variable (h : Inv s)
include h

theorem Inv.restore (holds : (s.cleanup r).hand = mask) (empty : ∀ b, pc.hand b = none) :
    Inv ((s.setMask i fun b => (s.slot i).holdingMask b <|> mask b).cleanTo r pc) := by
  refine h.cleans (Place.restored i r) ?moves ?slots ?taken ?drops
  case moves =>
    intro p b d set
    cases p with
    | slot j =>
      simp only [State.bits] at set
      rw [setMask_mask] at set
      split at set
      · rename_i here
        rw [here]
        cases old : (s.slot i).holdingMask b with
        | some e =>
          simp only [old] at set
          exact ⟨.slot i,old.trans set,rfl⟩
        | none =>
          simp only [old] at set
          exact ⟨.hand r,(congrFun holds b).trans set,if_pos rfl⟩
      · exact ⟨.slot j,set,rfl⟩
    | hand q =>
      simp only [State.bits] at set
      by_cases same : q = r
      · rw [same, update_self, empty b] at set
        cases set
      · rw [update_of_ne same] at set
        exact ⟨.hand q,set,if_neg same⟩
  case slots => exact fun j k eq => Place.slot.inj eq
  case taken =>
    intro q r' b d set eq
    cases q with
    | slot j => cases eq
    | hand q => exact h.hand q b d set
  case drops => exact fun d b => .inl rfl

variable [DecidableEq ι]

theorem Inv.cleanWalk (masks : ∀ j, (slot j).holdingMask = (s.slot j).holdingMask)
    (fewer : ∀ b d, pc.hand b = some d → (s.cleanup r).hand b = some d)
    (drops : dropped = s.drops ∨ ∃ c b, (s.cleanup r).hand b = some c ∧ pc.hand b = none ∧
      dropped = update2 s.drops c b (s.drops c b + 1)) :
    Inv ({ s with slot, refcount, taken := blocks, drops := dropped }.cleanTo r pc) := by
  have old : ∀ p b d, { s with slot, cleanup := update s.cleanup r pc }.bits p b = some d → s.bits p b = some d := by
    intro p b d set
    cases p with
    | slot i =>
      simp only [State.bits, masks] at set
      exact set
    | hand q =>
      simp only [State.bits] at set
      by_cases same : q = r
      · rw [same, update_self] at set
        rw [same]
        exact fewer b d set
      · rw [update_of_ne same] at set
        exact set
  apply h.cleans id
  case moves => exact fun p b d set => ⟨p,old p b d set,rfl⟩
  case slots => exact fun i j eq => Place.slot.inj eq
  case taken =>
    intro q r' b d set eq
    cases eq
    exact h.hand r' b d set
  case drops =>
    intro d x
    rcases drops with same | ⟨c,b,holds,lost,eq⟩
    · exact .inl (congrFun (congrFun same d) x)
    · simp only [eq]
      by_cases here : d = c ∧ x = b
      · obtain ⟨rfl,rfl⟩ := here
        have gone := h.hand r x d holds
        have less := h.left (.hand r) x d holds gone
        refine .inr ⟨gone,?_,?_⟩
        · rw [update2_self]
          exact less
        · intro p set
          -- the bit was in the hands of this cleanup and nowhere else, and there it is no more
          rw [h.unique p (.hand r) x d (old p x d set) holds] at set
          simp only [State.bits, update_self, lost] at set
          cases set
      · left
        by_cases same : d = c
        · rw [same, update2_block fun at_ => here ⟨same,at_⟩]
        · rw [update2_of_ne same]

theorem Inv.cleanTo {now : CleanupPC ι} (at_ : s.cleanup r = now)
    (fewer : ∀ b d, pc.hand b = some d → now.hand b = some d) : Inv (s.cleanTo r pc) :=
  h.cleanWalk (fun _ => rfl) (at_ ▸ fewer) (.inl rfl)

theorem Inv.cleanupAt (l : Layout) (j : Nat) : Inv (s.cleanupAt l r j) := by
  unfold State.cleanupAt
  split <;> exact h.cleanTo rfl nofun

theorem Inv.dropFor {cur : Nat} (at_ : s.cleanup r = .releaseCas i b mask cur)
    (fewer : ∀ x d, pc.hand x = some d → (CleanupPC.release i b mask).hand x = some d) (lost : pc.hand b = none) :
    Inv ((match mask b with
      | some c => (s.setRefcount b (cur - 1)).drop c b
      | none => s.setRefcount b (cur - 1)).cleanTo r pc) := by
  have hand : (s.cleanup r).hand = (CleanupPC.release i b mask).hand := by rw [at_]; rfl
  cases set : mask b with
  | some c =>
    refine h.cleanWalk (fun _ => rfl) (by rw [hand]; exact fewer) (.inr ⟨c,b,?_,lost,rfl⟩)
    rw [hand]
    exact (if_pos (le_refl b)).trans set
  | none => exact h.cleanWalk (fun _ => rfl) (by rw [hand]; exact fewer) (.inl rfl)

theorem Inv.cleanupStep {l : Layout}
    (quiet : ∀ i active, s.cleanup r = .exchange i active → ∀ c, s.alive c = true → (s.pc c).slot ≠ some i)
    (step : cleanupNext l r spurious s = some s') : Inv s' := by
  unfold cleanupNext at step
  cases at_ : s.cleanup r <;> simp only [at_, Option.some.injEq, reduceCtorEq] at step
  case loadActive i =>
    split at step
    · exact some.inj step ▸ h.cleanTo at_ nofun
    · exact some.inj step ▸ h.cleanTo at_ nofun
  case loadBeat i =>
    split at step
    · exact some.inj step ▸ h.cleanupAt l (i + 1)
    · exact some.inj step ▸ h.cleanTo at_ nofun
  case clock i heartbeat =>
    split at step
    · exact some.inj step ▸ h.cleanTo at_ nofun
    · exact some.inj step ▸ h.cleanupAt l (i + 1)
  case exchange i active =>
    split at step
    · exact some.inj step ▸ h.exchange (quiet i active at_) rfl
    · exact some.inj step ▸ h.exchange (quiet i active at_) (hand_whole _)
  case casActive i mask =>
    split at step
    · refine some.inj step ▸ h.cleanWalk (setActive_mask false) ?_ (.inl rfl)
      rw [hand_whole, at_]
      exact fun _ _ => id
    · exact some.inj step ▸ h.cleanTo at_ fun _ _ => id
  case recheck i mask =>
    split at step
    · exact some.inj step ▸ h.cleanupAt l (i + 1)
    · exact some.inj step ▸ h.cleanTo at_ fun _ _ => id
  case restore i mask =>
    have holds : (s.cleanup r).hand = mask := by rw [at_]; rfl
    unfold State.cleanupAt at step
    split at step
    · exact step ▸ h.restore holds (fun _ => rfl)
    · exact step ▸ h.restore holds (fun _ => rfl)
  case release i b mask =>
    split at step
    · exact some.inj step ▸ h.cleanupAt l (i + 1)
    · split at step
      · exact some.inj step ▸ h.cleanTo at_ fun _ _ => hand_pass
      · split at step
        · exact some.inj step ▸ h.cleanTo at_ fun _ _ => id
        · exact some.inj step ▸ h.cleanTo at_ fun _ _ => hand_pass
  case releaseCas i b mask cur =>
    split at step
    · split at step
      · refine some.inj step ▸ h.dropFor at_ ?_ (if_neg (lt_irrefl b))
        intro x d set
        simp only [CleanupPC.hand] at set
        obtain ⟨later,set⟩ := enabled set
        exact (if_pos (le_of_lt later)).trans set
      · exact some.inj step ▸ h.dropFor at_ (fun _ _ => hand_pass) (if_neg (Nat.not_succ_le_self b))
    · split at step
      · exact some.inj step ▸ h.cleanTo at_ fun _ _ => id
      · exact some.inj step ▸ h.cleanTo at_ fun _ _ => hand_pass
  case recycle i b mask =>
    refine step ▸ h.cleanWalk (fun _ => rfl) ?_ (.inl rfl)
    rw [at_]
    exact fun _ _ => id

end

end

section

variable {l : Layout} {s s' : State ι ρ} {b : Nat}

theorem Inv.submit (h : Inv s) (given : ι → Nat) {refcount : Nat → Nat} {blocks : Nat → Bool} :
    Inv { s with
      refcount, taken := blocks,
      grants := fun c => update (s.grants c) b (s.grants c b + given c),
      inbox := fun c => update (s.inbox c) b (s.inbox c b + given c) } := by
  have more : ∀ c x, s.grants c x ≤ update (s.grants c) b (s.grants c b + given c) x := by
    intro c x
    by_cases same : x = b
    · rw [same, update_self]
      omega
    · rw [update_of_ne same]
  constructor
  case living =>
    intro c x life
    have before := h.living c x life
    by_cases same : x = b
    · rw [same] at before
      simp only [same, update_self]
      omega
    · simp only [update_of_ne same]
      exact before
  case dead => exact fun c x life => (h.dead c x life).trans (more c x)
  case needs => exact h.needs
  case unique => exact h.unique
  case hand => exact h.hand
  case left => exact fun p x c set life => (h.left p x c set life).trans_le (more c x)
  case tracked => exact h.tracked

variable [DecidableEq ι] {c : ι}

theorem Inv.die (h : Inv s) (me : s.alive c = true) (settled : (s.pc c).released = none) :
    Inv { s with alive := update s.alive c false } := by
  have life : ∀ {d : ι}, update s.alive c false d = true → d ≠ c ∧ s.alive d = true := by
    intro d eq
    by_cases same : d = c
    · rw [same, update_self] at eq
      cases eq
    · rw [update_of_ne same] at eq
      exact ⟨same,eq⟩
  constructor
  case living => exact fun d b eq => h.living d b (life eq).2
  case dead => exact fun d b _ => h.drops_le d b
  case needs => exact fun d b eq => h.needs d b (life eq).2
  case unique => exact h.unique
  case hand =>
    intro r b d set
    have gone := h.hand r b d set
    by_cases same : d = c
    · rw [same]
      exact update_self ..
    · exact (update_of_ne same ..).trans gone
  case left =>
    intro p b d set gone
    cases was : s.alive d with
    | false => exact h.left p b d set was
    | true =>
      have sum := h.living d b was
      cases p with
      | slot i =>
        by_cases same : d = c
        · rw [same] at set sum ⊢
          have holds := (h.tracked i b c set me).2
          rw [settled] at holds
          have some_ : 0 < s.has c b := holds.resolve_right nofun
          have less : s.drops c b < s.grants c b := by omega
          exact less
        · change update s.alive c false d = false at gone
          rw [update_of_ne same, was] at gone
          cases gone
      | hand r =>
        rw [h.hand r b d set] at was
        cases was
  case tracked => exact fun i b d set eq => h.tracked i b d set (life eq).2

variable [DecidableEq ρ]

theorem inv_init : Inv (machine (ι := ι) (ρ := ρ) l).init where
  living := fun _ _ _ => le_refl 0
  dead := fun _ _ _ => le_refl 0
  needs := fun _ _ _ => nofun
  unique := fun p _ _ _ set => by cases p <;> cases set
  hand := fun _ _ _ => nofun
  left := fun p _ _ set => by cases p <;> cases set
  tracked := fun _ _ _ => nofun

theorem Inv.step {a : Act ι ρ} (h : Inv s) (guard : orderly s a) (step : next l a s = some s') : Inv s' := by
  cases a <;> simp only [next] at step
  case tick us =>
    cases step
    exact { h with }
  case submit b consumers =>
    split at step
    · cases step
    · cases step
      exact h.submit _
  case register c =>
    split at step
    · rename_i me at_
      exact some.inj step ▸ h.registerAt me l 0 at_ rfl rfl
    · cases step
  case unregister c | heartbeat c =>
    split at step
    · rename_i i me at_
      exact some.inj step ▸ h.goto me at_ (fun _ => id) (by rintro _ ⟨⟩) (by rintro _ ⟨⟩)
    · cases step
  case take c b =>
    split at step
    · rename_i i me at_
      obtain ⟨given,step⟩ := enabled step
      exact some.inj step ▸ h.take me at_ given
    · cases step
  case release c b =>
    split at step
    · rename_i i me at_
      obtain ⟨some_,step⟩ := enabled step
      refine some.inj step ▸ h.goto me at_ (fun _ => id) (by rintro _ ⟨⟩) ?_
      intro x eq
      cases eq
      exact some_
    · cases step
  case step c spurious =>
    obtain ⟨me,step⟩ := enabled step
    exact h.consumerStep me step
  case die c =>
    obtain ⟨me,step⟩ := enabled step
    exact some.inj step ▸ h.die me guard
  case beginCleanup r =>
    split at step
    · exact some.inj step ▸ h.cleanupAt l 0
    · cases step
  case cleanup r spurious => exact h.cleanupStep guard step

theorem cleanupNext_drops {r : ρ} (step : cleanupNext l r spurious s = some s')
    (changed : s'.drops c b ≠ s.drops c b) : (s.cleanup r).hand b = some c := by
  have differ : s'.drops ≠ s.drops := by
    intro eq
    exact changed (congrFun (congrFun eq c) b)
  have at_slot : ∀ s : State ι ρ, ∀ j, (s.cleanupAt l r j).drops = s.drops := by
    intro s j
    unfold State.cleanupAt
    split <;> rfl
  unfold cleanupNext at step
  cases at_ : s.cleanup r <;> simp only [at_, Option.some.injEq, reduceCtorEq] at step
  case loadActive | exchange | casActive =>
    split at step <;> cases step <;> exact absurd rfl differ
  case loadBeat | recheck =>
    split at step
    · exact absurd (some.inj step ▸ at_slot ..) differ
    · exact absurd (some.inj step ▸ rfl) differ
  case clock i heartbeat =>
    split at step
    · exact absurd (some.inj step ▸ rfl) differ
    · exact absurd (some.inj step ▸ at_slot ..) differ
  case restore i mask =>
    exact absurd (step ▸ at_slot ..) differ
  case release i x mask =>
    split at step
    · exact absurd (some.inj step ▸ at_slot ..) differ
    · split at step
      · exact absurd (some.inj step ▸ rfl) differ
      · split at step <;> cases step <;> exact absurd rfl differ
  case releaseCas i x mask cur =>
    -- the only access that drops a reference, the one of the bit of block `x`
    have dropped : s'.drops = (match mask x with
        | some d => (s.setRefcount x (cur - 1)).drop d x
        | none => s.setRefcount x (cur - 1)).drops → (CleanupPC.releaseCas i x mask cur).hand b = some c := by
      intro eq
      cases set : mask x with
      | none =>
        rw [set] at eq
        exact absurd (congrFun (congrFun eq c) b) changed
      | some d =>
        rw [set] at eq
        have new : s'.drops = update2 s.drops d x (s.drops d x + 1) := eq
        rw [new] at changed
        by_cases mine : c = d
        · by_cases here : b = x
          · rw [here, mine]
            exact (if_pos (le_refl x)).trans set
          · rw [mine, update2_block here] at changed
            exact absurd rfl changed
        · rw [update2_of_ne mine] at changed
          exact absurd rfl changed
    split at step
    · split at step <;> exact dropped (by rw [← some.inj step]; rfl)
    · split at step <;> cases step <;> exact absurd rfl differ
  case recycle i x mask =>
    exact absurd (step ▸ rfl) differ

/-- **Dropped once**: in every orderly run no more references of a consumer to a block are dropped than it was given,
and a cleanup drops none of a living consumer. -/
theorem dropped_once (reached : Reach (machine (ι := ι) (ρ := ρ) l) orderly s) :
    (∀ c b, s.drops c b ≤ s.grants c b) ∧
    ∀ r spurious s', next l (.cleanup r spurious) s = some s' → ∀ c b, s'.drops c b ≠ s.drops c b →
      s.alive c = false := by
  have inv : Inv s := by
    apply reached.invariant inv_init
    intro s s' a _ inv guard step
    exact inv.step guard step
  refine ⟨inv.drops_le,?_⟩
  intro r spurious s' step c b changed
  exact inv.hand r b c (cleanupNext_drops step changed)

end

def orderlyCheck [Fintype ι] (s : State ι ρ) : Act ι ρ → Bool
  | .cleanup r _ => match s.cleanup r with
    | .exchange i _ => decide (∀ c, s.alive c = true → (s.pc c).slot ≠ some i)
    | _ => true
  | .die c => (s.pc c).released.isNone
  | _ => true

theorem orderly_of_check [Fintype ι] (s : State ι ρ) (a : Act ι ρ) (passes : orderlyCheck s a = true) :
    orderly s a := by
  cases a with
  | cleanup r spurious =>
    intro i active at_
    simp only [orderlyCheck, at_] at passes
    exact of_decide_eq_true passes
  | die c => exact Option.isNone_iff_eq_none.1 passes
  | _ => trivial

def defaults : Layout := ⟨8, 1, 3000000⟩

/-- A consumer registers in the first free slot. -/
def join (c : Bool) : List (Act Bool Unit) := [.register c] ++ List.replicate 4 (.step c false)

/-- A consumer takes its reference to block 0 and tracks it. -/
def hold (c : Bool) : List (Act Bool Unit) := [.take c 0, .step c false]

def cleanFirst : List (Act Bool Unit) := [.beginCleanup ()] ++ List.replicate 7 (.cleanup () false)

/-- A consumer dies with a reference, and the cleanup drops it; the other one registers and holds its own. -/
theorem dropped_once_left : ∃ s : State Bool Unit, Reach (machine defaults) orderly s ∧
    s.drops false 0 = 1 ∧ s.has true 0 = 1 ∧ ∀ c b, s.drops c b ≤ s.grants c b := by
  obtain ⟨s,reached,drops,has⟩ := reach_of_run (machine defaults) orderly_of_check
      ([.tick 1] ++ join false ++ [.submit 0 [false, true]] ++ hold false ++ [.die false, .tick 3000001] ++ cleanFirst ++
        join true ++ hold true)
      (fun s => s.drops false 0 = 1 ∧ s.has true 0 = 1) (by decide +kernel)
  exact ⟨s,reached,drops,has,(dropped_once reached).1⟩

/-- A consumer dies between `Release` and `TrackBlockRelease`: the cleanup drops the reference again. And a cleanup
takes the mask of the consumer that registered in the slot since. -/
theorem cleanup_drops_again :
    (∃ s : State Bool Unit, Reach (machine defaults) anyStep s ∧ s.grants false 0 = 1 ∧ s.drops false 0 = 2) ∧
    ∃ s s' : State Bool Unit, Reach (machine defaults) anyStep s ∧ next defaults (.cleanup () false) s = some s' ∧
      s.alive false = true ∧ s.has false 0 = 1 ∧ (s.slot 0).heartbeatUs = s.now ∧
      s.drops false 0 = 0 ∧ s'.drops false 0 = 1 := by
  constructor
  · exact reach_of_schedule (machine defaults) ([.tick 1] ++ join false ++ [.submit 0 [false, true]] ++ hold false ++
        [.release false 0, .step false false, .step false false, .die false, .tick 3000001] ++ cleanFirst)
      (fun s => s.grants false 0 = 1 ∧ s.drops false 0 = 2) (by decide +kernel)
  · obtain ⟨s,reached,alive,has,fresh,before,after⟩ := reach_of_schedule (machine defaults)
      ([.tick 1, .beginCleanup (), .cleanup () false] ++ join false ++ [.submit 0 [false]] ++ hold false ++
        [.cleanup () false, .cleanup () false])
      (fun s => s.alive false = true ∧ s.has false 0 = 1 ∧ (s.slot 0).heartbeatUs = s.now ∧ s.drops false 0 = 0 ∧
        (next defaults (.cleanup () false) s).map (fun s' => s'.drops false 0) = some 1) (by decide +kernel)
    obtain ⟨s',step,count⟩ := Option.map_eq_some_iff.1 after
    exact ⟨s,s',reached,step,alive,has,fresh,before,count⟩

end Newosp.Dispatcher.Consumers
