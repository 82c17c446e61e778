import Newosp.Bus.Invariant

/-!
# Where every message is

Each call has one `Place`: not visible yet, waiting at a position, dispatched, or overwritten by an
eviction. `LogInv` ties the places to the statuses of the window and to the histories.
-/

namespace Newosp.Bus
open Lib List Function

/-- Where the message of a call is. -/
inductive Place
  | unplaced
  | pending (p : Nat)
  | dispatched
  | evicted
deriving DecidableEq

def ConsumerPC.releasing {ι : Type} : ConsumerPC ι → Bool
  | .release .. => true
  | _ => false

section

variable {ι α : Type} [DecidableEq ι] {m : ι} {x : Status ι}

def dispatchCount (s : State ι α) (m : ι) : Nat := s.dispatched.countP fun d => d.payloadBy = some m

def evictCount (s : State ι α) (m : ι) : Nat := s.evicted.countP fun x => x.1 = some m

structure LogInv (cfg : Config) (req : ι → Request α) (s : State ι α) (st : Nat → Status ι)
    (place : ι → Place) : Prop where
  message_iff : ∀ p m, InWindow cfg s p → ((st p).message = some m ↔ place m = .pending p)
  window : ∀ p m, place m = .pending p → InWindow cfg s p
  unplaced_iff : ∀ c, place c = .unplaced ↔ (s.pc c).published = false
  dispatched : ∀ m, dispatchCount s m = if place m = .dispatched then 1 else 0
  evicted : ∀ m, evictCount s m = if place m = .evicted then 1 else 0
  dispatchPos : s.dispatched.map Dispatch.pos = List.range (s.released + if s.cpc.releasing then 1 else 0)
  dispatchOk : ∀ d ∈ s.dispatched, ∃ m id, d.headerBy = some m ∧ d.payloadBy = some m ∧
    d.envelope = (req m).envelope id
  evictOk : ∀ x ∈ s.evicted, ∃ v, x.1 = some v ∧ (req v).priority ≠ .kHigh ∧ (req x.2).priority = .kHigh

variable {cfg : Config} {req : ι → Request α} {s : State ι α} {st st' : Nat → Status ι} {place : ι → Place} {c : ι}
  {p : Nat}
  {mem : Memory α} {pcs : ι → PC} {pc' : PC} {cpc' : ConsumerPC ι} {hb pb : Nat → Option ι} {claims : List (ι × Nat)}
  {loads : ι → Nat}

theorem update_place_iff {w y z : Place} (was : place m = w) (old : w ≠ z) (new : y ≠ z) (n : ι) :
    update place m y n = z ↔ place n = z := update_eq_iff (was ▸ old) new n

theorem count_place {count : ι → Nat} (counted : ∀ n, count n = if place n = y then 1 else 0)
    (old : place m ≠ y) (n : ι) :
    (count n + if some m = some n then 1 else 0) = if update place m y n = y then 1 else 0 := by
  rw [counted]
  by_cases same : n = m
  · simp [same, old]
  · have other : ¬ m = n := fun e => same e.symm
    simp [update_of_ne same, other]

variable (h : LogInv cfg req s st place) {y : Place}
include h

theorem LogInv.keep (messages : ∀ q, InWindow cfg s q → (st' q).message = (st q).message)
    (visible : ∀ d, (pcs d).published = (s.pc d).published) (releasing : cpc'.releasing = s.cpc.releasing) :
    LogInv cfg req { s with mem, pc := pcs, cpc := cpc', headerBy := hb, payloadBy := pb, claims, loaded := loads }
      st' place where
  message_iff := by
    intro q m win
    rw [messages q win]
    exact h.message_iff q m win
  window := h.window
  unplaced_iff := fun d => by simpa only [visible d] using h.unplaced_iff d
  dispatched := h.dispatched
  evicted := h.evicted
  dispatchPos := by simpa only [releasing] using h.dispatchPos
  dispatchOk := h.dispatchOk
  evictOk := h.evictOk

theorem LogInv.publish (win : InWindow cfg s p) (empty : (st p).message = none) (hidden : (s.pc c).published = false)
    (visible : pc'.published = true) :
    LogInv cfg req { s with mem, pc := update s.pc c pc' } (update st p (.published c))
      (update place c (.pending p)) := by
  have fresh : place c = .unplaced := (h.unplaced_iff c).2 hidden
  constructor
  case message_iff =>
    intro q m wq
    by_cases here : q = p
    · subst here
      rw [update_self]
      by_cases same : m = c
      · subst same
        simp only [Status.message, update_self]
      · rw [update_of_ne same, ← h.message_iff q m wq, empty]
        simp only [Status.message, Option.some.injEq, reduceCtorEq, iff_false]
        exact fun e => same e.symm
    · rw [update_of_ne here, h.message_iff q m wq]
      refine (update_place_iff (z := .pending q) fresh nofun ?_ m).symm
      rw [ne_eq, Place.pending.injEq]
      exact fun e => here e.symm
  case window =>
    intro q m pending
    by_cases same : m = c
    · subst same
      rw [update_self] at pending
      cases pending
      exact win
    · rw [update_of_ne same] at pending
      exact h.window q m pending
  case unplaced_iff =>
    intro d
    by_cases same : d = c
    · subst same
      simp only [update_self, visible, reduceCtorEq]
    · simp only [update_of_ne same]
      exact h.unplaced_iff d
  case dispatched =>
    intro m
    simp only [update_place_iff (y := .pending p) (z := .dispatched) fresh nofun nofun m]
    exact h.dispatched m
  case evicted =>
    intro m
    simp only [update_place_iff (y := .pending p) (z := .evicted) fresh nofun nofun m]
    exact h.evicted m
  case dispatchPos => exact h.dispatchPos
  case dispatchOk => exact h.dispatchOk
  case evictOk => exact h.evictOk

theorem LogInv.leave (win : InWindow cfg s p) (here : (st p).message = some m)
    (gone : x.message = none) (placed : y ≠ .unplaced) (moved : ∀ q, y ≠ .pending q) : place m = .pending p ∧
    (∀ q n, InWindow cfg s q → ((update st p x q).message = some n ↔ update place m y n = .pending q)) ∧
    (∀ q n, update place m y n = .pending q → InWindow cfg s q) ∧
    (∀ d, update place m y d = .unplaced ↔ place d = .unplaced) := by
  have old : place m = .pending p := (h.message_iff p m win).1 here
  refine ⟨old,?_,?_,?_⟩
  · intro q n wq
    by_cases at_p : q = p
    · subst at_p
      rw [update_self, gone]
      by_cases same : n = m
      · subst same
        rw [update_self]
        simp [moved q]
      · rw [update_of_ne same, ← h.message_iff q n wq, here]
        simp only [reduceCtorEq, Option.some.injEq, false_iff]
        exact fun e => same e.symm
    · rw [update_of_ne at_p, h.message_iff q n wq]
      refine (update_place_iff old ?_ (moved q) n).symm
      rw [ne_eq, Place.pending.injEq]
      exact fun e => at_p e.symm
  · intro q n pending
    by_cases same : n = m
    · subst same
      rw [update_self] at pending
      exact absurd pending (moved q)
    · rw [update_of_ne same] at pending
      exact h.window q n pending
  · exact update_place_iff old nofun placed

theorem LogInv.evict {victim : Option ι} (win : InWindow cfg s p) (here : (st p).message = some m)
    (low : (req m).priority ≠ .kHigh) (high : (req c).priority = .kHigh) (gone : x.message = none)
    (visible : ∀ d, (pcs d).published = (s.pc d).published) (whose : victim = some m) :
    LogInv cfg req { s with mem, pc := pcs, headerBy := hb, evicted := s.evicted ++ [(victim, c)] }
      (update st p x) (update place m .evicted) := by
  obtain ⟨old,messages,window,unplaced⟩ := h.leave win here gone (y := .evicted) nofun nofun
  subst whose
  constructor
  case message_iff => exact messages
  case window => exact window
  case unplaced_iff =>
    intro d
    rw [unplaced, visible]
    exact h.unplaced_iff d
  case dispatched =>
    intro n
    simp only [update_place_iff (y := .evicted) (z := .dispatched) old nofun nofun n]
    exact h.dispatched n
  case evicted =>
    intro n
    simp only [evictCount, countP_append, countP_singleton, decide_eq_true_eq]
    exact count_place h.evicted (by rw [old]; nofun) n
  case dispatchPos => exact h.dispatchPos
  case dispatchOk => exact h.dispatchOk
  case evictOk =>
    intro y member
    rcases mem_append.1 member with older | last
    · exact h.evictOk y older
    · rw [mem_singleton.1 last]
      exact ⟨m,rfl,low,high⟩

theorem LogInv.dispatch {by' : Option ι} (win : InWindow cfg s s.released)
    (here : (st s.released).message = some m) (idle : s.cpc.releasing = false) (gone : x.message = none)
    (releasing : cpc'.releasing = true) {env : Envelope α} (whole : ∃ id, env = (req m).envelope id)
    (whose : by' = some m) :
    LogInv cfg req { s with cpc := cpc', dispatched := s.dispatched ++ [⟨s.released, env, some m, by'⟩] }
      (update st s.released x) (update place m .dispatched) := by
  obtain ⟨old,messages,window,unplaced⟩ := h.leave win here gone (y := .dispatched) nofun nofun
  subst whose
  constructor
  case message_iff => exact messages
  case window => exact window
  case unplaced_iff =>
    intro d
    rw [unplaced]
    exact h.unplaced_iff d
  case dispatched =>
    intro n
    simp only [dispatchCount, countP_append, countP_singleton, decide_eq_true_eq]
    exact count_place h.dispatched (by rw [old]; nofun) n
  case evicted =>
    intro n
    simp only [update_place_iff (y := .dispatched) (z := .evicted) old nofun nofun n]
    exact h.evicted n
  case dispatchPos =>
    have positions := h.dispatchPos
    rw [idle] at positions
    simp only [Bool.false_eq_true, if_false, add_zero] at positions
    simp only [releasing, map_append, positions, if_true, range_succ]
    rfl
  case dispatchOk =>
    intro d member
    rcases mem_append.1 member with older | last
    · exact h.dispatchOk d older
    · rw [mem_singleton.1 last]
      obtain ⟨id,whole⟩ := whole
      exact ⟨m,id,rfl,rfl,whole⟩
  case evictOk => exact h.evictOk

theorem LogInv.release (gone : (st s.released).message = none)
    (ahead : (st' (s.released + cfg.queueDepth)).message = none)
    (rest : ∀ q, q ≠ s.released + cfg.queueDepth → st' q = st q) (releasing : s.cpc.releasing = true)
    (done : cpc'.releasing = false) : LogInv cfg req { s with mem, cpc := cpc', released := s.released + 1 } st' place := by
  have two := cfg.queueDepth_two_le
  constructor
  case message_iff =>
    rintro q m ⟨lo,hi⟩
    simp only at lo hi
    by_cases last : q = s.released + cfg.queueDepth
    · subst last
      rw [ahead]
      simp only [reduceCtorEq, false_iff]
      intro pending
      have := (h.window _ m pending).2
      omega
    · rw [rest q last]
      exact h.message_iff q m ⟨by omega,by omega⟩
  case window =>
    intro q m pending
    have win := h.window q m pending
    have : q ≠ s.released := by
      rintro rfl
      rw [← h.message_iff _ m win, gone] at pending
      cases pending
    have lo := win.1
    have hi := win.2
    simp only [InWindow]
    omega
  case unplaced_iff => exact h.unplaced_iff
  case dispatched => exact h.dispatched
  case evicted => exact h.evicted
  case dispatchPos =>
    have positions := h.dispatchPos
    simpa only [releasing, done, if_true, Bool.false_eq_true, if_false, add_zero] using positions
  case dispatchOk => exact h.dispatchOk
  case evictOk => exact h.evictOk

end

end Newosp.Bus
