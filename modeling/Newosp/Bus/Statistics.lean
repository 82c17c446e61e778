import Mathlib.Data.List.Nodup
import Newosp.Bus.Machine

/-!
# Evictions and the drop statistic

An evictor overwrites a published message first and adds to `messages_dropped` last. At any time
the statistic has counted every eviction but those of the calls in between.
-/

namespace Newosp.Bus
open Lib List Function

/-- The call has overwritten a message and not counted it yet. -/
def PC.uncounted : PC → Bool
  | .writePayload (.reserved _) => true
  | .storePriority (.reserved _) => true
  | .storeSequence (.reserved _) => true
  | .addEvicted => true
  | _ => false

/-- The call is past the write that evicts. -/
def PC.overwrote : PC → Bool
  | .addPublished => true
  | .done .accepted => true
  | pc => pc.uncounted

variable {ι α : Type} {s : State ι α}

def State.uncountedEvictions (s : State ι α) : Nat := s.evicted.countP fun x => (s.pc x.2).uncounted

/-- Every eviction is the only one of its call, and is counted up to those on the way. -/
structure EvictStat (s : State ι α) : Prop where
  past : ∀ x ∈ s.evicted, (s.pc x.2).overwrote = true
  once : (s.evicted.map Prod.snd).Nodup
  counted : ∃ d, s.mem.stats.messagesDropped = wrap64 d ∧ s.evicted.length ≤ d + s.uncountedEvictions

section

variable [DecidableEq ι] {cfg : Config} {req : ι → Request α} {s' : State ι α} {c : ι}

theorem countP_evictor (f f' : ι → Bool) (same : ∀ d, d ≠ c → f' d = f d) : ∀ log : List (Option ι × ι),
      log.countP (fun x => f x.2) ≤ log.countP (fun x => f' x.2) + (log.map Prod.snd).count c
  | [] => le_rfl
  | (v, d) :: log => by
    have ih := countP_evictor f f' same log
    by_cases self : d = c
    · subst self
      simp only [countP_cons, map_cons, count_cons_self]
      split <;> split <;> omega
    · have other : (d == c) = false := by simpa using self
      simp only [countP_cons, map_cons, count_cons, same d self, other]
      split <;> omega

theorem EvictStat.keep (h : EvictStat s) (log : s'.evicted = s.evicted) (others : ∀ d, d ≠ c → s'.pc d = s.pc d)
    (past : (s.pc c).overwrote = true → (s'.pc c).overwrote = true)
    (count : ∀ d, s.mem.stats.messagesDropped = wrap64 d → ∃ d', s'.mem.stats.messagesDropped = wrap64 d' ∧
      d ≤ d' ∧ ((s.pc c).uncounted = true → (s'.pc c).uncounted = true ∨ d + 1 ≤ d')) : EvictStat s' := by
  refine ⟨?_,by rw [log]; exact h.once,?_⟩
  · intro x member
    rw [log] at member
    by_cases self : x.2 = c
    · rw [self]
      exact past (by rw [← self]; exact h.past x member)
    · rw [others x.2 self]
      exact h.past x member
  · obtain ⟨d,stat,bound⟩ := h.counted
    obtain ⟨d',stat',more,mine⟩ := count d stat
    refine ⟨d',stat',?_⟩
    have once := nodup_iff_count_le_one.1 h.once c
    have moved := countP_evictor (c := c) (fun d => (s.pc d).uncounted) (fun d => (s'.pc d).uncounted)
      (fun d other => by rw [others d other]) s.evicted
    unfold State.uncountedEvictions at bound ⊢
    rw [log]
    by_cases stays : (s.pc c).uncounted = true → (s'.pc c).uncounted = true
    · have mono : s.evicted.countP (fun x => (s.pc x.2).uncounted) ≤
          s.evicted.countP (fun x => (s'.pc x.2).uncounted) := by
        refine countP_mono_left fun x _ was => ?_
        by_cases self : x.2 = c
        · rw [self] at was ⊢
          exact stays was
        · rw [others x.2 self]
          exact was
      omega
    · have counts : d + 1 ≤ d' := by
        by_contra none
        exact stays fun was => (mine was).resolve_right none
      omega

theorem EvictStat.evict (h : EvictStat s) {p msgId : Nat} (here : s.pc c = .writeHeader (.reserved p) msgId)
    (m' : Memory α) (hb : Nat → Option ι) (v : Option ι) (stat : m'.stats = s.mem.stats) :
    EvictStat ({ s with mem := m', headerBy := hb, evicted := s.evicted ++ [(v, c)] }.goto c
      (.writePayload (.reserved p))) := by
  have fresh : ∀ x ∈ s.evicted, x.2 ≠ c := by
    intro x member self
    have past := h.past x member
    rw [self, here] at past
    cases past
  refine ⟨?_,?_,?_⟩
  · intro x member
    rcases mem_append.1 member with old | new
    · rw [State.goto_pc_of_ne _ _ _ (fresh x old)]
      exact h.past x old
    · rw [mem_singleton.1 new, State.goto_pc_self]
      rfl
  · simp only [State.goto_evicted, map_append, map_cons, map_nil]
    refine nodup_append.2 ⟨h.once,nodup_singleton _,?_⟩
    intro d before d' new
    obtain ⟨x,member,rfl⟩ := mem_map.1 before
    rw [mem_singleton.1 new]
    exact fresh x member
  · obtain ⟨d,eq,bound⟩ := h.counted
    refine ⟨d,by rw [State.goto_mem, stat]; exact eq,?_⟩
    have same : s.evicted.countP (fun x => (update s.pc c (.writePayload (.reserved p)) x.2).uncounted) =
        s.evicted.countP (fun x => (s.pc x.2).uncounted) := by
      refine countP_congr fun x member => ?_
      rw [update_of_ne (fresh x member)]
    have mine : (PC.writePayload (.reserved p)).uncounted = true := rfl
    simp only [State.uncountedEvictions, State.goto, countP_append, countP_singleton,
      update_self, mine, if_true, length_append, length_singleton, same]
    unfold State.uncountedEvictions at bound
    omega

/-- One step of a call. -/
theorem EvictStat.producer {spurious : Bool} (h : EvictStat s)
    (step : producerNext cfg req c spurious s = some s') : EvictStat s' := by
  have plain : ∀ {m' : Memory α} {hb pb : Nat → Option ι} {ld : ι → Nat} {cl : List (ι × Nat)} {pc' : PC},
      m'.stats.messagesDropped = s.mem.stats.messagesDropped →
      ((s.pc c).overwrote = true → pc'.overwrote = true) →
      ((s.pc c).uncounted = true → pc'.uncounted = true) →
      EvictStat ({ s with mem := m', headerBy := hb, payloadBy := pb, loaded := ld, claims := cl }.goto c pc') := by
    intro m' hb pb ld cl pc' stat past stays
    refine h.keep (c := c) rfl (fun d other => State.goto_pc_of_ne _ _ _ other) ?_ fun d eq => ⟨d,?_,?_⟩
    · rw [State.goto_pc_self]
      exact past
    · exact stat.trans eq
    · rw [State.goto_pc_self]
      exact ⟨le_rfl,fun was => .inl (stays was)⟩
  have dropped : ∀ {pc' : PC}, ((s.pc c).overwrote = true → pc'.overwrote = true) →
      EvictStat ({ s with mem := { s.mem with stats := s.mem.stats.addDropped } }.goto c pc') := by
    intro pc' past
    refine h.keep (c := c) rfl (fun d other => State.goto_pc_of_ne _ _ _ other) ?_ fun d eq =>
      ⟨d + 1,?_,Nat.le_succ _,fun _ => .inr le_rfl⟩
    · rw [State.goto_pc_self]
      exact past
    · show wrap64 (s.mem.stats.messagesDropped + 1) = wrap64 (d + 1)
      simp [eq, wrap64, Nat.add_mod]
  cases here : s.pc c <;> simp only [producerNext, here] at step <;> rw [here] at plain dropped
  case idle | done => cases step
  case addDropped | addEvicted =>
    cases step
    exact dropped (by simp [PC.overwrote, PC.uncounted])
  case writeHeader hold msgId =>
    cases hold with
    | claimed p =>
      cases step
      exact plain rfl (by simp [PC.overwrote, PC.uncounted]) (by simp [PC.uncounted])
    | reserved p =>
      cases step
      exact h.evict here _ _ _ rfl
  case casPos | scanCas =>
    split at step <;> cases step <;> exact plain rfl (by simp [PC.overwrote, PC.uncounted]) (by simp [PC.uncounted])
  case writePayload hold | storePriority hold | storeSequence hold =>
    cases hold <;> cases step <;> exact plain rfl (by simp [PC.overwrote, PC.uncounted]) (by simp [PC.uncounted])
  all_goals
    cases step
    exact plain rfl (by simp [PC.overwrote, PC.uncounted]) (by simp [PC.uncounted])

end

theorem consumerNext_dropped (cfg : Config) (s : State ι α) :
    (consumerNext cfg s).mem.stats.messagesDropped = s.mem.stats.messagesDropped := by
  cases here : s.cpc <;> simp only [consumerNext, here]
  case casSeq => split <;> rfl
  all_goals rfl

theorem EvictStat.consumer (h : EvictStat s) (cfg : Config) : EvictStat (consumerNext cfg s) := by
  obtain ⟨pcs,-⟩ := consumerNext_frame cfg s
  obtain ⟨-,log⟩ := consumerNext_released cfg s
  refine ⟨by rw [pcs, log]; exact h.past,by rw [log]; exact h.once,?_⟩
  rw [State.uncountedEvictions, pcs, log, consumerNext_dropped]
  exact h.counted

/-- The drop statistic in every reachable state. -/
theorem reach_evictStat [DecidableEq ι] [Inhabited α] {cfg : Config} {req : ι → Request α}
    {ok : State ι α → Act ι → Prop} (h : Reach (machine cfg req) ok s) : EvictStat s := by
  refine h.invariant (I := EvictStat) ?_ ?_
  · exact ⟨(fun x member => by cases member),nodup_nil,0,rfl,le_rfl⟩
  intro s t a _ inv _ step
  change next cfg req a s = some t at step
  cases a with
  | call c =>
    simp only [next] at step
    obtain ⟨idle,⟨⟩⟩ := enabled step
    refine inv.keep (c := c) rfl (fun d other => State.goto_pc_of_ne _ _ _ other) ?_ fun d eq =>
      ⟨d,eq,le_rfl,?_⟩
    · rw [idle]
      exact fun past => by cases past
    · rw [idle]
      exact fun past => by cases past
  | producer c spurious => exact inv.producer step
  | consumer =>
    cases step
    exact inv.consumer cfg

theorem EvictStat.settled (h : EvictStat s) (quiet : ∀ c, ¬ s.running c) :
    ∃ d, s.mem.stats.messagesDropped = wrap64 d ∧ s.evicted.length ≤ d := by
  obtain ⟨d,eq,bound⟩ := h.counted
  have none : s.uncountedEvictions = 0 := by
    refine countP_eq_zero.2 fun x _ uncounted => quiet x.2 ⟨fun idle => ?_,fun o done => ?_⟩
    · rw [idle] at uncounted
      cases uncounted
    · rw [done] at uncounted
      cases uncounted
  exact ⟨d,eq,by omega⟩

end Newosp.Bus
