import Newosp.Fault.Shutdown

/-!
# The active bitmap

`ReportFault` publishes the entry and then sets the bit; the consumer clears the bit when a hook has handled an entry.
So the bit tells the last answer if no hook handles a fault while a popped report of it has its bit still to set, and
every other answer finds the bit set or about to be set.
-/

namespace Newosp.Fault
open Lib List
open Function (forall_update_iff update update_of_ne update_self)

variable {ι : Type} {cfg : Config} {s t : State ι} {k : Nat}

section

variable (bitmap : Bitmap) (i j : UInt16)

theorem isFaultActive_eq : isFaultActive bitmap i = (bitmap (i.toNat / 64)).getLsbD (i.toNat % 64) := by
  have small : i.toNat % 64 < 64 := Nat.mod_lt _ (by decide)
  rw [isFaultActive, ← BitVec.twoPow_eq, BitVec.and_twoPow]
  by_cases set : (bitmap (i.toNat / 64)).getLsbD (i.toNat % 64) = true
  · rw [if_pos set, set, decide_eq_true_eq]
    intro zero
    have bit := congrArg (fun x => BitVec.getLsbD x (i.toNat % 64)) zero
    simp [small] at bit
  · rw [if_neg set]
    simp [set]

theorem index_eq_iff : i.toNat / 64 = j.toNat / 64 ∧ i.toNat % 64 = j.toNat % 64 ↔ i = j := by
  constructor
  · rintro ⟨word,bit⟩
    apply UInt16.toNat_inj.1
    omega
  · rintro rfl
    exact ⟨rfl,rfl⟩

theorem isFaultActive_update (word : BitVec 64) : isFaultActive (update bitmap (j.toNat / 64) word) i =
    if i.toNat / 64 = j.toNat / 64 then word.getLsbD (i.toNat % 64) else isFaultActive bitmap i := by
  rw [isFaultActive_eq, isFaultActive_eq, Function.update_apply]
  split <;> rfl

theorem isFaultActive_set : isFaultActive (setFaultActive bitmap j) i = (decide (i = j) || isFaultActive bitmap i) := by
  rw [setFaultActive, isFaultActive_update, ← BitVec.twoPow_eq, isFaultActive_eq]
  simp only [← index_eq_iff]
  by_cases word : i.toNat / 64 = j.toNat / 64
  · simp [word, Nat.mod_lt, Bool.or_comm]
  · simp [word]

theorem isFaultActive_clear :
    isFaultActive (clearFaultActive bitmap j) i = (decide (i ≠ j) && isFaultActive bitmap i) := by
  rw [clearFaultActive, isFaultActive_update, ← BitVec.twoPow_eq, isFaultActive_eq]
  simp only [ne_eq, ← index_eq_iff]
  by_cases word : i.toNat / 64 = j.toNat / 64
  · simp [word, Nat.mod_lt, Bool.and_comm]
  · simp [word]

end

section

def ReportPC.unmarked : ReportPC → Bool
  | .addReported | .addTotalReported | .setActive => true
  | _ => false

def Unmarked (s : State ι) (i : UInt16) : Prop :=
  ∃ c k, (s.report c).faultIndex = i ∧ (s.pc c).unmarked = true ∧ k < (s.queues (s.report c).priority).popped.length ∧
    (s.queues (s.report c).priority).claims[k]? = some (.inl c)

def lastAction (hooked : List Hooked) (i : UInt16) : Option HookAction :=
  (hooked.filter (·.event.faultIndex = i)).getLast?.map (·.action)

/-- The last entry of fault `i` was not handled. -/
def Unhandled (hooked : List Hooked) (i : UInt16) : Prop := ∃ a, lastAction hooked i = some a ∧ a ≠ .kHandled

variable [DecidableEq ι] (cfg)

/-- A hook handles a fault only when every popped report of it has set the bit; another answer finds the bit set, or a
popped report about to set it. -/
def marked (s : State ι) (a : Act ι) : Prop := prompt cfg s a ∧ match a with
  | .answer action => ∀ v entry event, s.cpc = .hook v entry event →
      if action = .kHandled then ¬ Unmarked s entry.faultIndex
      else isFaultActive s.bitmap entry.faultIndex = true ∨ Unmarked s entry.faultIndex
  | _ => True

/-- A report of fault `i` whose entry a hook got has its bit still to set. -/
def Lagging (s : State ι) (i : UInt16) : Prop := ∃ c k, (s.report c).faultIndex = i ∧ (s.pc c).unmarked = true ∧
    k < (hookedFrom s.hooked (s.report c).priority).length ∧
    (s.queues (s.report c).priority).claims[k]? = some (.inl c)

/-- An entry of fault `i` is claimed in a queue and no hook has got it yet. -/
def Owed (s : State ι) (i : UInt16) : Prop :=
  ∃ p k x, (hookedFrom s.hooked p).length ≤ k ∧ (s.queues p).claims[k]? = some x ∧
    (FaultEntry.ofWords ((s.queues p).arg x)).faultIndex = i

structure Active (s : State ι) : Prop where
  reported : ∀ i, isFaultActive s.bitmap i = true → ∃ c, (s.report c).faultIndex = i ∧ s.pc c = .done .success
  unhandled : ∀ i, Unhandled s.hooked i → isFaultActive s.bitmap i = true ∨ Lagging s i
  owed : ∀ i, isFaultActive s.bitmap i = true → ¬ Unhandled s.hooked i →
    (∀ v entry, s.cpc = .clear v entry → entry.faultIndex ≠ i) → Owed s i
  lagging : ∀ i, Lagging s i → Unhandled s.hooked i
  clearing : ∀ v entry, s.cpc = .clear v entry → ¬ Unhandled s.hooked entry.faultIndex

end

section

section

variable (hooked : List Hooked) (x : Hooked)
include hooked x

theorem lastAction_append (i : UInt16) :
    lastAction (hooked ++ [x]) i = if x.event.faultIndex = i then some x.action else lastAction hooked i := by
  rw [lastAction, filter_append]
  by_cases same : x.event.faultIndex = i
  · rw [filter_cons_of_pos (by rw [decide_eq_true same]), if_pos same]
    simp
  · rw [filter_cons_of_neg (by simpa using same), if_neg same]
    simp [lastAction]

theorem unhandled_append_self : Unhandled (hooked ++ [x]) x.event.faultIndex ↔ x.action ≠ .kHandled := by
  rw [Unhandled, lastAction_append, if_pos rfl]
  constructor
  · rintro ⟨a,⟨⟩,ne⟩
    exact ne
  · exact fun ne => ⟨_,rfl,ne⟩

theorem unhandled_append_of_ne {i : UInt16} (other : x.event.faultIndex ≠ i) :
    Unhandled (hooked ++ [x]) i ↔ Unhandled hooked i := by
  rw [Unhandled, lastAction_append, if_neg other, Unhandled]

end

theorem Inv.hookedFrom_le (h : Inv cfg s) (p : FaultPriority) :
    (hookedFrom s.hooked p).length ≤ (s.queues p).popped.length := by
  have log := congrArg length (h.log.popped p)
  rw [length_map, length_append] at log
  omega

theorem Inv.popped_report (h : Inv cfg s) {p : FaultPriority} {c : ι} (popped : k < (s.queues p).popped.length)
    (here : (s.queues p).claims[k]? = some (.inl c)) :
    p = (s.report c).priority ∧ (s.queues p).pc (.inl c) = .done true := by
  have done := (h.rings p).past k _ popped here
  refine ⟨?_,done⟩
  by_contra foreign
  rw [(h.reports c).foreign p foreign] at done
  cases done

theorem Active.keep (h : Active s) (inv : Inv cfg s) (bitmap : t.bitmap = s.bitmap) (hooked : t.hooked = s.hooked)
    (published : ∀ c, (s.queues (s.report c).priority).pc (.inl c) = .done true → t.report c = s.report c ∧
      (t.pc c).unmarked = (s.pc c).unmarked ∧ (s.pc c = .done .success → t.pc c = .done .success))
    (claims : ∀ p, (s.queues p).claims <+: (t.queues p).claims)
    (args : ∀ p x, (s.queues p).pc x ≠ .idle → (t.queues p).arg x = (s.queues p).arg x)
    (clear : ∀ v entry, t.cpc = .clear v entry ↔ s.cpc = .clear v entry) : Active t := by
  have earlier : ∀ {p} {k : Nat} {x}, (s.queues p).claims[k]? = some x → (t.queues p).claims[k]? = some x := by
    intro p k x here
    obtain ⟨l,more⟩ := claims p
    rw [← more, getElem?_append_left (List.getElem?_eq_some_iff.1 here).1, here]
  have before : ∀ i, Lagging t i ↔ Lagging s i := by
    intro i
    constructor
    · rintro ⟨c,k,index,unmarked,passed,here⟩
      rw [hooked] at passed
      have popped := lt_of_lt_of_le passed (inv.hookedFrom_le _)
      obtain ⟨l,more⟩ := claims (t.report c).priority
      rw [← more, getElem?_append_left (lt_of_lt_of_le popped (inv.rings _).le)] at here
      obtain ⟨own,done⟩ := inv.popped_report popped here
      rw [own] at done
      obtain ⟨report,mark,-⟩ := published c done
      rw [report] at index passed here
      exact ⟨c,k,index,mark ▸ unmarked,passed,here⟩
    · rintro ⟨c,k,index,unmarked,passed,here⟩
      obtain ⟨-,done⟩ := inv.popped_report (lt_of_lt_of_le passed (inv.hookedFrom_le _)) here
      obtain ⟨report,mark,-⟩ := published c done
      refine ⟨c,k,report ▸ index,mark ▸ unmarked,?_,?_⟩
      · rw [report, hooked]
        exact passed
      · rw [report]
        exact earlier here
  constructor
  case reported =>
    intro i active
    rw [bitmap] at active
    obtain ⟨c,index,success⟩ := h.reported i active
    have ring := (inv.reports c).own
    rw [success] at ring
    obtain ⟨report,-,done⟩ := published c ring
    exact ⟨c,report ▸ index,done success⟩
  case unhandled =>
    intro i last
    rw [hooked] at last
    rw [bitmap, before i]
    exact h.unhandled i last
  case owed =>
    intro i active last clearing
    rw [bitmap] at active
    rw [hooked] at last
    obtain ⟨p,k,x,owed,here,index⟩ := h.owed i active last fun v entry at_ => clearing v entry ((clear v entry).2 at_)
    refine ⟨p,k,x,hooked ▸ owed,earlier here,?_⟩
    have claimed := ((inv.rings p).claimed x).1 (mem_of_getElem? here)
    rw [args p x (by intro idle; rw [idle] at claimed; cases claimed)]
    exact index
  case lagging =>
    intro i late
    rw [hooked]
    exact h.lagging i ((before i).1 late)
  case clearing =>
    intro v entry at_
    rw [hooked]
    exact h.clearing v entry ((clear v entry).1 at_)

end

section

variable {c : ι} {entry : FaultEntry} {v : Visit} {event : FaultEvent} {p : FaultPriority}

theorem Inv.inHand (h : Inv cfg s) (here : s.cpc = .hook v entry event)
    {x : Caller ι} (popped : k < (s.queues p).popped.length)
    (unanswered : (hookedFrom s.hooked p).length ≤ k) (claimed : (s.queues p).claims[k]? = some x) :
    FaultEntry.ofWords ((s.queues p).arg x) = entry := by
  have log := congrArg (·[k]?) (h.log.popped p)
  rw [(h.rings p).order] at log
  simp only [getElem?_map, getElem?_take_of_lt popped, claimed, Option.map_some,
    getElem?_append_right unanswered] at log
  have held := mem_of_getElem? log.symm
  simp only [hand, here] at held
  split at held
  · exact mem_singleton.1 held
  · cases held

theorem Visit.ne_clear (v w : Visit) (e : FaultEntry) : v.leave ≠ .clear w e := by
  unfold Visit.leave
  split
  · nofun
  · split <;> nofun

section

variable (h : Active s) (inv : Inv cfg s) {q : Mpsc.State (Caller ι) 4 UInt64} {i : Fin 4} {action : HookAction}
  {cpc : ConsumerPC} {spurious : Bool} {b : Mpsc.Act (Caller ι) 4 UInt64}
include h inv

theorem Active.answered (here : s.cpc = .hook v entry event)
    (guard : if action = .kHandled then ¬ Unmarked s entry.faultIndex
      else isFaultActive s.bitmap entry.faultIndex = true ∨ Unmarked s entry.faultIndex)
    (free : cpc.free = true) (clear : ∀ w e, cpc = .clear w e ↔ action = .kHandled ∧ w = v ∧ e = entry) :
    Active { s with hooked := s.hooked ++ [⟨v.pri, event, action⟩], cpc := cpc } := by
  have index : event.faultIndex = entry.faultIndex := congrArg (·.faultIndex) (inv.log.event v entry event here)
  let x : Hooked := ⟨v.pri,event,action⟩
  have mine : Unhandled (s.hooked ++ [x]) entry.faultIndex ↔ action ≠ .kHandled := index ▸ unhandled_append_self s.hooked x
  have others : ∀ {i}, entry.faultIndex ≠ i → (Unhandled (s.hooked ++ [x]) i ↔ Unhandled s.hooked i) := by
    intro i other
    exact unhandled_append_of_ne s.hooked x (index ▸ other)
  -- the hooks have now got all that is popped
  have all : ∀ p, (hookedFrom (s.hooked ++ [x]) p).length = (s.queues p).popped.length := by
    intro p
    have answered : Inv cfg { s with hooked := s.hooked ++ [x], cpc := cpc } := inv.answered here free
    have log := congrArg length (answered.log.popped p)
    rw [hand_of_free free, append_nil, length_map] at log
    exact log.symm
  have lagging : ∀ i, Lagging { s with hooked := s.hooked ++ [x], cpc := cpc } i ↔ Unmarked s i := by
    intro i
    constructor
    · rintro ⟨c,k,rest⟩
      rw [all] at rest
      exact ⟨c,k,rest⟩
    · rintro ⟨c,k,rest⟩
      refine ⟨c,k,?_⟩
      rw [all]
      exact rest
  have unmarked : ∀ {i}, entry.faultIndex ≠ i → (Unmarked s i ↔ Lagging s i) := by
    intro i other
    constructor
    · rintro ⟨c,k,fault,mark,popped,claimed⟩
      refine ⟨c,k,fault,mark,?_,claimed⟩
      by_contra unanswered
      have done := (inv.popped_report popped claimed).2
      have held := inv.inHand here popped (Nat.not_lt.1 unanswered) claimed
      rw [(inv.reports c).arg (by rw [done]; nofun), FaultEntry.ofWords_words] at held
      exact other (held ▸ fault)
    · rintro ⟨c,k,fault,mark,passed,claimed⟩
      exact ⟨c,k,fault,mark,lt_of_lt_of_le passed (inv.hookedFrom_le _),claimed⟩
  constructor
  case reported => exact h.reported
  case unhandled =>
    intro i last
    rw [lagging i]
    by_cases same : entry.faultIndex = i
    · subst same
      rw [if_neg (mine.1 last)] at guard
      exact guard
    · rw [unmarked same]
      exact h.unhandled i ((others same).1 last)
  case owed =>
    intro i active last clearing
    by_cases same : entry.faultIndex = i
    · subst same
      have action_eq : action = .kHandled := by
        by_contra ne
        exact last (mine.2 ne)
      exact absurd rfl (clearing v entry ((clear v entry).2 ⟨action_eq,rfl,rfl⟩))
    · obtain ⟨p,k,y,owed,claimed,fault⟩ := h.owed i active (fun l => last ((others same).2 l)) (by rw [here]; nofun)
      refine ⟨p,k,y,?_,claimed,fault⟩
      rw [all]
      by_contra popped
      have held := inv.inHand here (Nat.not_le.1 popped) owed claimed
      exact same (held ▸ fault)
  case lagging =>
    intro i late
    rw [lagging i] at late
    by_cases same : entry.faultIndex = i
    · subst same
      refine mine.2 fun action_eq => ?_
      rw [if_pos action_eq] at guard
      exact guard late
    · exact (others same).2 (h.lagging i ((unmarked same).1 late))
  case clearing =>
    intro w e at_
    obtain ⟨action_eq,-,rfl⟩ := (clear w e).1 at_
    exact fun last => mine.1 last action_eq

omit inv in
theorem Active.clear (here : s.cpc = .clear v entry) :
    Active { s with bitmap := clearFaultActive s.bitmap entry.faultIndex, cpc := .addProcessed v } := by
  have handled := h.clearing v entry here
  constructor
  case reported =>
    intro i active
    rw [isFaultActive_clear, Bool.and_eq_true] at active
    exact h.reported i active.2
  case unhandled =>
    intro i last
    have other : i ≠ entry.faultIndex := by
      rintro rfl
      exact handled last
    rw [isFaultActive_clear, decide_eq_true other, Bool.true_and]
    exact h.unhandled i last
  case owed =>
    intro i active last _
    rw [isFaultActive_clear, Bool.and_eq_true, decide_eq_true_eq] at active
    refine h.owed i active.2 last fun w e at_ => ?_
    cases here.symm.trans at_
    exact active.1.symm
  case lagging => exact h.lagging
  case clearing => nofun

theorem Active.rest (frame : t = { t with
      bitmap := s.bitmap, hooked := s.hooked, report := s.report, pc := s.pc, queues := s.queues })
    (clear : ∀ v entry, t.cpc = .clear v entry ↔ s.cpc = .clear v entry) : Active t := by
  rw [frame]
  exact h.keep inv rfl rfl (fun d _ => ⟨rfl,rfl,id⟩) (fun _ => prefix_rfl) (fun _ _ _ => rfl) clear

variable [DecidableEq ι] {pc : ReportPC}

theorem Active.beside (ring : Mpsc.next cfg.queue b (s.queues p) = some q)
    (clear : ∀ v entry, s.cpc ≠ .clear v entry) (clear' : ∀ v entry, cpc ≠ .clear v entry) :
    Active { s with queues := update s.queues p q, cpc := cpc } := by
  refine h.keep inv rfl rfl (fun d _ => ⟨rfl,rfl,id⟩) ?_ ?_ fun v entry => ⟨fun at_ => absurd at_ (clear' v entry),
    fun at_ => absurd at_ (clear v entry)⟩
  · exact (queue_kept ring).1
  · exact (queue_kept ring).2

theorem Active.answer (guard : marked cfg s (.answer action)) (step : answerNext cfg action s = some t) : Active t := by
  obtain ⟨v,entry,event,here,⟨frame,on⟩ | ⟨rfl,p,q,higher,ring,rfl⟩⟩ := answerNext_eq step
  · have follows := guard.2 v entry event here
    rw [frame]
    rcases on with ⟨handled,eq⟩ | ⟨other,eq | eq⟩ <;> rw [eq] <;> refine h.answered inv here follows rfl fun w e => ?_
    · constructor
      · rintro ⟨⟩
        exact ⟨handled,rfl,rfl⟩
      · rintro ⟨-,rfl,rfl⟩
        rfl
    all_goals exact ⟨nofun,fun both => absurd both.1 other⟩
  · have free : ConsumerPC.free (.addProcessed v) = true := rfl
    have answered := h.answered inv here (guard.2 v entry event here) free fun w e => ⟨nofun,nofun⟩
    obtain ⟨claims,args⟩ := queue_kept (show Mpsc.next cfg.queue (.push _ _) _ = _ from ring)
    exact answered.keep (inv.answered here rfl) rfl rfl (fun c _ => ⟨rfl,rfl,id⟩) claims args fun _ _ => ⟨nofun,nofun⟩

theorem Active.setActive (here : s.pc c = .setActive) :
    Active ({ s with bitmap := setFaultActive s.bitmap (s.report c).faultIndex }.goto c (.done .success)) := by
  have ring := (inv.reports c).own
  rw [here] at ring
  have done : (s.queues (s.report c).priority).pc (.inl c) = .done true := ring
  obtain ⟨k,inside,at_⟩ := getElem_of_mem (((inv.rings _).claimed (.inl c)).2 (by rw [done]; rfl))
  have claimed : (s.queues (s.report c).priority).claims[k]? = some (.inl c) := List.getElem?_eq_some_iff.2 ⟨inside,at_⟩
  have later : ∀ i, Lagging ({ s with bitmap := setFaultActive s.bitmap (s.report c).faultIndex }.goto c (.done .success)) i →
      Lagging s i := by
    rintro i ⟨d,j,fault,mark,rest⟩
    refine ⟨d,j,fault,?_,rest⟩
    by_cases same : d = c
    · subst same
      simp only [State.goto, update_self] at mark
      cases mark
    · simpa only [State.goto, update_of_ne same] using mark
  constructor
  case reported =>
    intro i active
    simp only [State.goto, isFaultActive_set, Bool.or_eq_true, decide_eq_true_eq] at active
    rcases active with rfl | active
    · exact ⟨c,rfl,update_self ..⟩
    · obtain ⟨d,fault,success⟩ := h.reported i active
      refine ⟨d,fault,?_⟩
      have other : d ≠ c := by
        rintro rfl
        rw [here] at success
        cases success
      simpa only [State.goto, update_of_ne other] using success
  case unhandled =>
    intro i last
    simp only [State.goto, isFaultActive_set, Bool.or_eq_true, decide_eq_true_eq]
    by_cases same : i = (s.report c).faultIndex
    · exact .inl (.inl same)
    · rcases h.unhandled i last with active | ⟨d,j,fault,mark,rest⟩
      · exact .inl (.inr active)
      · refine .inr ⟨d,j,fault,?_,rest⟩
        have other : d ≠ c := by
          rintro rfl
          exact same fault.symm
        simpa only [State.goto, update_of_ne other] using mark
  case owed =>
    intro i active last clearing
    simp only [State.goto, isFaultActive_set, Bool.or_eq_true, decide_eq_true_eq] at active
    rcases active with rfl | active
    · -- a report that a hook got already would have been lagging, against the last answer
      refine ⟨(s.report c).priority,k,.inl c,?_,claimed,?_⟩
      · by_contra passed
        exact last (h.lagging _ ⟨c,k,rfl,by rw [here]; rfl,Nat.not_le.1 passed,claimed⟩)
      · show (FaultEntry.ofWords ((s.queues (s.report c).priority).arg (.inl c))).faultIndex = _
        rw [(inv.reports c).arg (by simp [done]), FaultEntry.ofWords_words]
    · exact h.owed i active last clearing
  case lagging => exact fun i late => h.lagging i (later i late)
  case clearing => exact h.clearing

theorem Active.goto {stats : Stats} {breaker : Nat} (mark : pc.unmarked = (s.pc c).unmarked)
    (running : s.pc c ≠ .done .success) : Active ({ s with stats := stats, breaker := breaker }.goto c pc) := by
  refine h.keep inv rfl rfl (fun d _ => ⟨rfl,?_⟩) (fun _ => prefix_rfl) (fun _ _ _ => rfl) fun _ _ => Iff.rfl
  exact (forall_update_iff s.pc fun d pc => pc.unmarked = (s.pc d).unmarked ∧
    (s.pc d = .done .success → pc = .done .success)).2 ⟨⟨mark,(absurd · running)⟩,fun _ _ => ⟨rfl,id⟩⟩ d

theorem Active.inQueue (unpublished : (s.queues (s.report c).priority).pc (.inl c) ≠ .done true)
    (ring : Mpsc.next cfg.queue b (s.queues (s.report c).priority) = some q) :
    Active ({ s with queues := update s.queues (s.report c).priority q }.goto c pc) := by
  obtain ⟨claims,args⟩ := queue_kept ring
  refine h.keep inv rfl rfl (fun d done => ⟨rfl,?_⟩) claims args fun _ _ => Iff.rfl
  have other : d ≠ c := by
    rintro rfl
    exact unpublished done
  simp only [State.goto, update_of_ne other]
  exact ⟨trivial,id⟩

theorem Active.reporter (step : reporterNext cfg c spurious s = some t) : Active t := by
  have own := (inv.reports c).own
  cases here : s.pc c <;> simp only [reporterNext, here] at step
  case idle | done outcome => cases step
  case loadProd | addDropped | addTotalDropped | onOverflow | addReported | addTotalReported =>
    cases step
    exact h.goto inv (by rw [here]; rfl) (by simp [here])
  case loadCons prod =>
    split at step
    · obtain ⟨q,ring,rfl⟩ := onQueue_map_eq step
      obtain ⟨-,idle,-⟩ := Mpsc.pushNext_own ring
      exact h.inQueue inv (by simp [idle]) ring
    · cases step
      exact h.goto inv (by rw [here]; rfl) (by simp [here])
  case pushing =>
    obtain ⟨q,ring,rfl⟩ := onQueue_map_eq step
    obtain ⟨-,-,running,-⟩ := Mpsc.producerNext_own ring
    exact h.inQueue inv ((Mpsc.PC.ne_of_running running).2 true) ring
  case setActive =>
    cases step
    exact h.setActive inv here

theorem Active.report (step : reportNext cfg c entry s = some t) : Active t := by
  unfold reportNext at step
  obtain ⟨idle,⟨⟩⟩ := enabled step
  have silent := (inv.reports c).own
  rw [idle] at silent
  refine h.keep inv rfl rfl (fun d done => ?_) (fun _ => prefix_rfl) (fun _ _ _ => rfl) fun _ _ => Iff.rfl
  have other : d ≠ c := by
    rintro rfl
    rw [show (s.queues (s.report d).priority).pc (.inl d) = .idle from silent] at done
    cases done
  simp only [State.goto, update_of_ne other]
  exact ⟨trivial,trivial,id⟩

theorem Active.copyIn (step : copyInNext cfg c i s = some t) : Active t := by
  unfold copyInNext at step
  obtain ⟨here,step⟩ := enabled step
  obtain ⟨q,ring,rfl⟩ := onQueue_eq step
  obtain ⟨-,-,running,-⟩ := Mpsc.copyInNext_own ring
  have moved : Active ({ s with queues := update s.queues (s.report c).priority q }.goto c (s.pc c)) :=
    h.inQueue inv ((Mpsc.PC.ne_of_running running).2 true) ring
  simpa only [State.goto, Function.update_eq_self] using moved

theorem Active.copyOut (step : copyOutNext cfg i s = some t) : Active t := by
  obtain ⟨v,q,here,ring,rfl⟩ := copyOutNext_eq step
  exact h.beside inv (b := .copyOut i) ring (by simp [here]) (by simp [here])

theorem Active.copyEscalated (step : copyEscalatedNext cfg i s = some t) : Active t := by
  obtain ⟨v,entry,p,q,here,-,ring,rfl⟩ := copyEscalatedNext_eq step
  exact h.beside inv (b := .copyIn _ i) ring (by simp [here]) (by simp [here])

theorem Active.consumer (step : consumerNext cfg spurious s = some t) : Active t := by
  cases here : s.cpc <;> simp only [consumerNext, here] at step
  case hook v entry event | exited => cases step
  case drain v =>
    obtain ⟨q,ring,rfl⟩ := onQueue_map_eq step
    exact h.beside inv ring (by simp [here]) (by simp)
  case popping v =>
    obtain ⟨q,ring,rfl⟩ := onQueue_map_eq step
    refine h.beside inv ring (by simp [here]) fun w e => ?_
    unfold Visit.popped
    split
    · exact v.ne_clear w e
    · simp
    · simp
  case count v entry =>
    split at step <;> cases step <;> refine h.rest inv rfl fun w e => ?_ <;> rw [here] <;> exact ⟨by simp [Visit.more],by simp⟩
  case clear v entry =>
    cases step
    exact h.clear here
  case escalate v entry =>
    split at step
    · obtain ⟨q,ring,rfl⟩ := onQueue_map_eq step
      refine h.beside inv ring (by simp [here]) fun w e => ?_
      unfold Visit.pushed
      split <;> simp
    · cases step
  case loadRunning | sampleCons _ _ _ _ | onWatermark _ _ =>
    cases step
    refine h.rest inv rfl fun w e => ?_
    rw [here]
    refine ⟨?_,by simp⟩
    dsimp only
    split <;> simp
  case loadShutdown | requestShutdown _ | addProcessed _ | dispatchCycle _ | sampleProd _ _ _ | wait =>
    cases step
    refine h.rest inv rfl fun w e => ?_
    rw [here]
    exact ⟨by simp [Visit.more],by simp⟩

end

variable [DecidableEq ι]

/-- The bitmap follows the answers in every step. -/
theorem Active.next {a : Act ι} (h : Active s) (inv : Inv cfg s) (guard : marked cfg s a)
    (step : next cfg a s = some t) : Active t := by
  cases a with
  | report c entry => exact h.report inv step
  | reporter c spurious => exact h.reporter inv step
  | copyIn c i => exact h.copyIn inv step
  | consumer spurious => exact h.consumer inv step
  | copyOut i => exact h.copyOut inv step
  | copyEscalated i => exact h.copyEscalated inv step
  | answer action => exact h.answer inv guard step
  | callStop =>
    simp only [Fault.next] at step
    obtain ⟨_,⟨⟩⟩ := enabled step
    exact h.rest inv rfl fun _ _ => Iff.rfl
  | stopper =>
    rw [stopperNext_frame step]
    exact h.rest inv rfl fun _ _ => Iff.rfl

theorem reach_active (h : Reach (machine cfg entry) (marked cfg) s) : Inv cfg s ∧ Active s := by
  have clean : ∀ i, isFaultActive (fun _ => 0#64) i = false := by
    intro i
    rw [isFaultActive_eq]
    exact BitVec.getLsbD_zero
  have base : Active (State.init (ι := ι) entry) := by
    constructor
    case reported | owed => exact fun i active => absurd active (by rw [State.init, clean]; nofun)
    case unhandled => rintro i ⟨_,no,_⟩; cases no
    case lagging => rintro i ⟨_,_,_,mark,_⟩; cases mark
    case clearing => nofun
  apply h.invariant (I := fun s => Inv cfg s ∧ Active s) ⟨init_inv cfg entry,base⟩
  intro s t a _ ih guard step
  exact ⟨next_inv ih.1 guard.1 step,ih.2.next ih.1 guard step⟩

end

section

variable [DecidableEq ι]

/-- No call is running and all queues are empty. -/
structure Quiet (s : State ι) : Prop where
  reports : ∀ c, s.pc c = .idle ∨ ∃ o, s.pc c = .done o
  consumer : s.cpc.visit = none
  empty : ∀ p, (s.queues p).claims.length = (s.queues p).popped.length

/-- **When nothing is going on, the active faults are those whose last entry was not handled.** -/
theorem active_iff_last_unhandled {entry : FaultEntry} (h : Reach (machine cfg entry) (marked cfg) s) (quiet : Quiet s)
    (i : UInt16) : isFaultActive s.bitmap i = true ↔
      (∃ c, (s.report c).faultIndex = i ∧ s.pc c = .done .success) ∧ Unhandled s.hooked i := by
  obtain ⟨inv,bits⟩ := reach_active h
  constructor
  · intro active
    refine ⟨bits.reported i active,?_⟩
    by_contra handled
    have still : ∀ v entry, s.cpc = .clear v entry → entry.faultIndex ≠ i := by
      intro v entry here
      have visit := quiet.consumer
      rw [here] at visit
      cases visit
    obtain ⟨p,k,x,owed,claimed,-⟩ := bits.owed i active handled still
    -- an entry that no hook has got is not popped: there is none in the hand of a consumer at rest
    have log := congrArg length (inv.log.popped p)
    have free : s.cpc.free = true := by
      have visit := quiet.consumer
      revert visit
      cases s.cpc <;> intro visit <;> first | rfl | cases visit
    rw [hand_of_free free, append_nil, length_map] at log
    have inside := (List.getElem?_eq_some_iff.1 claimed).1
    have empty := quiet.empty p
    omega
  · rintro ⟨-,last⟩
    rcases bits.unhandled i last with active | ⟨c,k,-,mark,-⟩
    · exact active
    · rcases quiet.reports c with idle | ⟨o,done⟩
      · rw [idle] at mark
        cases mark
      · rw [done] at mark
        cases mark

def markedCheck (s : State (Fin 1)) (a : Act (Fin 1)) : Bool := orderlyCheck s a && match a with
  | .answer .kHandled => ∀ c, (s.pc c).unmarked = false
  | .answer _ => match s.cpc with
    | .hook _ entry _ => isFaultActive s.bitmap entry.faultIndex
    | _ => true
  | _ => true

theorem markedCheck_sound (s : State (Fin 1)) (a : Act (Fin 1)) (passes : markedCheck s a = true) : marked pairs s a := by
  unfold markedCheck at passes
  rw [Bool.and_eq_true] at passes
  refine ⟨(orderlyCheck_sound s a passes.1).1,?_⟩
  cases a with
  | answer action =>
    intro v entry event here
    have follows := passes.2
    by_cases handled : action = .kHandled
    · subst handled
      rw [if_pos rfl]
      rintro ⟨c,k,-,mark,-⟩
      rw [of_decide_eq_true follows c] at mark
      cases mark
    · rw [if_neg handled]
      cases action with
      | kHandled => exact absurd rfl handled
      | _ => exact .inl (by simpa only [here] using follows)
  | _ => trivial

theorem quiet_of_checked {s : State (Fin 1)} (done : s.pc 0 = .done .success) (consumer : s.cpc.visit = none)
    (empty : ∀ p ∈ [FaultPriority.kCritical, .kHigh, .kMedium, .kLow],
      (s.queues p).claims.length = (s.queues p).popped.length) : Quiet s where
  reports c := .inr ⟨_, Subsingleton.elim 0 c ▸ done⟩
  consumer := consumer
  empty p := empty p (by cases p <;> decide)

/-- A fault that its hook defers stays active. -/
theorem active_iff_last_unhandled_deferred : ∃ s : State (Fin 1),
    Reach (machine pairs mediumFault) (marked pairs) s ∧ Quiet s ∧ s.hooked.map (·.action) = [.kDefer] ∧
    (isFaultActive s.bitmap 2 = true ↔
      (∃ c, (s.report c).faultIndex = 2 ∧ s.pc c = .done .success) ∧ Unhandled s.hooked 2) := by
  obtain ⟨s,reached,done,consumer,empty,hooked⟩ := reach_of_run (machine pairs mediumFault) markedCheck_sound
      (reportRun 0 ++ replicate 6 (.consumer false) ++ takeRun ++ [.answer .kDefer] ++ replicate 5 (.consumer false))
      (fun s => s.pc 0 = .done .success ∧ s.cpc.visit = none ∧
        (∀ p ∈ [FaultPriority.kCritical, .kHigh, .kMedium, .kLow],
          (s.queues p).claims.length = (s.queues p).popped.length) ∧
        s.hooked.map (·.action) = [.kDefer]) (by decide +kernel)
  have quiet := quiet_of_checked done consumer empty
  exact ⟨s,reached,quiet,hooked,active_iff_last_unhandled reached quiet 2⟩

/-- The consumer handles the entry before the report sets the bit: the only entry of the fault was handled, and the fault
stays active. -/
theorem handled_stays_active : ∃ s : State (Fin 1),
    Reach (machine pairs mediumFault) (prompt pairs) s ∧ Quiet s ∧ s.hooked.map (·.action) = [.kHandled] ∧
    isFaultActive s.bitmap 2 = true ∧ ¬ Unhandled s.hooked 2 := by
  obtain ⟨s,reached,done,consumer,empty,hooked,active,last⟩ := reach_of_run
    (machine pairs mediumFault) (fun s a passes => (orderlyCheck_sound s a passes).1)
      ((reportRun 0).take 11 ++ replicate 6 (.consumer false) ++ takeRun ++ [.answer .kHandled] ++
        replicate 6 (.consumer false) ++ (reportRun 0).drop 11)
      (fun s => s.pc 0 = .done .success ∧ s.cpc.visit = none ∧
        (∀ p ∈ [FaultPriority.kCritical, .kHigh, .kMedium, .kLow],
          (s.queues p).claims.length = (s.queues p).popped.length) ∧
        s.hooked.map (·.action) = [.kHandled] ∧ isFaultActive s.bitmap 2 = true ∧
        lastAction s.hooked 2 = some .kHandled) (by decide +kernel)
  refine ⟨s,reached,quiet_of_checked done consumer empty,hooked,active,?_⟩
  rintro ⟨a,eq,ne⟩
  rw [last] at eq
  cases eq
  exact ne rfl

end

end Newosp.Fault
