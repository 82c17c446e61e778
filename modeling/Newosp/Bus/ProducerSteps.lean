import Newosp.Bus.Accounting

/-!
# The steps of the publish calls

Most steps of `PublishInternal` and `TryEvictAndPublish` are local to the call (`local_step`); the others claim a
position, reserve or restore a published one, or write one part of an owned node.
-/

namespace Newosp.Bus
open Lib List Function

variable {ι α : Type} {cfg : Config} {req : ι → Request α} {s : State ι α} {st : Nat → Status ι} {c : ι} {p : Nat}
  {pc : PC} {hold : Hold}

theorem window_cover (cfg : Config) (s : State ι α) (p : Nat) :
    ∃ q, InWindow cfg s q ∧ q % cfg.queueDepth = p % cfg.queueDepth := by
  have two := cfg.queueDepth_two_le
  obtain ⟨lo,hi,same⟩ := cover_mod (K := cfg.queueDepth) (by omega) s.released p
  exact ⟨_,⟨lo,hi⟩,same⟩

theorem RingInv.published_of_seq (h : RingInv cfg req s st) (hi : p < s.released + cfg.queueDepth)
    (seq : (s.mem.ring (p % cfg.queueDepth)).sequence = p + 1) : InWindow cfg s p ∧ ∃ m, st p = .published m := by
  have two := cfg.queueDepth_two_le
  obtain ⟨q,win,same⟩ := window_cover cfg s p
  have shown := h.sequence q win
  rw [same, seq] at shown
  have at_p : p = q := by
    have := win.1
    have := win.2
    by_contra ne
    -- another position of the node is at least one ring later, and so is its number
    have later : p + cfg.queueDepth ≤ q := by
      by_contra near
      exact ne (index_inj (by omega) (by omega) same.symm)
    cases eq : st q <;> simp only [eq, Status.seq] at shown <;> omega
  subst at_p
  refine ⟨win,?_⟩
  cases eq : st p with
  | published m => exact ⟨m,rfl⟩
  | _ => simp only [eq, Status.seq] at shown; omega

theorem RingInv.room_of_seq (h : RingInv cfg req s st)
    (seq : (s.mem.ring (s.claims.length % cfg.queueDepth)).sequence = s.claims.length) :
    s.claims.length < s.released + cfg.queueDepth := by
  have two := cfg.queueDepth_two_le
  have room := h.room
  by_contra full
  have last : s.claims.length = s.released + cfg.queueDepth := by omega
  -- in a full ring the node still shows the oldest position
  have shown := h.sequence s.released ⟨le_rfl,by omega⟩
  rw [last, Nat.add_mod_right] at seq
  rw [seq] at shown
  cases eq : st s.released <;> simp only [eq, Status.seq] at shown <;> omega

theorem message_update {x : Status ι} (same : x.message = (st p).message) (q : Nat) :
    (update st p x q).message = (st q).message := update_same Status.message same q

theorem CallOk.owned (h : CallOk cfg req s st c pc) (small : Unwrapped cfg s)
    (cons : s.mem.consumerPos ≤ s.claims.length) (position : pc.position = some p) :
    InWindow cfg s p ∧ (st p).owner = some c := by
  unfold Unwrapped at small
  have scan : ∀ {cons i}, ScanOk cfg req s c cons i → wrap32 (cons + i) = cons + i :=
    fun ok => wrap32_of_lt (by have := ok.2.1; have := ok.2.2.2; omega)
  have untouched : ∀ hold, Untouched cfg req s st c hold →
      InWindow cfg s hold.pos ∧ (st hold.pos).owner = some c := by
    intro hold u
    cases hold with
    | claimed q => exact ⟨u.1,by rw [Hold.pos, u.2]; rfl⟩
    | reserved q =>
      obtain ⟨win,-,m,eq,-⟩ := u
      exact ⟨win,by rw [Hold.pos, eq]; rfl⟩
  have writing : ∀ hold, Writing cfg req s st c hold → InWindow cfg s hold.pos ∧ (st hold.pos).owner = some c := by
    intro hold w
    cases hold with
    | claimed q => exact ⟨w.1,by rw [Hold.pos, w.2]; rfl⟩
    | reserved q => exact ⟨w.1,by rw [Hold.pos, w.2.2]; rfl⟩
  cases pc with
  | scanVerify id prod cons i | scanRestore id prod cons i =>
    obtain ⟨ok,win,m,eq⟩ := h
    simp only [PC.position, scan ok, Option.some.injEq] at position
    subst position
    exact ⟨win,by rw [eq]; rfl⟩
  | fetchId hold | writeHeader hold msgId =>
    cases position
    exact untouched hold h
  | writePayload hold | storePriority hold | storeSequence hold =>
    cases position
    exact writing hold h.1
  | _ => cases position

theorem scanAt_ok {id prod cons i : Nat} (high : (req c).priority = .kHigh)
    (le : cons ≤ s.mem.consumerPos) (lo : 1 ≤ i) : CallOk cfg req s st c (scanAt cfg id prod cons i) := by
  unfold scanAt
  split
  · split
    · trivial
    · exact ⟨high,le,lo,‹_›⟩
  · trivial

@[simp] theorem scanAt_position (id prod cons i : Nat) : (scanAt cfg id prod cons i).position = none := by
  unfold scanAt
  split <;> [split; skip] <;> rfl

@[simp] theorem scanAt_published (id prod cons i : Nat) : (scanAt cfg id prod cons i).published = false := by
  unfold scanAt
  split <;> [split; skip] <;> rfl

/-- The status of a position while its owner writes the node. -/
def Hold.status (c : ι) : Hold → Status ι
  | .claimed _ => .claimed c
  | .reserved _ => .reserved c none

theorem Hold.status_owned (hold : Hold) (c : ι) : (hold.status c).owner = some c ∧ hold.status c ≠ .free ∧
    (∀ m, hold.status c ≠ .consuming m) ∧ (hold.status c).message = none := by
  cases hold <;> exact ⟨rfl,nofun,nofun,rfl⟩

theorem Writing.status (w : Writing cfg req s st c hold) : InWindow cfg s hold.pos ∧ st hold.pos = hold.status c := by
  cases hold with
  | claimed p => exact w
  | reserved p => exact ⟨w.1,w.2.2⟩

theorem Writing.keep {s' : State ι α} (w : Writing cfg req s st c hold) (released : s'.released = s.released) :
    Writing cfg req s' (update st hold.pos (hold.status c)) c hold := by
  cases hold with
  | claimed p => exact ⟨by rw [InWindow, released]; exact w.1,update_self ..⟩
  | reserved p => exact ⟨by rw [InWindow, released]; exact w.1,w.2.1,update_self ..⟩

section

variable [DecidableEq ι] {place : ι → Place} {s' : State ι α} {spurious : Bool}

/-- The invariant of the bus: some statuses and places fit the state. -/
def Inv (cfg : Config) (req : ι → Request α) (s : State ι α) : Prop :=
  ∃ st place, RingInv cfg req s st ∧ LogInv cfg req s st place

theorem goto_visible {now pc' : PC} (here : s.pc c = now) (visible : pc'.published = now.published) (d : ι) :
    (update s.pc c pc' d).published = (s.pc d).published := update_same PC.published (here ▸ visible) d

section

theorem Content.storeSequence {j v : Nat} {m : ι} (h : Content req s j m) :
    Content req ({ s with mem := s.mem.storeSequence j v }.goto c pc') j m := by
  simpa [Content, HeaderOf, PayloadOf, Memory.storeSequence] using h

theorem producerNext_claims
    (step : producerNext cfg req c spurious s = some s') : s.claims.length ≤ s'.claims.length := by
  cases here : s.pc c <;> simp only [producerNext, here] at step
  case idle | done => cases step
  case casPos | scanCas =>
    split at step <;> cases step <;> simp
  all_goals
    cases step
    simp

variable (h : RingInv cfg req s st) (l : LogInv cfg req s st place) {id prod cons i : Nat} {pc' : PC} {msgId : Nat}
include h l

theorem local_step (here : s.pc c = pc) (m' : Memory α) {g : ι → Nat} (ring : m'.ring = s.mem.ring)
    (prod : m'.producerPos = s.mem.producerPos) (cons : m'.consumerPos = s.mem.consumerPos)
    (position : pc'.position = pc.position) (visible : pc'.published = pc.published) (ok : CallOk cfg req s st c pc') :
    Inv cfg req ({ s with mem := m', loaded := g }.goto c pc') :=
  ⟨st, place, h.move ring prod cons (by rw [here, position]) ok,
    l.keep (fun _ _ => rfl) (goto_visible here visible) rfl⟩

theorem goto_step {pc pc' : PC} (here : s.pc c = pc) (position : pc'.position = pc.position)
    (visible : pc'.published = pc.published) (ok : CallOk cfg req s st c pc') : Inv cfg req (s.goto c pc') :=
  local_step h l here s.mem rfl rfl rfl position visible ok

theorem claim_step {id pos : Nat} (here : s.pc c = .casPos id pos) (current : s.mem.producerPos = pos)
    (small : s.claims.length + 1 + 3 * cfg.queueDepth < 4294967296) :
    Inv cfg req ({ s with mem := { s.mem with producerPos := wrap32 (pos + 1) },
                          claims := s.claims ++ [(c, pos)] }.goto c (.fetchId (.claimed pos))) := by
  have call := h.calls c
  rw [here] at call
  have next : pos = s.claims.length := by rw [← current]; exact h.prodPos
  subst next
  have hi := call.2 rfl
  have win : InWindow cfg s s.claims.length := ⟨h.released_le,hi⟩
  have free : st s.claims.length = .free := (h.free_iff _ win).2 le_rfl
  refine ⟨update st s.claims.length (.claimed c),place,?_,?_⟩
  · refine .of_positions ?prodPos ?claimPos h.cons_le ?released_le ?room ?positions ?calls ?consumer
    case prodPos =>
      simp only [State.goto_mem, State.goto_claims, length_append, length_singleton]
      exact wrap32_of_lt (by omega)
    case claimPos => simp [h.claimPos, range_succ]
    case released_le =>
      simp only [State.goto_released, State.goto_claims, length_append]
      exact Nat.le_add_right_of_le h.released_le
    case room =>
      simp only [State.goto_released, State.goto_claims, length_append, length_singleton]
      exact hi
    case positions =>
      refine (forall_update_iff st fun q x => InWindow cfg s q → PositionOk cfg req _ q x).2 ⟨fun _ => ?_,fun q ne wq => ?_⟩
      · refine ⟨by simp,?_,nofun,?_,nofun⟩
        · have shown := h.sequence _ win
          rwa [free] at shown
        · rintro d ⟨⟩
          rw [State.goto_pc_self]
          rfl
      · refine (h.position wq).keep ?_ ⟨rfl,rfl,rfl⟩ (fun d _ held => ?_) fun head => head
        · simp only [State.goto_claims, length_append, length_singleton]
          omega
        · have other : d ≠ c := by
            rintro rfl
            rw [here] at held
            cases held
          rw [State.goto_pc_of_ne _ _ _ other]
          exact held
    case calls =>
      refine (forall_update_iff s.pc fun d pc => CallOk cfg req _ _ d pc).2 ⟨⟨win,update_self ..⟩,fun d _ => ?_⟩
      refine (h.calls d).transport (by simp) le_rfl le_rfl fun q wq owns => ?_
      have ne : q ≠ s.claims.length := by
        rintro rfl
        rw [free] at owns
        cases owns
      exact ⟨wq,update_of_ne ne ..,rfl,rfl,rfl⟩
    case consumer =>
      refine h.consumer.transport rfl rfl fun m eq => ?_
      rw [update_of_ne]
      · exact eq
      · intro same
        rw [same, free] at eq
        cases eq
  · exact l.keep (fun q _ => message_update (by rw [free]; rfl) q) (goto_visible here rfl) rfl

/-! ## Steps on an owned node -/

theorem reserve_step (here : s.pc c = .scanCas id prod cons i) (scanned : cons + i = p)
    (plain : wrap32 p = p) (seq : (s.mem.ring (p % cfg.queueDepth)).sequence = p + 1) :
    Inv cfg req ({ s with
      mem := s.mem.storeSequence (p % cfg.queueDepth) (p + 1 + 2 * cfg.queueDepth) }.goto c
        (.scanVerify id prod cons i)) := by
  subst scanned
  have scan : ScanOk cfg req s c cons i := by have := h.calls c; rwa [here] at this
  have before := h.cons_le
  obtain ⟨win,m,eq⟩ := h.published_of_seq (by have := scan.2.1; have := scan.2.2.2; omega) seq
  refine ⟨update st (cons + i) (.reserved c (some m)),place,?_,?_⟩
  · refine h.own rfl (fun _ _ => rfl) (fun _ _ => rfl) win eq (.inl rfl) nofun nofun nofun nofun rfl ?_ here (.inl rfl)
      (.inr ⟨rfl,?_⟩) ⟨scan,win,m,update_self ..⟩
    · rintro m' ⟨⟩
      exact (h.content _ m win (by rw [eq]; rfl)).storeSequence
    · rw [PC.position, plain]
  · exact l.keep (fun q _ => message_update (by rw [eq]; rfl) q) (goto_visible here rfl) rfl

theorem restore_step (here : s.pc c = .scanRestore id prod cons i) (scanned : cons + i = p)
    (plain : wrap32 p = p) : Inv cfg req ({ s with mem := s.mem.storeSequence (p % cfg.queueDepth) (p + 1) }.goto c
      (scanAt cfg id prod cons (i + 1))) := by
  subst scanned
  have call := h.calls c
  rw [here] at call
  obtain ⟨⟨high,le,lo,hi⟩,win,m,eq⟩ := call
  refine ⟨update st (cons + i) (.published m),place,?_,?_⟩
  · refine h.own rfl (fun _ _ => rfl) (fun _ _ => rfl) win eq (.inr rfl) nofun nofun nofun nofun rfl ?_ here
      (.inr (by rw [PC.position, plain])) (.inl rfl) (scanAt_ok high le (by omega))
    rintro m' ⟨⟩
    exact (h.content _ m win (by rw [eq]; rfl)).storeSequence
  · exact l.keep (fun q _ => message_update (by rw [eq]; rfl) q) (goto_visible here (scanAt_published ..)) rfl

theorem header_claimed_step (here : s.pc c = .writeHeader (.claimed p) msgId) :
    Inv cfg req ({ s with mem := s.mem.setNode (p % cfg.queueDepth)
                            { s.mem.ring (p % cfg.queueDepth) with header := (req c).header msgId },
                          headerBy := update s.headerBy (p % cfg.queueDepth) (some c) }.goto c
                    (.writePayload (.claimed p))) := by
  have call := h.calls c
  rw [here] at call
  obtain ⟨win,eq⟩ := call
  refine ⟨update st p (.claimed c),place,?_,?_⟩
  · refine h.own rfl (fun _ ne => update_of_ne ne ..) (fun _ _ => rfl) win eq (.inr rfl) nofun nofun nofun nofun ?_ nofun
      here (.inr rfl) (.inr ⟨rfl,rfl⟩) ⟨⟨win,update_self ..⟩,update_self ..,msgId,by simp [Hold.pos]⟩
    have := h.sequence p win
    rwa [eq] at this
  · exact l.keep (fun q _ => message_update (by rw [eq]) q) (goto_visible here rfl) rfl

theorem header_reserved_step (here : s.pc c = .writeHeader (.reserved p) msgId) :
    Inv cfg req ({ s with mem := s.mem.setNode (p % cfg.queueDepth) { s.mem.ring (p % cfg.queueDepth) with
                                header := { (req c).header msgId with priority := .kHigh } },
                          headerBy := update s.headerBy (p % cfg.queueDepth) (some c),
                          evicted := s.evicted ++ [(s.payloadBy (p % cfg.queueDepth), c)] }.goto c
                    (.writePayload (.reserved p))) := by
  have call := h.calls c
  rw [here] at call
  obtain ⟨win,high,m,eq,low⟩ := call
  have content := h.content p m win (by rw [eq]; rfl)
  refine ⟨update st p (.reserved c none),update place m .evicted,?_,?_⟩
  · refine h.own rfl (fun _ ne => update_of_ne ne ..) (fun _ _ => rfl) win eq (.inr rfl) nofun nofun nofun nofun ?_ nofun
      here (.inr rfl) (.inr ⟨rfl,rfl⟩)
      ⟨⟨win,high,update_self ..⟩,update_self ..,msgId,by simp [Hold.pos, Request.header, high]⟩
    have := h.sequence p win
    rwa [eq] at this
  · exact l.evict win (by rw [eq]; rfl) low high rfl (goto_visible here rfl) content.2.1.1

theorem write_step {hold : Hold} {n : Node α} {pb : Nat → Option ι} (w : Writing cfg req s st c hold)
    (payloads : ∀ j, j ≠ hold.pos % cfg.queueDepth → pb j = s.payloadBy j)
    (seq : n.sequence = (s.mem.ring (hold.pos % cfg.queueDepth)).sequence)
    (position : (s.pc c).position = some hold.pos) (position' : pc'.position = some hold.pos)
    (visible : pc'.published = (s.pc c).published)
    (ok : ∀ s' : State ι α,
      s' = { s with mem := s.mem.setNode (hold.pos % cfg.queueDepth) n, payloadBy := pb }.goto c pc' →
      CallOk cfg req s' (update st hold.pos (hold.status c)) c pc') :
    Inv cfg req ({ s with mem := s.mem.setNode (hold.pos % cfg.queueDepth) n,
                          payloadBy := pb }.goto c pc') := by
  obtain ⟨win,eq⟩ := w.status
  obtain ⟨mine,taken,quiet,empty⟩ := hold.status_owned c
  refine ⟨update st hold.pos (hold.status c),place,?_,?_⟩
  · refine h.own rfl (fun _ _ => rfl) payloads win eq (.inr mine) taken quiet taken quiet ?_ ?_ rfl (.inr position)
      (.inr ⟨mine,position'⟩) (ok _ rfl)
    · rw [← eq, ← h.sequence _ win, ← seq]
    · intro m message
      rw [empty] at message
      cases message
  · exact l.keep (fun q _ => message_update (by rw [eq]) q) (goto_visible rfl visible) rfl

theorem publish_step {hold : Hold} (here : s.pc c = .storeSequence hold) (visible : pc'.published = true)
    (ok : ∀ s' st', CallOk cfg req s' st' c pc') :
    Inv cfg req ({ s with mem := s.mem.storeSequence (hold.pos % cfg.queueDepth) (hold.pos + 1) }.goto c pc') := by
  have call := h.calls c
  rw [here] at call
  obtain ⟨w,content⟩ := call
  obtain ⟨win,eq⟩ := w.status
  obtain ⟨mine,taken,quiet,empty⟩ := hold.status_owned c
  refine ⟨update st hold.pos (.published c),update place c (.pending hold.pos),
    ?_, ?_⟩
  · refine h.own rfl (fun _ _ => rfl) (fun _ _ => rfl) win eq (.inr mine) taken quiet nofun nofun rfl ?_ here (.inr rfl)
      (.inl rfl) (ok _ _)
    rintro m ⟨⟩
    exact content.storeSequence
  · exact l.publish win (by rw [eq, empty]) (by rw [here]; rfl) visible

/-! ## One step of a call -/

theorem scan_on {pc : PC} (here : s.pc c = pc) (position : pc.position = none)
    (hidden : pc.published = false) (ok : ScanOk cfg req s c cons i) :
    Inv cfg req (s.goto c (scanAt cfg id prod cons (i + 1))) :=
  goto_step h l here (by rw [scanAt_position, position]) (by rw [scanAt_published, hidden])
    (scanAt_ok ok.1 ok.2.1 (Nat.le_add_left ..))

end

/-- One step of a call. -/
theorem producer_step (h : RingInv cfg req s st) (l : LogInv cfg req s st place) (small : Unwrapped cfg s')
    (step : producerNext cfg req c spurious s = some s') : Inv cfg req s' := by
  have two := cfg.queueDepth_two_le
  have grows := producerNext_claims step
  have narrow : s.claims.length + 3 * cfg.queueDepth < 4294967296 := by
    unfold Unwrapped at small
    omega
  have consumed := h.cons_le
  have behind := h.released_le
  have call := h.calls c
  have plain : ∀ {cons i}, ScanOk cfg req s c cons i → wrap32 (cons + i) = cons + i :=
    fun ok => wrap32_of_lt (by have := ok.2.1; have := ok.2.2.2; omega)
  cases here : s.pc c <;> simp only [producerNext, here, Config.index_eq] at step <;> rw [here] at call
  case idle | done => cases step
  case loadId | loadCached =>
    cases step
    split <;> exact goto_step h l here rfl rfl trivial
  case loadProd =>
    cases step
    exact local_step h l here s.mem rfl rfl rfl rfl rfl trivial
  case loadReal =>
    cases step
    exact goto_step h l here rfl rfl trivial
  case addRecheck =>
    cases step
    split
    · split
      · exact local_step h l here _ rfl rfl rfl rfl rfl ‹_›
      · exact local_step h l here _ rfl rfl rfl rfl rfl trivial
    · exact local_step h l here _ rfl rfl rfl rfl rfl trivial
  case loadPos =>
    cases step
    exact local_step h l here s.mem rfl rfl rfl rfl rfl (le_of_eq h.prodPos)
  case loadSeq id pos =>
    cases step
    split
    · exact goto_step h l here rfl rfl call
    · rename_i match'
      refine goto_step h l here rfl rfl ⟨call,fun last => ?_⟩
      exact h.room_of_seq (by rw [← last]; exact Decidable.not_not.1 match')
  case loadCons id pos =>
    cases step
    split
    · exact goto_step h l here rfl rfl trivial
    · rename_i below
      refine goto_step h l here rfl rfl ⟨call,fun last => ?_⟩
      rw [last, sub32_of_le (by omega) (by omega)] at below
      omega
  case casPos id pos =>
    split at step
    · rename_i success
      cases step
      refine claim_step h l here success.1 ?_
      unfold Unwrapped at small
      simpa using small
    · cases step
      exact goto_step h l here rfl rfl trivial
  case scanProd =>
    cases step
    exact goto_step h l here rfl rfl call
  case scanCons id prod =>
    cases step
    exact goto_step h l here (scanAt_position ..) (scanAt_published ..) (scanAt_ok call le_rfl le_rfl)
  case scanSeq | scanPeek =>
    cases step
    split
    · exact scan_on h l here rfl rfl call
    · exact goto_step h l here rfl rfl call
  case scanCas id prod cons i =>
    have up := call.2.2.2
    have le := call.2.1
    rw [plain call] at step
    rw [wrap32_of_lt (n := cons + i + 1) (by omega),
      wrap32_of_lt (n := cons + i + 1 + 2 * cfg.queueDepth) (by omega)] at step
    split at step
    · cases step
      exact reserve_step h l here rfl (plain call) ‹_›
    · cases step
      exact scan_on h l here rfl rfl call
  case scanVerify id prod cons i =>
    cases step
    split
    · exact goto_step h l here rfl rfl call
    · rename_i low
      obtain ⟨ok,win,m,eq⟩ := call
      refine goto_step h l here rfl rfl ?_
      rw [plain ok] at low ⊢
      rw [(h.content _ m win (by rw [eq]; rfl)).2.2, MessagePriority.high_le_code] at low
      exact ⟨win,ok.1,m,eq,low⟩
  case scanRestore id prod cons i =>
    have up := call.1.2.2.2
    have le := call.1.2.1
    rw [plain call.1, wrap32_of_lt (n := cons + i + 1) (by omega)] at step
    cases step
    exact restore_step h l here rfl (plain call.1)
  case fetchId hold =>
    cases step
    exact local_step h l here _ rfl rfl rfl rfl rfl call
  case writeHeader hold msgId =>
    cases step
    cases hold with
    | claimed p => exact header_claimed_step h l here
    | reserved p => exact header_reserved_step h l here
  case writePayload hold =>
    cases step
    obtain ⟨w,header⟩ := call
    refine write_step h l w (fun _ ne => update_of_ne ne ..) rfl (by rw [here]; rfl) rfl (by rw [here]; rfl) ?_
    rintro s' rfl
    exact ⟨w.keep rfl,by simpa [HeaderOf] using header,by simp [PayloadOf]⟩
  case storePriority hold =>
    cases step
    obtain ⟨w,header,payload⟩ := call
    refine write_step h l w (fun _ _ => rfl) rfl (by rw [here]; rfl) rfl (by rw [here]; rfl) ?_
    rintro s' rfl
    refine ⟨w.keep rfl,by simpa [HeaderOf] using header,by simpa [PayloadOf] using payload,?_⟩
    cases hold with
    | claimed p => simp [Hold.pos]
    | reserved p => simp [Hold.pos, w.2.1]
  case storeSequence hold =>
    have hi : hold.pos + 1 < 4294967296 := by
      have := call.1.status.1.2
      omega
    rw [wrap32_of_lt hi] at step
    cases step
    cases hold with
    | claimed | reserved => exact publish_step h l here rfl (fun _ _ => trivial)
  case storeCached | addEvicted | addPublished | addDropped =>
    cases step
    exact local_step h l here _ rfl rfl rfl rfl rfl trivial

end

end Newosp.Bus
