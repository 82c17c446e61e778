import Newosp.Lib.ByteWindow

/-!
# `SendAll` and `RecvAll` over a socket

A socket call moves some bytes, would block, or fails; a `Behaviour` says what each call of one loop does. The loops
retry at most `kMaxEagainRetries` times: `SendAll` counts the would-blocks since the last progress, `RecvAll` all. They
are modelled with a number of iterations that is shown to be enough.
-/

namespace Newosp.Transport
open Lib List

inductive TransportError
  | sendFailed
  | recvFailed
  | invalidFrame
  | bufferFull
  | notConnected
  | wouldBlock
  deriving DecidableEq

/-- The outcome of one `send` or `recv`; to move no byte is the end of the connection. -/
inductive Outcome
  | moved (n : Nat)
  | wouldBlock
  | failed
  deriving DecidableEq

abbrev Behaviour := Nat → Outcome

/-- `TcpTransport`: the flag, the bytes from the peer that are not yet read, and the bytes put on the wire. -/
structure TcpTransport where
  connected : Bool
  incoming : List UInt8
  outgoing : List UInt8

def TcpTransport.disconnect (t : TcpTransport) : TcpTransport := { t with connected := false }

def kMaxEagainRetries : Nat := 16

/-- The loop of `SendAll` at its call `i`, with the bytes `data` that remain. -/
def sendLoop (b : Behaviour) : Nat → Nat → Nat → List UInt8 → TcpTransport →
    Option (Except TransportError Unit × TcpTransport)
  | _, _, _, [], t => some (.ok (), t)
  | 0, _, _, _ :: _, _ => none
  | fuel + 1, i, eagainCount, x :: xs, t => match b i with
    | .wouldBlock =>
      if kMaxEagainRetries < eagainCount + 1 then some (.error .wouldBlock, t)
      else sendLoop b fuel (i + 1) (eagainCount + 1) (x :: xs) t
    | .failed => some (.error .sendFailed, t.disconnect)
    | .moved n =>
      if n = 0 then some (.error .sendFailed, t.disconnect)
      else sendLoop b fuel (i + 1) 0 ((x :: xs).drop n) { t with outgoing := t.outgoing ++ (x :: xs).take n }

def sendAll (b : Behaviour) (data : List UInt8) (t : TcpTransport) : Option (Except TransportError Unit × TcpTransport) :=
  sendLoop b ((kMaxEagainRetries + 1) * (data.length + 1)) 0 0 data t

/-- The loop of `RecvAll` at its call `i`, with `remaining` bytes to go and `got` received. -/
def recvLoop (b : Behaviour) : Nat → Nat → Nat → Nat → List UInt8 → TcpTransport →
    Option (Except TransportError (List UInt8) × TcpTransport)
  | _, _, _, 0, got, t => some (.ok got, t)
  | 0, _, _, _ + 1, _, _ => none
  | fuel + 1, i, eagainCount, remaining + 1, got, t => match b i with
    | .wouldBlock =>
      if kMaxEagainRetries < eagainCount + 1 then some (.error .wouldBlock, t)
      else recvLoop b fuel (i + 1) (eagainCount + 1) (remaining + 1) got t
    | .failed => some (.error .recvFailed, t.disconnect)
    | .moved n =>
      let received := t.incoming.take (min n (remaining + 1))
      if received = [] then some (.error .recvFailed, t.disconnect)
      else recvLoop b fuel (i + 1) eagainCount (remaining + 1 - received.length) (got ++ received)
        { t with incoming := t.incoming.drop received.length }

def recvAll (b : Behaviour) (len : Nat) (t : TcpTransport) :
    Option (Except TransportError (List UInt8) × TcpTransport) := recvLoop b (len + kMaxEagainRetries + 1) 0 0 len [] t

def blocks (b : Behaviour) (n : Nat) : Nat := (List.range n).countP fun i => b i = .wouldBlock

/-- At most 16 would-blocks, in the calls that are made: what `b` says of those after the return plays no part. -/
def Mild (b : Behaviour) : Prop := ∀ n, blocks b n ≤ kMaxEagainRetries

def Steady (b : Behaviour) : Prop := ∀ i, ∃ j, i ≤ j ∧ j ≤ i + kMaxEagainRetries ∧ b j ≠ .wouldBlock

/-- No call fails, and each that moves bytes moves at least one. -/
def Healthy (b : Behaviour) : Prop := ∀ i, b i = .wouldBlock ∨ ∃ n, b i = .moved (n + 1)

def Blocked (b : Behaviour) : Prop := ∀ i, i ≤ kMaxEagainRetries → b i = .wouldBlock

/-- A call that ends with an error and marks the connection as lost, which it never does when `fine`. -/
def Lost {α : Type} (fine : Prop) (r : Option (Except TransportError α × TcpTransport)) : Prop :=
  ∃ e t', r = some (.error e, t') ∧ t'.connected = false ∧ ¬ fine

section

variable {b : Behaviour} {t : TcpTransport}

theorem blocks_succ (b : Behaviour) (n : Nat) : blocks b (n + 1) = blocks b n + if b n = .wouldBlock then 1 else 0 := by
  rw [blocks, range_succ, countP_append, ← blocks, countP_singleton]
  simp only [decide_eq_true_eq]

theorem mild_of_early {k : Nat} (few : k ≤ kMaxEagainRetries) (early : ∀ i, k ≤ i → b i ≠ .wouldBlock) : Mild b := by
  intro n
  have bounded : blocks b n ≤ min n k := by
    induction n with
    | zero => exact Nat.zero_le _
    | succ n ih =>
      rw [blocks_succ]
      split
      · rename_i blocked
        have before : n < k := Nat.not_le.1 fun late => early n late blocked
        omega
      · omega
  omega

theorem Mild.steady (mild : Mild b) : Steady b := by
  intro i
  by_contra all
  have blocked : ∀ j, i ≤ j → j ≤ i + kMaxEagainRetries → b j = .wouldBlock := by
    intro j low high
    by_contra free
    exact all ⟨j,low,high,free⟩
  have counted : ∀ k, k ≤ kMaxEagainRetries + 1 → k ≤ blocks b (i + k) := by
    intro k
    induction k with
    | zero => exact fun _ => Nat.zero_le _
    | succ k ih =>
      intro short
      have before := ih (by omega)
      rw [← add_assoc, blocks_succ, if_pos (blocked (i + k) (by omega) (by omega))]
      omega
  have many := counted _ le_rfl
  have few := mild (i + (kMaxEagainRetries + 1))
  omega

theorem sendLoop_steady (steady : Steady b) (fuel : Nat) : ∀ {i eagain : Nat} {data : List UInt8} {t : TcpTransport},
    eagain ≤ i → (∀ j, i ≤ j + eagain → j < i → b j = .wouldBlock) → 17 * data.length + (16 - eagain) < fuel →
    Lost (Healthy b) (sendLoop b fuel i eagain data t) ∨
    sendLoop b fuel i eagain data t = some (.ok (), { t with outgoing := t.outgoing ++ data }) := by
  induction fuel with
  | zero => exact fun _ _ enough => absurd enough (Nat.not_lt_zero _)
  | succ fuel ih =>
    intro i eagain data t seen blocked enough
    cases data with
    | nil =>
      right
      rw [sendLoop, append_nil]
    | cons x xs =>
      cases call : b i with
      | wouldBlock =>
        have blocked' : ∀ j, i + 1 ≤ j + (eagain + 1) → j < i + 1 → b j = .wouldBlock := by
          intro j low high
          by_cases last : j = i
          · rw [last, call]
          · exact blocked j (by omega) (by omega)
        have patient : ¬ kMaxEagainRetries < eagain + 1 := by
          intro stuck
          obtain ⟨j,low,high,free⟩ := steady (i - eagain)
          exact free (blocked' j (by omega) (by omega))
        have short : eagain + 1 ≤ 16 := Nat.not_lt.1 patient
        simp only [sendLoop, call, if_neg patient]
        exact ih (by omega) blocked' (by omega)
      | failed =>
        refine .inl ⟨_,_,by rw [sendLoop, call],rfl,?_⟩
        intro healthy
        rcases healthy i with eq | ⟨n,eq⟩ <;> rw [call] at eq <;> cases eq
      | moved n =>
        cases n with
        | zero =>
          refine .inl ⟨_,_,by rw [sendLoop, call]; exact if_pos rfl,rfl,?_⟩
          intro healthy
          rcases healthy i with eq | ⟨n,eq⟩ <;> rw [call] at eq <;> cases eq
        | succ n =>
          simp only [sendLoop, call, Nat.succ_ne_zero, if_false]
          have less : ((x :: xs).drop (n + 1)).length ≤ xs.length := by
            rw [length_drop, length_cons]
            omega
          rw [length_cons] at enough
          have fresh : ∀ j, i + 1 ≤ j + 0 → j < i + 1 → b j = .wouldBlock := by
            intro j low high
            omega
          have next := ih (t := { t with outgoing := t.outgoing ++ (x :: xs).take (n + 1) }) (Nat.zero_le (i + 1)) fresh
            (show 17 * ((x :: xs).drop (n + 1)).length + 16 < fuel by omega)
          simp only [append_assoc, take_append_drop] at next
          exact next

theorem sendAll_steady (steady : Steady b) (data : List UInt8) (t : TcpTransport) :
    Lost (Healthy b) (sendAll b data t) ∨
    sendAll b data t = some (.ok (), { t with outgoing := t.outgoing ++ data }) := by
  apply sendLoop_steady steady
  · exact Nat.zero_le _
  · intro j _ none_
    exact absurd none_ (Nat.not_lt_zero _)
  · change 17 * data.length + 16 < 17 * (data.length + 1)
    omega

theorem sendAll_blocked (blocked : Blocked b) {data : List UInt8} (some_ : data ≠ []) (t : TcpTransport) :
    sendAll b data t = some (.error .wouldBlock, t) := by
  -- after `k` would-blocks there are `16 - k` retries left
  have loop : ∀ k i fuel, i + k = kMaxEagainRetries → k < fuel → sendLoop b fuel i i data t =
      some (.error .wouldBlock, t) := by
    intro k
    induction k with
    | zero =>
      intro i fuel last more
      obtain ⟨x,xs,rfl⟩ := exists_cons_of_ne_nil some_
      obtain ⟨fuel,rfl⟩ := Nat.exists_eq_add_one_of_ne_zero (ne_of_gt more)
      simp only [sendLoop, blocked i (by omega)]
      exact if_pos (by omega)
    | succ k ih =>
      intro i fuel last more
      obtain ⟨x,xs,rfl⟩ := exists_cons_of_ne_nil some_
      obtain ⟨fuel,rfl⟩ := Nat.exists_eq_add_one_of_ne_zero (ne_of_gt (Nat.zero_lt_of_lt more))
      simp only [sendLoop, blocked i (by omega)]
      rw [if_neg (by omega)]
      exact ih (i + 1) fuel (by omega) (by omega)
  apply loop kMaxEagainRetries 0 _ (zero_add _)
  rw [add_mul, one_mul]
  exact lt_of_lt_of_le (Nat.lt_succ_self 16) (by change 17 ≤ 16 * (data.length + 1) + (data.length + 1); omega)

theorem recvLoop_mild (mild : Mild b) (fuel : Nat) :
    ∀ {i eagain : Nat} (remaining : Nat) (got : List UInt8) {t : TcpTransport},
    eagain ≤ blocks b i → remaining + (16 - eagain) < fuel →
    Lost (Healthy b ∧ remaining ≤ t.incoming.length) (recvLoop b fuel i eagain remaining got t) ∨
    (remaining ≤ t.incoming.length ∧ recvLoop b fuel i eagain remaining got t =
      some (.ok (got ++ t.incoming.take remaining), { t with incoming := t.incoming.drop remaining })) := by
  induction fuel with
  | zero => exact fun _ _ _ _ enough => absurd enough (Nat.not_lt_zero _)
  | succ fuel ih =>
    intro i eagain remaining got t seen enough
    cases remaining with
    | zero =>
      right
      refine ⟨Nat.zero_le _,?_⟩
      rw [recvLoop, take_zero, append_nil, drop_zero]
    | succ remaining =>
      have few := mild (i + 1)
      rw [blocks_succ] at few
      cases call : b i with
      | wouldBlock =>
        simp only [call, if_true] at few
        have patient : ¬ kMaxEagainRetries < eagain + 1 := by omega
        have short : eagain + 1 ≤ 16 := Nat.not_lt.1 patient
        simp only [recvLoop, call, if_neg patient]
        refine ih _ _ ?_ (by omega)
        rw [blocks_succ, call, if_pos rfl]
        omega
      | failed =>
        refine .inl ⟨_,_,by rw [recvLoop, call],rfl,?_⟩
        rintro ⟨healthy,-⟩
        rcases healthy i with eq | ⟨n,eq⟩ <;> rw [call] at eq <;> cases eq
      | moved n =>
        simp only [recvLoop, call]
        split
        · rename_i nothing
          refine .inl ⟨_,_,rfl,rfl,?_⟩
          rintro ⟨healthy,arrived⟩
          -- a healthy call that moves nothing has found the end of the stream
          rcases healthy i with eq | ⟨m,eq⟩ <;> rw [call] at eq
          · cases eq
          · cases eq
            have := congrArg List.length nothing
            rw [length_take, length_nil] at this
            omega
        · rename_i something
          obtain ⟨k,k_eq⟩ : ∃ k, (t.incoming.take (min n (remaining + 1))).length = k := ⟨_,rfl⟩
          have positive : 0 < k := k_eq ▸ length_pos_iff.2 something
          have front : t.incoming.take (min n (remaining + 1)) = t.incoming.take k := by
            rw [← k_eq, length_take, take_eq_take_iff]
            omega
          rw [length_take] at k_eq
          have inside : k ≤ t.incoming.length := by omega
          have within : k ≤ remaining + 1 := by omega
          rw [front, length_take, min_eq_left inside]
          have later : eagain ≤ blocks b (i + 1) := by
            rw [blocks_succ]
            omega
          have rest : remaining + 1 = k + (remaining + 1 - k) := by omega
          rcases ih (remaining + 1 - k) (got ++ t.incoming.take k)
              (t := { t with incoming := t.incoming.drop k }) later (by omega) with
            ⟨e,t',eq,lost,short⟩ | ⟨enough_,eq⟩
          · refine .inl ⟨e,t',eq,lost,?_⟩
            rintro ⟨healthy,arrived⟩
            refine short ⟨healthy,?_⟩
            rw [length_drop]
            omega
          · rw [length_drop] at enough_
            refine .inr ⟨by omega,?_⟩
            rw [eq, append_assoc, ← take_add, drop_drop, ← rest]

theorem recvAll_mild (mild : Mild b) (len : Nat) (t : TcpTransport) :
    Lost (Healthy b ∧ len ≤ t.incoming.length) (recvAll b len t) ∨ (len ≤ t.incoming.length ∧ recvAll b len t =
      some (.ok (t.incoming.take len), { t with incoming := t.incoming.drop len })) := by
  apply recvLoop_mild mild (len + kMaxEagainRetries + 1) _ _ (Nat.zero_le _)
  change len + 16 < len + 16 + 1
  omega

theorem recvAll_blocked (blocked : Blocked b) {len : Nat} (some_ : 0 < len) (t : TcpTransport) :
    recvAll b len t = some (.error .wouldBlock, t) := by
  obtain ⟨len,rfl⟩ := Nat.exists_eq_add_one_of_ne_zero (ne_of_gt some_)
  have loop : ∀ k i fuel, i + k = kMaxEagainRetries → k < fuel → recvLoop b fuel i i (len + 1) [] t =
      some (.error .wouldBlock, t) := by
    intro k
    induction k with
    | zero =>
      intro i fuel last more
      obtain ⟨fuel,rfl⟩ := Nat.exists_eq_add_one_of_ne_zero (ne_of_gt more)
      simp only [recvLoop, blocked i (by omega)]
      exact if_pos (by omega)
    | succ k ih =>
      intro i fuel last more
      obtain ⟨fuel,rfl⟩ := Nat.exists_eq_add_one_of_ne_zero (ne_of_gt (Nat.zero_lt_of_lt more))
      simp only [recvLoop, blocked i (by omega)]
      rw [if_neg (by omega)]
      exact ih (i + 1) fuel (by omega) (by omega)
  exact loop kMaxEagainRetries 0 _ (zero_add _) (by omega)

/-! ### The loops return, whatever the socket does -/

theorem sendLoop_returns (fuel : Nat) : ∀ {i eagain : Nat} {data : List UInt8} {t : TcpTransport},
    eagain ≤ kMaxEagainRetries → 17 * data.length + (kMaxEagainRetries - eagain) < fuel →
    ∃ p, sendLoop b fuel i eagain data t = some p := by
  induction fuel with
  | zero => exact fun _ enough => absurd enough (Nat.not_lt_zero _)
  | succ fuel ih =>
    intro i eagain data t bounded enough
    cases data with
    | nil => exact ⟨_,by rw [sendLoop]⟩
    | cons x xs =>
      cases call : b i with
      | wouldBlock =>
        simp only [sendLoop, call]
        split
        · exact ⟨_,rfl⟩
        · exact ih (by omega) (by omega)
      | failed => exact ⟨_,by rw [sendLoop, call]⟩
      | moved n =>
        simp only [sendLoop, call]
        split
        · exact ⟨_,rfl⟩
        · rename_i some_
          apply ih (Nat.zero_le _)
          have full : kMaxEagainRetries = 16 := rfl
          rw [length_drop]
          rw [length_cons] at enough ⊢
          omega

theorem recvLoop_returns (fuel : Nat) : ∀ {i eagain remaining : Nat} {got : List UInt8} {t : TcpTransport},
    eagain ≤ kMaxEagainRetries → remaining + (kMaxEagainRetries - eagain) < fuel →
    ∃ p, recvLoop b fuel i eagain remaining got t = some p := by
  induction fuel with
  | zero => exact fun _ enough => absurd enough (Nat.not_lt_zero _)
  | succ fuel ih =>
    intro i eagain remaining got t bounded enough
    cases remaining with
    | zero => exact ⟨_,by rw [recvLoop]⟩
    | succ remaining =>
      cases call : b i with
      | wouldBlock =>
        simp only [recvLoop, call]
        split
        · exact ⟨_,rfl⟩
        · exact ih (by omega) (by omega)
      | failed => exact ⟨_,by rw [recvLoop, call]⟩
      | moved n =>
        simp only [recvLoop, call]
        split
        · exact ⟨_,rfl⟩
        · rename_i something
          have positive := length_pos_iff.2 something
          exact ih bounded (by omega)

theorem sendAll_returns (b : Behaviour) (data : List UInt8) (t : TcpTransport) : ∃ p, sendAll b data t = some p := by
  apply sendLoop_returns _ (Nat.zero_le _)
  change 17 * data.length + 16 < 17 * (data.length + 1)
  omega

theorem recvAll_returns (b : Behaviour) (len : Nat) (t : TcpTransport) : ∃ p, recvAll b len t = some p := by
  apply recvLoop_returns _ (Nat.zero_le _)
  change len + 16 < len + 16 + 1
  omega

end

end Newosp.Transport
