import Mathlib.Data.List.Basic

/-!
# Activating a `FusedSubscription` or a `TimeSynchronizer`

`Activate`, the same in both classes, subscribes to one message type after the other and does not look at the handles
it gets. A type whose callback table is full leaves the object active without its subscription.
-/

namespace Newosp.Fusion
open Function List

inductive DataFusionError
  | kCallbackNotSet | kAlreadyActive | kNotActive
  deriving DecidableEq

/-- An active entry of the callback table; `owner` is the object its callback captures. -/
structure Entry where
  id : UInt32
  owner : Nat

structure Bus where
  table : Nat → List (Option Entry)
  nextCallbackId : UInt32

structure SubscriptionHandle where
  typeIndex : Nat
  callbackId : UInt32

/-- The object, with a handle for each of its message types; `none` is `Invalid()`. -/
structure Fused where
  self : Nat
  callback : Bool
  active : Bool
  handles : List (Option SubscriptionHandle)

/-- `AsyncBus::Subscribe` takes the first entry that is not active. -/
def Bus.subscribe (bus : Bus) (typeIndex owner : Nat) : Bus × Option SubscriptionHandle :=
  match (bus.table typeIndex).findIdx? (·.isNone) with
  | some i =>
    (⟨update bus.table typeIndex ((bus.table typeIndex).set i (some ⟨bus.nextCallbackId, owner⟩)),
      bus.nextCallbackId + 1⟩, some ⟨typeIndex, bus.nextCallbackId⟩)
  | none => ({ bus with nextCallbackId := bus.nextCallbackId + 1 }, none)

def subscribeAll (owner : Nat) : List Nat → Bus → Bus × List (Option SubscriptionHandle)
  | [], bus => (bus, [])
  | typeIndex :: rest, bus =>
    let (bus, handle) := bus.subscribe typeIndex owner
    let (bus, handles) := subscribeAll owner rest bus
    (bus, handle :: handles)

def activate (types : List Nat) (o : Fused) (bus : Bus) : Option DataFusionError × Fused × Bus :=
  if o.callback = false then (some .kCallbackNotSet, o, bus)
  else if o.active then (some .kAlreadyActive, o, bus)
  else
    let (bus, handles) := subscribeAll o.self types bus
    (none, { o with active := true, handles := handles }, bus)

def Bus.subscribed (bus : Bus) (owner typeIndex : Nat) : Prop := ∃ id, some ⟨id, owner⟩ ∈ bus.table typeIndex

/-- All or nothing: every type has a subscription of the object, or none has and the object is inactive. -/
def AllOrNothing (types : List Nat) : Option DataFusionError × Fused × Bus → Prop
  | (none, o, bus) => ∀ t ∈ types, bus.subscribed o.self t
  | (some _, o, bus) => o.active = false ∧ ∀ t ∈ types, ¬ bus.subscribed o.self t

variable {bus : Bus} {owner t u : Nat}

theorem subscribe_table_of_ne (other : t ≠ u) : (bus.subscribe u owner).1.table t = bus.table t := by
  unfold Bus.subscribe
  split
  · exact update_of_ne other ..
  · rfl

theorem subscribe_table_of_full (full : none ∉ bus.table u) : (bus.subscribe u owner).1.table = bus.table := by
  unfold Bus.subscribe
  split
  · rename_i i found
    obtain ⟨lt,free,-⟩ := findIdx?_eq_some_iff_getElem.1 found
    exact absurd (Option.isNone_iff_eq_none.1 free ▸ getElem_mem lt) full
  · rfl

theorem subscribe_subscribed (free : none ∈ bus.table u) : (bus.subscribe u owner).1.subscribed owner u := by
  unfold Bus.subscribe
  split
  · rename_i i found
    obtain ⟨lt,-⟩ := findIdx?_eq_some_iff_getElem.1 found
    refine ⟨bus.nextCallbackId,?_⟩
    show _ ∈ update bus.table u _ u
    rw [update_self]
    exact mem_set lt _
  · rename_i missing
    exact absurd (findIdx?_eq_none_iff.1 missing _ free) (by decide)

/-- Each type gets its subscription where an entry is free, or keeps it. -/
theorem subscribeAll_subscribed : ∀ (types : List Nat) (bus : Bus),
    (subscribeAll owner types bus).1.subscribed owner t ↔ bus.subscribed owner t ∨ t ∈ types ∧ none ∈ bus.table t
  | [], bus => by simp [subscribeAll]
  | u :: rest, bus => by
    show (subscribeAll owner rest (bus.subscribe u owner).1).1.subscribed owner t ↔ _
    rw [subscribeAll_subscribed rest, Bus.subscribed, Bus.subscribed]
    by_cases other : t = u
    · subst other
      by_cases free : none ∈ bus.table t
      · simp only [free, mem_cons, true_or, and_self, or_true, iff_true]
        exact .inl (subscribe_subscribed free)
      · simp [subscribe_table_of_full free, free]
    · simp [subscribe_table_of_ne other, other]

/-- **When activation is all or nothing**: with a callback, exactly if each type has a subscription of the object or
room for it; without one, exactly if no subscription of the object was there before. -/
theorem activate_allOrNothing_iff (types : List Nat) (o : Fused) (bus : Bus) (inactive : o.active = false) :
    AllOrNothing types (activate types o bus) ↔ ∀ t ∈ types,
      if o.callback then bus.subscribed o.self t ∨ none ∈ bus.table t else ¬ bus.subscribed o.self t := by
  unfold activate
  cases set : o.callback with
  | false => simp [AllOrNothing, inactive]
  | true =>
    simp only [inactive, AllOrNothing, subscribeAll_subscribed, Bool.true_eq_false, Bool.false_eq_true, if_false, if_true]
    exact forall₂_congr fun t member => or_congr_right (and_iff_right member)

/-- Types 0 and 1 with one entry each, and an object that listens to both. -/
def idle : Fused := ⟨7, true, false, [none, none]⟩

theorem activate_allOrNothing_free :
    AllOrNothing [0, 1] (activate [0, 1] idle ⟨fun _ => [none], 1⟩) :=
  (activate_allOrNothing_iff _ _ _ rfl).2 (by simp [idle])

/-- Another subscriber has the only entry of type 1: the object is active and has no subscription for it. -/
theorem active_without_subscription : ¬ AllOrNothing [0, 1]
    (activate [0, 1] idle ⟨fun t => if t = 1 then [some ⟨0, 3⟩] else [none], 1⟩) ∧
    (activate [0, 1] idle ⟨fun t => if t = 1 then [some ⟨0, 3⟩] else [none], 1⟩).1 = none := by
  refine ⟨fun all => ?_,rfl⟩
  obtain ⟨id,member⟩ := all 1 (by decide)
  simp [idle, update] at member

end Newosp.Fusion
