import Mathlib.Data.Finset.Card
import Newosp.Dispatcher.Pool
import Newosp.Lib.Machine

/-!
# `Alloc` and `Recycle` one access at a time

Threads (`ι`) allocate blocks, submit the ones they own to a dispatcher without a pipeline, and release references of
submitted ones. Every atomic access is one step; a plain field is written with the atomic access behind it. The fields
after `pc` are histories: how often the head was updated and when each thread last loaded it, where each block is, its
references no call has begun to drop, who drops one, and what `Alloc` and `Recycle` did.
-/

namespace Newosp.Dispatcher.FreeList
open Lib Function

/-- Program counters, in the order of the source: `Alloc`, `Submit`, `Release`, `Recycle`. -/
inductive PC
  | idle
  | allocCount (now : Nat)
  | allocHead (now : Nat)
  | allocNext (now head : Nat)
  | allocCas (now head next : Nat)
  | takeFreeCount (now block gen : Nat)
  | takeAllocCount (now block gen : Nat)
  | takeState (now block gen : Nat)
  | takeFields (now block gen : Nat)
  | submitRefcount (block payloadSize consumerCount : Nat)
  | submitState (block : Nat)
  | releaseLoad (block : Nat)
  | releaseCas (block cur : Nat)
  | recycleState (block : Nat)
  | recycleAllocCount (block : Nat)
  | recycleHead (block : Nat)
  | recycleLink (block head : Nat)
  | recycleCas (block head : Nat)
  | recycleFreeCount (block : Nat)

/-- The block that a running call has taken from the free list or from its caller and not yet given on. -/
def PC.holds : PC → Option Nat
  | .takeFreeCount _ b _ | .takeAllocCount _ b _ | .takeState _ b _ | .takeFields _ b _ => some b
  | .submitRefcount b _ _ | .submitState b => some b
  | .recycleState b | .recycleAllocCount b | .recycleHead b | .recycleLink b _ | .recycleCas b _ => some b
  | _ => none

def PC.taking : PC → Bool
  | .takeFreeCount .. | .takeAllocCount .. | .takeState .. | .takeFields .. => true
  | _ => false

def PC.drops : PC → Option Nat
  | .releaseLoad b | .releaseCas b _ => some b
  | _ => none

/-- Where a block is: in the free list, with the thread that allocated it, submitted and held by reference, or inside a
call. -/
inductive Place (ι : Type)
  | free
  | owned (t : ι)
  | shared
  | running (t : ι)
deriving DecidableEq

/-- `Alloc` returns a block or finds the list empty, `Recycle` puts a block back. -/
inductive Event (ι : Type)
  | returned (t : ι) (block : Nat)
  | pushed (t : ι) (block : Nat)
  | failed (t : ι)
deriving DecidableEq

structure State (ι : Type) where
  store : Store
  pc : ι → PC
  version : Nat
  loaded : ι → Nat
  place : Nat → Place ι
  refs : Nat → Nat
  releasing : Nat → Finset ι
  events : List (Event ι)

/-- Who moves: a thread begins a call, or takes its next step (a weak compare-and-swap fails without cause if
`spurious`). -/
inductive Act (ι : Type)
  | alloc (t : ι) (now : Nat)
  | submit (t : ι) (block payloadSize consumerCount : Nat)
  | release (t : ι) (block : Nat)
  | step (t : ι) (spurious : Bool)

variable {ι : Type} [DecidableEq ι]

namespace State

variable (s : State ι) (t : ι)

def goto (pc : PC) : State ι := { s with pc := update s.pc t pc }

def moveTo (b : Nat) (place : Place ι) : State ι := { s with place := update s.place b place }

def withStore (store : Store) : State ι := { s with store }

/-- References of block `b` that no call drops, and the threads that drop one. -/
def share (b refs : Nat) (releasing : Finset ι) : State ι :=
  { s with refs := update s.refs b refs, releasing := update s.releasing b releasing }

def enter (e : Event ι) : State ι := { s with events := s.events ++ [e] }

def loadHead : State ι := { s with loaded := update s.loaded t s.version }

def setHead (head : Nat) : State ι := { s with store := { s.store with freeHead := head }, version := s.version + 1 }

attribute [simps events] goto moveTo withStore share enter loadHead setHead

def allocLoop (now : Nat) : State ι :=
  if jobHeadIndex s.store.freeHead = jobInvalidIndex then ((s.loadHead t).enter (.failed t)).goto t .idle
  else (s.loadHead t).goto t (.allocNext now s.store.freeHead)

end State

def beginNext (t : ι) (pc : PC) (s : State ι) : Option (State ι) := match s.pc t with
  | .idle => some (s.goto t pc)
  | _ => none

/-- `Submit` of a block that the thread owns begins. -/
def beginSubmit (t : ι) (b payloadSize consumerCount : Nat) (s : State ι) : Option (State ι) :=
  if s.place b = .owned t then beginNext t (.submitRefcount b payloadSize consumerCount) (s.moveTo b (.running t))
  else none

def beginRelease (t : ι) (b : Nat) (s : State ι) : Option (State ι) :=
  if s.place b = .shared ∧ 0 < s.refs b then
    beginNext t (.releaseLoad b) (s.share b (s.refs b - 1) (insert t (s.releasing b)))
  else none

def State.endRelease (s : State ι) (t : ι) (b : Nat) : State ι :=
  (s.share b (s.refs b) ((s.releasing b).erase t)).goto t .idle

attribute [simps! events] State.endRelease

def stepNext (cfg : Config) (t : ι) (spurious : Bool) (s : State ι) : Option (State ι) :=
  let p := s.store
  match s.pc t with
  | .idle => none
  | .allocCount now => some ((s.withStore (p.report cfg)).goto t (.allocHead now))
  | .allocHead now => some (s.allocLoop t now)
  | .allocNext now head => some (s.goto t (.allocCas now head (p.next (jobHeadIndex head))))
  | .allocCas now head next =>
    let b := jobHeadIndex head
    let tag := wrap32 (jobHeadTag head + 1)
    if p.freeHead = head ∧ spurious = false then
      some (((s.setHead (jobPackHead next tag)).moveTo b (.running t)).goto t
        (.takeFreeCount now b (if tag = 0 then 1 else tag)))
    else some (s.allocLoop t now)
  | .takeFreeCount now b gen =>
    some ((s.withStore { p with freeCount := sub32 p.freeCount 1 }).goto t (.takeAllocCount now b gen))
  | .takeAllocCount now b gen =>
    some ((s.withStore { p with allocCount := wrap32 (p.allocCount + 1) }).goto t (.takeState now b gen))
  | .takeState now b gen => some ((s.withStore (p.setState b .allocated)).goto t (.takeFields now b gen))
  | .takeFields now b gen =>
    let blk := { p.block b with reserved := gen, allocTime := now, payloadSize := 0, faultId := 0, deadline := 0,
                                refcount := 0 }
    some ((((s.withStore (p.setBlock b blk)).moveTo b (.owned t)).enter (.returned t b)).goto t .idle)
  | .submitRefcount b payloadSize consumerCount =>
    let blk := { p.block b with payloadSize, deadline := 0,
                                refcount := if 0 < consumerCount then consumerCount else 1 }
    some ((s.withStore (p.setBlock b blk)).goto t (.submitState b))
  | .submitState b =>
    some ((((s.withStore (p.setState b .ready)).moveTo b .shared).share b (p.block b).refcount ∅).goto t .idle)
  | .releaseLoad b =>
    let cur := (p.block b).refcount
    if 0 < cur then some (s.goto t (.releaseCas b cur)) else some (s.endRelease t b)
  | .releaseCas b cur =>
    if (p.block b).refcount = cur ∧ spurious = false then
      let s := (s.withStore (p.setRefcount b (cur - 1))).endRelease t b
      if cur = 1 then some ((s.moveTo b (.running t)).goto t (.recycleState b)) else some s
    else if 0 < (p.block b).refcount then some (s.goto t (.releaseCas b (p.block b).refcount))
    else some (s.endRelease t b)
  | .recycleState b => some ((s.withStore (p.setState b .free)).goto t (.recycleAllocCount b))
  | .recycleAllocCount b =>
    some ((s.withStore { p with allocCount := sub32 p.allocCount 1 }).goto t (.recycleHead b))
  | .recycleHead b => some ((s.loadHead t).goto t (.recycleLink b p.freeHead))
  | .recycleLink b head =>
    some ((s.withStore (p.setBlock b { p.block b with nextFree := jobHeadIndex head })).goto t (.recycleCas b head))
  | .recycleCas b head =>
    if p.freeHead = head ∧ spurious = false then
      some ((((s.setHead (jobPackHead b (wrap32 (jobHeadTag head + 1)))).moveTo b .free).enter
        (.pushed t b)).goto t (.recycleFreeCount b))
    else some ((s.loadHead t).goto t (.recycleLink b p.freeHead))
  | .recycleFreeCount _ =>
    some ((s.withStore { p with freeCount := wrap32 (p.freeCount + 1) }).goto t .idle)

def next (cfg : Config) : Act ι → State ι → Option (State ι)
  | .alloc t now, s => beginNext t (.allocCount now) s
  | .submit t b payloadSize consumerCount, s => beginSubmit t b payloadSize consumerCount s
  | .release t b, s => beginRelease t b s
  | .step t spurious, s => stepNext cfg t spurious s

def machine (cfg : Config) (maxBlocks : Nat) : Machine (State ι) (Act ι) where
  init := ⟨initStore maxBlocks, fun _ => .idle, 0, fun _ => 0, fun _ => .free, fun _ => 0, fun _ => ∅, []⟩
  next := next cfg

/-- A thread about to compare the head has seen all but fewer than `2 ^ 32` of its updates. -/
def recent (s : State ι) : Act ι → Prop
  | .step t _ => match s.pc t with
    | .allocCas .. | .recycleCas .. => s.version < s.loaded t + 4294967296
    | _ => True
  | _ => True

end Newosp.Dispatcher.FreeList
