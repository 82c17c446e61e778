import Newosp.Lib.SlotTable

/-!
# The descriptors of the event loop

`EventLoop` keeps a table of the descriptors it monitors over an `IoPoller`, here on epoll: the kernel's interest list
and the tags. The kernel drops a descriptor when it is closed (then `-1`); table and tags do not.
-/

namespace Newosp.Nodes
open Lib List

def kMaxEvents : Nat := 64

def kReadable : Nat := 0x01

inductive LoopError
  | noFreeFdSlot
  | backendFailed
  deriving DecidableEq

structure FdTag where
  fd : Int
  userData : Nat
  deriving DecidableEq

structure PollResult where
  fd : Int
  events : Nat
  userData : Nat
  deriving DecidableEq

/-- The interest list of the kernel and the tags. -/
structure IoPoller where
  watched : List Int
  tags : List FdTag
  deriving DecidableEq

namespace IoPoller

variable (p : IoPoller) (fd : Int)

/-- `StoreTag`: a full table drops the tag. -/
def storeTag (userData : Nat) : List FdTag := match p.tags.findIdx? (·.fd = fd) with
  | some i => p.tags.set i ⟨fd, userData⟩
  | none => if p.tags.length < kMaxEvents then p.tags ++ [⟨fd, userData⟩] else p.tags

/-- `ClearTag`: the last tag takes the place of the cleared one. -/
def clearTag : List FdTag := match p.tags.findIdx? (·.fd = fd), p.tags.getLast? with
  | some i, some last => (p.tags.set i last).dropLast
  | _, _ => p.tags

def lookupTag : Nat := match p.tags.find? (·.fd = fd) with
  | some tag => tag.userData
  | none => 0

/-- `Add`: the kernel refuses a descriptor that is on the list already, and may refuse any (`accepted`). -/
def add (userData : Nat) (accepted : Bool) : Option IoPoller :=
  if fd ∉ p.watched ∧ accepted = true then some ⟨fd :: p.watched, p.storeTag fd userData⟩ else none

/-- `Remove`: the kernel refuses a descriptor that is not on the list. -/
def remove : Option IoPoller := if fd ∈ p.watched then some ⟨p.watched.filter (· ≠ fd), p.clearTag fd⟩ else none

def close : IoPoller := { p with watched := p.watched.filter (· ≠ fd) }

end IoPoller

structure FdSlot where
  fd : Int
  active : Bool
  deriving DecidableEq

def FdSlot.held (slot : FdSlot) : Option Int := if slot.active then some slot.fd else none

structure EventLoop where
  fds : List FdSlot
  poller : IoPoller
  deriving DecidableEq

namespace EventLoop

variable (l : EventLoop) (fd : Int)

def addFd (userData : Nat) (accepted : Bool) : Except LoopError EventLoop := match l.fds.findIdx? (!·.active) with
  | none => .error .noFreeFdSlot
  | some slot => match l.poller.add fd userData accepted with
    | none => .error .backendFailed
    | some poller => .ok ⟨l.fds.set slot ⟨fd, true⟩, poller⟩

def removeFd : Except LoopError EventLoop := match l.poller.remove fd with
  | none => .error .backendFailed
  | some poller => match l.fds.findIdx? (fun slot => slot.active && slot.fd = fd) with
    | some i => .ok ⟨l.fds.set i ⟨-1, false⟩, poller⟩
    | none => .ok { l with poller }

def ignore (r : Except LoopError EventLoop) : EventLoop := match r with
  | .ok l' => l'
  | .error _ => l

def close : EventLoop := { l with poller := l.poller.close fd }

def occupied : List Int := l.fds.filterMap FdSlot.held

end EventLoop

/-! ### What the calls do to the table -/

section

variable {l : EventLoop} {fd : Int}

theorem mem_remaining {watched : List Int} {c : Int} : c ∈ watched.filter (· ≠ fd) ↔ c ∈ watched ∧ c ≠ fd := by
  rw [mem_filter, decide_eq_true_eq]

theorem addFd_spec (userData : Nat) (room : l.occupied.length < l.fds.length) (new : fd ∉ l.poller.watched) :
    ∃ l', l.addFd fd userData true = .ok l' ∧ l'.occupied.Perm (fd :: l.occupied) ∧ l'.fds.length = l.fds.length ∧
      l'.poller.watched = fd :: l.poller.watched := by
  have taken : ∀ slot ∈ l.fds, (!slot.active) = false → slot.held.isSome = true := by
    intro slot _ used
    rw [Bool.not_eq_false'] at used
    rw [FdSlot.held, if_pos used]
    rfl
  obtain ⟨i,found⟩ := exists_free taken room
  obtain ⟨slot,here,free⟩ := findIdx?_found found
  have empty : slot.held = none := by
    rw [Bool.not_eq_true'] at free
    rw [FdSlot.held, free]
    rfl
  refine ⟨⟨l.fds.set i ⟨fd,true⟩,⟨fd :: l.poller.watched,l.poller.storeTag fd userData⟩⟩,?_,?_,?_,rfl⟩
  · have added : l.poller.add fd userData true = some _ := if_pos ⟨new,rfl⟩
    simp only [EventLoop.addFd, found, added]
  · exact filterMap_fill here empty rfl
  · exact length_set

theorem removeFd_spec (watched : fd ∈ l.poller.watched) (occupies : fd ∈ l.occupied) :
    ∃ l', l.removeFd fd = .ok l' ∧ l.occupied.Perm (fd :: l'.occupied) ∧ l'.fds.length = l.fds.length ∧
      l'.poller.watched = l.poller.watched.filter (· ≠ fd) := by
  obtain ⟨slot,member,held⟩ := mem_filterMap.1 occupies
  have used : slot.active = true ∧ slot.fd = fd := by
    rw [FdSlot.held] at held
    split at held
    · exact ⟨‹_›,Option.some.inj held⟩
    · cases held
  cases found : l.fds.findIdx? (fun slot => slot.active && slot.fd = fd) with
  | none =>
    have misses := findIdx?_eq_none_iff.1 found slot member
    rw [used.1, used.2, decide_eq_true rfl] at misses
    cases misses
  | some i =>
    obtain ⟨old,here,passes⟩ := findIdx?_found found
    rw [Bool.and_eq_true, decide_eq_true_eq] at passes
    have holds : old.held = some fd := by rw [FdSlot.held, if_pos passes.1, passes.2]
    refine ⟨⟨l.fds.set i ⟨-1,false⟩,⟨l.poller.watched.filter (· ≠ fd),l.poller.clearTag fd⟩⟩,?_,?_,?_,rfl⟩
    · have removed : l.poller.remove fd = some _ := if_pos watched
      simp only [EventLoop.removeFd, found, removed]
    · exact filterMap_clear here holds rfl
    · exact length_set

end

end Newosp.Nodes
