import Newosp.Lib.IntrusiveList
import Newosp.MemPool.FixedPool

/-!
# The links of the free blocks

The tag of the head counts its updates, so a head that compares equal after fewer than 65536 of them was not updated
since it was loaded, and the link read from the first free block is still there.
-/

namespace Newosp.MemPool
open Lib List Function

variable {ι : Type} {new : Place ι} {s s' : State ι} {pc : PC} {cfg : PoolConfig} {free : List Nat} {t : ι}

/-- The head was loaded as `head` when it had been updated `loaded` times. -/
structure Saw (s : State ι) (loaded head : Nat) : Prop where
  past : loaded ≤ s.version
  tag : headTag head = loaded % 65536
  current : loaded = s.version → s.freeHead = head

def ThreadOk (s : State ι) (loaded : Nat) : PC → Prop
  | .allocNext head => Saw s loaded head ∧ headIndex head ≠ kFreeIndexEmpty
  | .allocCas head next => Saw s loaded head ∧ headIndex head ≠ kFreeIndexEmpty ∧
      (loaded = s.version → next = s.word (headIndex head))
  | .freeLink _ head => Saw s loaded head
  | .freeCas b head => Saw s loaded head ∧ s.word b = headIndex head
  | _ => True

/-- The link of a free block: the part of its first word that goes into the head. -/
def State.link (s : State ι) (b : Nat) : Nat := s.word b % 65536

/-- The pool between two steps, with the free blocks in the order of the list. -/
structure Links (cfg : PoolConfig) (s : State ι) (free : List Nat) : Prop where
  tag : headTag s.freeHead = s.version % 65536
  linked : Linked s.link kFreeIndexEmpty (headIndex s.freeHead) free
  mem : ∀ b, b ∈ free ↔ b < cfg.maxBlocks ∧ s.place b = .free
  inside : ∀ b, s.place b ≠ .free → b < cfg.maxBlocks
  holding : ∀ t b, (s.pc t).holds = some b ↔ s.place b = .transit t
  threads : ∀ t, ThreadOk s (s.loaded t) (s.pc t)

structure Moved [DecidableEq ι] (s s' : State ι) (t : ι) (pc : PC) (b : Nat) (new : Place ι) : Prop where
  pcs : s'.pc = update s.pc t pc
  place : s'.place = update s.place b new
  loaded : s'.loaded = s.loaded
  words : s'.word = s.word
  before : ∀ u, u ≠ t → s.place b ≠ .transit u
  held : (s.pc t).holds = none ∨ (s.pc t).holds = some b
  after : (pc.holds = some b ∧ new = .transit t) ∨ (pc.holds = none ∧ ∀ u, new ≠ .transit u)

section

variable {loaded head : Nat}

theorem Saw.mono (h : Saw s loaded head) (later : s.version ≤ s'.version)
    (same : s'.version = s.version → s'.freeHead = s.freeHead) : Saw s' loaded head := by
  refine ⟨le_trans h.past later,h.tag,?_⟩
  intro now
  have past := h.past
  rw [same (by omega)]
  exact h.current (by omega)

theorem ThreadOk.mono (h : ThreadOk s loaded pc) (later : s.version ≤ s'.version)
    (same : s'.version = s.version → s'.freeHead = s.freeHead ∧
      s'.word (headIndex s.freeHead) = s.word (headIndex s.freeHead))
    (mine : ∀ b, pc.holds = some b → s'.word b = s.word b) : ThreadOk s' loaded pc := by
  have saw : ∀ {head}, Saw s loaded head → Saw s' loaded head := fun h => h.mono later fun now => (same now).1
  cases pc with
  | allocNext head => exact ⟨saw h.1,h.2⟩
  | allocCas head next =>
    obtain ⟨was,valid,link⟩ := h
    refine ⟨saw was,valid,?_⟩
    intro now
    have past := was.past
    rw [link (by omega), ← was.current (by omega), (same (by omega)).2]
  | freeLink b head => exact saw h
  | freeCas b head =>
    refine ⟨saw h.1,?_⟩
    rw [mine b rfl]
    exact h.2
  | _ => trivial

theorem Saw.eq_version (saw : Saw s loaded head) (tag : headTag s.freeHead = s.version % 65536)
    (recent : s.version < loaded + 65536) (same : s.freeHead = head) : loaded = s.version := by
  have past := saw.past
  have tags : s.version % 65536 = loaded % 65536 := by rw [← tag, same, saw.tag]
  omega

end

section

variable {b : Nat} {u : ι}

section

variable (h : Links cfg s free)
include h

theorem Links.top_free : s.place (headIndex s.freeHead) = .free := by
  have linked := h.linked
  cases free with
  | nil =>
    by_contra used
    have inside := h.inside _ used
    have small := cfg.fitsIndex
    rw [linked_nil.1 linked, kFreeIndexEmpty] at inside
    omega
  | cons b free =>
    rw [linked.1]
    exact ((h.mem b).1 mem_cons_self).2

theorem Links.empty (none : headIndex s.freeHead = kFreeIndexEmpty) :
    free = [] ∧ ∀ b < cfg.maxBlocks, s.place b ≠ .free := by
  have linked := h.linked
  rw [none] at linked
  have empty : free = [] := linked.unique rfl
  refine ⟨empty,?_⟩
  intro b inside isFree
  have member := (h.mem b).2 ⟨inside,isFree⟩
  rw [empty] at member
  exact absurd member not_mem_nil

section

variable (head : s'.freeHead = s.freeHead) (version : s'.version = s.version)
  (words : ∀ b, s.place b = .free → s'.word b = s.word b)
include head version words

theorem Links.keep (places : ∀ b, s'.place b = .free ↔ s.place b = .free)
    (holding : ∀ u b, (s'.pc u).holds = some b ↔ s'.place b = .transit u)
    (threads : ∀ u, ThreadOk s' (s'.loaded u) (s'.pc u)) : Links cfg s' free where
  tag := by rw [head, version, h.tag]
  linked := by
    rw [head]
    apply h.linked.congr
    intro b member
    rw [State.link, words b ((h.mem b).1 member).2]
    rfl
  mem b := by rw [h.mem, places]
  inside b used := by
    rw [ne_eq, places] at used
    exact h.inside b used
  holding := holding
  threads := threads

theorem Links.others
    (mine : ∀ b, s.place b = .transit u → s'.word b = s.word b) : ThreadOk s' (s.loaded u) (s.pc u) := by
  refine (h.threads u).mono (le_of_eq version.symm) (fun _ => ⟨head,words _ h.top_free⟩) ?_
  intro b held
  exact mine b ((h.holding u b).1 held)

end

theorem Links.write {value : Nat} (used : s.place b = .allocated) : Links cfg (s.setWord b value) free := by
  have apart : ∀ c, s.place c ≠ .allocated → (s.setWord b value).word c = s.word c := by
    intro c other
    apply update_of_ne
    rintro rfl
    exact other used
  have words : ∀ c, s.place c = .free → (s.setWord b value).word c = s.word c :=
    fun c isFree => apart c (by rw [isFree]; exact nofun)
  refine h.keep rfl rfl words (fun _ => Iff.rfl) h.holding ?_
  intro u
  refine h.others ?head ?version words ?mine
  case head => rfl
  case version => rfl
  case mine => exact fun c held => apart c (by rw [held]; exact nofun)

end

variable [DecidableEq ι] (h : Links cfg s free)
include h

omit [DecidableEq ι] in
theorem Links.apart (held : (s.pc t).holds = some b) (other : u ≠ t) : s.place b ≠ .transit u := by
  rw [(h.holding t b).1 held]
  intro same
  exact other (Place.transit.inj same).symm

section

variable (pcs : s'.pc = update s.pc t pc) (head : s'.freeHead = s.freeHead) (version : s'.version = s.version)
  (place : s'.place = s.place)
include pcs head version place

theorem Links.quiet (loaded : ∀ u, u ≠ t → s'.loaded u = s.loaded u)
    (words : ∀ b, (s.pc t).holds ≠ some b → s'.word b = s.word b) (holds : pc.holds = (s.pc t).holds)
    (ok : ThreadOk s' (s'.loaded t) pc) : Links cfg s' free := by
  have free_ : ∀ b, s.place b = .free → s'.word b = s.word b := by
    intro b isFree
    apply words
    rw [ne_eq, h.holding, isFree]
    exact nofun
  apply h.keep head version free_
  case places => intro b; rw [place]
  case holding =>
    intro u b
    rw [pcs, place, ← h.holding, update_same PC.holds holds]
  case threads =>
    rw [pcs]
    refine (forall_update_iff s.pc fun u pc => ThreadOk s' (s'.loaded u) pc).2 ⟨ok,fun u own => ?_⟩
    rw [loaded u own]
    apply h.others head version free_
    intro b held
    apply words
    intro mine
    exact h.apart mine own held

theorem Links.load (loaded : s'.loaded = update s.loaded t s.version) (words : s'.word = s.word)
    (holds : pc.holds = (s.pc t).holds) (ok : Saw s' s.version s.freeHead → ThreadOk s' s.version pc) :
    Links cfg s' free := by
  refine h.quiet pcs head version place ?_ (fun b _ => by rw [words]) holds ?_
  · intro u other
    rw [loaded, update_of_ne other]
  · rw [loaded, update_self]
    exact ok ⟨le_of_eq version.symm,h.tag,fun _ => head⟩

end

theorem Links.holding_move (m : Moved s s' t pc b new) (u : ι) (c : Nat) :
    (s'.pc u).holds = some c ↔ s'.place c = .transit u := by
  have holds : ∀ c, pc.holds = some c ↔ c = b ∧ new = .transit t := by
    intro c
    rcases m.after with ⟨takes,mine⟩ | ⟨gives,nobody⟩
    · rw [takes]
      exact ⟨fun same => ⟨(Option.some.inj same).symm,mine⟩,fun both => by rw [both.1]⟩
    · rw [gives]
      exact ⟨nofun,fun both => absurd both.2 (nobody t)⟩
  have theirs : ∀ u, u ≠ t → new ≠ .transit u := by
    intro u own moved
    rcases m.after with ⟨_,mine⟩ | ⟨_,nobody⟩
    · rw [moved] at mine
      exact own (Place.transit.inj mine)
    · exact nobody u moved
  exact holding_moved m.pcs m.place h.holding holds (fun _ => eq_of_held m.held) (fun u own => ⟨m.before u own,theirs u own⟩) u c

theorem Links.hand (m : Moved s s' t pc b new) (busy : s.place b ≠ .free)
    (still : new ≠ .free) (head : s'.freeHead = s.freeHead) (version : s'.version = s.version)
    (ok : ThreadOk s' (s.loaded t) pc) : Links cfg s' free := by
  refine h.keep head version (fun c _ => by rw [m.words]) ?places (h.holding_move m) ?threads
  case places =>
    rw [m.place]
    exact update_eq_iff busy still
  case threads =>
    rw [m.pcs, m.loaded]
    refine (forall_update_iff s.pc fun u pc => ThreadOk s' (s.loaded u) pc).2 ⟨ok,fun u _ => ?_⟩
    exact h.others head version (fun c _ => by rw [m.words]) fun c _ => by rw [m.words]

end

section

variable [DecidableEq ι]

theorem Links.update (h : Links cfg s free) {b : Nat} {free' : List Nat}
    (m : Moved s s' t pc b new) (inside : b < cfg.maxBlocks) (version : s'.version = s.version + 1)
    (tag : headTag s'.freeHead = (s.version + 1) % 65536)
    (linked : Linked s.link kFreeIndexEmpty (headIndex s'.freeHead) free')
    (here : b ∈ free' ↔ new = .free) (elsewhere : ∀ c, c ≠ b → (c ∈ free' ↔ c ∈ free))
    (ok : ThreadOk s' (s.loaded t) pc) : Links cfg s' free' where
  tag := by rw [version, tag]
  linked := by
    have links : s'.link = s.link := by
      funext c
      rw [State.link, m.words]
      rfl
    rw [links]
    exact linked
  mem c := by
    rw [m.place]
    by_cases same : c = b
    · rw [same, update_self, here]
      exact ⟨fun isFree => ⟨inside,isFree⟩,fun both => both.2⟩
    · rw [update_of_ne same, elsewhere c same, h.mem]
  inside c used := by
    by_cases same : c = b
    · rw [same]
      exact inside
    · rw [m.place, update_of_ne same] at used
      exact h.inside c used
  holding := h.holding_move m
  threads := by
    rw [m.pcs, m.loaded]
    refine (forall_update_iff s.pc fun u pc => ThreadOk s' (s.loaded u) pc).2 ⟨ok,fun u _ => ?_⟩
    refine (h.threads u).mono (by omega) (fun same => ?_) fun c _ => by rw [m.words]
    omega

theorem Links.pop (h : Links cfg s free) {head next : Nat} (pc : s.pc t = .allocCas head next)
    (recent : s.version < s.loaded t + 65536) (same : s.freeHead = head) :
    ∃ free', Links cfg (((s.setHead (packHead next (headTag head + 1))).moveTo (headIndex head) (.transit t)).goto t
      (.allocCount (headIndex head))) free' := by
  have thread := h.threads t
  rw [pc] at thread
  obtain ⟨saw,some_,link⟩ := thread
  have current := saw.eq_version h.tag recent same
  have linked := h.linked
  rw [same] at linked
  cases free with
  | nil => exact absurd (linked_nil.1 linked) some_
  | cons b free =>
    obtain ⟨rfl,_,rest⟩ := linked
    obtain ⟨inside,isFree⟩ := (h.mem _).1 mem_cons_self
    have nodup := nodup_cons.1 h.linked.nodup
    refine ⟨free,?_⟩
    refine h.update ⟨rfl,rfl,rfl,rfl,?before,.inl ?held,.inl ⟨rfl,rfl⟩⟩ inside rfl ?tag ?linked ?here ?elsewhere
      trivial
    case before =>
      intro u _
      rw [isFree]
      exact nofun
    case held => rw [pc]; rfl
    case tag =>
      change headTag (packHead next (headTag head + 1)) = _
      rw [headTag_packHead, saw.tag, current, Nat.mod_add_mod]
    case linked =>
      change Linked s.link kFreeIndexEmpty (headIndex (packHead next _)) free
      rw [headIndex_packHead, link current]
      exact rest
    case here => exact ⟨fun member => absurd member nodup.1,nofun⟩
    case elsewhere =>
      intro c ne
      rw [mem_cons]
      exact ⟨.inr,fun found => found.resolve_left ne⟩

theorem Links.push (h : Links cfg s free) {b head : Nat} (pc : s.pc t = .freeCas b head)
    (recent : s.version < s.loaded t + 65536) (same : s.freeHead = head) :
    ∃ free', Links cfg (((s.setHead (packHead b (headTag head + 1))).moveTo b .free).goto t (.freeCount b)) free' := by
  have thread := h.threads t
  rw [pc] at thread
  obtain ⟨saw,link⟩ := thread
  have current := saw.eq_version h.tag recent same
  have holds : (s.pc t).holds = some b := by rw [pc]; rfl
  have transit := (h.holding t b).1 holds
  have inside := h.inside b (by rw [transit]; exact nofun)
  have below : b < kFreeIndexEmpty := lt_of_lt_of_le inside cfg.fitsIndex
  have word : b % 65536 = b := Nat.mod_eq_of_lt (lt_trans below (by decide))
  have new : b ∉ free := by
    rw [h.mem, transit]
    exact nofun
  have linked := h.linked
  rw [same] at linked
  refine ⟨b :: free,?_⟩
  refine h.update ⟨rfl,rfl,rfl,rfl,fun u other => h.apart holds other,.inr holds,.inr ⟨rfl,nofun⟩⟩ inside rfl ?tag
    ?linked ?here ?elsewhere trivial
  case tag =>
    change headTag (packHead b (headTag head + 1)) = _
    rw [headTag_packHead, saw.tag, current, Nat.mod_add_mod]
  case linked =>
    change Linked s.link kFreeIndexEmpty (headIndex (packHead b _)) (b :: free)
    rw [headIndex_packHead, word]
    apply linked.push new (Nat.ne_of_lt below) ?_ fun _ _ => rfl
    rw [State.link, link, headIndex_eq, Nat.mod_mod]
  case here => exact ⟨fun _ => rfl,fun _ => mem_cons_self⟩
  case elsewhere =>
    intro c ne
    rw [mem_cons]
    exact ⟨fun found => found.resolve_left ne,.inr⟩

end

end Newosp.MemPool
