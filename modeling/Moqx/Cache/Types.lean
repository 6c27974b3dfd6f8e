import Moqx.Moxygen

/-! The data of the cache: entries, groups, tracks, least-recently-used lists and writers'
handles. A shared pointer is a number, and a list iterator is the number of its node. -/
namespace Moqx

open Moxygen

/-- Ways in which a call of the cache does not come back to its caller. -/
inductive Abort where
  /-- An `XCHECK` fails and the process stops. -/
  | xcheck (msg : String)
  /-- A null entry or an empty optional is dereferenced. -/
  | nullDeref
  /-- A `size_t` subtraction goes below zero. -/
  | underflow
  /-- A list iterator is used whose node has left the list. -/
  | staleIterator
  /-- A loop makes no progress and runs forever. -/
  | diverges
  /-- The caller does not exist, so there is no such call. -/
  | noCaller
deriving DecidableEq, Repr

def xcheck (cond : Bool) (msg : String) : Except Abort Unit :=
  if cond then .ok () else .error (.xcheck msg)

/-- Subtraction of byte counters, which are unsigned. -/
def subSize (a b : Nat) : Except Abort Nat :=
  if b ≤ a then .ok (a - b) else .error .underflow

theorem bind_eq_ok {α β : Type} {m : Except Abort α} {f : α → Except Abort β} {b : β} :
    m >>= f = .ok b ↔ ∃ a, m = .ok a ∧ f a = .ok b := by
  cases m <;> simp [bind, Except.bind]

theorem bind_eq_error {α β : Type} {m : Except Abort α} {f : α → Except Abort β} {e : Abort} :
    m >>= f = .error e ↔ m = .error e ∨ ∃ a, m = .ok a ∧ f a = .error e := by
  cases m <;> simp [bind, Except.bind]

theorem map_eq_ok {α β : Type} {m : Except Abort α} {f : α → β} {b : β} :
    f <$> m = .ok b ↔ ∃ a, m = .ok a ∧ f a = b := by
  cases m <;> simp [Functor.map, Except.map]

theorem xcheck_eq_ok {cond : Bool} {msg : String} {u : Unit} :
    xcheck cond msg = .ok u ↔ cond = true := by
  cases cond <;> simp [xcheck]

/-- Subtraction of `uint64_t` values wraps around. -/
def u64Sub (a b : Nat) : Nat := (a + 2 ^ 64 - b) % 2 ^ 64

abbrev GroupRef := Nat
abbrev TrackRef := Nat
abbrev NodeId := Nat
abbrev WritebackId := Nat

/-- Steady clock readings, in nanoseconds. -/
abbrev TimePoint := Int

/-- Cache durations, in milliseconds. -/
abbrev Milliseconds := Int

/-- Durations are compared as signed 64-bit nanosecond counts. -/
def toNanoseconds (d : Milliseconds) : Int := (d * 1000000).bmod (2 ^ 64)

def kMaxGapValidation : Nat := 100
def kPriorGroupIdGapExtensionType : Nat := 0x3C
def kPriorObjectIdGapExtensionType : Nat := 0x3E

/-- Result of a publisher call. -/
abbrev Expected (α : Type) := Except MoQPublishError α

def malformedTrack {α : Type} (msg : String) : Expected α := .error ⟨.malformedTrack, msg⟩

section
variable [Moxygen]

/-- Entry for single cached object. -/
structure CacheEntry where
  subgroup : Nat
  status : ObjectStatus
  extensions : Extensions
  payload : Option Payload
  payloadSize : Nat
  complete : Bool
  forwardingPreferenceIsDatagram : Bool
  cachedAt : TimePoint

/-- Entry for a group. The two iterators are present while the group is evictable. -/
structure CacheGroup where
  objects : AList (fun _ : Nat => CacheEntry) := ∅
  maxCachedObject : Nat := 0
  endOfGroup : Bool := false
  seenPriorGroupIdGap : Option Nat := none
  totalBytes : Nat := 0
  lruIter : Option NodeId := none
  globalLruIter : Option NodeId := none

structure FetchInProgressEntry where
  end_ : AbsoluteLocation
  progress : AbsoluteLocation
  writeback : WritebackId
deriving DecidableEq, Repr

/-- A cached track. `groups` is the group map; `heap` holds every group ever created for
the track, since writers keep groups alive after eviction. -/
structure CacheTrack where
  groups : AList (fun _ : Nat => GroupRef) := ∅
  heap : GroupRef → CacheGroup := fun _ => {}
  nextGroupRef : GroupRef := 0
  gaps : LocationIntervalSet := emptySet
  cachedContent : LocationIntervalSet := emptySet
  liveWritebackCount : Nat := 0
  endOfTrack : Bool := false
  largestGroupAndObject : Option AbsoluteLocation := none
  fetchesInProgress : AList (fun _ : AbsoluteLocation => FetchInProgressEntry) := ∅
  lruIter : Option NodeId := none
  groupLRU : List (NodeId × Nat) := []
  maxCacheDuration : Option Milliseconds := none
  extensions : Extensions := noExtensions
  evicted : Bool := false
  lastWrite : TimePoint := -(2 ^ 63)

/-- The cache. `cache` maps names to tracks; `tracks` holds every track ever created. The
front of a list is its most recently used end. -/
structure Cache where
  cache : AList (fun _ : FullTrackName => TrackRef) := ∅
  tracks : TrackRef → CacheTrack := fun _ => {}
  nextTrackRef : TrackRef := 0
  nextNode : NodeId := 0
  trackLRU : List (NodeId × FullTrackName) := []
  globalGroupLRU : List (NodeId × FullTrackName × Nat) := []
  maxCachedTracks : Nat := 100
  maxCachedGroupsPerTrack : Nat := 3
  maxCachedBytes : Nat := 10 * 1024 * 1024
  minEvictionBytes : Nat := 100 * 1024
  totalCachedBytes : Nat := 0
  defaultMaxCacheDuration : Option Milliseconds := none
  maxAllowedCacheDuration : Option Milliseconds := none

namespace CacheTrack

@[simps groups nextGroupRef gaps cachedContent groupLRU lruIter evicted fetchesInProgress
  liveWritebackCount]
def setGroup (t : CacheTrack) (ref : GroupRef) (g : CacheGroup) : CacheTrack :=
  { t with heap := Function.update t.heap ref g }

/-- The group stored under an id, if the track has one. -/
def group? (t : CacheTrack) (groupID : Nat) : Option CacheGroup :=
  (t.groups.lookup groupID).map t.heap

/-- The entry stored at a location, complete or not. -/
def slot? (t : CacheTrack) (l : AbsoluteLocation) : Option CacheEntry :=
  (t.group? l.group).bind fun g => g.objects.lookup l.object

/-- Put a new empty group under an unused id. -/
@[simps evicted nextGroupRef]
def emplaceGroup (t : CacheTrack) (groupID : Nat) : CacheTrack :=
  { t.setGroup t.nextGroupRef {} with
    groups := t.groups.insert groupID t.nextGroupRef
    nextGroupRef := t.nextGroupRef + 1 }

def canEvict (t : CacheTrack) : Bool :=
  t.liveWritebackCount = 0 && t.fetchesInProgress.entries.isEmpty

def shouldSkipCaching (t : CacheTrack) : Bool := t.evicted || t.maxCacheDuration = some 0

/-- Update what is known of a track as a whole. -/
def setInfo (t : CacheTrack) (endOfTrack : Bool) (largest : Option AbsoluteLocation)
    (maxCacheDuration : Option Milliseconds) (extensions : Extensions) (lastWrite : TimePoint) :
    CacheTrack :=
  { t with
    endOfTrack := endOfTrack, largestGroupAndObject := largest
    maxCacheDuration := maxCacheDuration, extensions := extensions, lastWrite := lastWrite }

/-- Insert a known-non-existent range into both gaps and cachedContent. -/
def insertGap (t : CacheTrack) (a b : AbsoluteLocation) : CacheTrack :=
  { t with gaps := insert t.gaps a b, cachedContent := insert t.cachedContent a b }

end CacheTrack

namespace Cache

@[simps cache nextTrackRef nextNode trackLRU globalGroupLRU totalCachedBytes]
def setTrack (c : Cache) (ref : TrackRef) (t : CacheTrack) : Cache :=
  { c with tracks := Function.update c.tracks ref t }

@[simps cache nextTrackRef nextNode trackLRU globalGroupLRU totalCachedBytes]
def setTotal (c : Cache) (total : Nat) : Cache := { c with totalCachedBytes := total }

/-- Put a new empty track under an unused name. -/
def emplaceTrack (c : Cache) (ftn : FullTrackName) : Cache :=
  { c.setTrack c.nextTrackRef {} with
    cache := c.cache.insert ftn c.nextTrackRef
    nextTrackRef := c.nextTrackRef + 1 }

section
variable (c : Cache) (tref : TrackRef) (t t' : CacheTrack) (total : Nat)

@[simp] theorem setTrack_tracks : (c.setTrack tref t).tracks tref = t := by
  simp [setTrack]

@[simp] theorem setTrack_tracks_ne {tr : TrackRef} (h : tr ≠ tref) :
    (c.setTrack tref t).tracks tr = c.tracks tr := by
  simp [setTrack, h]

@[simp] theorem setTrack_setTrack : (c.setTrack tref t).setTrack tref t' = c.setTrack tref t' := by
  simp [setTrack]

theorem setTrack_self : c.setTrack tref (c.tracks tref) = c := by
  simp [setTrack]

@[simp] theorem setTotal_tracks : (c.setTotal total).tracks = c.tracks := rfl

theorem setTotal_setTrack :
    (c.setTotal total).setTrack tref t = (c.setTrack tref t).setTotal total := rfl

end

end Cache

namespace CacheTrack
variable (t : CacheTrack) (ref : GroupRef) (g : CacheGroup)

@[simp] theorem setGroup_heap : (t.setGroup ref g).heap ref = g := by
  simp [setGroup]

@[simp] theorem setGroup_heap_ne {r : GroupRef} (h : r ≠ ref) :
    (t.setGroup ref g).heap r = t.heap r := by
  simp [setGroup, h]

end CacheTrack

end

end Moqx
