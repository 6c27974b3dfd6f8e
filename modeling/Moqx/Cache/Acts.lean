import Moqx.Cache.FetchWriteback

/-! The primitive changes of the cache. Every operation is a sequence of these acts, so what
each act keeps is kept by every operation. -/
namespace Moqx

open Moxygen

variable [Moxygen]

/-- Why a track is removed: a purge, the limit on tracks, or nothing being left of it. -/
inductive EvictCause where
  | purge
  | oldest
  | empty

inductive Act where
  | info (tref : TrackRef)
  | live (tref : TrackRef) (count : Nat)
  | emplaceTrack (ftn : FullTrackName)
  | markEvicted (ftn : FullTrackName) (tref : TrackRef) (cause : EvictCause)
  | eraseTrack (ftn : FullTrackName) (tref : TrackRef)
  | addTrack (ftn : FullTrackName) (tref : TrackRef)
  | removeTrack (tref : TrackRef)
  | emplaceGroup (tref : TrackRef) (groupID : Nat)
  | groupInfo (tref : TrackRef) (ref : GroupRef)
  | insertGap (tref : TrackRef) (a b : AbsoluteLocation)
  | store (tref : TrackRef) (ref : GroupRef) (l : AbsoluteLocation) (w : ObjectWrite)
  | append (tref : TrackRef) (ref : GroupRef) (l : AbsoluteLocation)
  | expire (tref : TrackRef) (ref : GroupRef) (l : AbsoluteLocation)
  | evictGroup (tref : TrackRef) (groupID : Nat)
  | addGroup (ftn : FullTrackName) (groupID : Nat) (tref : TrackRef) (ref : GroupRef)
  | removeGroup (tref : TrackRef) (ref : GroupRef)
  | popGroup
  | register (tref : TrackRef) (loc : AbsoluteLocation) (entry : FetchInProgressEntry)
  | progress (tref : TrackRef) (key : AbsoluteLocation) (entry : FetchInProgressEntry)
  | deregister (tref : TrackRef) (key : AbsoluteLocation)

/-- Where an eviction of a group comes from: its track is being removed, or a list names it. -/
def Cache.GroupNamed (c : Cache) (tref : TrackRef) (groupID : Nat) : Prop :=
  (c.tracks tref).evicted = true ∨ (∃ n, (n, groupID) ∈ (c.tracks tref).groupLRU) ∨
    ∃ n ftn, (n, ftn, groupID) ∈ c.globalGroupLRU ∧ c.cache.lookup ftn = some tref

/-- A track is removed without a purge when a list names it or nothing holds on to it. -/
def Cache.TrackNamed (c : Cache) (ftn : FullTrackName) (tref : TrackRef) : EvictCause → Prop
  | .purge => True
  | .oldest => ∃ n, (n, ftn) ∈ c.trackLRU
  | .empty => (c.tracks tref).groups.keys = [] ∧ (c.tracks tref).canEvict = true

inductive Prim : Cache → Act → Cache → Prop where
  | info (c : Cache) (tref : TrackRef) (endOfTrack : Bool) (largest : Option AbsoluteLocation)
      (maxCacheDuration : Option Milliseconds) (extensions : Extensions) (lastWrite : TimePoint) :
      Prim c (.info tref) (c.setTrack tref
        ((c.tracks tref).setInfo endOfTrack largest maxCacheDuration extensions lastWrite))
  | live (c : Cache) (tref : TrackRef) (count : Nat) :
      Prim c (.live tref count)
        (c.setTrack tref { c.tracks tref with liveWritebackCount := count })
  | emplaceTrack (c : Cache) (ftn : FullTrackName) (h : c.cache.lookup ftn = none) :
      Prim c (.emplaceTrack ftn) (c.emplaceTrack ftn)
  | markEvicted (c : Cache) (ftn : FullTrackName) (tref : TrackRef)
      (cause : EvictCause) (h : c.cache.lookup ftn = some tref)
      (named : c.TrackNamed ftn tref cause) :
      Prim c (.markEvicted ftn tref cause) (c.markEvicted tref)
  | eraseTrack (c : Cache) (ftn : FullTrackName) (tref : TrackRef)
      (h : c.cache.lookup ftn = some tref) (evicted : (c.tracks tref).evicted = true)
      (empty : (c.tracks tref).groups.keys = []) :
      Prim c (.eraseTrack ftn tref) { c with cache := c.cache.erase ftn }
  | addTrack (c : Cache) (ftn : FullTrackName) (tref : TrackRef) :
      Prim c (.addTrack ftn tref) (c.addTrackToLRU ftn tref)
  | removeTrack (c : Cache) (tref : TrackRef) :
      Prim c (.removeTrack tref) (c.takeTrackFromLRU tref)
  | emplaceGroup (c : Cache) (tref : TrackRef) (groupID : Nat)
      (h : (c.tracks tref).groups.lookup groupID = none) :
      Prim c (.emplaceGroup tref groupID)
        (c.setTrack tref ((c.tracks tref).emplaceGroup groupID))
  | groupInfo (c : Cache) (tref : TrackRef) (ref : GroupRef) (endOfGroup : Bool)
      (seen : Option Nat) :
      Prim c (.groupInfo tref ref) (c.setTrack tref ((c.tracks tref).setGroup ref
        { (c.tracks tref).heap ref with
          endOfGroup := endOfGroup, seenPriorGroupIdGap := seen }))
  | insertGap (c : Cache) (tref : TrackRef) (a b : AbsoluteLocation) :
      Prim c (.insertGap tref a b) (c.setTrack tref ((c.tracks tref).insertGap a b))
  | store (c : Cache) (tref : TrackRef) (ref : GroupRef) (l : AbsoluteLocation)
      (w : ObjectWrite) (g : CacheGroup) (total : Nat)
      (put : ((c.tracks tref).heap ref).putObject l.object w = .ok (.ok g))
      (bytes : total + ((c.tracks tref).heap ref).totalBytes =
        c.totalCachedBytes + g.totalBytes) :
      Prim c (.store tref ref l w)
        ((c.setTrack tref ((c.tracks tref).storeObject ref g l w.complete)).setTotal total)
  | append (c : Cache) (tref : TrackRef) (ref : GroupRef) (l : AbsoluteLocation)
      (e : CacheEntry) (chunk : Payload) (completes : Bool)
      (h : ((c.tracks tref).heap ref).objects.lookup l.object = some e) :
      Prim c (.append tref ref l)
        ((c.setTrack tref ((c.tracks tref).appendObject ref l e chunk completes)).setTotal
          (c.totalCachedBytes + chunk.length))
  | expire (c : Cache) (tref : TrackRef) (ref : GroupRef) (l : AbsoluteLocation)
      (e : CacheEntry) (hg : (c.tracks tref).groups.lookup l.group = some ref)
      (h : ((c.tracks tref).heap ref).objects.lookup l.object = some e)
      (groupBytes : e.payloadSize ≤ ((c.tracks tref).heap ref).totalBytes)
      (bytes : e.payloadSize ≤ c.totalCachedBytes) :
      Prim c (.expire tref ref l)
        ((c.setTrack tref ((c.tracks tref).eraseObject ref l
            (((c.tracks tref).heap ref).totalBytes - e.payloadSize))).setTotal
          (c.totalCachedBytes - e.payloadSize))
  | evictGroup (c : Cache) (tref : TrackRef) (groupID : Nat) (ref : GroupRef)
      (h : (c.tracks tref).groups.lookup groupID = some ref)
      (bytes : ((c.tracks tref).heap ref).totalBytes ≤ c.totalCachedBytes)
      (named : c.GroupNamed tref groupID) :
      Prim c (.evictGroup tref groupID) (c.dropGroup tref groupID ref)
  | addGroup (c : Cache) (ftn : FullTrackName) (groupID : Nat) (tref : TrackRef)
      (ref : GroupRef) (h : ((c.tracks tref).heap ref).lruIter = none) :
      Prim c (.addGroup ftn groupID tref ref) (c.addGroupToLRU ftn groupID tref ref)
  | removeGroup (c : Cache) (tref : TrackRef) (groupID : Nat) (ref : GroupRef)
      (h : (c.tracks tref).groups.lookup groupID = some ref) :
      Prim c (.removeGroup tref ref) (c.takeGroupFromLRU tref ref)
  | popGroup (c : Cache) (n : NodeId) (ftn : FullTrackName) (groupID : Nat)
      (h : c.globalGroupLRU.getLast? = some (n, ftn, groupID))
      (gone : c.cache.lookup ftn = none) :
      Prim c .popGroup { c with globalGroupLRU := c.globalGroupLRU.dropLast }
  | register (c : Cache) (tref : TrackRef) (loc : AbsoluteLocation)
      (entry : FetchInProgressEntry) (ref : GroupRef)
      (h : (c.tracks tref).fetchesInProgress.lookup loc = none)
      (hg : (c.tracks tref).groups.lookup loc.group = some ref)
      (pinned : ((c.tracks tref).heap ref).lruIter = none) :
      Prim c (.register tref loc entry) (c.register tref loc entry)
  | progress (c : Cache) (tref : TrackRef) (key : AbsoluteLocation)
      (old entry : FetchInProgressEntry)
      (h : (c.tracks tref).fetchesInProgress.lookup key = some old) :
      Prim c (.progress tref key entry) (c.register tref key entry)
  | deregister (c : Cache) (tref : TrackRef) (key : AbsoluteLocation) :
      Prim c (.deregister tref key) (c.deregister tref key)

/-- The acts of a removal of a track. -/
def Act.clears : Act → Bool
  | .markEvicted _ _ _ => true
  | .evictGroup _ _ => true
  | .eraseTrack _ _ => true
  | _ => false

/-- Acts that begin or end the removal of a track. -/
def Act.removes : Act → Bool
  | .markEvicted _ _ _ => true
  | .eraseTrack _ _ => true
  | _ => false

/-- A sequence of acts, each of them allowed by `P` where it happens. -/
def Acts (P : Cache → Act → Prop) : Cache → Cache → Prop :=
  Relation.ReflTransGen fun c c' => ∃ a, P c a ∧ Prim c a c'

/-- A track is removed as a whole: it is stamped, its groups are evicted and its name goes. -/
inductive Removal (P : Cache → Act → Prop) (c c' : Cache) : Prop where
  | mk (ftn : FullTrackName) (tref : TrackRef) (cause : EvictCause) (d d' : Cache)
      (hP : P c (.markEvicted ftn tref cause)) (h : Prim c (.markEvicted ftn tref cause) d)
      (groups : Acts (fun d a => P d a ∧ ∃ groupID, a = .evictGroup tref groupID) d d')
      (hP' : P d' (.eraseTrack ftn tref)) (h' : Prim d' (.eraseTrack ftn tref) c')

/-- A sequence of acts in which every removal of a track is complete. -/
def Steps (P : Cache → Act → Prop) : Cache → Cache → Prop :=
  Relation.ReflTransGen fun c c' =>
    (∃ a : Act, a.removes = false ∧ P c a ∧ Prim c a c') ∨ Removal P c c'

end Moqx
