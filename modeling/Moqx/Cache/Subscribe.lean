import Moqx.Cache.Ranges
import Moqx.Cache.Evict

/-! The subscribe path: a `SubscribeWriteback` per subscription and a `SubgroupWriteback` per
open subgroup write what passes through them into the cache. A call answered `.ok` here is
forwarded to the downstream consumer, whose answer is then the answer of the call. -/
namespace Moqx

open Moxygen

variable [Moxygen]

structure SubscribeWriteback where
  track : TrackRef
  ftn : FullTrackName
deriving DecidableEq, Repr

structure SubgroupWriteback where
  group : Nat
  subgroup : Nat
  track : TrackRef
  groupRef : GroupRef
  ftn : FullTrackName
  currentObject : Nat
  currentLength : Nat
deriving DecidableEq, Repr

structure ObjectHeader where
  group : Nat
  subgroup : Nat
  id : Nat
  status : ObjectStatus
  extensions : Extensions

namespace Cache

def updateLargest (c : Cache) (tref : TrackRef) (current : AbsoluteLocation) (eot : Bool) :
    Expected Unit × Cache :=
  let (res, t) := (c.tracks tref).updateLargest current eot
  (res, c.setTrack tref t)

/-- The track of a name, created after an attempt to make room for it. -/
def getOrCreateTrack (c : Cache) (ftn : FullTrackName) : Except Abort (TrackRef × Cache) :=
  match c.cache.lookup ftn with
  | some tref => .ok (tref, c)
  | none => do
    let c ← c.makeRoomForTrack
    .ok (c.nextTrackRef, c.emplaceTrack ftn)

def getSubscribeWriteback (c : Cache) (ftn : FullTrackName) :
    Except Abort (SubscribeWriteback × Cache) := do
  let (tref, c) ← c.getOrCreateTrack ftn
  let c ← c.removeTrackFromLRU tref
  let t := c.tracks tref
  .ok (⟨tref, ftn⟩, c.setTrack tref { t with liveWritebackCount := t.liveWritebackCount + 1 })

/-- The track of a name; a new one starts in the list of evictable tracks. -/
def getOrCreateIdleTrack (c : Cache) (ftn : FullTrackName) : TrackRef × Cache :=
  match c.cache.lookup ftn with
  | some tref => (tref, c)
  | none => (c.nextTrackRef, (c.emplaceTrack ftn).addTrackToLRU ftn c.nextTrackRef)

def setMaxCacheDuration (c : Cache) (ftn : FullTrackName) (duration : Milliseconds) : Cache :=
  let (tref, c) := c.getOrCreateIdleTrack ftn
  let t := c.tracks tref
  c.setTrack tref
    (t.setInfo t.endOfTrack t.largestGroupAndObject (some duration) t.extensions t.lastWrite)

def clearMaxCacheDuration (c : Cache) (ftn : FullTrackName) : Cache :=
  match c.cache.lookup ftn with
  | some tref =>
    let t := c.tracks tref
    c.setTrack tref (t.setInfo t.endOfTrack t.largestGroupAndObject none t.extensions t.lastWrite)
  | none => c

/-- The publisher's duration under the cap, or the default. -/
def getEffectiveCacheDuration (c : Cache) (ext : Extensions) : Option Milliseconds :=
  match getIntExtension ext kMaxCacheDurationExtensionType with
  | some ms =>
    let dur := (ms : Int).bmod (2 ^ 64)
    some (c.maxAllowedCacheDuration.elim dur (min dur))
  | none => c.defaultMaxCacheDuration

def setTrackExtensions (c : Cache) (ftn : FullTrackName) (ext : Extensions) : Cache :=
  let c := match c.getEffectiveCacheDuration ext with
    | some dur => c.setMaxCacheDuration ftn dur
    | none => c.clearMaxCacheDuration ftn
  let (tref, c) := c.getOrCreateIdleTrack ftn
  let t := c.tracks tref
  c.setTrack tref
    (t.setInfo t.endOfTrack t.largestGroupAndObject t.maxCacheDuration ext t.lastWrite)

end Cache

namespace SubscribeWriteback

/-- The destructor. -/
def close (w : SubscribeWriteback) (c : Cache) : Except Abort Cache := do
  let t := c.tracks w.track
  xcheck (0 < t.liveWritebackCount) "track_.liveWritebackCount > 0"
  let c := c.setTrack w.track { t with liveWritebackCount := t.liveWritebackCount - 1 }
  .ok (c.onTrackBecameEvictable w.ftn)

/-- `beginSubgroup`, told whether the downstream consumer accepts it. No writeback is made
when it does not or when the track skips caching. -/
def beginSubgroup (w : SubscribeWriteback) (c : Cache) (groupID subgroupID : Nat)
    (downstream : Expected Unit) :
    Except Abort (Expected (Option SubgroupWriteback) × Cache) :=
  if isGroupNonExistent (c.tracks w.track).gaps groupID then
    .ok (malformedTrack "Invalid status change", c)
  else
    match downstream with
    | .error e => .ok (.error e, c)
    | .ok _ =>
      if (c.tracks w.track).shouldSkipCaching then .ok (.ok none, c)
      else do
        let (ref, c) ← c.getOrCreateGroupWithEviction w.track groupID w.ftn
        let c ← c.removeGroupFromLRU w.track ref
        .ok (.ok (some ⟨groupID, subgroupID, w.track, ref, w.ftn, 0, 0⟩), c)

/-- Common body of `objectStream` and `datagram`. -/
def wholeObject (w : SubscribeWriteback) (c : Cache) (header : ObjectHeader)
    (payload : Option Payload) (isDatagram : Bool) (now : TimePoint) :
    Except Abort (Expected Unit × Cache) :=
  if (c.tracks w.track).shouldSkipCaching then .ok (.ok (), c)
  else
    match c.updateLargest w.track ⟨header.group, header.id⟩ (header.status = .endOfTrack) with
    | (.error e, c) => .ok (.error e, c)
    | (.ok _, c) => do
      let (ref, c) ← c.getOrCreateGroupWithEviction w.track header.group w.ftn
      c.cacheObjectAndUpdateBytes w.track ref header.group header.id
        ⟨header.subgroup, header.status, header.extensions, payload, true, isDatagram, now⟩

def objectStream (w : SubscribeWriteback) (c : Cache) (header : ObjectHeader)
    (payload : Option Payload) (now : TimePoint) : Except Abort (Expected Unit × Cache) :=
  w.wholeObject c header payload false now

def datagram (w : SubscribeWriteback) (c : Cache) (header : ObjectHeader)
    (payload : Option Payload) (now : TimePoint) : Except Abort (Expected Unit × Cache) :=
  w.wholeObject c header payload true now

end SubscribeWriteback

namespace SubgroupWriteback

/-- The destructor makes the group evictable again. -/
def close (w : SubgroupWriteback) (c : Cache) : Cache :=
  c.addGroupToLRU w.ftn w.group w.track w.groupRef

/-- Common body of the calls that write an entry into the held group. -/
def write (w : SubgroupWriteback) (c : Cache) (objectID : Nat) (ow : ObjectWrite) :
    Except Abort (Expected Unit × Cache) :=
  match c.updateLargest w.track ⟨w.group, objectID⟩ (ow.status = .endOfTrack) with
  | (.error e, c) => .ok (.error e, c)
  | (.ok _, c) => c.cacheObjectAndUpdateBytes w.track w.groupRef w.group objectID ow

def object (w : SubgroupWriteback) (c : Cache) (objID : Nat) (payload : Option Payload)
    (ext : Extensions) (now : TimePoint) : Except Abort (Expected Unit × Cache) :=
  if (c.tracks w.track).shouldSkipCaching then .ok (.ok (), c)
  else w.write c objID ⟨w.subgroup, .normal, ext, payload, true, false, now⟩

def endOfGroup (w : SubgroupWriteback) (c : Cache) (objID : Nat) (now : TimePoint) :
    Except Abort (Expected Unit × Cache) :=
  if (c.tracks w.track).shouldSkipCaching then .ok (.ok (), c)
  else w.write c objID ⟨w.subgroup, .endOfGroup, noExtensions, none, true, false, now⟩

def endOfTrackAndGroup (w : SubgroupWriteback) (c : Cache) (objID : Nat) (now : TimePoint) :
    Except Abort (Expected Unit × Cache) :=
  if (c.tracks w.track).shouldSkipCaching then .ok (.ok (), c)
  else w.write c objID ⟨w.subgroup, .endOfTrack, noExtensions, none, true, false, now⟩

def beginObject (w : SubgroupWriteback) (c : Cache) (objectID length : Nat)
    (initialPayload : Option Payload) (ext : Extensions) (now : TimePoint) :
    Except Abort (Expected Unit × SubgroupWriteback × Cache) :=
  if (c.tracks w.track).shouldSkipCaching then .ok (.ok (), w, c)
  else do
    match ← w.write c objectID ⟨w.subgroup, .normal, ext, initialPayload, false, false, now⟩ with
    | (.error e, c) => .ok (.error e, w, c)
    | (.ok _, c) =>
      let initBytes := initialPayload.elim 0 List.length
      xcheck (initBytes ≤ length) "currentLength_ >= initBytes"
      .ok (.ok (), { w with currentObject := objectID, currentLength := length - initBytes }, c)

end SubgroupWriteback

/-- Append a chunk to an entry; the chunk that uses up the length completes it. -/
def CacheEntry.append (e : CacheEntry) (chunk : Payload) (completes : Bool) : CacheEntry :=
  { e with
    payload := some (e.payload.elim chunk (· ++ chunk))
    payloadSize := e.payloadSize + chunk.length
    complete := e.complete || completes }

/-- The track after `chunk` was appended to the entry `e` at `l`. -/
def CacheTrack.appendObject (t : CacheTrack) (ref : GroupRef) (l : AbsoluteLocation)
    (e : CacheEntry) (chunk : Payload) (completes : Bool) : CacheTrack :=
  t.storeObject ref
    { t.heap ref with
      objects := (t.heap ref).objects.insert l.object (e.append chunk completes)
      totalBytes := (t.heap ref).totalBytes + chunk.length } l completes

/-- Common body of the two `objectPayload` calls: append to the entry of the group `ref`,
index it when nothing is left to come, and count its bytes. Returns the length left. -/
def Cache.appendPayload (c : Cache) (tref : TrackRef) (ref : GroupRef) (l : AbsoluteLocation)
    (chunk : Payload) (currentLength : Nat) : Except Abort (Nat × Cache) :=
  match ((c.tracks tref).heap ref).objects.lookup l.object with
  | none => .error .nullDeref
  | some e => do
    xcheck (chunk.length ≤ currentLength) "currentLength_ >= addedBytes"
    let left := currentLength - chunk.length
    let t := (c.tracks tref).appendObject ref l e chunk (left = 0)
    let c ← ((c.setTrack tref t).setTotal
      (c.totalCachedBytes + chunk.length)).evictForByteLimitIfNeeded
    .ok (left, c)

def SubgroupWriteback.objectPayload (w : SubgroupWriteback) (c : Cache) (payload : Payload) :
    Except Abort (SubgroupWriteback × Cache) :=
  if (c.tracks w.track).shouldSkipCaching then .ok (w, c)
  else do
    let (left, c) ← c.appendPayload w.track w.groupRef ⟨w.group, w.currentObject⟩ payload
      w.currentLength
    .ok ({ w with currentLength := left }, c)

end Moqx
