import Moqx.Cache.Iterator
import Moqx.Cache.Subscribe

/-! `FetchWriteback`: caches what an upstream fetch delivers, marks what it skips as
non-existent, and forwards to the consumer of the downstream fetch. -/
namespace Moqx

open Moxygen

variable [Moxygen]

inductive ResetStreamErrorCode where
  | internalError
  | cancelled
  | malformedTrack
  | other (code : Nat)
deriving DecidableEq, Repr

/-- Calls on a `FetchConsumer`. -/
inductive FetchCall where
  | object (group subgroup id : Nat) (payload : Payload) (ext : Extensions) (fin : Bool)
      (isDatagram : Bool)
  | beginObject (group subgroup id length : Nat) (payload : Option Payload) (ext : Extensions)
  | objectPayload (payload : Payload) (fin : Bool)
  | endOfGroup (group subgroup id : Nat) (fin : Bool)
  | endOfTrackAndGroup (group subgroup id : Nat)
  | endOfFetch
  | endOfUnknownRange (group id : Nat) (fin : Bool)
  | reset (code : ResetStreamErrorCode)
  | awaitReadyToConsume

abbrev ConsumerId := Nat

/-- `fetchInProgressIt` is the key of the writeback's entry in `fetchesInProgress`; the two
batons are the flags they were left with. -/
structure FetchWriteback where
  id : WritebackId
  consumer : ConsumerId
  start : AbsoluteLocation
  end_ : AbsoluteLocation
  proxyFin : Bool
  fetchRangeIt : FetchRangeIterator
  track : TrackRef
  ftn : FullTrackName
  fetchInProgressIt : Option AbsoluteLocation
  pinnedGroup : Option GroupRef
  inProgress : Bool
  complete : Bool
  currentLength : Nat
  wasReset : Bool

namespace CacheTrack

/-- The entry with the greatest key that is not after a location. -/
def lastStartedFetch (t : CacheTrack) (loc : AbsoluteLocation) :
    Option (AbsoluteLocation × FetchInProgressEntry) :=
  t.fetchesInProgress.entries.foldl (fun best e =>
    if e.1 ≤ loc ∧ best.all (fun b => b.1 < e.1) then some (e.1, e.2) else best) none

/-- Find the unprocessed FetchWriteback covering a location. -/
def findFetchInProgress (t : CacheTrack) (loc : AbsoluteLocation) : Option WritebackId :=
  match t.lastStartedFetch loc with
  | some (_, entry) =>
    if loc < entry.end_ ∧ entry.progress ≤ loc then some entry.writeback else none
  | none => none

end CacheTrack

namespace Cache

/-- Put an entry into the track's map of upstream fetches in progress. -/
def register (c : Cache) (tref : TrackRef) (loc : AbsoluteLocation)
    (entry : FetchInProgressEntry) : Cache :=
  c.setTrack tref { c.tracks tref with
    fetchesInProgress := (c.tracks tref).fetchesInProgress.insert loc entry }

def deregister (c : Cache) (tref : TrackRef) (key : AbsoluteLocation) : Cache :=
  c.setTrack tref { c.tracks tref with
    fetchesInProgress := (c.tracks tref).fetchesInProgress.erase key }

/-- Take an entry out of that map and make the group it pinned evictable. -/
def releaseKey (c : Cache) (tref : TrackRef) (ftn : FullTrackName) (key : AbsoluteLocation)
    (pin : Option GroupRef) : Cache :=
  let c := c.deregister tref key
  match pin with
  | some ref => c.addGroupToLRU ftn key.group tref ref
  | none => c

/-- The group of an id, created outside the list of evictable groups if needed. -/
def findOrEmplaceGroup (c : Cache) (tref : TrackRef) (groupID : Nat) :
    Except Abort (GroupRef × Cache) :=
  match (c.tracks tref).groups.lookup groupID with
  | some ref => .ok (ref, c)
  | none => do
    let c ← c.evictOldestGroupsIfNeeded tref
    .ok ((c.tracks tref).nextGroupRef, c.setTrack tref ((c.tracks tref).emplaceGroup groupID))

end Cache

namespace FetchWriteback

/-- Register under `loc` and pin its group, creating the group if needed. -/
def emplaceAndPinGroup (w : FetchWriteback) (c : Cache) (loc : AbsoluteLocation)
    (entry : FetchInProgressEntry) : Except Abort (FetchWriteback × Cache) := do
  xcheck (((c.tracks w.track).fetchesInProgress.lookup loc).isNone) "inserted"
  let (ref, c) ← (c.register w.track loc entry).findOrEmplaceGroup w.track loc.group
  let c ← c.removeGroupFromLRU w.track ref
  .ok ({ w with fetchInProgressIt := some loc, pinnedGroup := some ref }, c)

/-- Drop the registration under `key` and release the pinned group. -/
def eraseAndMakeGroupEvictable (w : FetchWriteback) (c : Cache) (key : AbsoluteLocation) :
    FetchWriteback × Cache :=
  ({ w with fetchInProgressIt := none, pinnedGroup := none },
    c.releaseKey w.track w.ftn key w.pinnedGroup)

/-- The constructor, for a range iterator over the fetched interval. -/
def create (c : Cache) (id : WritebackId) (start stop : AbsoluteLocation) (proxyFin : Bool)
    (consumer : ConsumerId) (it : FetchRangeIterator) (track : TrackRef) (ftn : FullTrackName) :
    Except Abort (FetchWriteback × Cache) := do
  let w : FetchWriteback :=
    { id := id, consumer := consumer, start := start, end_ := stop, proxyFin := proxyFin,
      fetchRangeIt := it,
      track := track, ftn := ftn, fetchInProgressIt := none, pinnedGroup := none,
      inProgress := false, complete := false, currentLength := 0, wasReset := false }
  let c ← c.removeTrackFromLRU track
  w.emplaceAndPinGroup c start ⟨stop, start, id⟩

/-- The destructor. -/
def close (w : FetchWriteback) (c : Cache) : Cache :=
  let c := match w.fetchInProgressIt with
    | some key => (w.eraseAndMakeGroupEvictable c key).2
    | none => c
  c.onTrackBecameEvictable w.ftn

/-- Record the iterator's position; crossing into a higher group moves the registration. -/
def updateInProgress (w : FetchWriteback) (c : Cache) :
    Except Abort (FetchWriteback × Cache) :=
  let current := w.fetchRangeIt.current
  match w.fetchInProgressIt, w.fetchRangeIt.isValid with
  | none, valid => .ok ({ w with inProgress := !valid }, c)
  | some key, false => .ok ({ w with inProgress := true }.eraseAndMakeGroupEvictable c key)
  | some key, true =>
    match (c.tracks w.track).fetchesInProgress.lookup key with
    | none => .error .nullDeref
    | some entry =>
      let entry := { entry with progress := current }
      let c := c.register w.track key entry
      let w := { w with inProgress := false }
      if key.group < current.group then
        let (w, c) := w.eraseAndMakeGroupEvictable c key
        if current < w.fetchRangeIt.maxLocation then w.emplaceAndPinGroup c current entry
        else .ok (w, c)
      else .ok (w, c)

def insertGaps (t : CacheTrack) (ranges : List Interval) : CacheTrack :=
  ranges.foldl (fun t r => t.insertGap r.1 r.2) t

/-- Mark everything from the iterator's position up to `target` as non-existent and move
the iterator there. -/
def markNonExistentTo (w : FetchWriteback) (c : Cache) (target : AbsoluteLocation) :
    Except Abort (FetchWriteback × Cache) :=
  if w.fetchRangeIt.current = target then .ok (w, c)
  else do
    let it := w.fetchRangeIt
    let ranges ← getGapRanges it.current target it.order it.minLocation it.maxLocation
    let t := insertGaps (c.tracks w.track) ranges
    .ok ({ w with fetchRangeIt := it.advanceTo t target }, c.setTrack w.track t)

/-- Mark what is left up to the iterator's own end. -/
def markNonExistentToEnd (w : FetchWriteback) (c : Cache) :
    Except Abort (FetchWriteback × Cache) :=
  let it := w.fetchRangeIt.refreshEnd (c.tracks w.track)
  { w with fetchRangeIt := it }.markNonExistentTo c it.end_

/-- The rest of `cacheImpl` once the object is stored or refused and the iterator stands on
it: step past a complete object. -/
def finishCacheImpl (w : FetchWriteback) (c : Cache) (groupID objectID : Nat) (ow : ObjectWrite)
    (finFetch : Bool) (cacheRes : Expected Unit) :
    Except Abort (Expected Unit × FetchWriteback × Cache) :=
  match cacheRes with
  | .error e => do
    let (w, c) ← w.updateInProgress c
    .ok (.error e, w, c)
  | .ok _ =>
    match c.updateLargest w.track ⟨groupID, objectID⟩ (ow.status = .endOfTrack) with
    | (.error e, c) => do
      let (w, c) ← w.updateInProgress c
      .ok (.error e, w, c)
    | (.ok _, c) =>
      if ow.complete then do
        let w := { w with fetchRangeIt := w.fetchRangeIt.next (c.tracks w.track) }
        let (w, c) ← w.updateInProgress c
        if finFetch then
          let (w, c) ← w.markNonExistentToEnd c
          .ok (.ok (), { w with complete := true }, c)
        else .ok (.ok (), w, c)
      else .ok (.ok (), w, c)

/-- Cache an object of the fetch and mark what lies before it. -/
def cacheImpl (w : FetchWriteback) (c : Cache) (groupID objectID : Nat) (ow : ObjectWrite)
    (finFetch : Bool) : Except Abort (Expected Unit × FetchWriteback × Cache) := do
  let (ref, c) ← c.getOrCreateGroupWithEviction w.track groupID w.ftn
  let (cacheRes, c) ← c.cacheObjectAndUpdateBytes w.track ref groupID objectID ow
  let (w, c) ← w.markNonExistentTo c ⟨groupID, objectID⟩
  w.finishCacheImpl c groupID objectID ow finFetch cacheRes

/-- Answer, forwarded calls and new state of a delivery. -/
abbrev Delivered := Expected Unit × List FetchCall × FetchWriteback × Cache

/-- Forward `call` if the cache took the object, else answer with its error. -/
def forward (call : FetchCall) (r : Expected Unit × FetchWriteback × Cache) : Delivered :=
  match r with
  | (.error e, w, c) => (.error e, [], w, c)
  | (.ok _, w, c) => (.ok (), [call], w, c)

def skipsCaching (w : FetchWriteback) (c : Cache) : Bool := (c.tracks w.track).shouldSkipCaching

def object (w : FetchWriteback) (c : Cache) (gID sgID objID : Nat) (payload : Payload)
    (ext : Extensions) (fin isDatagram : Bool) (now : TimePoint) : Except Abort Delivered :=
  let call := .object gID sgID objID payload ext (fin && w.proxyFin) isDatagram
  if w.skipsCaching c then .ok (.ok (), [call], w, c)
  else (forward call) <$>
    w.cacheImpl c gID objID ⟨sgID, .normal, ext, some payload, true, isDatagram, now⟩ fin

def beginObject (w : FetchWriteback) (c : Cache) (gID sgID objID len : Nat)
    (initPayload : Option Payload) (ext : Extensions) (now : TimePoint) :
    Except Abort Delivered :=
  let call := .beginObject gID sgID objID len initPayload ext
  if w.skipsCaching c then .ok (.ok (), [call], w, c)
  else do
    match ← w.cacheImpl c gID objID ⟨sgID, .normal, ext, initPayload, false, false, now⟩ false with
    | (.error e, w, c) => .ok (.error e, [], w, c)
    | (.ok _, w, c) =>
      let initBytes := initPayload.elim 0 List.length
      xcheck (initBytes ≤ len) "currentLength_ >= initBytes"
      .ok (.ok (), [call], { w with currentLength := len - initBytes }, c)

/-- Appends to the object the iterator stands on. Only the last chunk of the whole fetch
moves the iterator past it. -/
def objectPayload (w : FetchWriteback) (c : Cache) (payload : Payload) (finFetch : Bool) :
    Except Abort Delivered :=
  let call := .objectPayload payload (finFetch && w.proxyFin)
  if w.skipsCaching c then .ok (.ok (), [call], w, c)
  else do
    let l := w.fetchRangeIt.current
    let (ref, c) ← c.getOrCreateGroupWithEviction w.track l.group w.ftn
    let (left, c) ← c.appendPayload w.track ref l payload w.currentLength
    let w := { w with currentLength := left }
    if finFetch then
      let w := { w with fetchRangeIt := w.fetchRangeIt.next (c.tracks w.track) }
      let (w, c) ← w.markNonExistentToEnd c
      let (w, c) ← w.updateInProgress c
      .ok (.ok (), [call], w, c)
    else .ok (.ok (), [call], w, c)

def endOfGroup (w : FetchWriteback) (c : Cache) (gID sgID objID : Nat) (fin : Bool)
    (now : TimePoint) : Except Abort Delivered :=
  let call := .endOfGroup gID sgID objID (fin && w.proxyFin)
  if w.skipsCaching c then .ok (.ok (), [call], w, c)
  else (forward call) <$>
    w.cacheImpl c gID objID ⟨sgID, .endOfGroup, noExtensions, none, true, false, now⟩ fin

def endOfTrackAndGroup (w : FetchWriteback) (c : Cache) (gID sgID objID : Nat)
    (now : TimePoint) : Except Abort Delivered :=
  let call := .endOfTrackAndGroup gID sgID objID
  if w.skipsCaching c then .ok (.ok (), [call], w, c)
  else (forward call) <$>
    w.cacheImpl c gID objID ⟨sgID, .endOfTrack, noExtensions, none, true, false, now⟩ true

def endOfFetch (w : FetchWriteback) (c : Cache) : Except Abort Delivered := do
  let (w, c) ← w.markNonExistentToEnd c
  let (w, c) ← w.updateInProgress c
  .ok (.ok (), if w.proxyFin then [.endOfFetch] else [], { w with complete := true }, c)

def reset (w : FetchWriteback) (c : Cache) (code : ResetStreamErrorCode) :
    Except Abort Delivered := do
  let w := { w with
    wasReset := true, complete := true, start := w.end_,
    fetchRangeIt := w.fetchRangeIt.invalidate }
  let (w, c) ← w.updateInProgress c
  .ok (.ok (), [.reset code], w, c)

/-- Moves the iterator past the range without marking it. -/
def endOfUnknownRange (w : FetchWriteback) (c : Cache) (groupId objectId : Nat)
    (finFetch : Bool) : Except Abort Delivered := do
  let t := c.tracks w.track
  let it := (w.fetchRangeIt.advanceTo t ⟨groupId, objectId⟩).next t
  let (w, c) ← { w with fetchRangeIt := it }.updateInProgress c
  .ok (.ok (), [.endOfUnknownRange groupId objectId (finFetch && w.proxyFin)],
    { w with complete := w.complete || finFetch }, c)

end FetchWriteback

end Moqx
