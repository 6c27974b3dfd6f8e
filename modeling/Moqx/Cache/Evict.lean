import Moqx.Cache.Object

/-! Least-recently-used lists and eviction of groups and tracks. -/
namespace Moqx

open Moxygen

variable [Moxygen]

/-- The list without the node an iterator points to. -/
def eraseNode {α : Type} (l : List (NodeId × α)) (iter : Option NodeId) : List (NodeId × α) :=
  l.filter fun n => some n.1 ≠ iter

/-- An erase through a stored iterator needs its node to be in the list. -/
def useNode {α : Type} (l : List (NodeId × α)) (iter : Option NodeId) : Except Abort Unit :=
  if iter.all fun n => l.any fun e => e.1 = n then .ok () else .error .staleIterator

namespace CacheTrack

/-- The track without a group: it leaves the list, the content index and the group map. The
gaps inside the group stay in `gaps`. -/
@[simps groups nextGroupRef gaps groupLRU lruIter evicted fetchesInProgress liveWritebackCount]
def eraseGroup (t : CacheTrack) (groupID : Nat) (group : CacheGroup) : CacheTrack :=
  { t with
    groupLRU := eraseNode t.groupLRU group.lruIter
    cachedContent := remove t.cachedContent ⟨groupID, 0⟩ ⟨groupID, kLocationMax.object⟩
    groups := t.groups.erase groupID }

/-- The track without the object at `l`, whose group keeps `groupBytes`. -/
def eraseObject (t : CacheTrack) (ref : GroupRef) (l : AbsoluteLocation) (groupBytes : Nat) :
    CacheTrack :=
  { t.setGroup ref { t.heap ref with
      totalBytes := groupBytes, objects := (t.heap ref).objects.erase l.object } with
    cachedContent := remove t.cachedContent l l }

section
variable (t : CacheTrack) (groupID : Nat) (group : CacheGroup)

@[simp] theorem eraseGroup_heap : (t.eraseGroup groupID group).heap = t.heap := rfl

end

end CacheTrack

namespace Cache

def addTrackToLRU (c : Cache) (ftn : FullTrackName) (tref : TrackRef) : Cache :=
  if (c.tracks tref).lruIter.isSome then c
  else
    { c.setTrack tref { c.tracks tref with lruIter := some c.nextNode } with
      trackLRU := (c.nextNode, ftn) :: c.trackLRU
      nextNode := c.nextNode + 1 }

/-- The cache with a track out of the list of evictable tracks. -/
def takeTrackFromLRU (c : Cache) (tref : TrackRef) : Cache :=
  if (c.tracks tref).lruIter.isSome then
    { c.setTrack tref { c.tracks tref with lruIter := none } with
      trackLRU := eraseNode c.trackLRU (c.tracks tref).lruIter }
  else c

def removeTrackFromLRU (c : Cache) (tref : TrackRef) : Except Abort Cache := do
  useNode c.trackLRU (c.tracks tref).lruIter
  .ok (c.takeTrackFromLRU tref)

def onTrackBecameEvictable (c : Cache) (ftn : FullTrackName) : Cache :=
  match c.cache.lookup ftn with
  | some tref => if (c.tracks tref).canEvict then c.addTrackToLRU ftn tref else c
  | none => c

def addGroupToLRU (c : Cache) (ftn : FullTrackName) (groupID : Nat) (tref : TrackRef)
    (ref : GroupRef) : Cache :=
  let t := c.tracks tref
  if (t.heap ref).lruIter.isSome then c
  else
    let t := { t with groupLRU := (c.nextNode, groupID) :: t.groupLRU }
    let t := t.setGroup ref
      { t.heap ref with lruIter := some c.nextNode, globalLruIter := some c.nextNode }
    { c.setTrack tref t with
      globalGroupLRU := (c.nextNode, ftn, groupID) :: c.globalGroupLRU
      nextNode := c.nextNode + 1 }

/-- The cache with a group out of both lists of evictable groups. -/
def takeGroupFromLRU (c : Cache) (tref : TrackRef) (ref : GroupRef) : Cache :=
  let t := c.tracks tref
  let group := t.heap ref
  if group.lruIter.isSome then
    let t := { t with groupLRU := eraseNode t.groupLRU group.lruIter }
    let t := t.setGroup ref { group with lruIter := none, globalLruIter := none }
    { c.setTrack tref t with
      globalGroupLRU := eraseNode c.globalGroupLRU group.globalLruIter }
  else c

def removeGroupFromLRU (c : Cache) (tref : TrackRef) (ref : GroupRef) : Except Abort Cache :=
  let group := (c.tracks tref).heap ref
  if group.lruIter.isSome then do
    useNode (c.tracks tref).groupLRU group.lruIter
    useNode c.globalGroupLRU group.globalLruIter
    .ok (c.takeGroupFromLRU tref ref)
  else .ok c

/-- The cache without a group of a track. -/
@[simps cache nextTrackRef nextNode trackLRU globalGroupLRU totalCachedBytes]
def dropGroup (c : Cache) (tref : TrackRef) (groupID : Nat) (ref : GroupRef) : Cache :=
  { c.setTrack tref ((c.tracks tref).eraseGroup groupID ((c.tracks tref).heap ref)) with
    globalGroupLRU := eraseNode c.globalGroupLRU ((c.tracks tref).heap ref).globalLruIter
    totalCachedBytes := c.totalCachedBytes - ((c.tracks tref).heap ref).totalBytes }

section
variable (c : Cache) (tref : TrackRef) (groupID : Nat) (ref : GroupRef)

@[simp] theorem dropGroup_tracks : (c.dropGroup tref groupID ref).tracks tref =
    (c.tracks tref).eraseGroup groupID ((c.tracks tref).heap ref) := by
  simp [dropGroup, setTrack]

@[simp] theorem dropGroup_tracks_ne {tr : TrackRef} (h : tr ≠ tref) :
    (c.dropGroup tref groupID ref).tracks tr = c.tracks tr := by
  simp [dropGroup, setTrack, h]

end

/-- Remove a group from the lists, the content index, the byte total and the group map. -/
def evictGroup (c : Cache) (tref : TrackRef) (groupID : Nat) : Except Abort Cache :=
  match (c.tracks tref).groups.lookup groupID with
  | none => .ok c
  | some ref => do
    useNode (c.tracks tref).groupLRU ((c.tracks tref).heap ref).lruIter
    useNode c.globalGroupLRU ((c.tracks tref).heap ref).globalLruIter
    xcheck (((c.tracks tref).heap ref).totalBytes ≤ c.totalCachedBytes)
      "totalCachedBytes_ >= group.totalBytes"
    .ok (c.dropGroup tref groupID ref)

/-- Evict the oldest evictable group while the track has too many. Each round that finds its
group shrinks the group map; a round that does not find it changes nothing, for ever. -/
def evictOldestGroupsLoop (tref : TrackRef) : Nat → Cache → Except Abort Cache
  | 0, _ => .error .diverges
  | fuel + 1, c =>
    if c.maxCachedGroupsPerTrack < (c.tracks tref).groups.keys.length then
      match (c.tracks tref).groupLRU.getLast? with
      | some oldest => do
        let c ← c.evictGroup tref oldest.2
        evictOldestGroupsLoop tref fuel c
      | none => .ok c
    else .ok c

def evictOldestGroupsIfNeeded (c : Cache) (tref : TrackRef) : Except Abort Cache :=
  if c.maxCachedGroupsPerTrack = 0 then .ok c
  else evictOldestGroupsLoop tref ((c.tracks tref).groups.keys.length + 1) c

def evictGroups (c : Cache) (tref : TrackRef) : List Nat → Except Abort Cache
  | [] => .ok c
  | groupID :: rest => do
    let c ← c.evictGroup tref groupID
    c.evictGroups tref rest

/-- Stamp a track as evicted and take it off the list of evictable tracks. -/
def markEvicted (c : Cache) (tref : TrackRef) : Cache :=
  { c.setTrack tref { c.tracks tref with evicted := true } with
    trackLRU := eraseNode c.trackLRU (c.tracks tref).lruIter }

/-- Remove a track, marking it so that writers still holding it stop caching. -/
def evictTrack (c : Cache) (ftn : FullTrackName) : Except Abort Cache :=
  match c.cache.lookup ftn with
  | none => .ok c
  | some tref => do
    useNode c.trackLRU (c.tracks tref).lruIter
    let c ← (c.markEvicted tref).evictGroups tref (c.tracks tref).groups.keys
    .ok { c with cache := c.cache.erase ftn }

def evictOldestTrackIfNeeded (c : Cache) : Except Abort Cache :=
  if c.maxCachedTracks = 0 ∨ c.cache.keys.length < c.maxCachedTracks then .ok c
  else
    match c.trackLRU.getLast? with
    | some oldestTrack => c.evictTrack oldestTrack.2
    | none => .ok c

/-- Try to evict a track before a new one comes in. -/
def makeRoomForTrack (c : Cache) : Except Abort Cache :=
  if c.maxCachedTracks ≤ c.cache.keys.length then c.evictOldestTrackIfNeeded else .ok c

/-- The low watermark eviction goes down to. -/
def targetBytes (c : Cache) : Nat :=
  if c.minEvictionBytes < c.maxCachedBytes then c.maxCachedBytes - c.minEvictionBytes else 0

/-- One round of byte-limit eviction, for the entry at the back of the global list. -/
def evictByteRound (c : Cache) (ftn : FullTrackName) (groupID : Nat) : Except Abort Cache :=
  match c.cache.lookup ftn with
  | none => .ok { c with globalGroupLRU := c.globalGroupLRU.dropLast }
  | some tref => do
    let c ← c.evictGroup tref groupID
    if (c.tracks tref).groups.keys.isEmpty && (c.tracks tref).canEvict then c.evictTrack ftn
    else .ok c

/-- The loop of `evictForByteLimitIfNeeded`, down to `target` bytes. -/
def evictBytesLoop (target : Nat) : Nat → Cache → Except Abort Cache
  | 0, _ => .error .diverges
  | fuel + 1, c =>
    if target < c.totalCachedBytes then
      match c.globalGroupLRU.getLast? with
      | some (_, ftn, groupID) => do
        let c ← c.evictByteRound ftn groupID
        evictBytesLoop target fuel c
      | none => .ok c
    else .ok c

/-- Groups of all cached tracks, counted. -/
def groupCount (c : Cache) : Nat :=
  (c.cache.entries.map fun e => (c.tracks e.2).groups.keys.length).sum

/-- Evict globally while over the byte limit. A round removes a list node, a group, a track
or nothing; in the last case the loop never ends, so this many rounds tell. -/
def evictForByteLimitIfNeeded (c : Cache) : Except Abort Cache :=
  if c.maxCachedBytes = 0 ∨ c.totalCachedBytes ≤ c.maxCachedBytes then .ok c
  else
    evictBytesLoop c.targetBytes
      (c.globalGroupLRU.length + c.groupCount + c.cache.keys.length + 1) c

def getOrCreateGroupWithEviction (c : Cache) (tref : TrackRef) (groupID : Nat)
    (ftn : FullTrackName) : Except Abort (GroupRef × Cache) :=
  match (c.tracks tref).groups.lookup groupID with
  | some ref => .ok (ref, c)
  | none => do
    let c ← c.evictOldestGroupsIfNeeded tref
    let ref := (c.tracks tref).nextGroupRef
    let c := c.setTrack tref ((c.tracks tref).emplaceGroup groupID)
    .ok (ref, c.addGroupToLRU ftn groupID tref ref)

/-- The byte total after the counter of a group went from `old` to `new`. -/
def adjustTotal (total old new : Nat) : Except Abort Nat :=
  if old ≤ new then .ok (total + (new - old))
  else do
    xcheck (old - new ≤ total) "totalCachedBytes_ >= oldGroupBytes - group.totalBytes"
    .ok (total - (old - new))

/-- Wraps `cacheObject` with byte accounting, the eviction check and the write time. -/
def cacheObjectAndUpdateBytes (c : Cache) (tref : TrackRef) (ref : GroupRef)
    (groupID objectID : Nat) (w : ObjectWrite) : Except Abort (Expected Unit × Cache) := do
  match ← (c.tracks tref).cacheObject ref groupID objectID w with
  | (.error e, t) => .ok (.error e, c.setTrack tref t)
  | (.ok _, t) =>
    let total ← adjustTotal c.totalCachedBytes ((c.tracks tref).heap ref).totalBytes
      (t.heap ref).totalBytes
    let t := t.setInfo t.endOfTrack t.largestGroupAndObject t.maxCacheDuration t.extensions w.now
    let c ← ((c.setTrack tref t).setTotal total).evictForByteLimitIfNeeded
    .ok (.ok (), c)

def evictTracks (c : Cache) : List FullTrackName → Except Abort Cache
  | [] => .ok c
  | ftn :: rest => do
    let c ← c.evictTrack ftn
    c.evictTracks rest

def purgeTrack (c : Cache) (ftn : FullTrackName) : Except Abort Cache := c.evictTrack ftn

def purgeNamespace (c : Cache) (ns : List String) : Except Abort Cache :=
  c.evictTracks (c.cache.keys.filter fun ftn => ftn.trackNamespace = ns)

def purgeAll (c : Cache) : Except Abort Cache := c.evictTracks c.cache.keys

/-- Whether an entry is older than the track's duration, or the default one. -/
def expired (c : Cache) (t : CacheTrack) (e : CacheEntry) (now : TimePoint) : Bool :=
  (t.maxCacheDuration.or c.defaultMaxCacheDuration).any fun d =>
    toNanoseconds d < now - e.cachedAt

/-- The complete unexpired entry at a location. An expired entry is erased on the way. -/
def getCachedObjectMaybe (c : Cache) (tref : TrackRef) (current : AbsoluteLocation)
    (now : TimePoint) : Except Abort (Option CacheEntry × Cache) :=
  match (c.tracks tref).groups.lookup current.group with
  | none => .ok (none, c)
  | some ref =>
    match ((c.tracks tref).heap ref).objects.lookup current.object with
    | none => .ok (none, c)
    | some object =>
      if c.expired (c.tracks tref) object now then do
        let groupBytes ← subSize ((c.tracks tref).heap ref).totalBytes object.payloadSize
        let total ← subSize c.totalCachedBytes object.payloadSize
        let t := (c.tracks tref).eraseObject ref current groupBytes
        .ok (none, (c.setTrack tref t).setTotal total)
      else if object.complete then .ok (some object, c)
      else .ok (none, c)

end Cache

end Moqx
