import Moqx.Cache.FetchWriteback

/-! `fetch`, `fetchImpl` and `fetchUpstream`. The coroutine is a state machine: its program
counter names the place where it is suspended or where the outside answers it. -/
namespace Moqx

open Moxygen

variable [Moxygen]

structure FetchOk where
  groupOrder : GroupOrder
  endOfTrack : Bool
  endLocation : AbsoluteLocation
  extensions : Extensions

/-- What `fetchImpl` returns: an error, a null handle or a handle. -/
inductive FetchResult where
  | error
  | null
  | handle (ok : FetchOk)

/-- The request: a standalone fetch with an exclusive end. -/
structure Fetch where
  fullTrackName : FullTrackName
  groupOrder : GroupOrder
  start : AbsoluteLocation
  end_ : AbsoluteLocation
deriving DecidableEq, Repr

/-- The last location of the range. An end with object 0 means all of its group. -/
def Fetch.last (f : Fetch) : AbsoluteLocation :=
  if 0 < f.end_.object then ⟨f.end_.group, f.end_.object - 1⟩
  else ⟨f.end_.group, kLocationMax.object⟩

/-- The request with an end that is exclusive as a location. -/
def Fetch.normalizeEnd (f : Fetch) : Fetch :=
  if 0 < f.end_.object then f else { f with end_ := (nextGroup f.end_).getD kLocationMax }

/-- Where `fetchImpl` goes on after its upstream intervals: at the hit or gap that ended the
miss, or at its end. -/
inductive AfterUpstream where
  | boundary (current : AbsoluteLocation) (pin : Option GroupRef)
  | tail

inductive FetchPc where
  | start
  | loop
  | waitFor (writeback : WritebackId) (current : AbsoluteLocation)
  | fetchUpstream (intervals : List Interval) (after : AfterUpstream)
  | upstreamFetch (writeback : WritebackId) (lastObject : Bool) (intervals : List Interval)
      (after : AfterUpstream)
  | writebackComplete (writeback : WritebackId) (intervals : List Interval)
      (after : AfterUpstream)
  | publish (current : AbsoluteLocation) (pin : GroupRef)
  | handleBlocked (status : ObjectStatus)
  | done (result : FetchResult)

/-- The frame of a `fetchImpl` coroutine. -/
structure FetchTask where
  consumer : ConsumerId
  fetch : Fetch
  track : TrackRef
  fetchHandle : Option FetchOk
  it : FetchRangeIterator
  fetchStart : Option AbsoluteLocation
  servedOneObject : Bool
  lastObject : Bool
  cachedNow : TimePoint
  cancelled : Bool
  pc : FetchPc

/-- How a consumer answers a published object. -/
inductive ConsumerAnswer where
  | accepted
  | blocked (awaitReadyToConsume : Expected Unit)
  | failed (code : PublishErrorCode)

/-- All statuses represent real objects. -/
def exists_ (_ : ObjectStatus) : Bool := true

/-- Only a whole object carries its payload, which it is cloned from. -/
def publishObject (object : CacheEntry) (current : AbsoluteLocation) (lastObject : Bool) :
    Except Abort FetchCall :=
  match object.status with
  | .normal =>
    match object.payload with
    | some payload => .ok (.object current.group object.subgroup current.object payload
        object.extensions lastObject object.forwardingPreferenceIsDatagram)
    | none => .error .nullDeref
  | .endOfGroup => .ok (.endOfGroup current.group object.subgroup current.object lastObject)
  | .endOfTrack => .ok (.endOfTrackAndGroup current.group object.subgroup current.object)

namespace FetchTask

/-- `fetchImpl` up to its loop. A token cancelled before this runs its callback at once. -/
def begin_ (task : FetchTask) (t : CacheTrack) (now : TimePoint) : FetchTask × List FetchCall :=
  ({ task with
    it := .create task.fetch.start task.fetch.end_ task.fetch.groupOrder t
    cachedNow := now, pc := .loop },
    if task.cancelled then [.reset .cancelled] else [])

/-- Past the hit or gap at `current`: publish the hit, or skip the gap. -/
def afterBoundary (task : FetchTask) (t : CacheTrack) (current : AbsoluteLocation)
    (pin : Option GroupRef) : FetchTask :=
  match pin with
  | some ref => { task with pc := .publish current ref }
  | none => { task with it := task.it.skipGaps t, pc := .loop }

/-- The body of the loop from the cache lookup on. -/
def lookup (task : FetchTask) (c : Cache) : Except Abort (FetchTask × Cache) := do
  let current := task.it.current
  let (cachedObject, c) ← c.getCachedObjectMaybe task.track current task.cachedNow
  let t := c.tracks task.track
  if cachedObject.isNone && !contains t.gaps current then
    let it ← task.it.skipUncached t
    .ok ({ task with
      fetchStart := task.fetchStart.or (some current), it := it, pc := .loop }, c)
  else
    let pin := if cachedObject.isSome then t.groups.lookup current.group else none
    match task.fetchStart with
    | some miss =>
      let intervals := getFetchIntervals task.it.minLocation task.it.maxLocation miss current
        task.it.order false
      .ok ({ task with pc := .fetchUpstream intervals (.boundary current pin) }, c)
    | none => .ok (task.afterBoundary t current pin, c)

/-- The end of the range as a `FetchOk` names it: object 0 means the whole group before. -/
def okEnd (task : FetchTask) : Except Abort AbsoluteLocation :=
  if task.fetch.end_.object = 0 then
    match prevGroup task.fetch.end_ with
    | some pg => .ok pg
    | none => .error (.xcheck "standalone->end.group must be > 0 when object == 0")
  else .ok task.fetch.end_

/-- The handle of a fetch answered from the cache alone. -/
def cacheResult (task : FetchTask) (t : CacheTrack) : Except Abort FetchResult :=
  if task.servedOneObject then do
    let stop ← task.okEnd
    match t.endOfTrack, t.largestGroupAndObject with
    | true, none => .error .nullDeref
    | true, some largest =>
      if largest ≤ stop then .ok (.handle ⟨task.fetch.groupOrder, true, largest, noExtensions⟩)
      else .ok (.handle ⟨task.fetch.groupOrder, false, stop, noExtensions⟩)
    | false, _ => .ok (.handle ⟨task.fetch.groupOrder, false, stop, noExtensions⟩)
  else .ok (.handle ⟨task.fetch.groupOrder, false, task.fetch.end_, noExtensions⟩)

def result (task : FetchTask) (t : CacheTrack) : Except Abort FetchResult :=
  if task.fetchHandle.isSome then .ok .null else task.cacheResult t

/-- `fetchImpl` behind its loop: fetch the missing tail, or end the fetch. -/
def exitLoop (task : FetchTask) (t : CacheTrack) : Except Abort (FetchTask × List FetchCall) :=
  match task.fetchStart with
  | some miss =>
    let intervals := getFetchIntervals task.it.minLocation task.it.maxLocation miss
      task.it.current task.it.order true
    .ok ({ task with pc := .fetchUpstream intervals .tail }, [])
  | none => do
    let result ← task.result t
    .ok ({ task with pc := .done result },
      if task.lastObject && task.servedOneObject then [] else [.endOfFetch])

/-- Leaving the loop changes nothing in the cache. -/
def exitHead (task : FetchTask) (c : Cache) : Except Abort (FetchTask × List FetchCall × Cache) :=
  (fun r => (r.1, r.2, c)) <$> task.exitLoop (c.tracks task.track)

/-- The loop condition and the wait for an upstream fetch that has the location ahead. -/
def head (task : FetchTask) (c : Cache) : Except Abort (FetchTask × List FetchCall × Cache) :=
  let t := c.tracks task.track
  if task.cancelled then task.exitHead c
  else
    let task := { task with it := task.it.refreshEnd t }
    if task.it.current = task.it.end_ then task.exitHead c
    else
      match t.findFetchInProgress task.it.current with
      | some wb => .ok ({ task with pc := .waitFor wb task.it.current }, [], c)
      | none => do
        let (task, c) ← task.lookup c
        .ok (task, [], c)

/-- After `waitFor`: the awaited fetch may have made the position a gap. -/
def afterWait (task : FetchTask) (c : Cache) (current : AbsoluteLocation) (now : TimePoint) :
    Except Abort (FetchTask × Cache) :=
  let task := { task with cachedNow := now, it := task.it.skipGaps (c.tracks task.track) }
  if task.it.current ≠ current then .ok ({ task with pc := .loop }, c)
  else task.lookup c

/-- Step past the hit and publish it. -/
def publish (task : FetchTask) (c : Cache) (current : AbsoluteLocation) (pin : GroupRef)
    (answer : ConsumerAnswer) : Except Abort (FetchTask × List FetchCall) := do
  let t := c.tracks task.track
  let it := (task.it.next t).refreshEnd t
  let task := { task with it := it, lastObject := it.current = it.end_ }
  match (t.heap pin).objects.lookup current.object with
  | none => .error .nullDeref
  | some object => do
    let call ← publishObject object current task.lastObject
    match answer with
    | .accepted =>
      .ok ({ task with
        servedOneObject := task.servedOneObject || exists_ object.status, pc := .loop }, [call])
    | .blocked (.ok _) =>
      .ok ({ task with pc := .handleBlocked object.status }, [call, .awaitReadyToConsume])
    | .blocked (.error _) =>
      .ok ({ task with pc := .done .error },
        [call, .awaitReadyToConsume, .reset .internalError])
    | .failed code =>
      .ok ({ task with pc := .done .error },
        [call, .reset (if code = .malformedTrack then .malformedTrack else .internalError)])

def afterBlocked (task : FetchTask) (status : ObjectStatus) (now : TimePoint) : FetchTask :=
  { task with
    cachedNow := now, servedOneObject := task.servedOneObject || exists_ status, pc := .loop }

/-- The end of an upstream interval, adjusted to the wire's meaning of object 0. -/
def adjFetchEnd (fetchEnd : AbsoluteLocation) : Except Abort AbsoluteLocation :=
  if fetchEnd.object = 0 then
    match prevGroup fetchEnd with
    | some pg => .ok pg
    | none => .error (.xcheck "fetchEnd=\x7b0,0\x7d should not reach fetchUpstream")
  else .ok fetchEnd

/-- The first half of `fetchUpstream`: a writeback for the interval. -/
def fetchUpstream (task : FetchTask) (c : Cache) (id : WritebackId) (interval : Interval)
    (intervals : List Interval) (after : AfterUpstream) :
    Except Abort (FetchWriteback × FetchTask × Cache) := do
  let stop ← adjFetchEnd interval.2
  let lastObject := match after with
    | .boundary _ _ => false
    | .tail => intervals.isEmpty
  let it := .create interval.1 interval.2 task.fetch.groupOrder (c.tracks task.track)
  let (w, c) ← FetchWriteback.create c id interval.1 stop lastObject task.consumer it
    task.track task.fetch.fullTrackName
  .ok (w, { task with pc := .upstreamFetch id lastObject intervals after }, c)

def doneWithOk (task : FetchTask) (isEndOfTrack : Bool) : FetchTask :=
  let ok : FetchOk := ⟨task.fetch.groupOrder, isEndOfTrack, task.fetch.end_, noExtensions⟩
  { task with pc := .done (.handle ok) }

/-- `fetchImpl` after the last of its upstream intervals. -/
def afterIntervals (task : FetchTask) (t : CacheTrack) (after : AfterUpstream)
    (upstreamOk : FetchOk) : Except Abort FetchTask :=
  match after with
  | .boundary current pin => .ok ({ task with fetchStart := none }.afterBoundary t current pin)
  | .tail =>
    if task.fetchHandle.isSome then .ok { task with pc := .done .null }
    else if task.fetch.groupOrder ≠ .newestFirst then
      .ok { task with
        pc := .done (.handle { upstreamOk with groupOrder := task.fetch.groupOrder }) }
    else
      match t.endOfTrack, t.largestGroupAndObject with
      | true, none => .error .nullDeref
      | true, some largest => .ok (task.doneWithOk (largest ≤ task.fetch.end_))
      | false, _ => .ok (task.doneWithOk false)

/-- Go on with the next interval, or leave `fetchUpstream` behind. -/
def nextInterval (task : FetchTask) (t : CacheTrack) (intervals : List Interval)
    (after : AfterUpstream) (upstreamOk : FetchOk) : Except Abort FetchTask :=
  if intervals.isEmpty then task.afterIntervals t after upstreamOk
  else .ok { task with pc := .fetchUpstream intervals after }

/-- The upstream answers the fetch: an error ends the fetch, and unless the interval is the
last one, success waits for the writeback. -/
def afterUpstreamFetch (task : FetchTask) (c : Cache) (writeback : WritebackId)
    (lastObject : Bool) (intervals : List Interval) (after : AfterUpstream)
    (answer : Option FetchOk) : Except Abort (FetchTask × List FetchCall × Cache) :=
  match answer with
  | none => .ok ({ task with pc := .done .error }, [.reset .cancelled], c)
  | some upstreamOk =>
    let t := c.tracks task.track
    let c := c.setTrack task.track (t.setInfo t.endOfTrack t.largestGroupAndObject
      t.maxCacheDuration upstreamOk.extensions t.lastWrite)
    if lastObject then do
      let task ← task.nextInterval (c.tracks task.track) intervals after upstreamOk
      .ok (task, [], c)
    else .ok ({ task with pc := .writebackComplete writeback intervals after }, [], c)

/-- The writeback has posted its completion. Only a flush at a boundary rereads the clock. -/
def afterComplete (task : FetchTask) (c : Cache) (w : FetchWriteback)
    (intervals : List Interval) (after : AfterUpstream) (now : TimePoint) :
    Except Abort FetchTask :=
  let task := match after with
    | .boundary _ _ => { task with cachedNow := now }
    | .tail => task
  if w.wasReset then .ok { task with pc := .done .error }
  else task.nextInterval (c.tracks task.track) intervals after
    ⟨task.fetch.groupOrder, false, task.fetch.end_, noExtensions⟩

end FetchTask

/-- What `fetch` leads to: a writeback handed to the upstream, or a `fetchImpl` coroutine. -/
inductive FetchStarted where
  | forwarded (w : FetchWriteback)
  | task (task : FetchTask)

namespace Cache

/-- The frame of a `fetchImpl` that has not run yet. -/
def newTask (consumer : ConsumerId) (f : Fetch) (tref : TrackRef) (t : CacheTrack)
    (handle : Option FetchOk) :
    FetchTask where
  consumer := consumer
  fetch := f
  track := tref
  fetchHandle := handle
  it := .create f.start f.end_ f.groupOrder t
  fetchStart := none
  servedOneObject := false
  lastObject := false
  cachedNow := 0
  cancelled := false
  pc := .start

/-- `fetch` on a track that is not cached. -/
def fetchNewTrack (c : Cache) (f : Fetch) (consumer : ConsumerId) (id : WritebackId) :
    Except Abort (FetchWriteback × Cache) := do
  let tref := c.nextTrackRef
  let c ← (c.emplaceTrack f.fullTrackName).makeRoomForTrack
  let c := c.addTrackToLRU f.fullTrackName tref
  FetchWriteback.create c id f.start f.end_ true consumer
    (.create f.start f.end_ f.groupOrder (c.tracks tref)) tref f.fullTrackName

/-- `fetch` on a cached track: a range whose content is known or live is answered at once, up
to the largest location. -/
def fetchCachedTrack (c : Cache) (fetch : Fetch) (consumer : ConsumerId) (tref : TrackRef) :
    Except Abort FetchTask :=
  let t := c.tracks tref
  let f := fetch.normalizeEnd
  match t.largestGroupAndObject with
  | none => .ok (newTask consumer f tref t none)
  | some largest =>
    if 0 < t.liveWritebackCount ∨ fetch.last ≤ largest then
      if largest < f.end_ then
        match next largest with
        | none => .error (.xcheck "largestGroupAndObject.next() must be valid")
        | some stop =>
          .ok (newTask consumer { f with end_ := stop } tref t
            (some ⟨f.groupOrder, t.endOfTrack, stop, t.extensions⟩))
      else if f.end_.object = 0 then
        match prevGroup f.end_ with
        | none => .error (.xcheck "largestInFetch.group must be > 0 when object == 0")
        | some pg => .ok (newTask consumer f tref t (some ⟨f.groupOrder, false, pg, t.extensions⟩))
      else .ok (newTask consumer f tref t (some ⟨f.groupOrder, false, f.end_, t.extensions⟩))
    else .ok (newTask consumer f tref t none)

def fetch (c : Cache) (f : Fetch) (consumer : ConsumerId) (id : WritebackId) :
    Except Abort (FetchStarted × Cache) :=
  match c.cache.lookup f.fullTrackName with
  | none => do
    let (w, c) ← c.fetchNewTrack f consumer id
    .ok (.forwarded w, c)
  | some tref => do
    let task ← c.fetchCachedTrack f consumer tref
    .ok (.task task, c)

end Cache

end Moqx
