import Moqx.Cache.FetchImpl

/-! The cache with everything that holds on to it: live writebacks, running fetches and the
calls their consumers have received. Every interleaving of their steps is a run. -/
namespace Moqx

open Moxygen

variable [Moxygen]

/-- What an upstream publisher delivers to a fetch writeback. -/
inductive Delivery where
  | object (gID sgID objID : Nat) (payload : Payload) (ext : Extensions) (fin isDatagram : Bool)
  | beginObject (gID sgID objID len : Nat) (initPayload : Option Payload) (ext : Extensions)
  | objectPayload (payload : Payload) (finFetch : Bool)
  | endOfGroup (gID sgID objID : Nat) (fin : Bool)
  | endOfTrackAndGroup (gID sgID objID : Nat)
  | endOfFetch
  | endOfUnknownRange (groupId objectId : Nat) (finFetch : Bool)
  | reset (code : ResetStreamErrorCode)
  | awaitReadyToConsume

def FetchWriteback.deliver (w : FetchWriteback) (c : Cache) (now : TimePoint) :
    Delivery → Except Abort FetchWriteback.Delivered
  | .object gID sgID objID payload ext fin isDatagram =>
    w.object c gID sgID objID payload ext fin isDatagram now
  | .beginObject gID sgID objID len initPayload ext =>
    w.beginObject c gID sgID objID len initPayload ext now
  | .objectPayload payload finFetch => w.objectPayload c payload finFetch
  | .endOfGroup gID sgID objID fin => w.endOfGroup c gID sgID objID fin now
  | .endOfTrackAndGroup gID sgID objID => w.endOfTrackAndGroup c gID sgID objID now
  | .endOfFetch => w.endOfFetch c
  | .endOfUnknownRange groupId objectId finFetch => w.endOfUnknownRange c groupId objectId finFetch
  | .reset code => w.reset c code
  | .awaitReadyToConsume => .ok (.ok (), [.awaitReadyToConsume], w, c)

/-- What a publisher writes through a subgroup writeback. -/
inductive SubgroupWrite where
  | object (objID : Nat) (payload : Option Payload) (ext : Extensions)
  | beginObject (objectID length : Nat) (initialPayload : Option Payload) (ext : Extensions)
  | objectPayload (payload : Payload)
  | endOfGroup (objID : Nat)
  | endOfTrackAndGroup (objID : Nat)

def SubgroupWriteback.perform (w : SubgroupWriteback) (c : Cache) (now : TimePoint) :
    SubgroupWrite → Except Abort (SubgroupWriteback × Cache)
  | .object objID payload ext => do
    let (_, c) ← w.object c objID payload ext now
    .ok (w, c)
  | .beginObject objectID length initialPayload ext => do
    let (_, w, c) ← w.beginObject c objectID length initialPayload ext now
    .ok (w, c)
  | .objectPayload payload => w.objectPayload c payload
  | .endOfGroup objID => do
    let (_, c) ← w.endOfGroup c objID now
    .ok (w, c)
  | .endOfTrackAndGroup objID => do
    let (_, c) ← w.endOfTrackAndGroup c objID now
    .ok (w, c)

/-- What lets a suspended `fetchImpl` go on: nothing, its consumer's answer, or the answer of
the upstream. -/
inductive Resume where
  | run
  | consumer (answer : ConsumerAnswer)
  | upstream (answer : Option FetchOk)

inductive Op where
  | tick (nanoseconds : Nat)
  | subscribe (ftn : FullTrackName)
  | closeSubscribe (id : Nat)
  | beginSubgroup (id groupID subgroupID : Nat) (downstream : Expected Unit)
  | objectStream (id : Nat) (header : ObjectHeader) (payload : Option Payload)
  | datagram (id : Nat) (header : ObjectHeader) (payload : Option Payload)
  | writeSubgroup (id : Nat) (write : SubgroupWrite)
  | closeSubgroup (id : Nat)
  | setTrackExtensions (ftn : FullTrackName) (ext : Extensions)
  | purgeTrack (ftn : FullTrackName)
  | purgeNamespace (ns : List String)
  | purgeAll
  | fetch (f : Fetch)
  | resume (id : ConsumerId) (with_ : Resume)
  | cancel (id : ConsumerId)
  | deliver (id : WritebackId) (delivery : Delivery)
  | closeWriteback (id : WritebackId)

structure World where
  cache : Cache
  now : TimePoint := 0
  subscribers : AList (fun _ : Nat => SubscribeWriteback) := ∅
  subgroups : AList (fun _ : Nat => SubgroupWriteback) := ∅
  writebacks : AList (fun _ : WritebackId => FetchWriteback) := ∅
  tasks : AList (fun _ : ConsumerId => FetchTask) := ∅
  calls : ConsumerId → List FetchCall := fun _ => []
  nextId : Nat := 0

/-- A caller that does not exist makes no call. -/
def orNoCaller {α : Type} (x : Option α) : Except Abort α :=
  match x with
  | some a => .ok a
  | none => .error .noCaller

/-- The writeback a suspended `fetchImpl` keeps alive. -/
def FetchPc.heldWriteback : FetchPc → Option WritebackId
  | .upstreamFetch w _ _ _ => some w
  | .writebackComplete w _ _ => some w
  | _ => none

namespace World

def addCalls (w : World) (consumer : ConsumerId) (calls : List FetchCall) : World :=
  { w with calls := Function.update w.calls consumer (w.calls consumer ++ calls) }

def setTask (w : World) (id : ConsumerId) (task : FetchTask) : World :=
  { w with tasks := w.tasks.insert id task }

/-- `waitFor` returns once the awaited writeback is gone or has passed the location. -/
def waitOver (w : World) (id : WritebackId) (loc : AbsoluteLocation) : Bool :=
  match w.writebacks.lookup id with
  | none => true
  | some wb => wb.fetchRangeIt.maxLocation ≤ loc || !wb.fetchRangeIt.isValid ||
      loc < wb.fetchRangeIt.current

/-- One step of a `fetchImpl` coroutine. -/
def resumeTask (w : World) (id : ConsumerId) (task : FetchTask) (with_ : Resume) :
    Except Abort World :=
  match task.pc, with_ with
  | .start, .run =>
    let (task, calls) := task.begin_ (w.cache.tracks task.track) w.now
    .ok ((w.setTask id task).addCalls id calls)
  | .loop, .run => do
    let (task, calls, c) ← task.head w.cache
    .ok (({ w with cache := c }.setTask id task).addCalls id calls)
  | .waitFor wb current, .run =>
    if w.waitOver wb current then do
      let (task, c) ← task.afterWait w.cache current w.now
      .ok ({ w with cache := c }.setTask id task)
    else .error .noCaller
  | .fetchUpstream (interval :: intervals) after, .run => do
    let (wb, task, c) ← task.fetchUpstream w.cache w.nextId interval intervals after
    .ok ({ w with
      cache := c, writebacks := w.writebacks.insert w.nextId wb,
      nextId := w.nextId + 1 }.setTask id task)
  | .upstreamFetch wb lastObject intervals after, .upstream answer => do
    let (task, calls, c) ← task.afterUpstreamFetch w.cache wb lastObject intervals after answer
    .ok (({ w with cache := c }.setTask id task).addCalls id calls)
  | .writebackComplete wbId intervals after, .run => do
    let wb ← orNoCaller ((w.writebacks.lookup wbId).filter (·.complete))
    let task ← task.afterComplete w.cache wb intervals after w.now
    .ok (w.setTask id task)
  | .publish current pin, .consumer answer => do
    let (task, calls) ← task.publish w.cache current pin answer
    .ok ((w.setTask id task).addCalls id calls)
  | .handleBlocked status, .run => .ok (w.setTask id (task.afterBlocked status w.now))
  | _, _ => .error .noCaller

/-- Cancelling runs the callback at once, unless `fetchImpl` has not started or is over. -/
def cancelTask (w : World) (id : ConsumerId) (task : FetchTask) : World :=
  match task.cancelled, task.pc with
  | true, _ => w
  | false, .done _ => w
  | false, .start => w.setTask id { task with cancelled := true }
  | false, _ => (w.setTask id { task with cancelled := true }).addCalls id [.reset .cancelled]

def step (w : World) : Op → Except Abort World
  | .tick ns => .ok { w with now := w.now + ns }
  | .subscribe ftn => do
    let (s, c) ← w.cache.getSubscribeWriteback ftn
    .ok { w with
      cache := c, subscribers := w.subscribers.insert w.nextId s, nextId := w.nextId + 1 }
  | .closeSubscribe id => do
    let s ← orNoCaller (w.subscribers.lookup id)
    let c ← s.close w.cache
    .ok { w with cache := c, subscribers := w.subscribers.erase id }
  | .beginSubgroup id groupID subgroupID downstream => do
    let s ← orNoCaller (w.subscribers.lookup id)
    match ← s.beginSubgroup w.cache groupID subgroupID downstream with
    | (.ok (some sub), c) => .ok { w with
        cache := c, subgroups := w.subgroups.insert w.nextId sub, nextId := w.nextId + 1 }
    | (_, c) => .ok { w with cache := c }
  | .objectStream id header payload => do
    let s ← orNoCaller (w.subscribers.lookup id)
    let (_, c) ← s.objectStream w.cache header payload w.now
    .ok { w with cache := c }
  | .datagram id header payload => do
    let s ← orNoCaller (w.subscribers.lookup id)
    let (_, c) ← s.datagram w.cache header payload w.now
    .ok { w with cache := c }
  | .writeSubgroup id write => do
    let sub ← orNoCaller (w.subgroups.lookup id)
    let (sub, c) ← sub.perform w.cache w.now write
    .ok { w with cache := c, subgroups := w.subgroups.insert id sub }
  | .closeSubgroup id => do
    let sub ← orNoCaller (w.subgroups.lookup id)
    .ok { w with cache := sub.close w.cache, subgroups := w.subgroups.erase id }
  | .setTrackExtensions ftn ext => .ok { w with cache := w.cache.setTrackExtensions ftn ext }
  | .purgeTrack ftn => do
    let c ← w.cache.purgeTrack ftn
    .ok { w with cache := c }
  | .purgeNamespace ns => do
    let c ← w.cache.purgeNamespace ns
    .ok { w with cache := c }
  | .purgeAll => do
    let c ← w.cache.purgeAll
    .ok { w with cache := c }
  | .fetch f => do
    match ← w.cache.fetch f w.nextId w.nextId with
    | (.forwarded wb, c) => .ok { w with
        cache := c, writebacks := w.writebacks.insert w.nextId wb, nextId := w.nextId + 1 }
    | (.task task, c) => .ok ({ w with cache := c, nextId := w.nextId + 1 }.setTask w.nextId task)
  | .resume id with_ => do
    let task ← orNoCaller (w.tasks.lookup id)
    w.resumeTask id task with_
  | .cancel id => do
    let task ← orNoCaller (w.tasks.lookup id)
    .ok (w.cancelTask id task)
  | .deliver id delivery => do
    let wb ← orNoCaller (w.writebacks.lookup id)
    let (_, calls, wb, c) ← wb.deliver w.cache w.now delivery
    .ok ({ w with cache := c, writebacks := w.writebacks.insert id wb }.addCalls wb.consumer calls)
  | .closeWriteback id => do
    let wb ← orNoCaller (w.writebacks.lookup id)
    if w.tasks.entries.any (fun e => e.2.pc.heldWriteback = some id) then .error .noCaller
    else .ok { w with cache := wb.close w.cache, writebacks := w.writebacks.erase id }

end World

end Moqx
