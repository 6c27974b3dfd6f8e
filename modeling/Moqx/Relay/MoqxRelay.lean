import Moqx.Relay.RelayState

/-! `MoqxRelay`: the calls of publishers, subscribers and upstream sessions, the coroutines they
start, and the callbacks of filters, rankings and forwarders. Metrics, the cache and `fetch` are
not part of this model. -/
namespace Moqx

open Maps

namespace SubscribeNamespaceOptions

def wantsNamespaces (options : SubscribeNamespaceOptions) : Bool :=
  options = .namespace || options = .both

def wantsPublishes (options : SubscribeNamespaceOptions) : Bool :=
  options = .publish || options = .both

end SubscribeNamespaceOptions

namespace MoqxRelay

/-- The namespace as a subscriber of a prefix sees it. -/
def trackNamespaceSuffix (ns prefix_ : TrackNamespace) : TrackNamespace := ns.drop prefix_.length

/-- Tell a subscriber of a prefix about a namespace: NAMESPACE if it has a handle for it, else
PUBLISH_NAMESPACE from a coroutine. -/
def announceTo (session : SessionId) (ns : TrackNamespace) (w : MoqxRelay)
    (subscriber : SessionId × NamespaceSubscriberInfo) : MoqxRelay :=
  if subscriber.1 ≠ session ∧ subscriber.2.options.wantsNamespaces then
    match subscriber.2.namespacePublishHandle with
    | some handle => w.send
        (.namespaceMsg handle (trackNamespaceSuffix ns subscriber.2.trackNamespacePrefix))
    | none => w.publishNamespaceToSession subscriber.1 ns.reverse
  else w

/-- Announce a namespace. The tracks that were received from a publisher that is replaced lose
their entries. -/
def doPublishNamespace (w : MoqxRelay) (ns : TrackNamespace) (session : SessionId)
    (callback : Option CallbackId) (peerID : String) : Except Fault MoqxRelay :=
  if !(w.config.allowedNamespacePrefix.isPrefixOf ns) then .ok w
  else do
    let (tree, result) ← w.tree.setPublisher ns session callback peerID
    let w := { w with tree := tree }
    let w := result.cancelled.elim w fun callback => w.send (.publishNamespaceCancel callback)
    let w := result.replacedSession.elim w fun replacedSession =>
      { w with registry := w.registry.removeIf fun ftn rsub =>
          ns.isPrefixOf ftn.trackNamespace && rsub.upstream = some replacedSession }
    return result.subscribers.foldl (announceTo session ns) w

/-- Tell a subscriber of a prefix that a namespace is gone. -/
def announceDoneTo (session : SessionId) (ns : TrackNamespace) (w : MoqxRelay)
    (subscriber : SessionId × NamespaceSubscriberInfo) : MoqxRelay :=
  if subscriber.1 ≠ session ∧ subscriber.2.options.wantsNamespaces ∧
      16 ≤ w.config.draftMajorVersion subscriber.1 then
    match subscriber.2.namespacePublishHandle with
    | some handle => w.send
        (.namespaceDoneMsg handle (trackNamespaceSuffix ns subscriber.2.trackNamespacePrefix))
    | none => w
  else w

def doPublishNamespaceDone (w : MoqxRelay) (ns : TrackNamespace) (session : SessionId) :
    Except Fault MoqxRelay := do
  let (tree, result) ← w.tree.unpublishNamespace ns session
  match result with
  | .error _ => return w
  | .ok result =>
    let w := { w with tree := tree }
    let w := result.legacyHandles.foldl (fun w e => w.send (.publishNamespaceDone e.1 e.2)) w
    return result.subscribers.foldl (announceDoneTo session ns) w

/-- The tree without the record of a track, if its entry was made by a PUBLISH. -/
def unpublished (w : MoqxRelay) (ftn : FullTrackName) : Except Fault NamespaceTree :=
  if (w.registry.getUpstreamView ftn).any fun view => view.isPublish then
    w.tree.unpublishTrack ftn.trackNamespace ftn.trackName
  else .ok w.tree

/-- The end of a track, found by its name. -/
def onPublishDone (w : MoqxRelay) (ftn : FullTrackName) : Except Fault MoqxRelay := do
  let tree ← w.unpublished ftn
  return { w with
    tree := tree
    registry := (w.registry.onPublisherTerminated ftn w.forwarderEmpty).1 }

def makeForwarder (w : MoqxRelay) (ftn : FullTrackName) (extensions : IntExtensions) :
    MoqxRelay × ForwarderId :=
  ({ w with
    forwarders := w.forwarders.insert w.nextId { fullTrackName := ftn, extensions := extensions }
    nextId := w.nextId + 1 }, w.nextId)

/-- A chain `TopNFilter → TerminationFilter → forwarder`. -/
def buildFilterChain (w : MoqxRelay) (ftn : FullTrackName) (forwarder : ForwarderId)
    (publisherSession : Option SessionId) : MoqxRelay × FilterId :=
  ({ w with
    filters := w.filters.insert w.nextId
      { ftn := ftn
        activityThreshold := w.config.activityThreshold
        publisherSession := publisherSession
        forwarder := forwarder }
    nextId := w.nextId + 1 }, w.nextId)

/-- The subscription that a PUBLISH has replaced ends, unless it had ended before. -/
def endEvicted (w : MoqxRelay) (evicted : Option Evicted) : MoqxRelay :=
  evicted.elim w fun evicted => evicted.handle.elim w fun handle =>
    (w.send (.unsubscribe handle)).drain evicted.forwarder

/-- A published track enters a ranking, which observes it from now on. -/
def enterRanking (ftn : FullTrackName) (session : SessionId) (extensions : IntExtensions)
    (filter : FilterId) (w : MoqxRelay) (ranking : Nat × RankingId) : MoqxRelay :=
  (w.callRanking ranking.2 (.registerTrack ftn (extensions ranking.1) session)).registerObserver
    filter ranking.1 ranking.2

/-- Whether a PUBLISH is passed on to a subscriber without a filter. -/
def takesPublish (session : SessionId) (subscriber : SessionId × NamespaceSubscriberInfo) : Bool :=
  subscriber.2.trackFilter.isNone && subscriber.1 ≠ session && subscriber.2.options.wantsPublishes

/-- The forwarder, the chain and the entry of a new publisher; the chain writes the time of its
last object into the entry. -/
def addPublisher (w : MoqxRelay) (session : SessionId) (ftn : FullTrackName)
    (requestID : RequestID) (handle : HandleId) (extensions : IntExtensions) :
    Except Fault (MoqxRelay × Option Evicted) := do
  let (w, forwarder) := w.makeForwarder ftn extensions
  let (w, filter) := w.buildFilterChain ftn forwarder (some session)
  let (registry, evicted) ←
    w.registry.createFromPublish ftn forwarder session requestID handle filter w.now
  let w := w.setFilter filter fun filter =>
    { filter with activityTarget := (registry.find ftn).map fun rsub => rsub.entry }
  return ({ w with registry := registry }, evicted)

def publish (w : MoqxRelay) (session : SessionId) (ftn : FullTrackName) (requestID : RequestID)
    (handle : HandleId) (extensions : IntExtensions) : Except Fault MoqxRelay :=
  if !(w.config.allowedNamespacePrefix.isPrefixOf ftn.trackNamespace) then .ok w
  else if ftn.trackNamespace = [] then .ok w
  else do
    let forwarder := w.nextId
    let filter := w.nextId + 1
    let (w, evicted) ← w.addPublisher session ftn requestID handle extensions
    let w := w.endEvicted evicted
    let (tree, added) ← w.tree.addPublish ftn session
    let w := { w with tree := tree }
    let w := added.rankings.foldl (enterRanking ftn session extensions filter) w
    let w := added.subscribers.foldl (fun w subscriber =>
      if takesPublish session subscriber then
        w.publishToSession subscriber.1 forwarder subscriber.2.forward false
      else w) w
    let shouldForward := added.subscribers.any fun subscriber =>
      subscriber.2.trackFilter.isSome || takesPublish session subscriber
    return w.send (.publishOk session ftn shouldForward)

/-- A track that was published before its ranking was made. -/
structure RetroTrack where
  trackName : String
  publishSession : SessionId
  initialPropertyValue : Option Nat
  lastObjectTime : TimePoint
deriving DecidableEq, Repr

def retroTrack (w : MoqxRelay) (ns : TrackNamespace) (propertyType : Nat)
    (publish : String × SessionId) : RetroTrack :=
  match w.registry.getTopNView ⟨ns, publish.1⟩ with
  | none => ⟨publish.1, publish.2, none, 0⟩
  | some view =>
    let extensions := (w.forwarders.lookup view.forwarder).map fun forwarder => forwarder.extensions
    ⟨publish.1, publish.2, extensions.bind fun extensions => extensions propertyType,
      view.lastObjectTime⟩

/-- A new ranking observes the chain of a track that is there already. -/
def observeRetro (ns : TrackNamespace) (propertyType : Nat) (ranking : RankingId) (w : MoqxRelay)
    (publish : String × SessionId) : MoqxRelay :=
  match (w.registry.getTopNView ⟨ns, publish.1⟩).bind fun view => view.topNFilter with
  | none => w
  | some filter => w.registerObserver filter propertyType ranking

/-- Register the tracks of a node with a new ranking, the longest silent first. -/
def registerRetro (propertyType : Nat) (ranking : RankingId) (w : MoqxRelay) (path : Path) :
    MoqxRelay :=
  match w.tree.lookup path with
  | none => w
  | some node =>
    let publishes := node.publishes.entries.map fun e => (e.1, e.2)
    let retroTracks := (publishes.map (w.retroTrack path.reverse propertyType)).insertionSort
      fun a b => a.lastObjectTime ≤ b.lastObjectTime
    let w := publishes.foldl (observeRetro path.reverse propertyType ranking) w
    retroTracks.foldl (fun w track => w.callRanking ranking
      (.registerTrack ⟨path.reverse, track.trackName⟩ track.initialPropertyValue
        track.publishSession)) w

def getOrCreateRanking (w : MoqxRelay) (path : Path) (propertyType : Nat) :
    MoqxRelay × RankingId :=
  match w.tree.ranking path propertyType with
  | some ranking => (w, ranking)
  | none =>
    let ranking := w.nextId
    let w := { w with
      rankings := w.rankings.insert ranking
        { maxDeselected := w.config.maxDeselected
          idleTimeout := w.config.idleTimeout
          sweepThrottle := 0 }
      tree := w.tree.insertRanking path propertyType ranking
      nextId := w.nextId + 1 }
    ((w.tree.subtree path).foldl (registerRetro propertyType ranking) w, ranking)

/-- The arguments of SUBSCRIBE_NAMESPACE. A session of draft 16 or later comes with a handle; a
peer relay is known by its identifier. -/
structure SubscribeNamespace where
  trackNamespacePrefix : TrackNamespace
  forward : Bool
  options : SubscribeNamespaceOptions
  trackFilter : Option TrackFilter
  hasHandle : Bool
  peerID : String := ""
deriving DecidableEq, Repr

/-- A namespace that was announced before the subscription. -/
def announceExisting (session : SessionId) (subNs : SubscribeNamespace) (handle : Option HandleId)
    (path : Path) (node : NamespaceNode) (w : MoqxRelay) : Except Fault MoqxRelay :=
  if node.publisherSession.isSome ∧ node.publisherSession ≠ some session ∧
      (subNs.peerID = "" ∨ node.publisherPeerID ≠ subNs.peerID) then
    if 16 ≤ w.config.draftMajorVersion session then
      if subNs.options.wantsNamespaces then
        match handle with
        | some handle => .ok (w.send (.namespaceMsg handle
            (trackNamespaceSuffix path.reverse subNs.trackNamespacePrefix)))
        | none => .error .nullDeref
      else .ok w
    else .ok (w.publishNamespaceToSession session path)
  else .ok w

/-- A track that was published before the subscription. -/
def publishExisting (session : SessionId) (subNs : SubscribeNamespace) (ns : TrackNamespace)
    (w : MoqxRelay) (publish : String × SessionId) : MoqxRelay :=
  match w.registry.getForwarder ⟨ns, publish.1⟩ with
  | none => w
  | some forwarder =>
    if subNs.trackFilter.isNone ∧
        (w.config.draftMajorVersion session ≤ 15 ∨ subNs.options.wantsPublishes) ∧
        publish.2 ≠ session then
      w.publishToSession session forwarder subNs.forward false
    else w

def visitExisting (session : SessionId) (subNs : SubscribeNamespace) (handle : Option HandleId)
    (w : MoqxRelay) (path : Path) : Except Fault MoqxRelay :=
  match w.tree.lookup path with
  | none => .ok w
  | some node => do
    let w ← announceExisting session subNs handle path node w
    return (node.publishes.entries.map fun e => (e.1, e.2)).foldl
      (publishExisting session subNs path.reverse) w

/-- Enroll a session in the ranking of its track filter. -/
def joinRanking (w : MoqxRelay) (session : SessionId) (path : Path) (forward : Bool)
    (filter : TrackFilter) : MoqxRelay :=
  let (w, ranking) := w.getOrCreateRanking path filter.propertyType
  w.callRanking ranking (.addSessionToTopNGroup filter.maxSelected session forward)

def subscribeNamespace (w : MoqxRelay) (session : SessionId) (subNs : SubscribeNamespace) :
    Except Fault MoqxRelay :=
  if subNs.trackNamespacePrefix = [] ∧ w.config.draftMajorVersion session < 16 then .ok w
  else do
    let path := subNs.trackNamespacePrefix.reverse
    let handle := if subNs.hasHandle then some w.nextId else none
    let w := { w with nextId := w.nextId + 1 }
    let tree ← w.tree.addNamespaceSubscriber subNs.trackNamespacePrefix session
      { forward := subNs.forward
        options := subNs.options
        namespacePublishHandle := handle
        trackNamespacePrefix := subNs.trackNamespacePrefix
        trackFilter := subNs.trackFilter }
    let w := { w with tree := tree }
    let w := subNs.trackFilter.elim w (w.joinRanking session path subNs.forward)
    (w.tree.subtree path).foldlM (visitExisting session subNs handle) w

def unsubscribeNamespace (w : MoqxRelay) (session : SessionId) (prefix_ : TrackNamespace) :
    Except Fault MoqxRelay := do
  let (tree, result) ← w.tree.removeNamespaceSubscriber prefix_ session
  let w := { w with tree := tree }
  match result with
  | .ok (some (ranking, maxSelected)) =>
    return w.callRanking ranking (.removeSessionFromTopNGroup maxSelected session)
  | _ => return w

/-- SUBSCRIBE, from the call of `getOrCreateFromSubscribe` on. -/
def subscribe (w : MoqxRelay) (session : SessionId) (ftn : FullTrackName) (forward : Bool) :
    Except Fault MoqxRelay :=
  if ftn.trackNamespace = [] then .ok w
  else
    let forwarder := w.nextId
    let filter := w.nextId + 1
    let (registry, result) := w.registry.getOrCreateFromSubscribe ftn forwarder filter w.now
    match result with
    | .first pending =>
      let (w, forwarder) := w.makeForwarder ftn fun _ => none
      let (w, _) := w.buildFilterChain ftn forwarder none
      let w := { w with registry := registry }
      match w.tree.findPublisherSession ftn.trackNamespace with
      | none => do
        let registry ← w.registry.failAndRemove pending
        return { w with registry := registry }
      | some upstreamSession =>
        let (w, _) := w.addSubscriber forwarder session ⟨forward, true⟩
        .ok { w with
          firstSubscribes := w.firstSubscribes.insert w.nextId ⟨pending, upstreamSession⟩
          nextId := w.nextId + 1 }
    | .subsequent task => .ok { w with
        laterSubscribes := w.laterSubscribes.insert w.nextId ⟨task, session, forward⟩
        nextId := w.nextId + 1 }

/-- The upstream accepts the subscription of a first subscriber. -/
def upstreamOk (w : MoqxRelay) (id : Nat) (handle : HandleId) (requestID : RequestID)
    (extensions : IntExtensions) : Except Fault MoqxRelay :=
  match w.firstSubscribes.lookup id with
  | none => .error .noCaller
  | some first => do
    let w := w.setForwarder first.pending.weakForwarder fun forwarder =>
      { forwarder with extensions := extensions }
    let (registry, _) ←
      w.registry.completeSubscription first.pending handle requestID first.upstreamSession
    return { w with registry := registry, firstSubscribes := w.firstSubscribes.erase id }

def upstreamError (w : MoqxRelay) (id : Nat) : Except Fault MoqxRelay :=
  match w.firstSubscribes.lookup id with
  | none => .error .noCaller
  | some first => do
    let registry ← w.registry.failAndRemove first.pending
    return { w with registry := registry, firstSubscribes := w.firstSubscribes.erase id }

/-- A later subscriber runs on; `inRange` is false if its range has passed. -/
def resumeLater (w : MoqxRelay) (id : Nat) (inRange : Bool) : Except Fault MoqxRelay :=
  match w.laterSubscribes.lookup id with
  | none => .error .noCaller
  | some later =>
    match w.registry.awaitSubsequent later.task with
    | none => .error .noCaller
    | some result =>
      let w := { w with laterSubscribes := w.laterSubscribes.erase id }
      match result with
      | .error _ => .ok w
      | .ok forwarder =>
        if inRange then .ok (w.addSubscriber forwarder later.session ⟨later.forward, true⟩).1
        else .ok w

/-- A `publishToSession` coroutine starts; `accepted` is the answer of `session->publish`. -/
def startPublish (w : MoqxRelay) (id : Nat) (accepted : Bool) : Except Fault MoqxRelay :=
  match w.publishTasks.lookup id with
  | none => .error .noCaller
  | some task =>
    if task.started then .error .noCaller
    else if task.session ∈ w.closed then
      .ok { w with publishTasks := w.publishTasks.erase id }
    else
      let (w, added) := w.addSubscriber task.forwarder task.session
        ⟨task.forward, !task.trackFilterSubscriber⟩
      if !added then .ok { w with publishTasks := w.publishTasks.erase id }
      else if accepted then
        .ok { w with publishTasks := w.publishTasks.insert id { task with started := true } }
      else
        .ok { w.removeSubscriber task.forwarder task.session with
          publishTasks := w.publishTasks.erase id }

/-- The answer to the PUBLISH of such a coroutine: the forward flag of PUBLISH_OK, or an error. -/
def publishReply (w : MoqxRelay) (id : Nat) (reply : Option Bool) : Except Fault MoqxRelay :=
  match w.publishTasks.lookup id with
  | none => .error .noCaller
  | some task =>
    if !task.started then .error .noCaller
    else
      let w := { w with publishTasks := w.publishTasks.erase id }
      match reply with
      | none => .ok (w.removeSubscriber task.forwarder task.session)
      | some forward => .ok (w.setForwarder task.forwarder fun forwarder =>
          match forwarder.subscribers.lookup task.session with
          | none => forwarder
          | some subscriber => { forwarder with
              subscribers := forwarder.subscribers.insert task.session
                { subscriber with forward := forward } })

/-- The answer to a PUBLISH_NAMESPACE. -/
def publishNamespaceReply (w : MoqxRelay) (id : Nat) (accepted : Bool) : Except Fault MoqxRelay :=
  match w.publishNamespaceTasks.lookup id with
  | none => .error .noCaller
  | some task =>
    let w := { w with publishNamespaceTasks := w.publishNamespaceTasks.erase id }
    if accepted then
      .ok { w with
        tree := w.tree.addDraft14PublishNamespaceHandle task.path task.node task.session w.nextId
        nextId := w.nextId + 1 }
    else .ok w

/-- `*activityTarget_ = now`. -/
def touchActivityTarget (w : MoqxRelay) (target : Option EntryId) : Except Fault MoqxRelay :=
  match target with
  | none => .ok w
  | some entry => do
    let registry ← w.registry.touch entry w.now
    return { w with registry := registry }

/-- One turn of the loop of `checkProperties`, for an observed property that the object has. -/
def observeValue (w : MoqxRelay) (id : FilterId) (filter : TopNFilter) (propertyType : Nat)
    (entry : ObserverEntry) (value : Nat) (activityThrottleAllows : Bool) :
    Except Fault MoqxRelay := do
  let w ← w.touchActivityTarget filter.activityTarget
  let w := if entry.lastSeenValue = some value then w
    else
      (w.setFilter id fun filter => { filter with
        observers := filter.observers.insert propertyType
          { entry with lastSeenValue := some value } }
      ).callRanking entry.ranking (.updateSortValue filter.ftn value w.activity)
  return if activityThrottleAllows then w.callRanking entry.ranking (.sweepIdle w.activity) else w

/-- The loop of `checkProperties`: also answers whether activity was notified. -/
def observeValues (id : FilterId) (filter : TopNFilter) (extensions : IntExtensions)
    (activityThrottleAllows : Bool) : List (Nat × ObserverEntry) → MoqxRelay → Bool →
    Except Fault (MoqxRelay × Bool)
  | [], w, firedAnyActivity => .ok (w, firedAnyActivity)
  | (propertyType, entry) :: rest, w, firedAnyActivity =>
    match extensions propertyType with
    | none => observeValues id filter extensions activityThrottleAllows rest w firedAnyActivity
    | some value => do
      let w ← w.observeValue id filter propertyType entry value activityThrottleAllows
      observeValues id filter extensions activityThrottleAllows rest w
        (firedAnyActivity || activityThrottleAllows)

def checkProperties (w : MoqxRelay) (id : FilterId) (filter : TopNFilter)
    (extensions : IntExtensions) : Except Fault MoqxRelay := do
  let activityThrottleAllows : Bool := 0 < filter.activityThreshold ∧
    filter.lastActivityNotify.all fun last =>
      toNanoseconds filter.activityThreshold ≤ w.now - last
  let (w', firedAnyActivity) ← observeValues id filter extensions activityThrottleAllows
    (filter.observers.entries.map fun e => (e.1, e.2)) w false
  return if firedAnyActivity then
      w'.setFilter id fun filter => { filter with lastActivityNotify := some w.now }
    else w'

/-- An object passes through a chain, in a stream, a datagram or a subgroup. -/
def object (w : MoqxRelay) (id : FilterId) (extensions : IntExtensions) : Except Fault MoqxRelay :=
  match w.filters.lookup id with
  | none => .error .noCaller
  | some filter =>
    let before := (w.observed.lookup id).getD fun _ => none
    let w := { w with observed := w.observed.insert id fun propertyType =>
      (extensions propertyType).or (before propertyType) }
    w.checkProperties id filter extensions

/-- `publishDone` passes through a chain. -/
def publishDone (w : MoqxRelay) (id : FilterId) : Except Fault MoqxRelay :=
  match w.filters.lookup id with
  | none => .error .noCaller
  | some filter => do
    let w := w.setFilter id fun filter => { filter with ended := true }
    let w := filter.observers.entries.foldl
      (fun w e => w.callRanking e.2.ranking (.removeTrack filter.ftn)) w
    let w ← w.onPublishDone filter.ftn
    return w.drain filter.forwarder

def onEmpty (w : MoqxRelay) (id : ForwarderId) : Except Fault MoqxRelay :=
  match w.forwarders.lookup id with
  | none => .error .noCaller
  | some forwarder =>
    match w.registry.getUpstreamView forwarder.fullTrackName with
    | none => .ok w
    | some view =>
      match view.handle with
      | none => .ok { w with registry := w.registry.remove forwarder.fullTrackName }
      | some handle =>
        if view.isPublish then
          if view.upstream.isNone then .error .nullDeref
          else .ok (w.send (.subscribeUpdate handle false))
        else
          .ok { w.send (.unsubscribe handle) with
            registry := w.registry.remove forwarder.fullTrackName }

def forwardChanged (w : MoqxRelay) (id : ForwarderId) (forward : Bool) : Except Fault MoqxRelay :=
  match w.forwarders.lookup id with
  | none => .error .noCaller
  | some forwarder =>
    match w.registry.getUpstreamView forwarder.fullTrackName with
    | none => .ok w
    | some view =>
      if !view.isReady then .ok w
      else
        match view.handle with
        | none => .ok w
        | some handle =>
          if view.upstream.isNone then .error .nullDeref
          else .ok (w.send (.subscribeUpdate handle forward))

def newGroupRequested (w : MoqxRelay) (id : ForwarderId) (group : Nat) : Except Fault MoqxRelay :=
  match w.forwarders.lookup id with
  | none => .error .noCaller
  | some forwarder =>
    match w.registry.getUpstreamView forwarder.fullTrackName with
    | none => .ok w
    | some view =>
      match view.handle with
      | none => .ok w
      | some handle =>
        if view.upstream.isNone then .error .nullDeref
        else .ok (w.send (.newGroupRequest handle group))

/-- A step of the relay: a call into it, the continuation of one of its coroutines, or a callback.
`release` is the end of a chain that its publisher has let go; `leave` is a subscriber that a
forwarder drops, because it unsubscribed or has drained. -/
inductive Op where
  | tick (duration : Nat)
  | publishNamespace (session : SessionId) (ns : TrackNamespace) (callback : Option CallbackId)
      (peerID : String)
  | publishNamespaceDone (session : SessionId) (ns : TrackNamespace)
  | publish (session : SessionId) (ftn : FullTrackName) (requestID : RequestID)
      (handle : HandleId) (extensions : IntExtensions)
  | object (filter : FilterId) (extensions : IntExtensions)
  | publishDone (filter : FilterId)
  | release (filter : FilterId)
  | subscribeNamespace (session : SessionId) (subNs : SubscribeNamespace)
  | unsubscribeNamespace (session : SessionId) (prefix_ : TrackNamespace)
  | subscribe (session : SessionId) (ftn : FullTrackName) (forward : Bool)
  | upstreamOk (id : Nat) (handle : HandleId) (requestID : RequestID) (extensions : IntExtensions)
  | upstreamError (id : Nat)
  | resumeLater (id : Nat) (inRange : Bool)
  | startPublish (id : Nat) (accepted : Bool)
  | publishReply (id : Nat) (reply : Option Bool)
  | publishNamespaceReply (id : Nat) (accepted : Bool)
  | leave (forwarder : ForwarderId) (session : SessionId)
  | onEmpty (forwarder : ForwarderId)
  | forwardChanged (forwarder : ForwarderId) (forward : Bool)
  | newGroupRequested (forwarder : ForwarderId) (group : Nat)
  | close (session : SessionId)

def step (w : MoqxRelay) : Op → Except Fault MoqxRelay
  | .tick duration => .ok { w with now := w.now + duration }
  | .publishNamespace session ns callback peerID =>
    w.doPublishNamespace ns session callback peerID
  | .publishNamespaceDone session ns => w.doPublishNamespaceDone ns session
  | .publish session ftn requestID handle extensions =>
    w.publish session ftn requestID handle extensions
  | .object filter extensions => w.object filter extensions
  | .publishDone filter => w.publishDone filter
  | .release filter => .ok { w with filters := w.filters.erase filter }
  | .subscribeNamespace session subNs => w.subscribeNamespace session subNs
  | .unsubscribeNamespace session prefix_ => w.unsubscribeNamespace session prefix_
  | .subscribe session ftn forward => w.subscribe session ftn forward
  | .upstreamOk id handle requestID extensions => w.upstreamOk id handle requestID extensions
  | .upstreamError id => w.upstreamError id
  | .resumeLater id inRange => w.resumeLater id inRange
  | .startPublish id accepted => w.startPublish id accepted
  | .publishReply id reply => w.publishReply id reply
  | .publishNamespaceReply id accepted => w.publishNamespaceReply id accepted
  | .leave forwarder session => .ok (w.removeSubscriber forwarder session)
  | .onEmpty forwarder => w.onEmpty forwarder
  | .forwardChanged forwarder forward => w.forwardChanged forwarder forward
  | .newGroupRequested forwarder group => w.newGroupRequested forwarder group
  | .close session => .ok { w with closed := session :: w.closed }

end MoqxRelay

end Moqx
