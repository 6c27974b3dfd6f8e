import Moqx.Relay.NamespaceTree

/-! The state of `MoqxRelay` with the objects it shares: forwarders, filter chains, rankings and
the coroutines it has started. `MoQForwarder` is a class of the protocol library; of it the model
keeps who subscribes, and its callbacks are steps of their own. -/
namespace Moqx

open Maps

/-- The integer extensions of an object or a track, by type. -/
abbrev IntExtensions := Nat → Option Nat

/-- `MoQForwarder::Subscriber`. A pinned one is not evicted by a ranking. -/
structure ForwarderSubscriber where
  forward : Bool
  pinned : Bool
deriving DecidableEq, Repr

/-- A forwarder has at most one subscriber per session. -/
structure MoQForwarder where
  fullTrackName : FullTrackName
  subscribers : AList (fun _ : SessionId => ForwarderSubscriber) := ∅
  draining : Bool := false
  extensions : IntExtensions := fun _ => none

/-- The observer of a property: its three callbacks all go to one ranking. -/
structure ObserverEntry where
  lastSeenValue : Option Nat := none
  ranking : RankingId
deriving DecidableEq, Repr

/-- The chain from `TopNFilter` over `TerminationFilter` to the forwarder. -/
structure TopNFilter where
  ftn : FullTrackName
  observers : AList (fun _ : Nat => ObserverEntry) := ∅
  ended : Bool := false
  activityTarget : Option EntryId := none
  activityThreshold : Milliseconds
  lastActivityNotify : Option TimePoint := none
  publisherSession : Option SessionId := none
  forwarder : ForwarderId

/-- The frame of a `publishToSession` coroutine, before and after it has sent its PUBLISH. -/
structure PublishTask where
  session : SessionId
  forwarder : ForwarderId
  forward : Bool
  trackFilterSubscriber : Bool
  started : Bool := false
deriving DecidableEq, Repr

/-- The frame of a `publishNamespaceToSession` coroutine. -/
structure PublishNamespaceTask where
  session : SessionId
  path : Path
  node : Nat
deriving DecidableEq, Repr

/-- The frame of a `subscribe` coroutine that waits for the upstream. -/
structure FirstSubscribe where
  pending : UpstreamSubscribePending
  upstreamSession : SessionId
deriving DecidableEq, Repr

/-- The frame of a `subscribe` coroutine that waits for the first one. -/
structure LaterSubscribe where
  task : AwaitSubsequent
  session : SessionId
  forward : Bool
deriving DecidableEq, Repr

/-- What the relay sends to others. -/
inductive Output where
  | namespaceMsg (handle : HandleId) (trackNamespaceSuffix : TrackNamespace)
  | namespaceDoneMsg (handle : HandleId) (trackNamespaceSuffix : TrackNamespace)
  | publishNamespaceCancel (callback : CallbackId)
  | publishNamespaceDone (session : SessionId) (handle : HandleId)
  | unsubscribe (handle : HandleId)
  | subscribeUpdate (handle : HandleId) (forward : Bool)
  | newGroupRequest (handle : HandleId) (group : Nat)
  | publishOk (session : SessionId) (ftn : FullTrackName) (forward : Bool)
deriving DecidableEq, Repr

/-- What is fixed when the relay starts, and the draft each session has negotiated. -/
structure RelayConfig where
  allowedNamespacePrefix : TrackNamespace := []
  maxDeselected : Nat := 0
  idleTimeout : Milliseconds := 10000
  activityThreshold : Milliseconds := 2000
  draftMajorVersion : SessionId → Nat := fun _ => 16

/-- `observed` is a history variable: the last value of every property that came in an object
through a chain. One counter numbers all objects the relay makes. -/
structure MoqxRelay where
  config : RelayConfig := {}
  now : TimePoint := 1
  registry : SubscriptionRegistry := {}
  tree : NamespaceTree := {}
  rankings : AList (fun _ : RankingId => PropertyRanking) := ∅
  filters : AList (fun _ : FilterId => TopNFilter) := ∅
  forwarders : AList (fun _ : ForwarderId => MoQForwarder) := ∅
  closed : List SessionId := []
  publishTasks : AList (fun _ : Nat => PublishTask) := ∅
  publishNamespaceTasks : AList (fun _ : Nat => PublishNamespaceTask) := ∅
  firstSubscribes : AList (fun _ : Nat => FirstSubscribe) := ∅
  laterSubscribes : AList (fun _ : Nat => LaterSubscribe) := ∅
  outputs : List Output := []
  observed : AList (fun _ : FilterId => IntExtensions) := ∅
  nextId : Nat := 0

namespace SubscriptionRegistry

/-- Write a time through the pointer into an entry. -/
def touch (r : SubscriptionRegistry) (entry : EntryId) (now : TimePoint) :
    Except Fault SubscriptionRegistry :=
  match r.subscriptions.entries.find? fun e => e.2.entry = entry with
  | none => .error .danglingWrite
  | some e => .ok { r with
      subscriptions := r.subscriptions.insert e.1 { e.2 with lastObjectTime := now } }

/-- Only times of last objects differ. -/
structure Touches (r r' : SubscriptionRegistry) : Prop where
  find : ∀ ⦃x rsub'⦄, r'.find x = some rsub' → ∃ rsub, r.find x = some rsub ∧
    rsub' = { rsub with lastObjectTime := rsub'.lastObjectTime }
  kept : ∀ ⦃x rsub⦄, r.find x = some rsub → ∃ now, r'.find x =
    some { rsub with lastObjectTime := now }
  promises : r'.promises = r.promises
  nextEntry : r'.nextEntry = r.nextEntry

theorem Touches.refl (r : SubscriptionRegistry) : r.Touches r :=
  ⟨fun _ rsub h => ⟨rsub, h, rfl⟩, fun _ rsub h => ⟨rsub.lastObjectTime, h⟩, rfl, rfl⟩

theorem Touches.trans {r r' r'' : SubscriptionRegistry} (h : r.Touches r') (h' : r'.Touches r'') :
    r.Touches r'' := by
  refine ⟨?_, ?_, h'.promises.trans h.promises, h'.nextEntry.trans h.nextEntry⟩
  · intro x rsub'' hx
    obtain ⟨rsub', hx', heq'⟩ := h'.find hx
    obtain ⟨rsub, hx, heq⟩ := h.find hx'
    refine ⟨rsub, hx, ?_⟩
    rw [heq', heq]
  · intro x rsub hx
    obtain ⟨now, hx'⟩ := h.kept hx
    obtain ⟨now', hx''⟩ := h'.kept hx'
    exact ⟨now', hx''⟩

theorem touch_eq_ok {r r' : SubscriptionRegistry} {entry : EntryId} {now : TimePoint}
    (h : r.touch entry now = .ok r') : r.Touches r' := by
  unfold touch at h
  split at h
  · cases h
  · next e he =>
    cases h
    have hfind : r.find e.1 = some e.2 :=
      List.mem_dlookup r.subscriptions.nodupKeys (List.mem_of_find?_eq_some he)
    refine ⟨?_, ?_, rfl, rfl⟩
    · intro x rsub' hx
      rcases lookup_insert_some hx with ⟨rfl, rfl⟩ | ⟨-, hx⟩
      · exact ⟨e.2, hfind, rfl⟩
      · exact ⟨rsub', hx, rfl⟩
    · intro x rsub hx
      by_cases hname : x = e.1
      · subst hname
        rw [hfind] at hx
        cases hx
        exact ⟨now, AList.lookup_insert _⟩
      · exact ⟨rsub.lastObjectTime, (AList.lookup_insert_ne hname).trans hx⟩

theorem Touches.shrinks {r r' : SubscriptionRegistry} (h : r.Touches r') : r.Shrinks r' := by
  refine ⟨?_, fun e => .inl (by rw [h.promises]), h.nextEntry⟩
  intro x rsub' hx
  obtain ⟨rsub, hx, heq⟩ := h.find hx
  exact ⟨rsub, hx, by rw [heq], by rw [heq]⟩

end SubscriptionRegistry

namespace MoqxRelay

def send (w : MoqxRelay) (output : Output) : MoqxRelay :=
  { w with outputs := w.outputs ++ [output] }

/-- `forwarder->empty()`. -/
def forwarderEmpty (w : MoqxRelay) (id : ForwarderId) : Bool :=
  (w.forwarders.lookup id).all fun forwarder => forwarder.subscribers.keys.isEmpty

def setForwarder (w : MoqxRelay) (id : ForwarderId) (change : MoQForwarder → MoQForwarder) :
    MoqxRelay :=
  match w.forwarders.lookup id with
  | none => w
  | some forwarder => { w with forwarders := w.forwarders.insert id (change forwarder) }

/-- A draining forwarder takes no new subscriber. -/
def addSubscriber (w : MoqxRelay) (id : ForwarderId) (session : SessionId)
    (subscriber : ForwarderSubscriber) : MoqxRelay × Bool :=
  match w.forwarders.lookup id with
  | none => (w, false)
  | some forwarder =>
    if forwarder.draining then (w, false)
    else
      (w.setForwarder id fun forwarder =>
        { forwarder with subscribers := forwarder.subscribers.insert session subscriber }, true)

def removeSubscriber (w : MoqxRelay) (id : ForwarderId) (session : SessionId) : MoqxRelay :=
  w.setForwarder id fun forwarder =>
    { forwarder with subscribers := forwarder.subscribers.erase session }

/-- `forwarder->publishDone`: the subscribers leave as they drain. -/
def drain (w : MoqxRelay) (id : ForwarderId) : MoqxRelay :=
  w.setForwarder id fun forwarder => { forwarder with draining := true }

/-- Start a `publishToSession` coroutine on the executor of a session. -/
def publishToSession (w : MoqxRelay) (session : SessionId) (forwarder : ForwarderId)
    (forward trackFilterSubscriber : Bool) : MoqxRelay :=
  { w with
    publishTasks := w.publishTasks.insert w.nextId
      ⟨session, forwarder, forward, trackFilterSubscriber, false⟩
    nextId := w.nextId + 1 }

/-- Start a `publishNamespaceToSession` coroutine on the executor of a session. -/
def publishNamespaceToSession (w : MoqxRelay) (session : SessionId) (path : Path) : MoqxRelay :=
  match w.tree.lookup path with
  | none => w
  | some node =>
    { w with
      publishNamespaceTasks := w.publishNamespaceTasks.insert w.nextId ⟨session, path, node.id⟩
      nextId := w.nextId + 1 }

def onTrackSelected (w : MoqxRelay) (ftn : FullTrackName) (session : SessionId) (forward : Bool) :
    MoqxRelay :=
  if session ∈ w.closed then w
  else
    match w.registry.getForwarder ftn with
    | none => w
    | some forwarder => w.publishToSession session forwarder forward true

def onTrackEvicted (w : MoqxRelay) (ftn : FullTrackName) (session : SessionId) : MoqxRelay :=
  if session ∈ w.closed then w
  else
    match w.registry.getForwarder ftn with
    | none => w
    | some id =>
      match (w.forwarders.lookup id).bind fun forwarder => forwarder.subscribers.lookup session with
      | none => w
      | some subscriber => if subscriber.pinned then w else w.removeSubscriber id session

/-- The callbacks that every ranking is given. -/
def onCallback (w : MoqxRelay) : Callback → MoqxRelay
  | .onSelected ftn session forward => w.onTrackSelected ftn session forward
  | .onBatchSelected ftn sessions => sessions.foldl (fun w s => w.onTrackSelected ftn s.1 s.2) w
  | .onEvicted ftn session => w.onTrackEvicted ftn session

/-- Call a ranking, and let its callbacks act. -/
def callRanking (w : MoqxRelay) (id : RankingId) (op : PropertyRanking.Op) : MoqxRelay :=
  match w.rankings.lookup id with
  | none => w
  | some ranking =>
    (ranking.step op).2.foldl (fun w callback => w.onCallback callback.2)
      { w with rankings := w.rankings.insert id (ranking.step op).1 }

/-- What a ranking reads when it sweeps: the clock and `lastObjectTime` of the entries. -/
def activity (w : MoqxRelay) : Activity where
  now := w.now
  lastActivity ftn := ((w.registry.getTopNView ftn).map fun view => view.lastObjectTime).getD 0

def setFilter (w : MoqxRelay) (id : FilterId) (change : TopNFilter → TopNFilter) : MoqxRelay :=
  match w.filters.lookup id with
  | none => w
  | some filter => { w with filters := w.filters.insert id (change filter) }

/-- `TopNFilter::registerObserver`: one observer per property type, the last one registered. -/
def registerObserver (w : MoqxRelay) (id : FilterId) (propertyType : Nat) (ranking : RankingId) :
    MoqxRelay :=
  w.setFilter id fun filter =>
    { filter with observers := filter.observers.insert propertyType ⟨none, ranking⟩ }

end MoqxRelay

end Moqx
