import Moqx.Relay.Registry

/-! `NamespaceTree`: who publishes and who subscribes to which namespace. A node that is in the
tree is found under its path, the names from the node up to the root, so that the parent of
`name :: path` is `path`. Hash maps are association lists, walked in list order. -/
namespace Moqx

open Maps

abbrev TrackNamespace := List String
abbrev Path := List String
abbrev RankingId := Nat
abbrev CallbackId := Nat

inductive SubscribeNamespaceOptions where
  | publish
  | namespace
  | both
deriving DecidableEq, Repr

structure TrackFilter where
  propertyType : Nat
  maxSelected : Nat
deriving DecidableEq, Repr

/-- `namespacePublishHandle` carries NAMESPACE and NAMESPACE_DONE; sessions of draft 15 and before
have none. -/
structure NamespaceSubscriberInfo where
  forward : Bool
  options : SubscribeNamespaceOptions
  namespacePublishHandle : Option HandleId
  trackNamespacePrefix : TrackNamespace
  trackFilter : Option TrackFilter
deriving DecidableEq, Repr

structure NamespaceNode where
  id : Nat
  activeChildCount : Nat := 0
  publisherSession : Option SessionId := none
  publisherPeerID : String := ""
  publishes : AList (fun _ : String => SessionId) := ∅
  subscribers : AList (fun _ : SessionId => NamespaceSubscriberInfo) := ∅
  publishNamespaceCallback : Option CallbackId := none
  rankings : AList (fun _ : Nat => RankingId) := ∅
  draft14PubNsHandles : AList (fun _ : SessionId => HandleId) := ∅

namespace NamespaceNode

def hasContent (node : NamespaceNode) : Bool :=
  !node.publishes.keys.isEmpty || !node.subscribers.keys.isEmpty ||
    !node.draft14PubNsHandles.keys.isEmpty || node.publisherSession.isSome

def shouldKeep (node : NamespaceNode) : Bool := node.hasContent || 0 < node.activeChildCount

end NamespaceNode

/-- The tree starts with its root, which has the empty path. -/
structure NamespaceTree where
  nodes : AList (fun _ : Path => NamespaceNode) := AList.singleton [] { id := 0 }
  nextNode : Nat := 1

abbrev SessionSubscriberList := List (SessionId × NamespaceSubscriberInfo)

namespace NamespaceTree

inductive MatchType where
  | exact
  | longest
deriving DecidableEq, Repr

/-- The errors that callers ignore. -/
inductive TreeError where
  | nodeNotFound
  | notOwner
  | notSubscribed
deriving DecidableEq, Repr

def lookup (t : NamespaceTree) (path : Path) : Option NamespaceNode := t.nodes.lookup path

def setNode (t : NamespaceTree) (path : Path) (node : NamespaceNode) : NamespaceTree :=
  { t with nodes := t.nodes.insert path node }

def addNode (t : NamespaceTree) (path : Path) : NamespaceTree :=
  { nodes := t.nodes.insert path { id := t.nextNode }, nextNode := t.nextNode + 1 }

def subscribersAt (t : NamespaceTree) (path : Path) : SessionSubscriberList :=
  (t.lookup path).elim [] fun node => node.subscribers.entries.map fun e => (e.1, e.2)

/-- The loop of `findNode`, at the node under `path` with the rest of the namespace to go: the
tree with the nodes it created, the node it found, and the subscribers of the nodes it left. -/
def walk (createMissingNodes : Bool) (matchType : MatchType) : NamespaceTree → Path →
    TrackNamespace → NamespaceTree × Option Path × SessionSubscriberList
  | t, path, [] => (t, some path, [])
  | t, path, name :: rest =>
    let subscribers := t.subscribersAt path
    if (t.lookup (name :: path)).isSome then
      let (t, found, more) := walk createMissingNodes matchType t (name :: path) rest
      (t, found, subscribers ++ more)
    else if createMissingNodes then
      let (t, found, more) :=
        walk createMissingNodes matchType (t.addNode (name :: path)) (name :: path) rest
      (t, found, subscribers ++ more)
    else if matchType = .longest ∧ path ≠ [] then (t, some path, subscribers)
    else (t, none, subscribers)

def findNode (t : NamespaceTree) (ns : TrackNamespace) (createMissingNodes : Bool)
    (matchType : MatchType) : NamespaceTree × Option Path × SessionSubscriberList :=
  walk createMissingNodes matchType t [] ns

/-- The node of a namespace, if there is one. -/
def findExact (t : NamespaceTree) (ns : TrackNamespace) : Option Path :=
  (t.findNode ns false .exact).2.1

def findPublisherSession (t : NamespaceTree) (ns : TrackNamespace) : Option SessionId := do
  let path ← (t.findNode ns false .longest).2.1
  (← t.lookup path).publisherSession

/-- Count one more active child of the node under `path`. A node that was not counted before is
counted by its parent. -/
def incrementActiveChildren (t : NamespaceTree) (path : Path) : NamespaceTree :=
  match t.lookup path with
  | none => t
  | some node =>
    let node := { node with activeChildCount := node.activeChildCount + 1 }
    let t := t.setNode path node
    match path with
    | [] => t
    | _ :: parent =>
      if node.activeChildCount = 1 ∧ !node.hasContent then t.incrementActiveChildren parent else t

/-- Erase a child with everything below it. -/
def eraseSubtree (t : NamespaceTree) (path : Path) : NamespaceTree :=
  { t with nodes := keep (fun p _ => !(path.isSuffixOf p)) t.nodes }

/-- The loop of `tryPruneChild`: walk up from `current`, the parent of the node to remove. -/
def pruneFrom (t : NamespaceTree) (nodeToRemove current : Path) : Except Fault NamespaceTree :=
  match t.lookup current with
  | none => .error .nullDeref
  | some node =>
    if node.activeChildCount = 0 then .error .check
    else
      let node := { node with activeChildCount := node.activeChildCount - 1 }
      let t := t.setNode current node
      if node.shouldKeep then .ok (t.eraseSubtree nodeToRemove)
      else
        match current with
        | [] => .ok (t.eraseSubtree nodeToRemove)
        | name :: parent => t.pruneFrom (name :: parent) parent

def tryPruneChild (t : NamespaceTree) (parent : Path) (childKey : String) :
    Except Fault NamespaceTree :=
  match t.lookup (childKey :: parent) with
  | none => .ok t
  | some child => if child.shouldKeep then .ok t else t.pruneFrom (childKey :: parent) parent

def notifyParentIfFirstContent (t : NamespaceTree) (path : Path) (node : NamespaceNode)
    (wasEmpty : Bool) : NamespaceTree :=
  if wasEmpty && node.hasContent then
    match path with
    | [] => t
    | _ :: parent => t.incrementActiveChildren parent
  else t

def tryPruneSelf (t : NamespaceTree) (path : Path) (node : NamespaceNode) (hadContent : Bool) :
    Except Fault NamespaceTree :=
  if hadContent && !node.shouldKeep then
    match path with
    | [] => .ok t
    | childKey :: parent => t.tryPruneChild parent childKey
  else .ok t

/-- A change of a node under a `NodeMutationGuard`. -/
def mutate (t : NamespaceTree) (path : Path) (change : NamespaceNode → NamespaceNode) :
    Except Fault NamespaceTree :=
  match t.lookup path with
  | none => .error .nullDeref
  | some node =>
    let hadContent := node.hasContent
    let node := change node
    let t := (t.setNode path node).notifyParentIfFirstContent path node !hadContent
    t.tryPruneSelf path node hadContent

structure SetPublisherResult where
  node : Path
  subscribers : SessionSubscriberList
  replacedSession : Option SessionId
  cancelled : Option CallbackId
deriving DecidableEq, Repr

/-- Make a session the publisher of a namespace. The old publisher goes before the guard is set
up. -/
def setPublisher (t : NamespaceTree) (ns : TrackNamespace) (session : SessionId)
    (callback : Option CallbackId) (peerID : String) :
    Except Fault (NamespaceTree × SetPublisherResult) := do
  let (t, _, above) := t.findNode ns true .exact
  let path := ns.reverse
  match t.lookup path with
  | none => .error .nullDeref
  | some node =>
    let replacedSession := node.publisherSession
    let cancelled := if replacedSession.isSome then node.publishNamespaceCallback else none
    let t := t.setNode path { node with publisherSession := none }
    let t ← t.mutate path fun node =>
      { node with
        publisherSession := some session
        publisherPeerID := peerID
        publishNamespaceCallback := callback }
    return (t, ⟨path, above ++ node.subscribers.entries.map fun e => (e.1, e.2), replacedSession,
      cancelled⟩)

structure UnpublishNamespaceResult where
  subscribers : SessionSubscriberList
  legacyHandles : List (SessionId × HandleId)
deriving DecidableEq, Repr

def unpublishNamespace (t : NamespaceTree) (ns : TrackNamespace) (session : SessionId) :
    Except Fault (NamespaceTree × Except TreeError UnpublishNamespaceResult) :=
  match t.findExact ns with
  | none => .ok (t, .error .nodeNotFound)
  | some path =>
    match t.lookup path with
    | none => .error .nullDeref
    | some node =>
      if node.publisherSession ≠ some session then .ok (t, .error .notOwner)
      else do
        let above := (t.findNode ns false .exact).2.2
        let result : UnpublishNamespaceResult :=
          { subscribers := above ++ node.subscribers.entries.map fun e => (e.1, e.2)
            legacyHandles := node.draft14PubNsHandles.entries.map fun e => (e.1, e.2) }
        let t ← t.mutate path fun node =>
          { node with
            publisherSession := none
            publisherPeerID := ""
            publishNamespaceCallback := none
            draft14PubNsHandles := ∅ }
        return (t, .ok result)

def unpublishTrack (t : NamespaceTree) (ns : TrackNamespace) (trackName : String) :
    Except Fault NamespaceTree :=
  match t.findExact ns with
  | none => .ok t
  | some path => t.mutate path fun node =>
      { node with publishes := node.publishes.erase trackName }

/-- The rankings of a node and of all nodes above it. -/
def rankingsFrom (t : NamespaceTree) (path : Path) : List (Nat × RankingId) :=
  ((t.lookup path).elim [] fun node => node.rankings.entries.map fun e => (e.1, e.2)) ++
    match path with
    | [] => []
    | _ :: parent => t.rankingsFrom parent

structure AddPublishResult where
  node : Path
  subscribers : SessionSubscriberList
  rankings : List (Nat × RankingId)
deriving DecidableEq, Repr

/-- Record a published track; answers with the rankings to tell. -/
def addPublish (t : NamespaceTree) (ftn : FullTrackName) (session : SessionId) :
    Except Fault (NamespaceTree × AddPublishResult) := do
  let (t, _, above) := t.findNode ftn.trackNamespace true .exact
  let path := ftn.trackNamespace.reverse
  let subscribers := above ++ t.subscribersAt path
  let t ← t.mutate path fun node =>
    { node with publishes := node.publishes.insert ftn.trackName session }
  return (t, ⟨path, subscribers, t.rankingsFrom path⟩)

/-- The ranking of a property type at a node. -/
def ranking (t : NamespaceTree) (path : Path) (propertyType : Nat) : Option RankingId :=
  (t.lookup path).bind fun node => node.rankings.lookup propertyType

/-- Fill the slot of `getOrInsertRanking`. -/
def insertRanking (t : NamespaceTree) (path : Path) (propertyType : Nat) (id : RankingId) :
    NamespaceTree :=
  match t.lookup path with
  | none => t
  | some node => t.setNode path { node with rankings := node.rankings.insert propertyType id }

/-- `emplace` keeps the record of a session that is subscribed already. -/
def addNamespaceSubscriber (t : NamespaceTree) (ns : TrackNamespace) (session : SessionId)
    (info : NamespaceSubscriberInfo) : Except Fault NamespaceTree :=
  let (t, _, _) := t.findNode ns true .exact
  t.mutate ns.reverse fun node =>
    if (node.subscribers.lookup session).isSome then node
    else { node with subscribers := node.subscribers.insert session info }

/-- Remove the record of a session; answers with the group of the ranking that the session must
leave. -/
def removeNamespaceSubscriber (t : NamespaceTree) (ns : TrackNamespace) (session : SessionId) :
    Except Fault (NamespaceTree × Except TreeError (Option (RankingId × Nat))) :=
  match t.findExact ns with
  | none => .ok (t, .error .nodeNotFound)
  | some path =>
    match t.lookup path with
    | none => .error .nullDeref
    | some node =>
      match node.subscribers.lookup session with
      | none => .ok (t, .error .notSubscribed)
      | some info => do
        let left := info.trackFilter.bind fun filter =>
          (node.rankings.lookup filter.propertyType).map fun id => (id, filter.maxSelected)
        let t ← t.mutate path fun node =>
          { node with subscribers := node.subscribers.erase session }
        return (t, .ok left)

/-- A handle of a PUBLISH_NAMESPACE sent to a session of draft 15 and before. A node that has left
the tree gets it too, but nobody looks at it any more. -/
def addDraft14PublishNamespaceHandle (t : NamespaceTree) (path : Path) (id : Nat)
    (session : SessionId) (handle : HandleId) : NamespaceTree :=
  match t.lookup path with
  | none => t
  | some node =>
    if node.id = id ∧ (node.draft14PubNsHandles.lookup session).isNone then
      t.setNode path
        { node with draft14PubNsHandles := node.draft14PubNsHandles.insert session handle }
    else t

/-- The children of a node. -/
def children (t : NamespaceTree) (path : Path) : List Path :=
  t.nodes.keys.filter fun p => p ≠ [] ∧ p.tail = path

/-- The queue of `forEachNodeInSubtree`, level by level. -/
def levels (t : NamespaceTree) : Nat → List Path → List Path
  | 0, _ => []
  | depth + 1, level => level ++ t.levels depth (level.flatMap t.children)

/-- The nodes of a subtree, in the order of `forEachNodeInSubtree`. -/
def subtree (t : NamespaceTree) (path : Path) : List Path :=
  t.levels ((t.nodes.keys.map List.length).foldr max 0 + 1) [path]

end NamespaceTree

end Moqx
