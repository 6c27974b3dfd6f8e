import Moqx.Relay.MoqxRelay
import Moqx.Relay.TreeOps

/-! What a step of the relay can do to the registry, to the namespace tree and to what is sent. -/
namespace Moqx

open Maps SubscriptionRegistry

namespace MoqxRelay

variable {w w' w'' : MoqxRelay}

/-- What calls of rankings, work on filters and forwarders and messages leave alone. -/
structure Quiet (w w' : MoqxRelay) : Prop where
  registry : w'.registry = w.registry
  tree : w'.tree = w.tree
  firstSubscribes : w'.firstSubscribes = w.firstSubscribes
  observed : w'.observed = w.observed
  nextId : w.nextId ≤ w'.nextId

theorem Quiet.refl (w : MoqxRelay) : w.Quiet w :=
  ⟨rfl, rfl, rfl, rfl, Nat.le_refl _⟩

theorem Quiet.trans (h : w.Quiet w') (h' : w'.Quiet w'') : w.Quiet w'' :=
  ⟨h'.registry.trans h.registry, h'.tree.trans h.tree,
    h'.firstSubscribes.trans h.firstSubscribes, h'.observed.trans h.observed,
    Nat.le_trans h.nextId h'.nextId⟩

theorem quiet_foldl {α : Type} {f : MoqxRelay → α → MoqxRelay}
    (hf : ∀ (w : MoqxRelay) a, w.Quiet (f w a))
    (l : List α) (w : MoqxRelay) : w.Quiet (l.foldl f w) := by
  induction l generalizing w with
  | nil => exact .refl w
  | cons a l ih => exact (hf w a).trans (ih (f w a))

theorem setForwarder_eq (id : ForwarderId) (change : MoQForwarder → MoQForwarder) :
    w.setForwarder id change = { w with forwarders := (w.setForwarder id change).forwarders } := by
  unfold setForwarder
  split <;> rfl

theorem quiet_setForwarder (id : ForwarderId) (change : MoQForwarder → MoQForwarder) :
    w.Quiet (w.setForwarder id change) := by
  rw [setForwarder_eq]
  exact ⟨rfl, rfl, rfl, rfl, Nat.le_refl _⟩

@[simp] theorem filters_setForwarder (id : ForwarderId) (change : MoQForwarder → MoQForwarder) :
    (w.setForwarder id change).filters = w.filters := by
  rw [setForwarder_eq]

@[simp] theorem rankings_setForwarder (id : ForwarderId) (change : MoQForwarder → MoQForwarder) :
    (w.setForwarder id change).rankings = w.rankings := by
  rw [setForwarder_eq]

/-- Only messages are sent and coroutines started. -/
structure Announces (w w' : MoqxRelay) : Prop extends w.Quiet w' where
  rankings : w'.rankings = w.rankings
  filters : w'.filters = w.filters
  forwarders : w'.forwarders = w.forwarders

theorem Announces.refl (w : MoqxRelay) : w.Announces w := ⟨.refl w, rfl, rfl, rfl⟩

theorem Announces.trans (h : w.Announces w') (h' : w'.Announces w'') : w.Announces w'' :=
  ⟨h.toQuiet.trans h'.toQuiet, h'.rankings.trans h.rankings, h'.filters.trans h.filters,
    h'.forwarders.trans h.forwarders⟩

theorem announces_send (output : Output) : w.Announces (w.send output) :=
  ⟨⟨rfl, rfl, rfl, rfl, Nat.le_refl _⟩, rfl, rfl, rfl⟩

theorem announces_publishNamespaceToSession (session : SessionId) (path : Path) :
    w.Announces (w.publishNamespaceToSession session path) := by
  unfold publishNamespaceToSession
  split
  · exact .refl w
  · exact ⟨⟨rfl, rfl, rfl, rfl, Nat.le_succ _⟩, rfl, rfl, rfl⟩

theorem announces_publishToSession (session : SessionId) (forwarder : ForwarderId)
    (forward trackFilterSubscriber : Bool) :
    w.Announces (w.publishToSession session forwarder forward trackFilterSubscriber) :=
  ⟨⟨rfl, rfl, rfl, rfl, Nat.le_succ _⟩, rfl, rfl, rfl⟩

theorem announces_foldl {α : Type} {f : MoqxRelay → α → MoqxRelay}
    (hf : ∀ (w : MoqxRelay) a, w.Announces (f w a)) (l : List α) (w : MoqxRelay) :
    w.Announces (l.foldl f w) := by
  induction l generalizing w with
  | nil => exact .refl w
  | cons a l ih => exact (hf w a).trans (ih (f w a))

/-- Forwarders keep what they were made with. -/
def SameExtensions (w w' : MoqxRelay) : Prop :=
  ∀ id, (w'.forwarders.lookup id).map (fun forwarder => forwarder.extensions) =
    (w.forwarders.lookup id).map fun forwarder => forwarder.extensions

theorem SameExtensions.of_eq (h : w'.forwarders = w.forwarders) : w.SameExtensions w' :=
  fun _ => by rw [h]

theorem SameExtensions.trans (h : w.SameExtensions w') (h' : w'.SameExtensions w'') :
    w.SameExtensions w'' :=
  fun id => (h' id).trans (h id)

theorem sameExtensions_setForwarder {id : ForwarderId} {change : MoQForwarder → MoQForwarder}
    (h : ∀ forwarder, (change forwarder).extensions = forwarder.extensions) :
    w.SameExtensions (w.setForwarder id change) := by
  intro id'
  unfold setForwarder
  split
  · rfl
  · next forwarder hid =>
    by_cases hsame : id' = id
    · subst hsame
      simp [hid, h]
    · simp [AList.lookup_insert_ne hsame]

/-- What work on the subscribers of forwarders leaves alone. -/
structure Attends (w w' : MoqxRelay) : Prop extends w.Quiet w' where
  rankings : w'.rankings = w.rankings
  filters : w'.filters = w.filters
  extensions : w.SameExtensions w'

theorem Announces.attends (h : w.Announces w') : w.Attends w' :=
  ⟨h.toQuiet, h.rankings, h.filters, .of_eq h.forwarders⟩

theorem Attends.refl (w : MoqxRelay) : w.Attends w := (Announces.refl w).attends

theorem Attends.trans (h : w.Attends w') (h' : w'.Attends w'') : w.Attends w'' :=
  ⟨h.toQuiet.trans h'.toQuiet, h'.rankings.trans h.rankings, h'.filters.trans h.filters,
    h.extensions.trans h'.extensions⟩

theorem attends_foldl {α : Type} {f : MoqxRelay → α → MoqxRelay}
    (hf : ∀ (w : MoqxRelay) a, w.Attends (f w a)) (l : List α) (w : MoqxRelay) :
    w.Attends (l.foldl f w) := by
  induction l generalizing w with
  | nil => exact .refl w
  | cons a l ih => exact (hf w a).trans (ih (f w a))

theorem attends_setForwarder {id : ForwarderId} {change : MoQForwarder → MoQForwarder}
    (h : ∀ forwarder, (change forwarder).extensions = forwarder.extensions) :
    w.Attends (w.setForwarder id change) :=
  ⟨quiet_setForwarder _ _, rankings_setForwarder _ _, filters_setForwarder _ _,
    sameExtensions_setForwarder h⟩

theorem attends_onTrackSelected (ftn : FullTrackName) (session : SessionId) (forward : Bool) :
    w.Attends (w.onTrackSelected ftn session forward) := by
  unfold onTrackSelected
  split
  · exact .refl w
  · split
    · exact .refl w
    · exact (announces_publishToSession _ _ _ _).attends

theorem attends_onTrackEvicted (ftn : FullTrackName) (session : SessionId) :
    w.Attends (w.onTrackEvicted ftn session) := by
  unfold onTrackEvicted
  split
  · exact .refl w
  · split
    · exact .refl w
    · split
      · exact .refl w
      · split
        · exact .refl w
        · exact attends_setForwarder fun _ => rfl

/-- The callbacks of a ranking neither call a ranking nor touch a chain. -/
theorem attends_onCallback (callback : Callback) : w.Attends (w.onCallback callback) := by
  cases callback with
  | onSelected ftn session forward => exact attends_onTrackSelected _ _ _
  | onBatchSelected ftn sessions =>
    exact attends_foldl (fun w s => attends_onTrackSelected _ _ _) _ _
  | onEvicted ftn session => exact attends_onTrackEvicted _ _

theorem callRanking_spec (id : RankingId) (op : PropertyRanking.Op) :
    ∃ rankings : AList fun _ : RankingId => PropertyRanking,
      (∀ id', rankings.lookup id' =
        if id' = id then (w.rankings.lookup id).map fun ranking => (ranking.step op).1
        else w.rankings.lookup id') ∧
      ({ w with rankings := rankings } : MoqxRelay).Attends (w.callRanking id op) := by
  unfold callRanking
  split
  · next hnone =>
    refine ⟨w.rankings, fun id' => ?_, .refl w⟩
    split
    · next h => rw [h, hnone, Option.map_none]
    · rfl
  · next ranking hsome =>
    refine ⟨w.rankings.insert id (ranking.step op).1, fun id' => ?_,
      attends_foldl (fun w callback => attends_onCallback _) _ _⟩
    split
    · next h => rw [h, AList.lookup_insert, hsome, Option.map_some]
    · next h => exact AList.lookup_insert_ne h

theorem quiet_callRanking (id : RankingId) (op : PropertyRanking.Op) :
    w.Quiet (w.callRanking id op) := by
  obtain ⟨_, -, h⟩ := callRanking_spec (w := w) id op
  exact ⟨h.registry, h.tree, h.firstSubscribes, h.observed, h.nextId⟩

@[simp] theorem filters_callRanking (id : RankingId) (op : PropertyRanking.Op) :
    (w.callRanking id op).filters = w.filters := by
  obtain ⟨_, -, h⟩ := callRanking_spec (w := w) id op
  exact h.filters

@[simp] theorem lookup_rankings_callRanking (id : RankingId) (op : PropertyRanking.Op)
    (id' : RankingId) :
    (w.callRanking id op).rankings.lookup id' =
      if id' = id then (w.rankings.lookup id).map fun ranking => (ranking.step op).1
      else w.rankings.lookup id' := by
  obtain ⟨_, hlookup, h⟩ := callRanking_spec (w := w) id op
  rw [h.rankings, ← hlookup]

theorem sameExtensions_callRanking (id : RankingId) (op : PropertyRanking.Op) :
    w.SameExtensions (w.callRanking id op) := by
  obtain ⟨_, -, h⟩ := callRanking_spec (w := w) id op
  exact h.extensions

theorem quiet_setFilter (id : FilterId) (change : TopNFilter → TopNFilter) :
    w.Quiet (w.setFilter id change) := by
  unfold setFilter
  split
  · exact .refl w
  · exact ⟨rfl, rfl, rfl, rfl, Nat.le_refl _⟩

theorem quiet_enterRanking (ftn : FullTrackName) (session : SessionId)
    (extensions : IntExtensions) (filter : FilterId) (ranking : Nat × RankingId) :
    w.Quiet (enterRanking ftn session extensions filter w ranking) :=
  (quiet_callRanking _ _).trans (quiet_setFilter _ _)

theorem quiet_observeRetro (ns : TrackNamespace) (propertyType : Nat) (ranking : RankingId)
    (publish : String × SessionId) : w.Quiet (observeRetro ns propertyType ranking w publish) := by
  unfold observeRetro
  split
  · exact .refl w
  · exact quiet_setFilter _ _

theorem quiet_registerRetro (propertyType : Nat) (ranking : RankingId) (path : Path) :
    w.Quiet (registerRetro propertyType ranking w path) := by
  unfold registerRetro
  split
  · exact .refl w
  · exact (quiet_foldl (fun w publish => quiet_observeRetro _ _ _ _) _ _).trans
      (quiet_foldl (fun w track => quiet_callRanking _ _) _ _)

theorem announces_announceTo (session : SessionId) (ns : TrackNamespace)
    (subscriber : SessionId × NamespaceSubscriberInfo) :
    w.Announces (announceTo session ns w subscriber) := by
  unfold announceTo
  split
  · split
    · exact announces_send _
    · exact announces_publishNamespaceToSession _ _
  · exact .refl w

theorem announces_announceDoneTo (session : SessionId) (ns : TrackNamespace)
    (subscriber : SessionId × NamespaceSubscriberInfo) :
    w.Announces (announceDoneTo session ns w subscriber) := by
  unfold announceDoneTo
  split
  · split
    · exact announces_send _
    · exact .refl w
  · exact .refl w

theorem attends_addSubscriber (id : ForwarderId) (session : SessionId)
    (subscriber : ForwarderSubscriber) : w.Attends (w.addSubscriber id session subscriber).1 := by
  unfold addSubscriber
  split
  · exact .refl w
  · split
    · exact .refl w
    · exact attends_setForwarder fun _ => rfl

theorem attends_removeSubscriber (id : ForwarderId) (session : SessionId) :
    w.Attends (w.removeSubscriber id session) :=
  attends_setForwarder fun _ => rfl

/-- The registry without the entries of a publisher that was replaced. -/
def withoutReplaced (r : SubscriptionRegistry) (ns : TrackNamespace)
    (replacedSession : Option SessionId) : SubscriptionRegistry :=
  replacedSession.elim r fun replacedSession => r.removeIf fun ftn rsub =>
    ns.isPrefixOf ftn.trackNamespace && rsub.upstream = some replacedSession

variable {session : SessionId} {ftn : FullTrackName} {extensions : IntExtensions}
  {handle : HandleId} {requestID : RequestID} {subNs : SubscribeNamespace}

/-- A PUBLISH_NAMESPACE that is not refused. -/
theorem doPublishNamespace_spec {ns : TrackNamespace} {callback : Option CallbackId}
    {peerID : String} (h : w.doPublishNamespace ns session callback peerID = .ok w') :
    w' = w ∨ ∃ tree result, w.tree.setPublisher ns session callback peerID = .ok (tree, result) ∧
      ({ w with
        tree := tree
        registry := withoutReplaced w.registry ns result.replacedSession } : MoqxRelay).Announces
          w' := by
  unfold doPublishNamespace at h
  split at h
  · cases h
    exact .inl rfl
  · obtain ⟨⟨tree, result⟩, hset, h⟩ := bind_ok h
    cases h
    refine .inr ⟨tree, result, hset, ?_⟩
    refine Announces.trans ?_ (announces_foldl (fun w x => announces_announceTo _ _ _) _ _)
    cases result.cancelled <;> cases result.replacedSession <;>
      exact ⟨⟨rfl, rfl, rfl, rfl, Nat.le_refl _⟩, rfl, rfl, rfl⟩

theorem doPublishNamespaceDone_spec {ns : TrackNamespace} (hw : w.tree.WF)
    (h : w.doPublishNamespaceDone ns session = .ok w') :
    w' = w ∨ ∃ tree, w.tree.Edits tree ns.reverse { w.tree.record ns.reverse with
        publisher := none, draft14PubNsHandles := ∅ } ∧
      ({ w with tree := tree } : MoqxRelay).Announces w' := by
  obtain ⟨⟨tree, result⟩, hunpublish, h⟩ := bind_ok h
  rcases NamespaceTree.unpublishNamespace_edits hw hunpublish with
    ⟨-, -, error, rfl⟩ | ⟨-, hedits, found, rfl, -⟩
  · cases h
    exact .inl rfl
  · cases h
    exact .inr ⟨tree, hedits, (announces_foldl (fun w e => announces_send _) _ _).trans
      (announces_foldl (fun w x => announces_announceDoneTo _ _ _) _ _)⟩

theorem onPublishDone_spec (h : w.onPublishDone ftn = .ok w') :
    ∃ tree, (if (w.registry.find ftn).any fun rsub => rsub.isPublish then
        w.tree.unpublishTrack ftn.trackNamespace ftn.trackName
      else .ok w.tree) = .ok tree ∧
      w' = { w with
        tree := tree
        registry := (w.registry.onPublisherTerminated ftn w.forwarderEmpty).1 } := by
  obtain ⟨tree, htree, h⟩ := bind_ok h
  cases h
  refine ⟨tree, ?_, rfl⟩
  have hview : (w.registry.getUpstreamView ftn).any (fun view => view.isPublish) =
      (w.registry.find ftn).any fun rsub => rsub.isPublish := by
    cases hfind : w.registry.find ftn <;> simp [getUpstreamView, hfind]
  rw [← hview]
  exact htree

/-- The state after `addPublisher`. -/
def withPublisher (w : MoqxRelay) (session : SessionId) (ftn : FullTrackName)
    (requestID : RequestID) (handle : HandleId) (extensions : IntExtensions) : MoqxRelay :=
  { w with
    forwarders := w.forwarders.insert w.nextId { fullTrackName := ftn, extensions := extensions }
    filters := w.filters.insert (w.nextId + 1)
      { ftn := ftn
        activityTarget := some w.registry.nextEntry
        activityThreshold := w.config.activityThreshold
        publisherSession := some session
        forwarder := w.nextId }
    registry := { (w.registry.remove ftn).emplace ftn (publishEntry w.nextId
        session requestID handle (w.nextId + 1) w.now) with
      promises := ((w.registry.remove ftn).promises.insert w.registry.nextEntry .pending).insert
        w.registry.nextEntry .value }
    nextId := w.nextId + 2 }

theorem addPublisher_eq (session : SessionId) (ftn : FullTrackName) (requestID : RequestID)
    (handle : HandleId) (extensions : IntExtensions) :
    w.addPublisher session ftn requestID handle extensions =
      .ok (w.withPublisher session ftn requestID handle extensions,
        (w.registry.find ftn).map fun rsub => ⟨rsub.forwarder, rsub.handle⟩) := by
  have hentry := nextEntry_remove w.registry ftn
  unfold addPublisher
  simp only [makeForwarder, buildFilterChain, createFromPublish_eq]
  change Except.ok _ = _
  congr 2
  simp only [setFilter, AList.lookup_insert, AList.insert_insert, withPublisher, hentry]
  rw [show find _ ftn = some (publishEntry w.nextId
    session requestID handle (w.nextId + 1) w.now w.registry.nextEntry) from ?_]
  · rfl
  · change AList.lookup ftn (AList.insert ftn _ _) = _
    rw [AList.lookup_insert, hentry]

theorem endEvicted_attends (evicted : Option Evicted) : w.Attends (w.endEvicted evicted) := by
  unfold endEvicted
  cases evicted with
  | none => exact .refl w
  | some evicted =>
    rw [Option.elim_some]
    cases evicted.handle with
    | none => exact .refl w
    | some handle => exact (announces_send _).attends.trans (attends_setForwarder fun _ => rfl)

/-- The relay when a new publisher has been recorded in the tree. -/
def recorded (w : MoqxRelay) (session : SessionId) (ftn : FullTrackName) (requestID : RequestID)
    (handle : HandleId) (extensions : IntExtensions) (tree : NamespaceTree) : MoqxRelay :=
  { (w.withPublisher session ftn requestID handle extensions).endEvicted
      ((w.registry.find ftn).map fun rsub => ⟨rsub.forwarder, rsub.handle⟩) with tree := tree }

theorem recorded_keeps (session : SessionId) (ftn : FullTrackName) (requestID : RequestID)
    (handle : HandleId) (extensions : IntExtensions) (tree : NamespaceTree) :
    ({ w.withPublisher session ftn requestID handle extensions with tree := tree } :
      MoqxRelay).Quiet (w.recorded session ftn requestID handle extensions tree) := by
  have h := (endEvicted_attends (w := w.withPublisher session ftn requestID handle extensions)
    ((w.registry.find ftn).map fun rsub => ⟨rsub.forwarder, rsub.handle⟩))
  exact ⟨h.registry, rfl, h.firstSubscribes, h.observed, h.nextId⟩

/-- Pass a PUBLISH on to the subscribers without a filter. -/
def passOn (session : SessionId) (forwarder : ForwarderId) (subscribers : SessionSubscriberList)
    (w : MoqxRelay) : MoqxRelay :=
  subscribers.foldl (fun w subscriber =>
    if takesPublish session subscriber then
      w.publishToSession subscriber.1 forwarder subscriber.2.forward false
    else w) w

theorem announces_passOn (session : SessionId) (forwarder : ForwarderId)
    (subscribers : SessionSubscriberList) :
    w.Announces (passOn session forwarder subscribers w) := by
  refine announces_foldl (fun w subscriber => ?_) _ _
  split
  · exact announces_publishToSession _ _ _ _
  · exact .refl w

/-- A PUBLISH that is not refused. -/
theorem publish_accepted
    (hallowed : w.config.allowedNamespacePrefix.isPrefixOf ftn.trackNamespace = true)
    (hns : ftn.trackNamespace ≠ [])
    (h : w.publish session ftn requestID handle extensions = .ok w') :
    ∃ tree added forward, w.tree.addPublish ftn session = .ok (tree, added) ∧
      w' = (passOn session w.nextId added.subscribers
        (added.rankings.foldl (enterRanking ftn session extensions (w.nextId + 1))
          (w.recorded session ftn requestID handle extensions tree))).send
        (.publishOk session ftn forward) := by
  rw [publish, hallowed, Bool.not_true, if_neg Bool.false_ne_true, if_neg hns,
    addPublisher_eq] at h
  change (NamespaceTree.addPublish _ ftn session >>= _) = _ at h
  have htree := (endEvicted_attends (w := w.withPublisher session ftn requestID handle extensions)
    ((w.registry.find ftn).map fun rsub => ⟨rsub.forwarder, rsub.handle⟩)).tree
  rw [htree] at h
  obtain ⟨⟨tree, added⟩, hadd, h⟩ := bind_ok h
  cases h
  exact ⟨tree, added, _, hadd, rfl⟩

theorem publish_spec (h : w.publish session ftn requestID handle extensions = .ok w') :
    w' = w ∨ ∃ tree added forward, w.tree.addPublish ftn session = .ok (tree, added) ∧
      ftn.trackNamespace ≠ [] ∧
      w' = (passOn session w.nextId added.subscribers
        (added.rankings.foldl (enterRanking ftn session extensions (w.nextId + 1))
          (w.recorded session ftn requestID handle extensions tree))).send
        (.publishOk session ftn forward) := by
  by_cases hallowed : w.config.allowedNamespacePrefix.isPrefixOf ftn.trackNamespace = true
  · by_cases hns : ftn.trackNamespace = []
    · rw [publish, hallowed, Bool.not_true, if_neg Bool.false_ne_true, if_pos hns] at h
      cases h
      exact .inl rfl
    · obtain ⟨tree, added, forward, hadd, heq⟩ := publish_accepted hallowed hns h
      exact .inr ⟨tree, added, forward, hadd, hns, heq⟩
  · rw [publish, Bool.not_eq_true _ |>.mp hallowed, Bool.not_false, if_pos rfl] at h
    cases h
    exact .inl rfl

theorem keeps_published (session : SessionId) (ftn : FullTrackName) (requestID : RequestID)
    (handle : HandleId) (extensions : IntExtensions) (tree : NamespaceTree)
    (added : NamespaceTree.AddPublishResult) (forward : Bool) :
    ({ w.withPublisher session ftn requestID handle extensions with tree := tree } :
      MoqxRelay).Quiet ((passOn session w.nextId added.subscribers
        (added.rankings.foldl (enterRanking ftn session extensions (w.nextId + 1))
          (w.recorded session ftn requestID handle extensions tree))).send
        (.publishOk session ftn forward)) := by
  have hentered := quiet_foldl (f := enterRanking ftn session extensions (w.nextId + 1))
    (fun w ranking => quiet_enterRanking _ _ _ _ _) added.rankings
    (w.recorded session ftn requestID handle extensions tree)
  have hpassed := hentered.trans (announces_passOn session w.nextId added.subscribers).toQuiet
  exact (recorded_keeps _ _ _ _ _ _).trans
    (hpassed.trans (announces_send _).toQuiet)

/-- What a PUBLISH does to the registry and the tree. -/
theorem publish_keeps (h : w.publish session ftn requestID handle extensions = .ok w') :
    w' = w ∨ ∃ tree added, w.tree.addPublish ftn session = .ok (tree, added) ∧
      ({ w.withPublisher session ftn requestID handle extensions with tree := tree } :
        MoqxRelay).Quiet w' := by
  rcases publish_spec h with rfl | ⟨tree, added, forward, hadd, -, rfl⟩
  · exact .inl rfl
  · exact .inr ⟨tree, added, hadd, keeps_published _ _ _ _ _ tree added forward⟩

/-- An accepted PUBLISH changes the relay. -/
theorem nextId_publish
    (hallowed : w.config.allowedNamespacePrefix.isPrefixOf ftn.trackNamespace = true)
    (hns : ftn.trackNamespace ≠ [])
    (h : w.publish session ftn requestID handle extensions = .ok w') : w.nextId < w'.nextId := by
  obtain ⟨tree, added, forward, -, rfl⟩ := publish_accepted hallowed hns h
  have hnext := (keeps_published (w := w) session ftn requestID handle extensions tree added
    forward).nextId
  exact Nat.lt_of_lt_of_le (Nat.lt_add_of_pos_right Nat.two_pos) hnext

theorem quiet_joinRanking (session : SessionId) (path : Path) (forward : Bool)
    (filter : TrackFilter) :
    ({ w with tree := if (w.tree.ranking path filter.propertyType).isSome then w.tree
        else w.tree.insertRanking path filter.propertyType w.nextId } : MoqxRelay).Quiet
      (w.joinRanking session path forward filter) := by
  unfold joinRanking getOrCreateRanking
  cases hranking : w.tree.ranking path filter.propertyType with
  | some ranking => exact quiet_callRanking _ _
  | none =>
    have hretro := quiet_foldl (f := registerRetro filter.propertyType w.nextId)
      (fun w path => quiet_registerRetro _ _ _)
      ((w.tree.insertRanking path filter.propertyType w.nextId).subtree path)
      { w with
        rankings := w.rankings.insert w.nextId
          { maxDeselected := w.config.maxDeselected
            idleTimeout := w.config.idleTimeout
            sweepThrottle := 0 }
        tree := w.tree.insertRanking path filter.propertyType w.nextId
        nextId := w.nextId + 1 }
    have hcall := hretro.trans (quiet_callRanking w.nextId
      (.addSessionToTopNGroup filter.maxSelected session forward))
    exact ⟨hcall.registry, hcall.tree, hcall.firstSubscribes, hcall.observed,
      Nat.le_of_succ_le hcall.nextId⟩

theorem announces_announceExisting {handle : Option HandleId} {path : Path} {node : NamespaceNode}
    (h : announceExisting session subNs handle path node w = .ok w') : w.Announces w' := by
  unfold announceExisting at h
  split at h
  · split at h
    · split at h
      · cases handle with
        | none => cases h
        | some handle =>
          cases h
          exact announces_send _
      · cases h
        exact .refl w
    · cases h
      exact announces_publishNamespaceToSession _ _
  · cases h
    exact .refl w

theorem announces_publishExisting (session : SessionId) (subNs : SubscribeNamespace)
    (ns : TrackNamespace) (publish : String × SessionId) :
    w.Announces (publishExisting session subNs ns w publish) := by
  unfold publishExisting
  split
  · exact .refl w
  · split
    · exact announces_publishToSession _ _ _ _
    · exact .refl w

theorem announces_visitExisting {handle : Option HandleId} {path : Path}
    (h : visitExisting session subNs handle w path = .ok w') : w.Announces w' := by
  unfold visitExisting at h
  split at h
  · cases h
    exact .refl w
  · obtain ⟨w₁, hannounce, h⟩ := bind_ok h
    cases h
    exact (announces_announceExisting hannounce).trans
      (announces_foldl (fun w publish => announces_publishExisting _ _ _ _) _ _)

theorem announces_visitAll {handle : Option HandleId} {paths : List Path}
    (h : paths.foldlM (visitExisting session subNs handle) w = .ok w') : w.Announces w' := by
  induction paths generalizing w with
  | nil =>
    cases h
    exact .refl _
  | cons path paths ih =>
    obtain ⟨w₁, hvisit, h⟩ := bind_ok h
    exact (announces_visitExisting hvisit).trans (ih h)

/-- The record that SUBSCRIBE_NAMESPACE makes for a session. -/
def SubscribeNamespace.info (subNs : SubscribeNamespace) (handle : Option HandleId) :
    NamespaceSubscriberInfo where
  forward := subNs.forward
  options := subNs.options
  namespacePublishHandle := handle
  trackNamespacePrefix := subNs.trackNamespacePrefix
  trackFilter := subNs.trackFilter

/-- The handle that a SUBSCRIBE_NAMESPACE comes with. -/
def subscribeHandle (w : MoqxRelay) (subNs : SubscribeNamespace) : Option HandleId :=
  if subNs.hasHandle then some w.nextId else none

/-- The relay when a namespace subscriber is in the tree and in its ranking. -/
def joined (w : MoqxRelay) (session : SessionId) (subNs : SubscribeNamespace)
    (tree : NamespaceTree) : MoqxRelay :=
  subNs.trackFilter.elim { w with tree := tree, nextId := w.nextId + 1 }
    ({ w with tree := tree, nextId := w.nextId + 1 }.joinRanking session
      subNs.trackNamespacePrefix.reverse subNs.forward)

/-- A SUBSCRIBE_NAMESPACE that is not refused. -/
theorem subscribeNamespace_spec (h : w.subscribeNamespace session subNs = .ok w') :
    w' = w ∨ ∃ tree, w.tree.addNamespaceSubscriber subNs.trackNamespacePrefix session
        (SubscribeNamespace.info subNs (w.subscribeHandle subNs)) = .ok tree ∧
      (w.joined session subNs tree).Announces w' := by
  unfold subscribeNamespace at h
  split at h
  · cases h
    exact .inl rfl
  · obtain ⟨tree, hadd, h⟩ := bind_ok h
    exact .inr ⟨tree, hadd, announces_visitAll h⟩

theorem joined_quiet (session : SessionId) (subNs : SubscribeNamespace) (tree : NamespaceTree) :
    ({ w with
      tree := subNs.trackFilter.elim tree fun filter =>
        if (tree.ranking subNs.trackNamespacePrefix.reverse filter.propertyType).isSome then tree
        else tree.insertRanking subNs.trackNamespacePrefix.reverse filter.propertyType
          (w.nextId + 1) } : MoqxRelay).Quiet (w.joined session subNs tree) := by
  unfold joined
  cases subNs.trackFilter with
  | none => exact ⟨rfl, rfl, rfl, rfl, Nat.le_succ _⟩
  | some filter =>
    have hjoin := quiet_joinRanking
      (w := { w with tree := tree, nextId := w.nextId + 1 }) session
      subNs.trackNamespacePrefix.reverse subNs.forward filter
    exact ⟨hjoin.registry, hjoin.tree, hjoin.firstSubscribes, hjoin.observed,
      Nat.le_of_succ_le hjoin.nextId⟩

theorem unsubscribeNamespace_spec {prefix_ : TrackNamespace}
    (h : w.unsubscribeNamespace session prefix_ = .ok w') :
    ∃ tree result, w.tree.removeNamespaceSubscriber prefix_ session = .ok (tree, result) ∧
      w' = (result.toOption.bind id).elim { w with tree := tree } fun left =>
        ({ w with tree := tree } : MoqxRelay).callRanking left.1
          (.removeSessionFromTopNGroup left.2 session) := by
  obtain ⟨⟨tree, result⟩, hremove, h⟩ := bind_ok h
  refine ⟨tree, result, hremove, ?_⟩
  rcases result with error | _ | ⟨ranking, maxSelected⟩
  · cases h
    rfl
  · cases h
    rfl
  · cases h
    rfl

theorem unsubscribeNamespace_edits {prefix_ : TrackNamespace} (hw : w.tree.WF)
    (h : w.unsubscribeNamespace session prefix_ = .ok w') :
    ∃ tree subscribers, w.tree.Edits tree prefix_.reverse
        { w.tree.record prefix_.reverse with subscribers := subscribers } ∧
      (w' = { w with tree := tree } ∨ ∃ id n, w' =
        ({ w with tree := tree } : MoqxRelay).callRanking id
          (.removeSessionFromTopNGroup n session)) := by
  obtain ⟨tree, result, hremove, heq⟩ := unsubscribeNamespace_spec h
  have hedits : ∃ subscribers, w.tree.Edits tree prefix_.reverse
      { w.tree.record prefix_.reverse with subscribers := subscribers } := by
    rcases NamespaceTree.removeNamespaceSubscriber_edits hw hremove with
      ⟨-, rfl, -⟩ | ⟨info, -, hedits, -⟩
    · exact ⟨_, .refl hw _⟩
    · exact ⟨_, hedits⟩
  obtain ⟨subscribers, hedits⟩ := hedits
  refine ⟨tree, subscribers, hedits, ?_⟩
  cases hleft : result.toOption.bind id with
  | none => exact .inl (by rw [heq, hleft, Option.elim_none])
  | some left => exact .inr ⟨left.1, left.2, by rw [heq, hleft, Option.elim_some]⟩

/-- What an object that passes through a chain leaves alone. -/
structure Observes (w w' : MoqxRelay) : Prop where
  registry : w.registry.Touches w'.registry
  tree : w'.tree = w.tree
  firstSubscribes : w'.firstSubscribes = w.firstSubscribes
  nextId : w.nextId ≤ w'.nextId

theorem Observes.refl (w : MoqxRelay) : w.Observes w :=
  ⟨.refl _, rfl, rfl, Nat.le_refl _⟩

theorem Observes.trans (h : w.Observes w') (h' : w'.Observes w'') : w.Observes w'' :=
  ⟨h.registry.trans h'.registry, h'.tree.trans h.tree,
    h'.firstSubscribes.trans h.firstSubscribes, Nat.le_trans h.nextId h'.nextId⟩

theorem Quiet.observes (h : w.Quiet w') : w.Observes w' :=
  ⟨by rw [h.registry]; exact .refl _, h.tree, h.firstSubscribes, h.nextId⟩

theorem touchActivityTarget_spec {target : Option EntryId}
    (h : w.touchActivityTarget target = .ok w') :
    ∃ registry, w.registry.Touches registry ∧ w' = { w with registry := registry } := by
  cases target with
  | none =>
    cases h
    exact ⟨_, .refl _, rfl⟩
  | some entry =>
    obtain ⟨registry, htouch, h⟩ := bind_ok h
    cases h
    exact ⟨registry, touch_eq_ok htouch, rfl⟩

/-- The relay when the rankings that observe a chain have been told of its end. -/
def endedInRankings (w : MoqxRelay) (id : FilterId) (filter : TopNFilter) : MoqxRelay :=
  filter.observers.entries.foldl
    (fun w e => w.callRanking e.2.ranking (.removeTrack filter.ftn))
    (w.setFilter id fun filter => { filter with ended := true })

theorem quiet_endedInRankings (id : FilterId) (filter : TopNFilter) :
    w.Quiet (w.endedInRankings id filter) :=
  (quiet_setFilter _ _).trans (quiet_foldl (fun _ _ => quiet_callRanking _ _) _ _)

theorem publishDone_spec {id : FilterId} (h : w.publishDone id = .ok w') :
    ∃ filter tree, w.filters.lookup id = some filter ∧
      (if (w.registry.find filter.ftn).any fun rsub => rsub.isPublish then
        w.tree.unpublishTrack filter.ftn.trackNamespace filter.ftn.trackName
      else .ok w.tree) = .ok tree ∧
      w' = ({ w.endedInRankings id filter with
        tree := tree
        registry := (w.registry.onPublisherTerminated filter.ftn
          (w.endedInRankings id filter).forwarderEmpty).1 } :
        MoqxRelay).drain filter.forwarder := by
  unfold publishDone at h
  split at h
  · cases h
  · next filter hfilter =>
    obtain ⟨w₁, hdone, h⟩ := bind_ok h
    cases h
    obtain ⟨tree, htree, rfl⟩ := onPublishDone_spec hdone
    have hquiet := quiet_endedInRankings (w := w) id filter
    change (if ((w.endedInRankings id filter).registry.find filter.ftn).any
        fun rsub => rsub.isPublish then (w.endedInRankings id filter).tree.unpublishTrack
          filter.ftn.trackNamespace filter.ftn.trackName
      else .ok (w.endedInRankings id filter).tree) = _ at htree
    rw [hquiet.registry, hquiet.tree] at htree
    refine ⟨filter, tree, hfilter, htree, ?_⟩
    rw [← hquiet.registry]
    rfl

/-- What the end of a track does to the registry and the tree. -/
theorem publishDone_keeps {id : FilterId} (h : w.publishDone id = .ok w') :
    ∃ filter tree empty, w.filters.lookup id = some filter ∧
      (if (w.registry.find filter.ftn).any fun rsub => rsub.isPublish then
        w.tree.unpublishTrack filter.ftn.trackNamespace filter.ftn.trackName
      else .ok w.tree) = .ok tree ∧
      ({ w with
        tree := tree
        registry := (w.registry.onPublisherTerminated filter.ftn empty).1 } : MoqxRelay).Quiet
          w' := by
  obtain ⟨filter, tree, hfilter, htree, rfl⟩ := publishDone_spec h
  refine ⟨filter, tree, (w.endedInRankings id filter).forwarderEmpty, hfilter, htree, ?_⟩
  have hquiet := quiet_endedInRankings (w := w) id filter
  refine Quiet.trans ?_ (quiet_setForwarder _ _)
  exact ⟨rfl, rfl, hquiet.firstSubscribes,
    hquiet.observed, hquiet.nextId⟩

theorem publishDone_edits {tree : NamespaceTree} (hw : w.tree.WF)
    (htree : (if (w.registry.find ftn).any fun rsub => rsub.isPublish then
        w.tree.unpublishTrack ftn.trackNamespace ftn.trackName
      else .ok w.tree) = .ok tree) :
    ∃ publishes, w.tree.Edits tree ftn.trackNamespace.reverse
      { w.tree.record ftn.trackNamespace.reverse with publishes := publishes } := by
  split at htree
  · exact ⟨_, NamespaceTree.unpublishTrack_edits hw htree⟩
  · cases htree
    exact ⟨_, .refl hw _⟩

/-- The relay with the entry, the forwarder and the chain that a first subscriber creates. -/
def withSubscriber (w : MoqxRelay) (ftn : FullTrackName) : MoqxRelay :=
  { w with
    forwarders := w.forwarders.insert w.nextId
      { fullTrackName := ftn, extensions := fun _ => none }
    filters := w.filters.insert (w.nextId + 1)
      { ftn := ftn, activityThreshold := w.config.activityThreshold, forwarder := w.nextId }
    registry := w.registry.emplace ftn fun entry =>
      { entry := entry
        forwarder := w.nextId
        upstream := none
        topNFilter := some (w.nextId + 1)
        lastObjectTime := w.now }
    nextId := w.nextId + 2 }

/-- A SUBSCRIBE is refused, makes an entry and may wait for its upstream, or waits for the first
subscriber. -/
theorem subscribe_spec {forward : Bool} (h : w.subscribe session ftn forward = .ok w') :
    w' = w ∨
    (w.registry.find ftn = none ∧ ∃ registry firstSubscribes,
      (firstSubscribes = w.firstSubscribes ∧
          (w.withSubscriber ftn).registry.failAndRemove ⟨ftn, w.nextId⟩ = .ok registry ∨
        registry = (w.withSubscriber ftn).registry ∧ ∃ id upstreamSession,
          firstSubscribes = w.firstSubscribes.insert id ⟨⟨ftn, w.nextId⟩, upstreamSession⟩) ∧
      ({ w.withSubscriber ftn with
        registry := registry, firstSubscribes := firstSubscribes } : MoqxRelay).Attends w') ∨
    ∃ laterSubscribes, w' =
      { w with laterSubscribes := laterSubscribes, nextId := w.nextId + 1 } := by
  unfold subscribe at h
  split at h
  · cases h
    exact .inl rfl
  cases hfind : w.registry.find ftn with
  | some rsub =>
    simp only [getOrCreateFromSubscribe, hfind] at h
    cases h
    exact .inr (.inr ⟨_, rfl⟩)
  | none =>
    simp only [getOrCreateFromSubscribe, hfind, makeForwarder,
      buildFilterChain] at h
    refine .inr (.inl ⟨rfl, ?_⟩)
    split at h
    · obtain ⟨registry, hfail, h⟩ := bind_ok h
      cases h
      exact ⟨registry, w.firstSubscribes, .inl ⟨rfl, hfail⟩, .refl _⟩
    · next upstreamSession _ =>
      cases h
      have hadd := attends_addSubscriber (w := w.withSubscriber ftn) w.nextId session
        ⟨forward, true⟩
      refine ⟨_, _, .inr ⟨rfl, ((w.withSubscriber ftn).addSubscriber w.nextId session
        ⟨forward, true⟩).1.nextId, upstreamSession, rfl⟩, ?_⟩
      exact ⟨⟨hadd.registry, hadd.tree, congrArg (AList.insert _ _) hadd.firstSubscribes,
        hadd.observed,
        Nat.le_succ_of_le hadd.nextId⟩, hadd.rankings, hadd.filters, hadd.extensions⟩

theorem upstreamOk_spec {id : Nat} (h : w.upstreamOk id handle requestID extensions = .ok w') :
    ∃ first registry replaced forwarders, w.firstSubscribes.lookup id = some first ∧
      w.registry.completeSubscription first.pending handle requestID first.upstreamSession =
        .ok (registry, replaced) ∧
      w' = { w with
        forwarders := forwarders
        registry := registry
        firstSubscribes := w.firstSubscribes.erase id } := by
  unfold upstreamOk at h
  split at h
  · cases h
  · next first hfirst =>
    obtain ⟨⟨registry, replaced⟩, hcomplete, h⟩ := bind_ok h
    cases h
    rw [setForwarder_eq] at hcomplete ⊢
    exact ⟨first, registry, replaced, _, hfirst, hcomplete, rfl⟩

theorem upstreamError_spec {id : Nat} (h : w.upstreamError id = .ok w') :
    ∃ first registry, w.firstSubscribes.lookup id = some first ∧
      w.registry.failAndRemove first.pending = .ok registry ∧
      w' = { w with
        registry := registry
        firstSubscribes := w.firstSubscribes.erase id } := by
  unfold upstreamError at h
  split at h
  · cases h
  · next first hfirst =>
    obtain ⟨registry, hfail, h⟩ := bind_ok h
    cases h
    exact ⟨first, registry, hfirst, hfail, rfl⟩

theorem resumeLater_spec {id : Nat} {inRange : Bool} (h : w.resumeLater id inRange = .ok w') :
    w.Attends w' := by
  have hlater : w.Attends { w with laterSubscribes := w.laterSubscribes.erase id } :=
    ⟨⟨rfl, rfl, rfl, rfl, Nat.le_refl _⟩, rfl, rfl, .of_eq rfl⟩
  refine hlater.trans ?_
  unfold resumeLater at h
  split at h
  · cases h
  split at h
  · cases h
  next result _ =>
  cases result with
  | error message =>
    cases h
    exact .refl _
  | ok forwarder =>
    simp only at h
    split at h
    · cases h
      exact attends_addSubscriber _ _ _
    · cases h
      exact .refl _

theorem startPublish_spec {id : Nat} {accepted : Bool} (h : w.startPublish id accepted = .ok w') :
    w.Attends w' := by
  have htasks : ∀ (w : MoqxRelay) tasks, w.Attends { w with publishTasks := tasks } := fun w _ =>
    ⟨⟨rfl, rfl, rfl, rfl, Nat.le_refl _⟩, rfl, rfl, .of_eq rfl⟩
  unfold startPublish at h
  split at h
  · cases h
  split at h
  · cases h
  split at h
  · cases h
    exact htasks _ _
  next task _ _ _ =>
  have hadd := attends_addSubscriber (w := w) task.forwarder task.session
    ⟨task.forward, !task.trackFilterSubscriber⟩
  simp only at h
  split at h
  · cases h
    exact hadd.trans (htasks _ _)
  split at h
  · cases h
    exact hadd.trans (htasks _ _)
  · cases h
    exact (hadd.trans (attends_removeSubscriber _ _)).trans (htasks _ _)

theorem publishReply_spec {id : Nat} {reply : Option Bool} (h : w.publishReply id reply = .ok w') :
    w.Attends w' := by
  have htasks : w.Attends { w with publishTasks := w.publishTasks.erase id } :=
    ⟨⟨rfl, rfl, rfl, rfl, Nat.le_refl _⟩, rfl, rfl, .of_eq rfl⟩
  unfold publishReply at h
  split at h
  · cases h
  split at h
  · cases h
  cases reply with
  | none =>
    cases h
    exact htasks.trans (attends_removeSubscriber _ _)
  | some forward =>
    cases h
    refine htasks.trans (attends_setForwarder fun forwarder => ?_)
    split <;> rfl

/-- The answer to a PUBLISH_NAMESPACE leaves at most a handle in the tree. -/
theorem publishNamespaceReply_spec {id : Nat} {accepted : Bool}
    (h : w.publishNamespaceReply id accepted = .ok w') :
    ∃ tree, (tree = w.tree ∨ ∃ path node session handle,
        tree = w.tree.addDraft14PublishNamespaceHandle path node session handle) ∧
      ({ w with tree := tree } : MoqxRelay).Attends w' := by
  unfold publishNamespaceReply at h
  split at h
  · cases h
  split at h
  · cases h
    exact ⟨_, .inr ⟨_, _, _, _, rfl⟩,
      ⟨⟨rfl, rfl, rfl, rfl, Nat.le_succ _⟩, rfl, rfl, .of_eq rfl⟩⟩
  · cases h
    exact ⟨w.tree, .inl rfl,
      ⟨⟨rfl, rfl, rfl, rfl, Nat.le_refl _⟩, rfl, rfl, .of_eq rfl⟩⟩

end MoqxRelay

end Moqx
