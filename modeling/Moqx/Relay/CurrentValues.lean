import Moqx.Relay.ActivityTarget
import Moqx.Relay.Observers

/-! The values of published tracks, and what each step does to them and to their chains. The value
that counts is the last one in an object that came through the chain of the track, or else the one
in the PUBLISH. -/
namespace Moqx

open Maps Runs NamespaceTree SubscriptionRegistry

namespace MoqxRelay

variable {w w' w'' : MoqxRelay} {op : Op}

/-- The session that is recorded as the publisher of a track. -/
def publisherOf (w : MoqxRelay) (x : FullTrackName) : Option SessionId :=
  w.publishAt x.trackNamespace.reverse x.trackName

def chainOf (w : MoqxRelay) (x : FullTrackName) : Option FilterId :=
  (w.registry.find x).bind fun rsub => rsub.topNFilter

/-- The last value of a property that came in an object through a chain. -/
def observedValue (w : MoqxRelay) (chain : FilterId) (T : Nat) : Option Nat :=
  ((w.observed.lookup chain).getD fun _ => none) T

/-- The last value of a property that was observed in an object of a track, or else the one it was
published with. -/
def currentValue (w : MoqxRelay) (T : Nat) (x : FullTrackName) : Nat :=
  (((w.chainOf x).bind fun chain => w.observedValue chain T).or (w.announcedValue T x)).getD 0

section Extensions

/-- A first subscriber makes a forwarder of its own. -/
theorem extensions_subscribe {session : SessionId} {ftn : FullTrackName} {forward : Bool}
    {id : ForwarderId} (hlt : id < w.nextId) (h : w.subscribe session ftn forward = .ok w') :
    (w'.forwarders.lookup id).map (fun forwarder => forwarder.extensions) =
      (w.forwarders.lookup id).map fun forwarder => forwarder.extensions := by
  have hmade : (w.withSubscriber ftn).forwarders.lookup id = w.forwarders.lookup id :=
    AList.lookup_insert_ne (Nat.ne_of_lt hlt)
  unfold subscribe at h
  split at h
  · cases h
    rfl
  cases hfind : w.registry.find ftn with
  | some rsub =>
    simp only [getOrCreateFromSubscribe, hfind] at h
    cases h
    rfl
  | none =>
    simp only [getOrCreateFromSubscribe, hfind, makeForwarder,
      buildFilterChain] at h
    split at h
    · obtain ⟨registry, -, h⟩ := bind_ok h
      cases h
      rw [← hmade]
      rfl
    · cases h
      rw [← hmade]
      exact (attends_addSubscriber (w := w.withSubscriber ftn) w.nextId session
        ⟨forward, true⟩).extensions id

theorem extensions_upstreamOk {i : Nat} {handle : HandleId} {requestID : RequestID}
    {extensions : IntExtensions} {id : ForwarderId}
    (hapart : ∀ i first, w.firstSubscribes.lookup i = some first →
      id ≠ first.pending.weakForwarder)
    (h : w.upstreamOk i handle requestID extensions = .ok w') :
    (w'.forwarders.lookup id).map (fun forwarder => forwarder.extensions) =
      (w.forwarders.lookup id).map fun forwarder => forwarder.extensions := by
  unfold upstreamOk at h
  split at h
  · cases h
  · next first hfirst =>
    obtain ⟨⟨registry, replaced⟩, -, h⟩ := bind_ok h
    cases h
    unfold setForwarder
    split
    · rfl
    · rw [AList.lookup_insert_ne (hapart i first hfirst)]

/-- A forwarder for which no first subscriber waits keeps what it was made with. -/
theorem extensions_idle {id : ForwarderId} (hop : op.idles = true) (hs : w.step op = .ok w')
    (hlt : id < w.nextId)
    (hapart : ∀ i first, w.firstSubscribes.lookup i = some first →
      id ≠ first.pending.weakForwarder) :
    (w'.forwarders.lookup id).map (fun forwarder => forwarder.extensions) =
      (w.forwarders.lookup id).map fun forwarder => forwarder.extensions := by
  cases op with
  | publishNamespace | publishNamespaceDone | publish | object | publishDone | subscribeNamespace
  | unsubscribeNamespace | onEmpty => cases hop
  | tick | release | close =>
    cases hs
    rfl
  | subscribe session ftn forward => exact extensions_subscribe hlt hs
  | upstreamOk i handle requestID extensions => exact extensions_upstreamOk hapart hs
  | upstreamError i =>
    obtain ⟨first, registry, -, -, rfl⟩ := upstreamError_spec hs
    rfl
  | resumeLater i inRange => exact (resumeLater_spec hs).extensions id
  | startPublish i accepted => exact (startPublish_spec hs).extensions id
  | publishReply i reply => exact (publishReply_spec hs).extensions id
  | publishNamespaceReply i accepted =>
    change w.publishNamespaceReply i accepted = _ at hs
    unfold publishNamespaceReply at hs
    split at hs
    · cases hs
    split at hs
    · cases hs
      rfl
    · cases hs
      rfl
  | leave forwarder session =>
    cases hs
    exact (attends_removeSubscriber forwarder session).extensions id
  | forwardChanged forwarder forward =>
    rw [(forwardChanged_announces hs).forwarders]
  | newGroupRequested forwarder group =>
    rw [(newGroupRequested_announces hs).forwarders]

end Extensions

/-- The entries of recorded tracks keep their chains and what they were published with. -/
structure SamePublishes (w w' : MoqxRelay) : Prop where
  publisher : ∀ x, w'.publisherOf x = w.publisherOf x
  chain : ∀ ⦃x⦄, (w.publisherOf x).isSome = true → w'.chainOf x = w.chainOf x
  announced : ∀ ⦃x⦄, (w.publisherOf x).isSome = true → ∀ T,
    w'.announcedValue T x = w.announcedValue T x

theorem publisherOf_isSome (hbacked : w.Backed) {x : FullTrackName}
    (h : (w.publisherOf x).isSome = true) :
    ∃ rsub, w.registry.find x = some rsub ∧ rsub.isPublish = true := by
  obtain ⟨publisher, hpublisher⟩ := Option.isSome_iff_exists.mp h
  obtain ⟨rsub, hfind, hpublish, -⟩ := hbacked _ _ _ hpublisher
  rw [List.reverse_reverse] at hfind
  exact ⟨rsub, hfind, hpublish⟩

theorem samePublishes_of (hbacked : w.Backed)
    (hpublishes : ∀ p, (w'.tree.record p).publishes = (w.tree.record p).publishes)
    (hregistry : w.registry.KeepsPublished w'.registry)
    (hforwarders : ∀ ⦃x rsub⦄, w.registry.find x = some rsub → rsub.isPublish = true →
      (w'.forwarders.lookup rsub.forwarder).map (fun forwarder => forwarder.extensions) =
        (w.forwarders.lookup rsub.forwarder).map fun forwarder => forwarder.extensions) :
    w.SamePublishes w' where
  publisher := fun x => by
    unfold publisherOf publishAt
    rw [hpublishes]
  chain := fun x hx => by
    obtain ⟨rsub, hfind, hpublish⟩ := publisherOf_isSome hbacked hx
    obtain ⟨now, hfind'⟩ := hregistry.kept hfind hpublish
    unfold chainOf
    rw [hfind, hfind']
    rfl
  announced := fun x hx T => by
    obtain ⟨rsub, hfind, hpublish⟩ := publisherOf_isSome hbacked hx
    obtain ⟨now, hfind'⟩ := hregistry.kept hfind hpublish
    unfold announcedValue
    rw [hfind, hfind', Option.bind_some, Option.bind_some, hforwarders hfind hpublish]

/-- Steps that touch no ranking, no observer and no published track. -/
structure Unmoved (w w' : MoqxRelay) : Prop where
  tracks : w.SameTracks w'
  publishes : w.SamePublishes w'
  filters : ∀ ⦃chain filter⦄, w'.filters.lookup chain = some filter →
    w.filters.lookup chain = some filter ∨ w.nextId ≤ chain ∧ filter.observers = ∅
  observed : w'.observed = w.observed
  nextId : w.nextId ≤ w'.nextId

theorem Unmoved.refl (w : MoqxRelay) : w.Unmoved w :=
  ⟨.of_eq rfl rfl, ⟨fun _ => rfl, fun _ _ => rfl, fun _ _ _ => rfl⟩,
    fun _ _ hfilter => .inl hfilter, rfl, Nat.le_refl _⟩

/-- The tree and the registry keep the recorded tracks, and the rest is messages. -/
theorem unmoved_of_announces {tree : NamespaceTree} {registry : SubscriptionRegistry}
    (hbacked : w.Backed) (htracks : w.SameTracks w')
    (hpublishes : ∀ p, (tree.record p).publishes = (w.tree.record p).publishes)
    (hkeeps : w.registry.KeepsPublished registry)
    (h : ({ w with tree := tree, registry := registry } : MoqxRelay).Announces w') :
    w.Unmoved w' := by
  refine ⟨htracks, samePublishes_of hbacked (fun p => ?_) ?_ fun x rsub _ _ => ?_,
    fun chain filter hfilter => ?_, h.observed, h.nextId⟩
  · rw [h.tree]
    exact hpublishes p
  · rw [h.registry]
    exact hkeeps
  · rw [h.forwarders]
  · rw [h.filters] at hfilter
    exact .inl hfilter

theorem unmoved_onEmpty {id : ForwarderId} (hbacked : w.Backed) (hs : w.onEmpty id = .ok w') :
    w.Unmoved w' := by
  rcases onEmpty_spec hs with rfl | ⟨handle, rfl⟩ | ⟨forwarder, rsub, outputs, -, hfind, hended,
    rfl⟩
  · exact .refl _
  · exact unmoved_of_announces hbacked (.of_eq rfl rfl) (fun _ => rfl) (.refl _) (announces_send _)
  · -- the entry of a recorded track has a handle, so it is not the one that goes
    have hkept : ∀ x, (w.publisherOf x).isSome = true →
        (w.registry.remove forwarder.fullTrackName).find x = w.registry.find x := by
      intro x hx
      rw [find_remove, if_neg]
      rintro rfl
      obtain ⟨publisher, hpublisher⟩ := Option.isSome_iff_exists.mp hx
      obtain ⟨rsub', hfind', hpublish, -, hhandle⟩ := hbacked _ _ _ hpublisher
      rw [List.reverse_reverse, hfind] at hfind'
      cases hfind'
      rcases hended with hnone | hnot
      · rw [hnone] at hhandle
        cases hhandle
      · rw [hnot] at hpublish
        cases hpublish
    refine ⟨.of_eq rfl rfl, ⟨fun _ => rfl, ?_, ?_⟩, fun _ _ hfilter => .inl hfilter, rfl,
      Nat.le_refl _⟩
    · intro x hx
      unfold chainOf
      rw [hkept x hx]
    · intro x hx T
      unfold announcedValue
      rw [hkept x hx]

theorem unmoved_step (hw : w.Base) (hok : w.RankingsOk) (hbacked : w.Backed)
    (hspares : w.SparesPublishes op) (hop : op.spares = true) (hs : w.step op = .ok w') :
    w.Unmoved w' := by
  have htracks := sameTracks_step hw hok hop hs
  by_cases hidles : op.idles = true
  · have hidle := hw.idle hidles hs
    refine ⟨htracks, samePublishes_of hbacked ?_ hidle.registry ?_, ?_, hidle.observed,
      hidle.nextId⟩
    · intro p
      obtain ⟨handles, hrecord⟩ := hidle.record p
      rw [hrecord]
    · intro x rsub hfind hpublish
      exact extensions_idle hidles hs (hw.forwarder_lt hfind) fun i first hfirst =>
        hw.apart hfirst hfind hpublish
    · intro chain filter hfilter
      rcases hidle.filters hfilter with hold | ⟨hlt, -, hnone⟩
      · exact .inl hold
      · exact .inr ⟨hlt, hnone⟩
  cases op with
  | publishNamespace session ns callback peerID =>
    rcases doPublishNamespace_spec hs with rfl | ⟨tree, result, hset, hannounces⟩
    · exact .refl _
    · obtain ⟨hedits, hreplaced, -⟩ := setPublisher_edits hw.tree hset
      exact unmoved_of_announces hbacked htracks (publishes_of_edits hedits rfl)
        (withoutReplaced_keepsPublished hspares hreplaced) hannounces
  | publishNamespaceDone session ns =>
    rcases doPublishNamespaceDone_spec hw.tree hs with rfl | ⟨tree, hedits, hannounces⟩
    · exact .refl _
    · exact unmoved_of_announces hbacked htracks (publishes_of_edits hedits rfl) (.refl _)
        hannounces
  | unsubscribeNamespace session prefix_ =>
    obtain ⟨tree, _, hedits, hcall⟩ := unsubscribeNamespace_edits hw.tree hs
    have hworks : Works (fun _ _ => True) (fun _ _ => False) { w with tree := tree } w' := by
      rcases hcall with rfl | ⟨id, n, rfl⟩
      · exact .refl
      · exact Works.refl.call trivial
    have hquiet := hworks.observes
    have hkeeps : ({ w with tree := tree } : MoqxRelay).Quiet w' := by
      rcases hcall with rfl | ⟨id, n, rfl⟩
      · exact .refl _
      · exact quiet_callRanking _ _
    refine ⟨htracks, samePublishes_of hbacked ?_ ?_ ?_, ?_, hkeeps.observed, hquiet.nextId⟩
    · intro p
      rw [hquiet.tree]
      exact publishes_of_edits hedits rfl p
    · rw [hkeeps.registry]
      exact .refl _
    · intro x rsub _ _
      exact hworks.sameExtensions rsub.forwarder
    · intro chain filter hfilter
      obtain ⟨before, hbefore, rfl⟩ := hworks.chain_of_some (R := fun f f' => f' = f) hfilter
        (fun _ => rfl) fun _ _ _ hfalse => hfalse.elim
      exact .inl hbefore
  | onEmpty forwarder => exact unmoved_onEmpty hbacked hs
  | publish | object | publishDone | subscribeNamespace => cases hop
  | _ => exact absurd rfl hidles

section Publishing

variable {session : SessionId} {ftn : FullTrackName} {requestID : RequestID} {handle : HandleId}
  {extensions : IntExtensions}

/-- What an accepted PUBLISH does to the tracks and their chains. -/
structure Publishes (w w' : MoqxRelay) (session : SessionId) (ftn : FullTrackName)
    (extensions : IntExtensions) : Prop where
  publisher : ∀ x, w'.publisherOf x = if x = ftn then some session else w.publisherOf x
  chain : ∀ x, w'.chainOf x = if x = ftn then some (w.nextId + 1) else w.chainOf x
  announced : ∀ T x, w'.announcedValue T x =
    if x = ftn then extensions T else w.announcedValue T x
  filters : ∀ ⦃c filter⦄, c ≠ w.nextId + 1 → w'.filters.lookup c = some filter →
    w.filters.lookup c = some filter
  running : ∀ ⦃filter⦄, w'.filters.lookup (w.nextId + 1) = some filter → filter.ended = false
  observing : ∀ ⦃filter T e⦄, w'.filters.lookup (w.nextId + 1) = some filter →
    filter.observers.lookup T = some e →
      (T, e.ranking) ∈ w'.tree.rankingsFrom ftn.trackNamespace.reverse
  observers : (∀ e ∈ w'.tree.rankingsFrom ftn.trackNamespace.reverse,
      ∀ e' ∈ w'.tree.rankingsFrom ftn.trackNamespace.reverse, e.1 = e'.1 → e.2 = e'.2) →
    ∀ ⦃filter⦄, w'.filters.lookup (w.nextId + 1) = some filter →
      ∀ e ∈ w'.tree.rankingsFrom ftn.trackNamespace.reverse,
        filter.observers.lookup e.1 = some ⟨none, e.2⟩
  observed : w'.observed = w.observed
  nextId : w.nextId + 2 ≤ w'.nextId

theorem publisherOf_publish {tree : NamespaceTree} {added : NamespaceTree.AddPublishResult}
    (hw : w.Base) (hadd : w.tree.addPublish ftn session = .ok (tree, added))
    (htree : w'.tree = tree)
    (x : FullTrackName) :
    w'.publisherOf x = if x = ftn then some session else w.publisherOf x := by
  obtain ⟨hedits, -⟩ := addPublish_edits hw.tree hadd
  subst htree
  unfold publisherOf publishAt
  rw [hedits.record]
  by_cases hpath : x.trackNamespace.reverse = ftn.trackNamespace.reverse
  · rw [if_pos hpath]
    by_cases hname : x.trackName = ftn.trackName
    · have hx : x = ftn := by
        cases x
        cases ftn
        simp_all
      rw [if_pos hx, hname]
      exact AList.lookup_insert _
    · rw [if_neg fun hx => hname (congrArg _ hx), hpath]
      exact AList.lookup_insert_ne hname
  · rw [if_neg hpath, if_neg]
    rintro rfl
    exact hpath rfl

theorem sameExtensions_published (rankings : List (Nat × RankingId)) (tree : NamespaceTree)
    (subscribers : SessionSubscriberList) (output : Output) :
    (w.withPublisher session ftn requestID handle extensions).SameExtensions
      ((passOn session w.nextId subscribers
        (rankings.foldl (enterRanking ftn session extensions (w.nextId + 1))
          (w.recorded session ftn requestID handle extensions tree))).send output) := by
  have hrecorded : (w.withPublisher session ftn requestID handle extensions).SameExtensions
      (w.recorded session ftn requestID handle extensions tree) :=
    (endEvicted_attends _).extensions.trans (.of_eq rfl)
  have hentered := (works_entered (w := w.recorded session ftn requestID handle extensions tree)
    ftn session extensions (w.nextId + 1) rankings).sameExtensions
  exact (hrecorded.trans hentered).trans
    ((announces_passOn _ _ _).trans (announces_send _)).attends.extensions

theorem announcedValue_publish (hw : w.Base)
    (hfind : ∀ x, w'.registry.find x = if x = ftn then
        some (publishEntry w.nextId session requestID handle
          (w.nextId + 1) w.now w.registry.nextEntry)
      else w.registry.find x)
    (hsame : (w.withPublisher session ftn requestID handle extensions).SameExtensions w')
    (T : Nat) (x : FullTrackName) :
    w'.announcedValue T x = if x = ftn then extensions T else w.announcedValue T x := by
  unfold announcedValue
  rw [hfind]
  split
  · rw [Option.bind_some, hsame]
    change (((w.forwarders.insert w.nextId _).lookup w.nextId).map _).bind _ = _
    rw [AList.lookup_insert]
    rfl
  · cases hx : w.registry.find x with
    | none => rfl
    | some rsub =>
      rw [Option.bind_some, Option.bind_some, hsame]
      change (((w.forwarders.insert w.nextId _).lookup rsub.forwarder).map _).bind _ = _
      rw [AList.lookup_insert_ne (Nat.ne_of_lt (hw.forwarder_lt hx))]

/-- A PUBLISH changes what belongs to its own track only. -/
theorem publish_publishes (hw : w.Base)
    (hs : w.publish session ftn requestID handle extensions = .ok w') :
    w' = w ∨ w.Publishes w' session ftn extensions := by
  rcases publish_spec hs with rfl | ⟨tree, added, forward, hadd, -, heq⟩
  · exact .inl rfl
  right
  have hkeeps := keeps_published (w := w) session ftn requestID handle extensions tree added forward
  rw [← heq] at hkeeps
  obtain ⟨-, hrankings, -⟩ := addPublish_edits hw.tree hadd
  have hfind := find_of_publish hkeeps
  have htree : w'.tree = tree := hkeeps.tree
  -- the new chain, as it was made and as the rankings left it
  have hchain : w'.filters.lookup (w.nextId + 1) =
      ((w'.tree.rankingsFrom ftn.trackNamespace.reverse).foldl
        (enterRanking ftn session extensions (w.nextId + 1))
        (w.recorded session ftn requestID handle extensions tree)).filters.lookup
          (w.nextId + 1) := by
    rw [htree, ← hrankings, heq]
    exact congrArg (fun filters => filters.lookup (w.nextId + 1)) (announces_passOn _ _ _).filters
  have hmade : (w.recorded session ftn requestID handle extensions tree).filters.lookup
      (w.nextId + 1) = (w.withPublisher session ftn requestID handle extensions).filters.lookup
        (w.nextId + 1) := congrArg (fun filters => filters.lookup (w.nextId + 1))
    (endEvicted_attends _).filters
  rw [show (w.withPublisher session ftn requestID handle extensions).filters.lookup
    (w.nextId + 1) = some _ from AList.lookup_insert _] at hmade
  refine ⟨publisherOf_publish hw hadd htree, ?_, ?_, ?_, ?_, ?_, ?_, hkeeps.observed, hkeeps.nextId⟩
  · intro x
    unfold chainOf
    rw [hfind]
    split <;> rfl
  · refine announcedValue_publish hw hfind ?_
    rw [heq]
    exact sameExtensions_published _ _ _ _
  · intro c filter hne hfilter
    exact (filters_publish hs hfilter).resolve_right fun hnew => hne hnew.1
  · intro filter hfilter
    rw [hchain] at hfilter
    obtain ⟨made, hmade', hended⟩ := (works_entered ftn session extensions (w.nextId + 1)
      _).chain_of_some (R := fun f f' => f'.ended = f.ended) hfilter (fun _ => rfl) (by
        rintro f f' change ⟨-, _, _, rfl⟩ hf
        exact hf)
    rw [hmade] at hmade'
    cases hmade'
    exact hended
  · intro filter T e hfilter he
    rw [hchain] at hfilter
    rcases mem_observers_entered hfilter he with hmem | ⟨made, hmade', hold⟩
    · exact hmem
    · rw [hmade] at hmade'
      cases hmade'
      cases hold
  · intro hlone filter hfilter
    rw [hchain] at hfilter
    exact observers_entered hlone hfilter

end Publishing

section Ending

/-- What the end of a chain does to the tracks and the other chains. -/
structure Ends (w w' : MoqxRelay) (id : FilterId) (filter : TopNFilter) : Prop where
  publisher : ∀ x, w'.publisherOf x = if x = filter.ftn then none else w.publisherOf x
  chain : ∀ ⦃x⦄, x ≠ filter.ftn → w'.chainOf x = w.chainOf x
  announced : ∀ ⦃x⦄, x ≠ filter.ftn → ∀ T, w'.announcedValue T x = w.announcedValue T x
  filters : ∀ ⦃c filter'⦄, w'.filters.lookup c = some filter' → ∃ before,
    w.filters.lookup c = some before ∧ filter'.observers = before.observers ∧
      (c ≠ id → filter' = before)
  observed : w'.observed = w.observed
  nextId : w.nextId ≤ w'.nextId

theorem publishDone_ends {id : FilterId} {filter : TopNFilter} (hw : w.Base) (hbacked : w.Backed)
    (hfilter : w.filters.lookup id = some filter) (hs : w.publishDone id = .ok w') :
    w.Ends w' id filter := by
  obtain ⟨found, tree, empty, hfound, htree, hquiet⟩ := publishDone_keeps hs
  rw [hfilter] at hfound
  cases hfound
  have hrecords := hbacked.unpublished hw htree
  have hfind : ∀ {x}, x ≠ filter.ftn → w'.registry.find x = w.registry.find x := by
    intro x hne
    rw [hquiet.registry]
    exact find_onPublisherTerminated hne
  obtain ⟨found, tree', hfound, -, heq⟩ := publishDone_spec hs
  rw [hfilter] at hfound
  cases hfound
  have hsame : w.SameExtensions w' := by
    rw [heq]
    exact (works_endedInRankings id filter).sameExtensions.trans
      (SameExtensions.trans (.of_eq rfl) (sameExtensions_setForwarder fun _ => rfl))
  have hfilters : ∀ c, w'.filters.lookup c = if c = id then
      (w.filters.lookup id).map fun filter => { filter with ended := true }
      else w.filters.lookup c := by
    intro c
    rw [heq, drain, filters_setForwarder, filters_endedInRankings,
      lookup_filters_setFilter]
  refine ⟨?_, ?_, ?_, ?_, hquiet.observed, hquiet.nextId⟩
  · intro x
    unfold publisherOf publishAt
    rw [hquiet.tree]
    rw [hrecords, List.reverse_reverse]
    rfl
  · intro x hne
    unfold chainOf
    rw [hfind hne]
  · intro x hne T
    unfold announcedValue
    rw [hfind hne]
    cases w.registry.find x with
    | none => rfl
    | some rsub => rw [Option.bind_some, Option.bind_some, hsame]
  · intro c filter' hfilter'
    rw [hfilters] at hfilter'
    split at hfilter'
    · next hc =>
      obtain ⟨before, hbefore, rfl⟩ := Option.map_eq_some_iff.mp hfilter'
      exact ⟨before, hc ▸ hbefore, rfl, fun hne => absurd hc hne⟩
    · exact ⟨filter', hfilter', rfl, fun _ => rfl⟩

end Ending

section Subscribing

variable {session : SessionId} {subNs : SubscribeNamespace} {tree : NamespaceTree}

/-- What a SUBSCRIBE_NAMESPACE that makes a ranking does to the tracks and their chains. -/
structure Opens (w w' : MoqxRelay) (path : Path) (T : Nat) (id : RankingId) : Prop extends
    w.MakesRanking w' path T id where
  publishes : w.SamePublishes w'
  filters : ∀ ⦃c filter'⦄, w'.filters.lookup c = some filter' → ∃ filter,
    w.filters.lookup c = some filter ∧ filter'.ended = filter.ended ∧
      (∀ T', T' ≠ T → filter'.observers.lookup T' = filter.observers.lookup T') ∧
      (filter'.observers.lookup T = filter.observers.lookup T ∨
        filter'.observers.lookup T = some ⟨none, id⟩ ∧ path <:+ filter.ftn.trackNamespace.reverse)
  watches : ∀ ⦃x chain⦄, (w.publisherOf x).isSome = true →
    path <:+ x.trackNamespace.reverse → w.chainOf x = some chain → w'.Watches chain T id
  observed : w'.observed = w.observed
  new_lt : w.nextId ≤ id ∧ id < w'.nextId

theorem samePublishes_subscribe {path : Path} {changed : NamespaceRecord} (hbacked : w.Backed)
    (hedits : w.tree.Edits tree path changed)
    (hchanged : changed.publishes = (w.tree.record path).publishes)
    (hrecord : ∀ p, w'.tree.record p = tree.record p) (hregistry : w'.registry = w.registry)
    (hsame : w.SameExtensions w') : w.SamePublishes w' := by
  refine samePublishes_of hbacked ?_ ?_ fun x rsub _ _ => hsame rsub.forwarder
  · intro p
    rw [hrecord]
    exact publishes_of_edits hedits hchanged p
  · rw [hregistry]
    exact .refl _

theorem unmoved_subscribe {path : Path} {changed : NamespaceRecord} (hbacked : w.Backed)
    (hedits : w.tree.Edits tree path changed)
    (hchanged : changed.publishes = (w.tree.record path).publishes)
    (hannounces : w''.Announces w')
    (hquiet : ({ w with tree := tree, nextId := w.nextId + 1 } : MoqxRelay).Quiet w'')
    (hfilters : w''.filters = w.filters) (hsame : w.SameExtensions w'')
    (htracks : w.SameTracks w') : w.Unmoved w' := by
  have hkeeps := hquiet.trans hannounces.toQuiet
  refine ⟨htracks, ?_, ?_, hkeeps.observed, Nat.le_of_succ_le hkeeps.nextId⟩
  · refine samePublishes_subscribe hbacked hedits hchanged (fun p => ?_) hkeeps.registry
      (hsame.trans (.of_eq hannounces.forwarders))
    rw [hkeeps.tree]
  · intro chain filter hfilter
    rw [hannounces.filters, hfilters] at hfilter
    exact .inl hfilter

theorem opens_subscribe {filter : TrackFilter} (hw : w.Base) (hok : w.RankingsOk)
    (hbacked : w.Backed)
    (hadd : w.tree.addNamespaceSubscriber subNs.trackNamespacePrefix session
      (SubscribeNamespace.info subNs (w.subscribeHandle subNs)) = .ok tree)
    (hranking : tree.ranking subNs.trackNamespacePrefix.reverse filter.propertyType = none)
    (hannounces : ((({ w with tree := tree, nextId := w.nextId + 1 } : MoqxRelay).withRetro
      subNs.trackNamespacePrefix.reverse filter.propertyType).callRanking (w.nextId + 1)
      (.addSessionToTopNGroup filter.maxSelected session subNs.forward)).Announces w') :
    w.Opens w' subNs.trackNamespacePrefix.reverse filter.propertyType (w.nextId + 1) := by
  have hmade := makesRanking_subscribe hw hok hadd hranking hannounces
  have hedits := addNamespaceSubscriber_edits hw.tree hadd
  generalize subNs.trackNamespacePrefix.reverse = path at *
  generalize filter.propertyType = T at *
  have hretro := works_withRetro (w := { w with tree := tree, nextId := w.nextId + 1 }) path T
  have hcall := quiet_callRanking
    (w := ({ w with tree := tree, nextId := w.nextId + 1 } : MoqxRelay).withRetro path T)
    (w.nextId + 1) (.addSessionToTopNGroup filter.maxSelected session subNs.forward)
  have hfilters : w'.filters =
      (({ w with tree := tree, nextId := w.nextId + 1 } : MoqxRelay).withRetro path T).filters :=
    hannounces.filters.trans (filters_callRanking _ _)
  have hkeeps := hcall.trans hannounces.toQuiet
  have hquiet :
      (({ w with tree := tree, nextId := w.nextId + 1 } : MoqxRelay).withRanking path T).Quiet
        (({ w with tree := tree, nextId := w.nextId + 1 } : MoqxRelay).withRetro path T) :=
    quiet_foldl (fun w₁ p => quiet_registerRetro T (w.nextId + 1) p) _ _
  refine ⟨hmade, ?_, ?_, ?_, ?_, ?_⟩
  · refine samePublishes_subscribe hbacked hedits rfl ?_ (hkeeps.registry.trans hquiet.registry)
      ((SameExtensions.of_eq rfl).trans (hretro.sameExtensions.trans
        ((sameExtensions_callRanking _ _).trans (.of_eq hannounces.forwarders))))
    intro p
    rw [hkeeps.tree, hquiet.tree]
    exact (insertRanking_spec hedits.wf path T _).2.1 p
  · intro c filter' hfilter'
    rw [hfilters] at hfilter'
    obtain ⟨before, hbefore, hended, hother, hT⟩ := observers_withRetro hfilter'
    refine ⟨before, hbefore, hended, hother, hT.imp_right ?_⟩
    rintro ⟨hnew, x, rsub, hx, hchain, hsuffix⟩
    rw [(hw.chain hx hchain hbefore).1]
    exact ⟨hnew, hsuffix⟩
  · intro x chain hx hsuffix hchain
    obtain ⟨rsub, hfind, hid⟩ := Option.bind_eq_some_iff.mp hchain
    have hrecord : (({ w with tree := tree, nextId := w.nextId + 1 } : MoqxRelay).publishAt
        x.trackNamespace.reverse x.trackName).isSome = true := by
      rw [publishAt, publishes_of_edits hedits rfl]
      exact hx
    have hwatches := watches_withRetro (w := { w with tree := tree, nextId := w.nextId + 1 })
      (T := T) hedits.wf hfind hid hsuffix hrecord
    intro filter' hfilter'
    rw [hfilters] at hfilter'
    exact hwatches filter' hfilter'
  · exact hkeeps.observed.trans hquiet.observed
  · exact ⟨Nat.le_succ _, Nat.lt_of_lt_of_le (Nat.lt_succ_self _)
      (Nat.le_trans hquiet.nextId hkeeps.nextId)⟩

/-- A SUBSCRIBE_NAMESPACE makes a ranking or leaves all tracks alone. -/
theorem subscribe_opens (hw : w.Base) (hok : w.RankingsOk) (hbacked : w.Backed)
    (hs : w.subscribeNamespace session subNs = .ok w') :
    w.Unmoved w' ∨ ∃ filter id, subNs.trackFilter = some filter ∧
      w.Opens w' subNs.trackNamespacePrefix.reverse filter.propertyType id := by
  rcases subscribeNamespace_joins hs with rfl | ⟨tree, hadd, hjoins⟩
  · exact .inl ⟨.of_eq rfl rfl, ⟨fun _ => rfl, fun _ _ => rfl, fun _ _ _ => rfl⟩,
      fun _ _ hfilter => .inl hfilter, rfl, Nat.le_refl _⟩
  have hedits := addNamespaceSubscriber_edits hw.tree hadd
  rcases hjoins with hannounces | ⟨filter, hfilter, ⟨id, hannounces⟩ | ⟨hranking, hannounces⟩⟩
  · exact .inl (unmoved_subscribe hbacked hedits rfl hannounces (.refl _) rfl (.of_eq rfl)
      (.of_edits hedits hannounces.tree hannounces.rankings))
  · exact .inl (unmoved_subscribe hbacked hedits rfl hannounces (quiet_callRanking _ _)
      (filters_callRanking _ _)
      ((SameExtensions.of_eq rfl).trans (sameExtensions_callRanking _ _))
      (sameTracks_subscribe hok hedits hannounces))
  · exact .inr ⟨filter, _, hfilter, opens_subscribe hw hok hbacked hadd hranking hannounces⟩

end Subscribing

section Observing

variable {id : FilterId} {filter : TopNFilter} {extensions : IntExtensions}

theorem Works.observed {P : RankingId → PropertyRanking.Op → Prop}
    {F : FilterId → (TopNFilter → TopNFilter) → Prop} (h : Works P F w w') :
    w'.observed = w.observed := by
  induction h with
  | refl => rfl
  | call _ _ ih => exact (quiet_callRanking _ _).observed.trans ih
  | filter _ _ ih => exact (quiet_setFilter _ _).observed.trans ih
  | touch _ htouch ih =>
    obtain ⟨registry, -, rfl⟩ := touchActivityTarget_spec htouch
    exact ih

/-- What an object does to the tracks and to what is known of their values. -/
structure Brings (w w' : MoqxRelay) (id : FilterId) (filter : TopNFilter)
    (extensions : IntExtensions) : Prop where
  tree : w'.tree = w.tree
  publishes : w.SamePublishes w'
  track : ∀ ranking x, x ≠ filter.ftn → w'.trackOf ranking x = w.trackOf ranking x
  observed : ∀ c, (w'.observed.lookup c).isSome = true →
    (w.observed.lookup c).isSome = true ∨ c = id
  value : ∀ T, w'.observedValue id T = (extensions T).or (w.observedValue id T)
  other : ∀ c T, c ≠ id → w'.observedValue c T = w.observedValue c T
  nextId : w.nextId ≤ w'.nextId

theorem object_brings (hok : w.RankingsOk) (hbacked : w.Backed)
    (hfilter : w.filters.lookup id = some filter) (hs : w.object id extensions = .ok w') :
    w.Brings w' id filter extensions := by
  obtain ⟨found, history, hfound, hworks⟩ := works_object hs
  rw [hfilter] at hfound
  cases hfound
  have hobserves := hworks.observes
  have hobserved : w'.observed = (w.withObserved id extensions).observed := by
    obtain ⟨allows, w₁, fired, hvalues, rfl⟩ := object_eq hfilter hs
    split
    · exact (quiet_setFilter _ _).observed.trans (works_observeValues hvalues).observed
    · exact (works_observeValues hvalues).observed
  have hlookup : ∀ c, c ≠ id → w'.observed.lookup c = w.observed.lookup c := by
    intro c hne
    rw [hobserved]
    exact AList.lookup_insert_ne hne
  have hok' : ({ w with observed := history } : MoqxRelay).RankingsOk :=
    ⟨hok.wf, hok.ranking_lt, hok.there, hok.apart⟩
  refine ⟨hobserves.tree, ?_, ?_, ?_, ?_, ?_, hobserves.nextId⟩
  · refine samePublishes_of hbacked ?_ hobserves.registry.keepsPublished
      fun x rsub _ _ => hworks.sameExtensions rsub.forwarder
    intro p
    rw [hobserves.tree]
  · intro ranking x hne
    refine hworks.trackOf_eq hok' ranking x ?_
    rintro r op (⟨value, activity, rfl⟩ | ⟨activity, rfl⟩) hr
    · rw [PropertyRanking.step, PropertyRanking.track_updateSortValue hr, if_neg hne]
    · exact PropertyRanking.track_sweepIdle activity
  · intro c hc
    by_cases hne : c = id
    · exact .inr hne
    · rw [hlookup c hne] at hc
      exact .inl hc
  · intro T
    unfold observedValue
    rw [hobserved]
    change (((w.observed.insert id _).lookup id).getD _) T = _
    rw [AList.lookup_insert]
    rfl
  · intro c T hne
    unfold observedValue
    rw [hlookup c hne]

end Observing

end MoqxRelay

end Moqx
