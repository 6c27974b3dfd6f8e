import Moqx.Lib.Runs
import Moqx.Relay.RelayWork

/-! What every state of the relay keeps: well-formed registry and tree, fresh identifiers, and
first subscribers that never wait for the forwarder of a PUBLISH. -/
namespace Moqx

open Maps Runs SubscriptionRegistry NamespaceTree

namespace MoqxRelay

variable {w w' w'' : MoqxRelay}

/-- Fresh identifiers, entries whose chains and forwarders belong together, and first subscribers
that wait for entries of their own. -/
structure Base (w : MoqxRelay) : Prop where
  registry : w.registry.WF
  tree : w.tree.WF
  forwarder_lt : ∀ ⦃x rsub⦄, w.registry.find x = some rsub → rsub.forwarder < w.nextId
  chain_lt : ∀ ⦃x rsub id⦄, w.registry.find x = some rsub → rsub.topNFilter = some id →
    id < w.nextId
  chain : ∀ ⦃x rsub id filter⦄, w.registry.find x = some rsub → rsub.topNFilter = some id →
    w.filters.lookup id = some filter → filter.ftn = x ∧ filter.forwarder = rsub.forwarder
  filter_lt : ∀ ⦃id filter⦄, w.filters.lookup id = some filter → id < w.nextId
  pending_lt : ∀ ⦃id first⦄, w.firstSubscribes.lookup id = some first →
    first.pending.weakForwarder < w.nextId
  apart : ∀ ⦃id first x rsub⦄, w.firstSubscribes.lookup id = some first →
    w.registry.find x = some rsub → rsub.isPublish = true →
    rsub.forwarder ≠ first.pending.weakForwarder

theorem base_start (config : RelayConfig) : ({ config := config } : MoqxRelay).Base where
  registry := ⟨fun _ _ h => (by cases h), fun _ _ h => (by cases h),
    fun _ _ _ _ h => (by cases h)⟩
  tree := wf_start
  forwarder_lt := fun _ _ h => by cases h
  chain_lt := fun _ _ _ h => by cases h
  chain := fun _ _ _ _ h => by cases h
  filter_lt := fun _ _ h => by cases h
  pending_lt := fun _ _ h => by cases h
  apart := fun _ _ _ _ h => by cases h

/-- A step that adds no entry, no chain and no waiting subscriber. -/
theorem Base.survives (h : w.Base) (hwf : w'.registry.WF)
    (hentries : w.registry.Survives w'.registry) (htree : w'.tree.WF)
    (hfirst : ∀ id first, w'.firstSubscribes.lookup id = some first →
      w.firstSubscribes.lookup id = some first)
    (hchains : w.SameChains w') (hnext : w.nextId ≤ w'.nextId) : w'.Base := by
  refine ⟨hwf, htree, ?_, ?_, ?_, ?_, ?_, ?_⟩
  · intro x rsub' hx
    obtain ⟨rsub, hx, -, hf, -, -⟩ := hentries hx
    rw [hf]
    exact Nat.lt_of_lt_of_le (h.forwarder_lt hx) hnext
  · intro x rsub' id hx hid
    obtain ⟨rsub, hx, -, -, -, ht⟩ := hentries hx
    exact Nat.lt_of_lt_of_le (h.chain_lt hx (ht.symm.trans hid)) hnext
  · intro x rsub' id filter' hx hid hfilter
    obtain ⟨rsub, hx, -, hf, -, ht⟩ := hentries hx
    obtain ⟨filter, hfilter, hsame⟩ := hchains hfilter
    have hchain := h.chain hx (ht.symm.trans hid) hfilter
    exact ⟨hsame.ftn.trans hchain.1, by rw [hsame.forwarder, hf, hchain.2]⟩
  · intro id filter' hfilter
    obtain ⟨filter, hfilter, -⟩ := hchains hfilter
    exact Nat.lt_of_lt_of_le (h.filter_lt hfilter) hnext
  · intro id first hid
    exact Nat.lt_of_lt_of_le (h.pending_lt (hfirst id first hid)) hnext
  · intro id first x rsub' hid hx hpublish
    obtain ⟨rsub, hx, -, hf, hp, -⟩ := hentries hx
    rw [hf]
    exact h.apart (hfirst id first hid) hx (hp.symm.trans hpublish)

theorem Base.of_keeps (h : w.Base) (hkeeps : w.Quiet w') (hchains : w.SameChains w') : w'.Base := by
  refine h.survives ?_ ?_ ?_ ?_ hchains hkeeps.nextId
  · rw [hkeeps.registry]
    exact h.registry
  · rw [hkeeps.registry]
    exact .refl _
  · rw [hkeeps.tree]
    exact h.tree
  · intro id first hid
    rwa [hkeeps.firstSubscribes] at hid

theorem Base.withTree {tree : NamespaceTree} (h : w.Base) (htree : tree.WF) :
    ({ w with tree := tree } : MoqxRelay).Base :=
  h.survives h.registry (.refl _) htree (fun _ _ hid => hid) (.of_eq rfl) (Nat.le_refl _)

variable {ftn : FullTrackName} {registry : SubscriptionRegistry} {extensions : IntExtensions}
  {handle : HandleId} {requestID : RequestID} {session : SessionId}

theorem createFromPublish_wf {r : SubscriptionRegistry} {rsub : EntryId → RelaySubscription}
    (hr : r.WF) (hentry : ∀ e, (rsub e).entry = e) :
    SubscriptionRegistry.WF { (r.remove ftn).emplace ftn rsub with
      promises := ((r.remove ftn).promises.insert r.nextEntry .pending).insert
        r.nextEntry .value } := by
  have hnext := nextEntry_remove r ftn
  have hremoved : (r.remove ftn).WF := (remove_shrinks ftn hr).wf hr
  have hemplaced : ((r.remove ftn).emplace ftn rsub).WF :=
    emplace_wf hremoved hentry
  have hfind : ((r.remove ftn).emplace ftn rsub).find ftn = some (rsub r.nextEntry) := by
    rw [find_emplace, if_pos rfl, hnext]
  have hcomplete := complete_wf hemplaced hfind
    (rfl : (rsub r.nextEntry).entry = (rsub r.nextEntry).entry)
  simpa [SubscriptionRegistry.emplace, hentry, hnext] using hcomplete

/-- Two new identifiers: for the forwarder of a new entry and for its chain. -/
theorem Base.newEntry (h : w.Base) (ftn : FullTrackName) (sub : RelaySubscription)
    {filter : TopNFilter} {forwarder : MoQForwarder} (hwf : registry.WF)
    (hfind : ∀ x, registry.find x = if x = ftn then some sub
      else w.registry.find x)
    (hsub : sub.forwarder = w.nextId ∧ sub.topNFilter = some (w.nextId + 1))
    (hfilter : filter.ftn = ftn ∧ filter.forwarder = w.nextId) :
    ({ w with
      forwarders := w.forwarders.insert w.nextId forwarder
      filters := w.filters.insert (w.nextId + 1) filter
      registry := registry
      nextId := w.nextId + 2 } : MoqxRelay).Base := by
  have hold : ∀ {x rsub}, x ≠ ftn → registry.find x = some rsub →
      w.registry.find x = some rsub := by
    intro x rsub hne hx
    rwa [hfind, if_neg hne] at hx
  have hnew : ∀ {rsub}, registry.find ftn = some rsub → rsub = sub := by
    intro rsub hx
    rw [hfind, if_pos rfl] at hx
    exact (Option.some.inj hx).symm
  refine ⟨hwf, h.tree, ?_, ?_, ?_, ?_, ?_, ?_⟩
  · intro x rsub hx
    by_cases hne : x = ftn
    · subst hne
      rw [hnew hx, hsub.1]
      lia
    · have := h.forwarder_lt (hold hne hx)
      lia
  · intro x rsub id hx hid
    by_cases hne : x = ftn
    · subst hne
      rw [hnew hx, hsub.2] at hid
      cases hid
      lia
    · have := h.chain_lt (hold hne hx) hid
      lia
  · intro x rsub id found hx hid hfound
    by_cases hne : x = ftn
    · subst hne
      have heq := hnew hx
      subst heq
      rw [hsub.2] at hid
      cases hid
      rw [AList.lookup_insert] at hfound
      cases hfound
      exact ⟨hfilter.1, hfilter.2.trans hsub.1.symm⟩
    · have hlt := h.chain_lt (hold hne hx) hid
      rw [AList.lookup_insert_ne (by lia)] at hfound
      exact h.chain (hold hne hx) hid hfound
  · intro id found hfound
    rcases lookup_insert_some hfound with ⟨rfl, -⟩ | ⟨-, hfound⟩
    · lia
    · have := h.filter_lt hfound
      lia
  · intro id first hid
    exact Nat.lt_of_lt_of_le (h.pending_lt hid) (Nat.le_add_right _ _)
  · intro id first x rsub hid hx hpublish
    by_cases hne : x = ftn
    · subst hne
      rw [hnew hx, hsub.1]
      exact (Nat.ne_of_lt (h.pending_lt hid)).symm
    · exact h.apart hid (hold hne hx) hpublish

/-- The registry after a PUBLISH. -/
theorem find_withPublisher (session : SessionId) (ftn : FullTrackName) (requestID : RequestID)
    (handle : HandleId) (extensions : IntExtensions) (x : FullTrackName) :
    (w.withPublisher session ftn requestID handle extensions).registry.find x =
      if x = ftn then some (SubscriptionRegistry.publishEntry w.nextId session requestID handle
        (w.nextId + 1) w.now w.registry.nextEntry)
      else w.registry.find x := by
  refine find_emplace.trans ?_
  rw [find_remove, nextEntry_remove]
  split <;> rfl

theorem find_of_publish {tree : NamespaceTree}
    (h : ({ w.withPublisher session ftn requestID handle extensions with tree := tree } :
      MoqxRelay).Quiet w') (x : FullTrackName) :
    w'.registry.find x =
      if x = ftn then some (SubscriptionRegistry.publishEntry w.nextId session requestID handle
        (w.nextId + 1) w.now w.registry.nextEntry)
      else w.registry.find x := by
  rw [h.registry]
  exact find_withPublisher session ftn requestID handle extensions x

theorem Base.withPublisher (h : w.Base) (session : SessionId) (ftn : FullTrackName)
    (requestID : RequestID) (handle : HandleId) (extensions : IntExtensions) :
    (w.withPublisher session ftn requestID handle extensions).Base := by
  refine h.newEntry ftn (SubscriptionRegistry.publishEntry w.nextId session requestID handle
    (w.nextId + 1) w.now w.registry.nextEntry) (createFromPublish_wf h.registry fun _ => rfl) ?_
    ⟨rfl, rfl⟩ ⟨rfl, rfl⟩
  exact fun x => find_withPublisher session ftn requestID handle extensions x

theorem Base.withSubscriber (h : w.Base) (ftn : FullTrackName) :
    (w.withSubscriber ftn).Base :=
  h.newEntry ftn _ (emplace_wf h.registry fun _ => rfl)
    (fun _ => find_emplace) ⟨rfl, rfl⟩ ⟨rfl, rfl⟩

/-- A first subscriber waits for the forwarder that was made for it. -/
theorem Base.firstSubscriber (h : w.Base) (ftn : FullTrackName) (id : Nat)
    (upstreamSession : SessionId) :
    ({ w.withSubscriber ftn with
      firstSubscribes := w.firstSubscribes.insert id ⟨⟨ftn, w.nextId⟩, upstreamSession⟩ } :
        MoqxRelay).Base := by
  have hadded := h.withSubscriber ftn
  refine ⟨hadded.registry, hadded.tree, hadded.forwarder_lt, hadded.chain_lt, hadded.chain,
    hadded.filter_lt, ?_, ?_⟩
  · intro id' first hid
    change first.pending.weakForwarder < w.nextId + 2
    rcases lookup_insert_some hid with ⟨-, rfl⟩ | ⟨-, hid⟩
    · simp
    · have := h.pending_lt hid
      lia
  · intro id' first x rsub hid hx hpublish
    rcases lookup_insert_some hid with ⟨-, rfl⟩ | ⟨-, hid⟩
    · have hfind : (if x = ftn then _ else w.registry.find x) = some rsub :=
        find_emplace.symm.trans hx
      split at hfind
      · cases hfind
        cases hpublish
      · exact Nat.ne_of_lt (h.forwarder_lt hfind)
    · exact hadded.apart hid hx hpublish

/-- A step after which the same tracks and namespaces are published, and the same sessions
subscribe to namespaces. -/
structure Steady (w w' : MoqxRelay) : Prop where
  registry : w.registry.KeepsPublished w'.registry
  record : ∀ p, ∃ handles, w'.tree.record p =
    { w.tree.record p with draft14PubNsHandles := handles }
  ranking : ∀ p propertyType, w'.tree.ranking p propertyType = w.tree.ranking p propertyType
  nextId : w.nextId ≤ w'.nextId

/-- A step that moreover calls no ranking. A new entry has a new chain, and a new chain has
neither target nor observers. -/
structure Idle (w w' : MoqxRelay) : Prop extends w.Steady w' where
  entries : ∀ ⦃x rsub'⦄, w'.registry.find x = some rsub' →
    (∃ rsub, w.registry.find x = some rsub ∧ rsub'.entry = rsub.entry ∧
      rsub'.isPublish = rsub.isPublish ∧ rsub'.topNFilter = rsub.topNFilter) ∨
    ∃ id, rsub'.topNFilter = some id ∧ w.nextId ≤ id
  rankings : w'.rankings = w.rankings
  filters : ∀ ⦃id filter⦄, w'.filters.lookup id = some filter →
    w.filters.lookup id = some filter ∨
      w.nextId ≤ id ∧ filter.activityTarget = none ∧ filter.observers = ∅
  observed : w'.observed = w.observed

/-- Every entry was there before. -/
theorem entries_of_survives {r r' : SubscriptionRegistry} {nextId : Nat} (h : r.Survives r')
    ⦃x : FullTrackName⦄ ⦃rsub' : RelaySubscription⦄ (hx : r'.find x = some rsub') :
    (∃ rsub, r.find x = some rsub ∧ rsub'.entry = rsub.entry ∧
      rsub'.isPublish = rsub.isPublish ∧ rsub'.topNFilter = rsub.topNFilter) ∨
    ∃ id, rsub'.topNFilter = some id ∧ nextId ≤ id := by
  obtain ⟨rsub, hx, he, -, hp, ht⟩ := h hx
  exact .inl ⟨rsub, hx, he, hp, ht⟩

theorem Attends.idle (h : w.Attends w') : w.Idle w' where
  registry := by rw [h.registry]; exact .refl _
  record := fun p => ⟨_, by rw [h.tree]⟩
  ranking := fun p propertyType => by rw [h.tree]
  nextId := h.nextId
  entries := entries_of_survives (by rw [h.registry]; exact .refl _)
  rankings := h.rankings
  filters := fun id filter hfilter => .inl (by rwa [h.filters] at hfilter)
  observed := h.observed

theorem Idle.attends (h : w.Idle w') (h' : w'.Attends w'') : w.Idle w'' where
  registry := by rw [h'.registry]; exact h.registry
  record := fun p => by rw [h'.tree]; exact h.record p
  ranking := fun p propertyType => by rw [h'.tree]; exact h.ranking p propertyType
  nextId := Nat.le_trans h.nextId h'.nextId
  entries := fun x rsub' hx => h.entries (by rwa [h'.registry] at hx)
  rankings := h'.rankings.trans h.rankings
  filters := fun id filter hfilter => h.filters (by rwa [h'.filters] at hfilter)
  observed := h'.observed.trans h.observed

/-- Only the registry and those who wait for it change. -/
theorem idle_of_registry {firstSubscribes : AList (fun _ : Nat => FirstSubscribe)}
    {forwarders : AList fun _ : ForwarderId => MoQForwarder}
    (h : w.registry.KeepsPublished registry) (hsurvives : w.registry.Survives registry) :
    w.Idle { w with
      forwarders := forwarders, registry := registry, firstSubscribes := firstSubscribes } where
  registry := h
  record := fun _ => ⟨_, rfl⟩
  ranking := fun _ _ => rfl
  nextId := Nat.le_refl _
  entries := entries_of_survives hsurvives
  rankings := rfl
  filters := fun _ _ hfilter => .inl hfilter
  observed := rfl

theorem Observes.steady (h : w.Observes w') : w.Steady w' where
  registry := h.registry.keepsPublished
  record := fun p => ⟨_, by rw [h.tree]⟩
  ranking := fun p propertyType => by rw [h.tree]
  nextId := h.nextId

theorem withSubscriber_keepsPublished (h : w.registry.find ftn = none) :
    w.registry.KeepsPublished (w.withSubscriber ftn).registry := by
  refine keepsPublished_of_ne ftn ?_ ?_ ?_
  · intro x hne
    exact find_emplace.trans (if_neg hne)
  · intro rsub hfind
    rw [h] at hfind
    cases hfind
  · intro rsub hfind
    have := (find_emplace.trans (if_pos rfl)).symm.trans hfind
    cases this
    rfl

theorem idle_withSubscriber {firstSubscribes : AList (fun _ : Nat => FirstSubscribe)}
    (h : w.registry.KeepsPublished registry)
    (hsurvives : (w.withSubscriber ftn).registry.Survives registry) :
    w.Idle { w.withSubscriber ftn with
      registry := registry, firstSubscribes := firstSubscribes } where
  registry := h
  record := fun _ => ⟨_, rfl⟩
  ranking := fun _ _ => rfl
  nextId := Nat.le_add_right _ 2
  entries := by
    intro x rsub' hx
    obtain ⟨rsub, hx, he, -, hp, ht⟩ := hsurvives hx
    have hfind : (if x = ftn then _ else w.registry.find x) = some rsub :=
      find_emplace.symm.trans hx
    split at hfind
    · cases hfind
      exact .inr ⟨w.nextId + 1, ht, Nat.le_succ _⟩
    · exact .inl ⟨rsub, hfind, he, hp, ht⟩
  rankings := rfl
  filters := by
    intro id filter hfilter
    rcases lookup_insert_some hfilter with ⟨rfl, rfl⟩ | ⟨-, hfilter⟩
    · exact .inr ⟨Nat.le_succ _, rfl, rfl⟩
    · exact .inl hfilter
  observed := rfl

theorem idle_subscribe {forward : Bool} (h : w.subscribe session ftn forward = .ok w') :
    w.Idle w' := by
  rcases subscribe_spec h with rfl | ⟨hnone, registry, firstSubscribes, houtcome, hattends⟩ |
    ⟨laterSubscribes, rfl⟩
  · exact (Attends.refl _).idle
  · have hadded := withSubscriber_keepsPublished hnone
    rcases houtcome with ⟨-, hfail⟩ | ⟨rfl, -⟩
    · refine Idle.attends (idle_withSubscriber (hadded.trans
        (failAndRemove_keepsPublished ?_ hfail))
        (failAndRemove_survives hfail)) hattends
      intro rsub hfind hpublish
      have := (find_emplace.trans (if_pos rfl)).symm.trans hfind
      cases this
      cases hpublish
    · exact Idle.attends (idle_withSubscriber hadded (.refl _)) hattends
  · exact Attends.idle ⟨⟨rfl, rfl, rfl, rfl, Nat.le_succ _⟩, rfl, rfl, .of_eq rfl⟩

theorem idle_upstreamOk {id : Nat} (hw : w.Base)
    (h : w.upstreamOk id handle requestID extensions = .ok w') : w.Idle w' := by
  obtain ⟨first, registry, replaced, forwarders, hfirst, hcomplete, rfl⟩ := upstreamOk_spec h
  have hkeeps := completeSubscription_keepsPublished
    (fun _ hfind hpublish => hw.apart hfirst hfind hpublish) hcomplete
  exact idle_of_registry hkeeps (completeSubscription_survives hcomplete)

theorem idle_upstreamError {id : Nat} (hw : w.Base) (h : w.upstreamError id = .ok w') :
    w.Idle w' := by
  obtain ⟨first, registry, hfirst, hfail, rfl⟩ := upstreamError_spec h
  have hkeeps := failAndRemove_keepsPublished
    (fun _ hfind hpublish => hw.apart hfirst hfind hpublish) hfail
  exact idle_of_registry hkeeps (failAndRemove_survives hfail)

theorem idle_publishNamespaceReply {id : Nat} {accepted : Bool} (hw : w.Base)
    (h : w.publishNamespaceReply id accepted = .ok w') : w.Idle w' := by
  obtain ⟨tree, htree, hattends⟩ := publishNamespaceReply_spec h
  rcases htree with rfl | ⟨path, node, session, handle, rfl⟩
  · exact hattends.idle
  · obtain ⟨-, hrecord, -, hranking⟩ :=
      addDraft14PublishNamespaceHandle_spec hw.tree path node session handle
    have htree : w.Idle { w with
        tree := w.tree.addDraft14PublishNamespaceHandle path node session handle } :=
      ⟨⟨.refl _, hrecord, hranking, Nat.le_refl _⟩, entries_of_survives (.refl _), rfl,
        fun _ _ hfilter => .inl hfilter, rfl⟩
    exact htree.attends hattends

/-- The steps that publish nothing, end nothing and call no ranking. -/
def Op.idles : Op → Bool
  | .publishNamespace .. | .publishNamespaceDone .. | .publish .. | .object .. | .publishDone ..
  | .subscribeNamespace .. | .unsubscribeNamespace .. | .onEmpty .. => false
  | _ => true

theorem Base.idle {op : Op} (hw : w.Base) (hop : op.idles = true) (h : w.step op = .ok w') :
    w.Idle w' := by
  cases op with
  | publishNamespace | publishNamespaceDone | publish | object | publishDone | subscribeNamespace
  | unsubscribeNamespace | onEmpty => cases hop
  | tick | close =>
    cases h
    exact Attends.idle ⟨⟨rfl, rfl, rfl, rfl, Nat.le_refl _⟩, rfl, rfl, .of_eq rfl⟩
  | release filter =>
    cases h
    refine ⟨⟨.refl _, fun _ => ⟨_, rfl⟩, fun _ _ => rfl, Nat.le_refl _⟩,
      entries_of_survives (.refl _), rfl, ?_, rfl⟩
    intro id found hfound
    exact .inl (lookup_erase_some hfound).2
  | subscribe session ftn forward => exact idle_subscribe h
  | upstreamOk id handle requestID extensions => exact idle_upstreamOk hw h
  | upstreamError id => exact idle_upstreamError hw h
  | resumeLater id inRange => exact (resumeLater_spec h).idle
  | startPublish id accepted => exact (startPublish_spec h).idle
  | publishReply id reply => exact (publishReply_spec h).idle
  | publishNamespaceReply id accepted => exact idle_publishNamespaceReply hw h
  | leave forwarder session =>
    cases h
    exact (attends_removeSubscriber _ _).idle
  | forwardChanged forwarder forward => exact (forwardChanged_announces h).attends.idle
  | newGroupRequested forwarder group => exact (newGroupRequested_announces h).attends.idle

theorem Base.attends (hw : w.Base) (h : w.Attends w') : w'.Base :=
  hw.of_keeps h.toQuiet (.of_eq h.filters)

theorem Base.publish (hw : w.Base)
    (h : w.publish session ftn requestID handle extensions = .ok w') : w'.Base := by
  rcases publish_spec h with rfl | ⟨tree, added, forward, hadd, -, rfl⟩
  · exact hw
  · have htree : tree.WF := (addPublish_edits hw.tree hadd).1.wf
    have hbase := (hw.withPublisher session ftn requestID handle extensions).withTree htree
    have hrecorded := hbase.of_keeps (recorded_keeps session ftn requestID handle extensions tree)
      (.of_eq (endEvicted_attends _).filters)
    have hentered := works_entered (w := w.recorded session ftn requestID handle extensions tree)
      ftn session extensions (w.nextId + 1) added.rankings
    have hquiet := quiet_foldl (f := enterRanking ftn session extensions (w.nextId + 1))
      (fun w ranking => quiet_enterRanking _ _ _ _ _) added.rankings
      (w.recorded session ftn requestID handle extensions tree)
    have hpassed := (hrecorded.of_keeps hquiet (hentered.sameChains
      fun _ _ h => h.2.elim fun _ h => h.elim fun _ h => h.sameChain)).attends
      (announces_passOn session w.nextId added.subscribers).attends
    exact hpassed.attends (announces_send _).attends

theorem Base.publishNamespace {ns : TrackNamespace} {callback : Option CallbackId}
    {peerID : String} (hw : w.Base)
    (h : w.doPublishNamespace ns session callback peerID = .ok w') : w'.Base := by
  rcases doPublishNamespace_spec h with rfl | ⟨tree, result, hset, hannounces⟩
  · exact hw
  · have htree : tree.WF := (setPublisher_edits hw.tree hset).1.wf
    have hbase : ({ w with
        tree := tree
        registry := withoutReplaced w.registry ns result.replacedSession } : MoqxRelay).Base :=
      hw.survives (withoutReplaced_wf hw.registry _ _) (withoutReplaced_survives _ _ _) htree
        (fun _ _ hid => hid) (.of_eq rfl) (Nat.le_refl _)
    exact hbase.attends hannounces.attends

theorem Base.object {filter : FilterId} (hw : w.Base)
    (h : w.object filter extensions = .ok w') : w'.Base := by
  have hobserves := object_observes h
  obtain ⟨_, observed, -, hworks⟩ := works_object h
  refine hw.survives ?_ hobserves.registry.survives ?_ ?_ ?_ hobserves.nextId
  · exact hobserves.registry.shrinks.wf hw.registry
  · rw [hobserves.tree]
    exact hw.tree
  · intro id first hid
    rwa [hobserves.firstSubscribes] at hid
  · exact SameChains.trans (.of_eq rfl) (hworks.sameChains fun _ _ hF filter => (hF.2 filter).1)

theorem Base.publishDone {filter : FilterId} (hw : w.Base)
    (h : w.publishDone filter = .ok w') : w'.Base := by
  obtain ⟨found, tree, hfound, htree, rfl⟩ := publishDone_spec h
  obtain ⟨_, hedits⟩ := publishDone_edits hw.tree htree
  have hquiet := quiet_endedInRankings (w := w) filter found
  have hbase : ({ w.endedInRankings filter found with
      tree := tree
      registry := (w.registry.onPublisherTerminated found.ftn
        (w.endedInRankings filter found).forwarderEmpty).1 } : MoqxRelay).Base := by
    refine hw.survives ?_ (onPublisherTerminated_survives _ _ _) hedits.wf ?_
      ?_ hquiet.nextId
    · exact (onPublisherTerminated_shrinks _ hw.registry).wf hw.registry
    · intro id first hid
      rw [← hquiet.firstSubscribes]
      exact hid
    · refine SameChains.trans ((works_endedInRankings filter found).sameChains ?_) (.of_eq rfl)
      rintro _ _ ⟨-, rfl⟩
      exact fun _ => ⟨rfl, rfl, rfl, rfl⟩
  exact hbase.of_keeps (quiet_setForwarder _ _) (.of_eq (filters_setForwarder _ _))

theorem Base.subscribeNamespace {subNs : SubscribeNamespace} (hw : w.Base)
    (h : w.subscribeNamespace session subNs = .ok w') : w'.Base := by
  rcases subscribeNamespace_spec h with rfl | ⟨tree, hadd, hannounces⟩
  · exact hw
  · have htree : tree.WF := (addNamespaceSubscriber_edits hw.tree hadd).wf
    refine ((hw.withTree ?_).of_keeps (joined_quiet session subNs tree)
      (SameChains.trans (.of_eq rfl) (sameChains_joined session subNs tree))).attends
        hannounces.attends
    cases subNs.trackFilter with
    | none => exact htree
    | some filter =>
      simp only [Option.elim_some]
      split
      · exact htree
      · exact (insertRanking_spec htree _ _ _).1

theorem Base.subscribe {forward : Bool} (hw : w.Base)
    (h : w.subscribe session ftn forward = .ok w') : w'.Base := by
  rcases subscribe_spec h with rfl | ⟨hnone, registry, firstSubscribes, houtcome, hattends⟩ |
    ⟨laterSubscribes, rfl⟩
  · exact hw
  · refine Base.attends ?_ hattends
    rcases houtcome with ⟨rfl, hfail⟩ | ⟨rfl, id, upstreamSession, rfl⟩
    · have hadded := hw.withSubscriber ftn
      exact hadded.survives
        ((failAndRemove_shrinks hadded.registry hfail).wf hadded.registry)
        (failAndRemove_survives hfail) hw.tree (fun _ _ hid => hid)
        (.of_eq rfl) (Nat.le_refl _)
    · exact hw.firstSubscriber ftn id upstreamSession
  · exact hw.of_keeps ⟨rfl, rfl, rfl, rfl, Nat.le_succ _⟩ (.of_eq rfl)

theorem Base.upstreamOk {id : Nat} (hw : w.Base)
    (h : w.upstreamOk id handle requestID extensions = .ok w') : w'.Base := by
  obtain ⟨first, registry, replaced, forwarders, hfirst, hcomplete, rfl⟩ := upstreamOk_spec h
  exact hw.survives (completeSubscription_wf hw.registry hcomplete)
    (completeSubscription_survives hcomplete) hw.tree
    (fun _ _ hid => (lookup_erase_some hid).2) (.of_eq rfl) (Nat.le_refl _)

theorem Base.upstreamError {id : Nat} (hw : w.Base) (h : w.upstreamError id = .ok w') :
    w'.Base := by
  obtain ⟨first, registry, hfirst, hfail, rfl⟩ := upstreamError_spec h
  exact hw.survives ((failAndRemove_shrinks hw.registry hfail).wf hw.registry)
    (failAndRemove_survives hfail) hw.tree
    (fun _ _ hid => (lookup_erase_some hid).2) (.of_eq rfl) (Nat.le_refl _)

theorem Base.publishNamespaceReply {id : Nat} {accepted : Bool} (hw : w.Base)
    (h : w.publishNamespaceReply id accepted = .ok w') : w'.Base := by
  obtain ⟨tree, htree, hattends⟩ := publishNamespaceReply_spec h
  refine (hw.withTree ?_).attends hattends
  rcases htree with rfl | ⟨path, node, session, handle, rfl⟩
  · exact hw.tree
  · exact (addDraft14PublishNamespaceHandle_spec hw.tree _ _ _ _).1

theorem Base.onEmpty {forwarder : ForwarderId} (hw : w.Base)
    (h : w.onEmpty forwarder = .ok w') : w'.Base := by
  rcases onEmpty_spec h with rfl | ⟨handle, rfl⟩ | ⟨_, _, outputs, -, -, -, rfl⟩
  · exact hw
  · exact hw.attends (announces_send _).attends
  · exact hw.survives ((remove_shrinks _ hw.registry).wf hw.registry)
      (remove_survives _ _) hw.tree (fun _ _ hid => hid) (.of_eq rfl)
      (Nat.le_refl _)

theorem Base.step {op : Op} (hw : w.Base) (h : w.step op = .ok w') : w'.Base := by
  cases op with
  | tick | close =>
    cases h
    exact hw.of_keeps ⟨rfl, rfl, rfl, rfl, Nat.le_refl _⟩ (.of_eq rfl)
  | publishNamespace session ns callback peerID => exact hw.publishNamespace h
  | publishNamespaceDone session ns =>
    rcases doPublishNamespaceDone_spec hw.tree h with rfl | ⟨tree, hedits, hannounces⟩
    · exact hw
    · exact (hw.withTree hedits.wf).attends hannounces.attends
  | publish session ftn requestID handle extensions => exact hw.publish h
  | object filter extensions => exact hw.object h
  | publishDone filter => exact hw.publishDone h
  | release filter =>
    cases h
    refine hw.survives hw.registry (.refl _) hw.tree (fun _ _ hid => hid) ?_ (Nat.le_refl _)
    intro id found hfound
    exact ⟨found, (lookup_erase_some hfound).2, .refl _⟩
  | subscribeNamespace session subNs => exact hw.subscribeNamespace h
  | unsubscribeNamespace session prefix_ =>
    obtain ⟨tree, _, hedits, rfl | ⟨id, n, rfl⟩⟩ := unsubscribeNamespace_edits hw.tree h
    · exact hw.withTree hedits.wf
    · exact (hw.withTree hedits.wf).of_keeps (quiet_callRanking _ _)
        (.of_eq (filters_callRanking _ _))
  | subscribe session ftn forward => exact hw.subscribe h
  | upstreamOk id handle requestID extensions => exact hw.upstreamOk h
  | upstreamError id => exact hw.upstreamError h
  | resumeLater id inRange => exact hw.attends (resumeLater_spec h)
  | startPublish id accepted => exact hw.attends (startPublish_spec h)
  | publishReply id reply => exact hw.attends (publishReply_spec h)
  | publishNamespaceReply id accepted => exact hw.publishNamespaceReply h
  | leave forwarder session =>
    cases h
    exact hw.attends (attends_removeSubscriber _ _)
  | onEmpty forwarder => exact hw.onEmpty h
  | forwardChanged forwarder forward => exact hw.attends (forwardChanged_announces h).attends
  | newGroupRequested forwarder group => exact hw.attends (newGroupRequested_announces h).attends

/-- The states that a relay reaches by steps that all meet `Q`, with any configuration. -/
def Reached (Q : MoqxRelay → Op → Prop) (w : MoqxRelay) : Prop :=
  ∃ config : RelayConfig, Reaches MoqxRelay.step Q { config := config } w

theorem Reached.keeps {Q : MoqxRelay → Op → Prop} {I : MoqxRelay → Prop} (h : Reached Q w)
    (hstart : ∀ config : RelayConfig, I { config := config })
    (hstep : ∀ w op w', w.Base → I w → Q w op → w.step op = .ok w' → I w') : w.Base ∧ I w := by
  obtain ⟨config, h⟩ := h
  refine Reaches.keeps (I := fun w => w.Base ∧ I w) h ⟨base_start config, hstart config⟩ ?_
  exact fun w op w' hw hq hs => ⟨hw.1.step hs, hstep w op w' hw.1 hw.2 hq hs⟩

end MoqxRelay

end Moqx
