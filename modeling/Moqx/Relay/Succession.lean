import Moqx.Relay.RankedTracks

/-! What a replaced publisher can do to its successor. The end of a track is found by its name, so
that the end of the replaced one is taken for the end of the new one; and a ranking that has the
track keeps the owner it has. -/
namespace Moqx

open Maps Runs

namespace MoqxRelay

variable {w w' : MoqxRelay}

/-- A ranking without the track has nothing to remove. -/
theorem removeTrack_of_none {r : PropertyRanking} {x : FullTrackName} (h : r.track x = none) :
    r.removeTrack x = (r, []) := by
  unfold PropertyRanking.removeTrack
  cases hfind : r.trackIndexByName x with
  | none => rfl
  | some e =>
    have hsome := PropertyRanking.track_isSome_iff (r := r) (x := x)
    rw [h, hfind] at hsome
    cases hsome

variable {filter : TopNFilter} {rsub : RelaySubscription}

/-- If no ranking that observes a chain has its track, the end of the chain calls nobody back. -/
theorem forwarders_endedInRankings {id : FilterId}
    (h : ∀ e ∈ filter.observers.entries, w.trackOf e.2.ranking filter.ftn = none) :
    (w.endedInRankings id filter).forwarders = w.forwarders := by
  have hset : ∀ change, (w.setFilter id change).forwarders = w.forwarders := by
    intro change
    unfold setFilter
    split <;> rfl
  have hkept := foldl_keeps (I := fun w₁ : MoqxRelay => w₁.forwarders = w.forwarders ∧
      ∀ id, w₁.rankings.lookup id = w.rankings.lookup id)
    (f := fun (w₁ : MoqxRelay) (e : (_ : Nat) × ObserverEntry) =>
      w₁.callRanking e.2.ranking (.removeTrack filter.ftn))
    (s := w.setFilter id fun filter => { filter with ended := true }) filter.observers.entries
    ⟨hset _, fun id => by rw [rankings_setFilter]⟩ ?_
  · exact hkept.1
  · rintro w₁ ⟨hforwarders, hrankings⟩ e he
    refine ⟨?_, ?_⟩
    · unfold callRanking
      split
      · exact hforwarders
      · next r hr =>
        have hnone := h e he
        rw [trackOf, ← hrankings, hr, Option.bind_some] at hnone
        rw [PropertyRanking.step, removeTrack_of_none hnone]
        exact hforwarders
    · intro ranking
      rw [lookup_rankings_callRanking, hrankings, hrankings]
      split
      · next heq =>
        subst heq
        cases hr : w.rankings.lookup e.2.ranking with
        | none => rfl
        | some r =>
          have hnone := h e he
          rw [trackOf, hr, Option.bind_some] at hnone
          rw [Option.map_some, PropertyRanking.step, removeTrack_of_none hnone]
      · rfl

/-- The handle, the upstream and the forwarder of the entry of a track. -/
def registered (w : MoqxRelay) (ftn : FullTrackName) :
    Option (Option HandleId × Option SessionId × ForwarderId) :=
  (w.registry.find ftn).map fun rsub => (rsub.handle, rsub.upstream, rsub.forwarder)

/-- The entry of a track, its record in the tree and its place in every ranking stay. -/
def SameStanding (w w' : MoqxRelay) (ftn : FullTrackName) : Prop :=
  w'.registered ftn = w.registered ftn ∧
    w'.publishAt ftn.trackNamespace.reverse ftn.trackName =
      w.publishAt ftn.trackNamespace.reverse ftn.trackName ∧
    ∀ id, w'.trackOf id ftn = w.trackOf id ftn

/-- The track of an entry has ended while subscribers hold its forwarder, and no ranking that
observes the chain has it. -/
def OutOfReach (w : MoqxRelay) (filter : TopNFilter) (rsub : RelaySubscription) : Prop :=
  rsub.handle = none ∧ rsub.upstream = none ∧ w.forwarderEmpty rsub.forwarder = false ∧
    w.publishAt filter.ftn.trackNamespace.reverse filter.ftn.trackName = none ∧
    ∀ e ∈ filter.observers.entries, w.trackOf e.2.ranking filter.ftn = none

/-- The rankings on the way from a track to the root have it, and all that have it name one
owner. -/
def Attributes (w : MoqxRelay) (ftn : FullTrackName) (session : SessionId) : Prop :=
  ∀ p T id, w.tree.ranking p T = some id →
    (p <:+ ftn.trackNamespace.reverse → (w.trackOf id ftn).isSome = true) ∧
      ∀ value owner, w.trackOf id ftn = some (value, owner) → owner = session

theorem find_terminated {r : SubscriptionRegistry} {ftn : FullTrackName}
    {empty : ForwarderId → Bool} (h : r.find ftn = some rsub) :
    (r.onPublisherTerminated ftn empty).1.find ftn =
      if empty rsub.forwarder then none
      else some { rsub with handle := none, upstream := none } := by
  unfold SubscriptionRegistry.onPublisherTerminated
  rw [h]
  simp only
  split
  · rw [SubscriptionRegistry.find_remove, if_pos rfl]
  · exact AList.lookup_insert _

/-- The end of a chain, as the entry of its track under a PUBLISH sees it. -/
theorem publishDone_standing {id : FilterId} (hw : w.Base)
    (hfilter : w.filters.lookup id = some filter) (hfind : w.registry.find filter.ftn = some rsub)
    (hpublish : rsub.isPublish = true) (hs : w.publishDone id = .ok w') :
    w'.registered filter.ftn =
        (if (w.endedInRankings id filter).forwarderEmpty rsub.forwarder then none
        else some (none, none, rsub.forwarder)) ∧
      w'.publishAt filter.ftn.trackNamespace.reverse filter.ftn.trackName = none := by
  obtain ⟨found, tree, hfound, htree, rfl⟩ := publishDone_spec hs
  rw [hfilter] at hfound
  cases hfound
  refine ⟨?_, ?_⟩
  · unfold registered
    rw [drain, (quiet_setForwarder _ _).registry]
    change (SubscriptionRegistry.find (SubscriptionRegistry.onPublisherTerminated _ _ _).1 _).map
      _ = _
    rw [find_terminated hfind]
    split <;> rfl
  · rw [hfind, Option.any_some, hpublish, if_pos rfl] at htree
    unfold publishAt
    rw [drain, (quiet_setForwarder _ _).tree]
    change (tree.record _).publishes.lookup _ = none
    rw [(NamespaceTree.unpublishTrack_edits hw.tree htree).record, if_pos rfl]
    exact AList.lookup_erase _ _

/-- A late end of a replaced publisher leaves its successor alone only if nothing is left of it
that could change. -/
theorem sameStanding_iff {id : FilterId} (hw : w.Base) (hok : w.RankingsOk)
    (hfilter : w.filters.lookup id = some filter) (hfind : w.registry.find filter.ftn = some rsub)
    (hpublish : rsub.isPublish = true) (hs : w.publishDone id = .ok w') :
    w.SameStanding w' filter.ftn ↔ w.OutOfReach filter rsub := by
  obtain ⟨hregistered, hrecord⟩ := publishDone_standing hw hfilter hfind hpublish hs
  obtain ⟨found, hfound, -, htracks⟩ := publishDone_tracks hw hok hs
  rw [hfilter] at hfound
  cases hfound
  have hold : w.registered filter.ftn = some (rsub.handle, rsub.upstream, rsub.forwarder) := by
    rw [registered, hfind]
    rfl
  have hempty : (∀ e ∈ filter.observers.entries, w.trackOf e.2.ranking filter.ftn = none) →
      (w.endedInRankings id filter).forwarderEmpty rsub.forwarder =
        w.forwarderEmpty rsub.forwarder := by
    intro hnone
    unfold forwarderEmpty
    rw [forwarders_endedInRankings hnone]
  constructor
  · rintro ⟨hentry, hpublishAt, htrack⟩
    have hnone : ∀ e ∈ filter.observers.entries, w.trackOf e.2.ranking filter.ftn = none := by
      intro e he
      rw [← htrack, htracks, if_pos ⟨rfl, e, he, rfl⟩]
    rw [hregistered, hold, hempty hnone] at hentry
    split at hentry
    · cases hentry
    · next hfull =>
      simp only [Option.some.injEq, Prod.mk.injEq] at hentry
      exact ⟨hentry.1.symm, hentry.2.1.symm, by simpa using hfull, hpublishAt.symm.trans hrecord,
        hnone⟩
  · rintro ⟨hhandle, hupstream, hfull, hpublishAt, hnone⟩
    refine ⟨?_, hrecord.trans hpublishAt.symm, ?_⟩
    · rw [hregistered, hempty hnone, hfull, hold, hhandle, hupstream]
      rfl
    · intro ranking
      rw [htracks]
      split
      · next hon =>
        obtain ⟨-, e, he, rfl⟩ := hon
        exact (hnone e he).symm
      · rfl

/-- A ranking names the session of a new PUBLISH unless it has the track from another one. -/
theorem attributes_iff {session : SessionId} {ftn : FullTrackName} {requestID : RequestID}
    {handle : HandleId} {extensions : IntExtensions} (hw : w.Base) (hok : w.RankingsOk)
    (hscoped : w.Scoped)
    (hallowed : w.config.allowedNamespacePrefix.isPrefixOf ftn.trackNamespace = true)
    (hns : ftn.trackNamespace ≠ [])
    (hs : w.publish session ftn requestID handle extensions = .ok w') :
    w'.Attributes ftn session ↔ ∀ p T id, w.tree.ranking p T = some id →
      ∀ value owner, w.trackOf id ftn = some (value, owner) → owner = session := by
  rcases publish_tracks hw hok hs with rfl | ⟨hranking, hkept, htracks⟩
  · exact absurd (nextId_publish hallowed hns hs) (Nat.lt_irrefl _)
  constructor
  · intro hattributes p T id hp value owner htrack
    have hsuffix := hscoped hp (by rw [htrack]; rfl)
    have hp' : w'.tree.ranking p T = some id := (hkept p T hsuffix).trans hp
    refine (hattributes p T id hp').2 value owner ?_
    rw [htracks p T id ftn hp', if_pos ⟨rfl, hsuffix⟩, htrack]
    rfl
  · intro howner p T id hp'
    have hp := hranking p T id hp'
    rw [htracks p T id ftn hp']
    by_cases hsuffix : p <:+ ftn.trackNamespace.reverse
    · rw [if_pos ⟨rfl, hsuffix⟩]
      refine ⟨fun _ => by rw [Option.isSome_or]; simp, ?_⟩
      intro value owner htrack
      cases hbefore : w.trackOf id ftn with
      | none =>
        rw [hbefore] at htrack
        cases htrack
        rfl
      | some before =>
        rw [hbefore] at htrack
        cases htrack
        exact howner p T id hp value owner hbefore
    · rw [if_neg fun hon => hsuffix hon.2]
      exact ⟨fun hon => absurd hon hsuffix, howner p T id hp⟩

/-- In every state in which a PUBLISH has replaced another one: the end of the replaced chain
leaves the successor alone iff the successor is out of reach; and after a PUBLISH that replaces
another one every ranking names the new session iff none had the track from another session. -/
theorem successor_unharmed_iff (h : Reached (fun _ _ => True) w) :
    (∀ id filter rsub w', w.filters.lookup id = some filter →
      w.registry.find filter.ftn = some rsub → rsub.isPublish = true →
      rsub.topNFilter ≠ some id → w.step (.publishDone id) = .ok w' →
      (w.SameStanding w' filter.ftn ↔ w.OutOfReach filter rsub)) ∧
    ∀ session ftn requestID handle extensions rsub w', w.registry.find ftn = some rsub →
      w.config.allowedNamespacePrefix.isPrefixOf ftn.trackNamespace = true →
      ftn.trackNamespace ≠ [] →
      w.step (.publish session ftn requestID handle extensions) = .ok w' →
      (w'.Attributes ftn session ↔ ∀ p T id, w.tree.ranking p T = some id →
        ∀ value owner, w.trackOf id ftn = some (value, owner) → owner = session) := by
  obtain ⟨hw, hok, hscoped⟩ := h.keeps (I := fun w => w.RankingsOk ∧ w.Scoped)
    (fun config => ⟨rankingsOk_start config, scoped_start config⟩)
    fun _ _ _ hw hi _ hs => ⟨hi.1.step hw hs, hi.2.step hw hi.1 hs⟩
  refine ⟨?_, ?_⟩
  · intro id filter rsub w' hfilter hfind hpublish _ hs
    exact sameStanding_iff hw hok hfilter hfind hpublish hs
  · intro session ftn requestID handle extensions rsub w' _ hallowed hns hs
    exact attributes_iff hw hok hscoped hallowed hns hs

instance (w : MoqxRelay) (filter : TopNFilter) (rsub : RelaySubscription) :
    Decidable (w.OutOfReach filter rsub) := by
  unfold OutOfReach
  infer_instance

/-- Two sessions publish a track one after the other. -/
def publishedTwice : List Op :=
  [.publish 1 ⟨["live"], "video"⟩ 0 10 fun _ => none,
    .publish 2 ⟨["live"], "video"⟩ 0 20 fun _ => none]

/-- The second publisher ends the track while it has a subscriber; then the end of the first one
comes in. -/
theorem successor_unharmed_iff_ended : ∃ w filter rsub w',
    runMeets step (fun _ _ => True) {} (publishedTwice ++
      [.subscribe 5 ⟨["live"], "video"⟩ true, .resumeLater 4 true, .publishDone 3]) = some w ∧
      w.filters.lookup 1 = some filter ∧ w.registry.find filter.ftn = some rsub ∧
      w.step (.publishDone 1) = .ok w' ∧ w.SameStanding w' filter.ftn := by
  obtain ⟨w, hreach, hrun, hp⟩ := reaches_of_elim step (fun _ _ => True) {} (publishedTwice ++
      [.subscribe 5 ⟨["live"], "video"⟩ true, .resumeLater 4 true, .publishDone 3])
    (fun w => (w.filters.lookup 1).any fun filter => (w.registry.find filter.ftn).any fun rsub =>
      (w.step (.publishDone 1)).toOption.isSome ∧ rsub.isPublish = true ∧
        rsub.topNFilter ≠ some 1 ∧ w.OutOfReach filter rsub) (by decide +kernel)
  cases hfilter : w.filters.lookup 1 with
  | none => simp [hfilter] at hp
  | some filter =>
    cases hfind : w.registry.find filter.ftn with
    | none => simp [hfilter, hfind] at hp
    | some rsub =>
      simp only [hfilter, hfind, Option.any_some, decide_eq_true_eq] at hp
      obtain ⟨hok, hpublish, hother, hreached⟩ := hp
      cases hs : w.step (.publishDone 1) with
      | error fault => simp [hs, Except.toOption] at hok
      | ok w' =>
        exact ⟨w, filter, rsub, w', hrun, hfilter, hfind, hs, ((successor_unharmed_iff
          ⟨{}, hreach⟩).1 1 filter rsub w' hfilter hfind hpublish hother hs).mpr hreached⟩

/-- The end of the first publisher removes the entry and the record of the second one; and a
ranking goes on to name the first one. -/
theorem publishedTwice_harmed :
    (runMeets step (fun _ _ => True) {} publishedTwice).map (fun w =>
      (w.registered ⟨["live"], "video"⟩, w.publishAt ["live"] "video")) =
        some (some (some 20, some 2, 2), some 2) ∧
    (runMeets step (fun _ _ => True) {} (publishedTwice ++ [.publishDone 1])).map (fun w =>
      (w.registered ⟨["live"], "video"⟩, w.publishAt ["live"] "video")) = some (none, none) ∧
    (runMeets step (fun _ _ => True) {} (.subscribeNamespace 5
      ⟨["live"], true, .publish, some ⟨7, 1⟩, false, ""⟩ :: publishedTwice)).map (fun w =>
      (w.tree.ranking ["live"] 7).bind fun id => w.trackOf id ⟨["live"], "video"⟩) =
        some (some (0, 1)) := by
  refine ⟨?_, ?_, ?_⟩
  · decide +kernel
  · decide +kernel
  · decide +kernel

/-- Whatever the sessions do: a ranking of the tree is there, for one node and one property only,
and has no track from outside the namespace of its node. -/
theorem rankings_in_scope (h : Reached (fun _ _ => True) w) :
    ∀ p T id, w.tree.ranking p T = some id →
      (∃ ranking, w.rankings.lookup id = some ranking) ∧
      (∀ p' T', w.tree.ranking p' T' = some id → p' = p ∧ T' = T) ∧
      ∀ x, (w.trackOf id x).isSome = true → p <:+ x.trackNamespace.reverse := by
  obtain ⟨-, hok, hscoped⟩ := h.keeps (I := fun w => w.RankingsOk ∧ w.Scoped)
    (fun config => ⟨rankingsOk_start config, scoped_start config⟩)
    fun _ _ _ hw hi _ hs => ⟨hi.1.step hw hs, hi.2.step hw hi.1 hs⟩
  intro p T id hp
  exact ⟨hok.there hp, fun p' T' hp' => hok.apart hp' hp, fun x hx => hscoped hp hx⟩

/-- Track filters of two nested prefixes, and tracks between them, below both and outside. -/
def nestedPrefixes : List Op :=
  [.subscribeNamespace 5 ⟨["live"], true, .publish, some ⟨7, 1⟩, false, ""⟩,
    .subscribeNamespace 6 ⟨["live", "room"], true, .publish, some ⟨7, 1⟩, false, ""⟩,
    .publish 1 ⟨["live"], "audio"⟩ 0 10 fun _ => none,
    .publish 2 ⟨["live", "room"], "video"⟩ 0 20 fun _ => none,
    .publish 3 ⟨["news"], "text"⟩ 0 30 fun _ => none]

theorem rankings_in_scope_nestedPrefixes : ∃ w,
    runMeets step (fun _ _ => True) {} nestedPrefixes = some w ∧
      w.tree.ranking ["live"] 7 = some 1 ∧ w.tree.ranking ["room", "live"] 7 = some 3 ∧
      (w.trackOf 1 ⟨["live"], "audio"⟩).isSome = true ∧
      (w.trackOf 1 ⟨["live", "room"], "video"⟩).isSome = true ∧
      ¬ (w.trackOf 1 ⟨["news"], "text"⟩).isSome = true ∧
      (w.trackOf 3 ⟨["live", "room"], "video"⟩).isSome = true ∧
      ¬ (w.trackOf 3 ⟨["live"], "audio"⟩).isSome = true := by
  obtain ⟨w, hreach, hrun, hp⟩ := reaches_of_elim step (fun _ _ => True) {} nestedPrefixes
    (fun w => decide (w.tree.ranking ["live"] 7 = some 1 ∧
      w.tree.ranking ["room", "live"] 7 = some 3 ∧
      (w.trackOf 1 ⟨["live"], "audio"⟩).isSome = true ∧
      (w.trackOf 1 ⟨["live", "room"], "video"⟩).isSome = true ∧
      (w.trackOf 3 ⟨["live", "room"], "video"⟩).isSome = true)) (by decide +kernel)
  obtain ⟨houter, hinner, haudio, hvideo, hvideo'⟩ := of_decide_eq_true hp
  have hscope := rankings_in_scope ⟨{}, hreach⟩
  refine ⟨w, hrun, houter, hinner, haudio, hvideo, fun htext => ?_, hvideo', fun haudio' => ?_⟩
  · exact absurd ((hscope _ _ _ houter).2.2 _ htext) (by decide)
  · exact absurd ((hscope _ _ _ hinner).2.2 _ haudio') (by decide)

end MoqxRelay

end Moqx
