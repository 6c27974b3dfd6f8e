import Moqx.Relay.RelayInvariant

/-! A chain writes the time of its last observed object through a pointer into the entry that its
PUBLISH made. The pointer is never reset, so it stays good only if entries go after the chains that
write into them. -/
namespace Moqx

open Maps Runs SubscriptionRegistry

/-- An observed object that passes through the chain now is no late one. -/
def TopNFilter.Writes (filter : TopNFilter) : Prop :=
  filter.ended = false ∧ filter.observers.keys ≠ []

instance (filter : TopNFilter) : Decidable filter.Writes := by
  unfold TopNFilter.Writes
  infer_instance

namespace MoqxRelay

variable {w w' : MoqxRelay} {op : Op}

/-- An entry that still exists. -/
def Live (w : MoqxRelay) (entry : EntryId) : Prop :=
  ∃ x rsub, w.registry.find x = some rsub ∧ rsub.entry = entry

/-- The step erases this entry. -/
def erases (w : MoqxRelay) (op : Op) (ftn : FullTrackName) (rsub : RelaySubscription) : Bool :=
  match w.step op with
  | .ok w' => (w'.registry.find ftn).all fun rsub' => rsub'.entry ≠ rsub.entry
  | .error _ => false

/-- The chain that a step ends. -/
def Op.ends (op : Op) : Option FilterId :=
  match op with
  | .publishDone id => some id
  | _ => none

/-- The chain that an object passes through. -/
def Op.passes (op : Op) : Option FilterId :=
  match op with
  | .object id _ => some id
  | _ => none

/-- Entries go after the chains that write into them, and no object passes through a chain that
has ended. -/
def TargetsOutlive (w : MoqxRelay) (op : Op) : Prop :=
  (∀ e ∈ w.registry.subscriptions.entries, w.erases op e.1 e.2 = true →
    ∀ f ∈ w.filters.entries, f.2.Writes → op.ends ≠ some f.1 →
      f.2.activityTarget ≠ some e.2.entry) ∧
  ∀ id ∈ op.passes, ∀ filter ∈ w.filters.lookup id, filter.ended = false

instance (w : MoqxRelay) (op : Op) : Decidable (w.TargetsOutlive op) := by
  unfold TargetsOutlive
  infer_instance

/-- The target of a chain that writes is an entry of a PUBLISH, and the chain of an entry has no
other target than this entry. -/
structure Pointed (w : MoqxRelay) : Prop where
  live : ∀ ⦃id filter entry⦄, w.filters.lookup id = some filter → filter.Writes →
    filter.activityTarget = some entry →
    ∃ x rsub, w.registry.find x = some rsub ∧ rsub.isPublish = true ∧ rsub.entry = entry
  own : ∀ ⦃x rsub id filter entry⦄, w.registry.find x = some rsub → rsub.topNFilter = some id →
    w.filters.lookup id = some filter → filter.activityTarget = some entry →
    rsub.isPublish = true ∧ rsub.entry = entry

variable {filter filter' : TopNFilter} {session : SessionId} {extensions : IntExtensions}

/-- What a chain writes into stays. -/
theorem TargetsOutlive.kept {x : FullTrackName} {rsub : RelaySubscription} {id : FilterId}
    (h : w.TargetsOutlive op) (hs : w.step op = .ok w') (hx : w.registry.find x = some rsub)
    (hfilter : w.filters.lookup id = some filter) (hwrites : filter.Writes)
    (hends : op.ends ≠ some id) (htarget : filter.activityTarget = some rsub.entry) :
    ∃ rsub', w'.registry.find x = some rsub' ∧ rsub'.entry = rsub.entry := by
  by_contra hgone
  refine h.1 ⟨x, rsub⟩ (List.of_mem_dlookup hx) ?_ ⟨id, filter⟩ (List.of_mem_dlookup hfilter)
    hwrites hends htarget
  simp only [erases, hs, Option.all_eq_true, decide_eq_true_eq]
  exact fun rsub' hx' he => hgone ⟨rsub', hx', he⟩

theorem Pointed.idle (h : w.Pointed) (hw : w.Base) (hidle : w.Idle w') : w'.Pointed := by
  refine ⟨?_, ?_⟩
  · intro id filter entry hfilter hwrites htarget
    rcases hidle.filters hfilter with hfilter | ⟨-, hnone, -⟩
    · obtain ⟨x, rsub, hx, hpublish, he⟩ := h.live hfilter hwrites htarget
      obtain ⟨now, hx'⟩ := hidle.registry.kept hx hpublish
      exact ⟨x, _, hx', hpublish, he⟩
    · rw [hnone] at htarget
      cases htarget
  · intro x rsub' id filter entry hx hid hfilter htarget
    rcases hidle.filters hfilter with hfilter | ⟨-, hnone, -⟩
    · rcases hidle.entries hx with ⟨rsub, hx, he, hp, ht⟩ | ⟨id', hid', hlt⟩
      · rw [he, hp]
        exact h.own hx (ht.symm.trans hid) hfilter htarget
      · rw [hid] at hid'
        cases hid'
        exact absurd (hw.filter_lt hfilter) (Nat.not_lt.mpr hlt)
    · rw [hnone] at htarget
      cases htarget

/-- The chains stay as they are and only entries go that nobody writes into. -/
theorem Pointed.erase (h : w.Pointed) (houtlive : w.TargetsOutlive op) (hs : w.step op = .ok w')
    (hends : op.ends = none) (hfilters : w'.filters = w.filters)
    (hsurvives : w.registry.Survives w'.registry) : w'.Pointed := by
  refine ⟨?_, ?_⟩
  · intro id filter entry hfilter hwrites htarget
    rw [hfilters] at hfilter
    obtain ⟨x, rsub, hx, hpublish, rfl⟩ := h.live hfilter hwrites htarget
    obtain ⟨rsub', hx', he⟩ := houtlive.kept hs hx hfilter hwrites (by simp [hends]) htarget
    obtain ⟨_, hx₀, -, -, hp, -⟩ := hsurvives hx'
    rw [hx, Option.some.injEq] at hx₀
    exact ⟨x, rsub', hx', by rw [hp, ← hx₀, hpublish], he⟩
  · intro x rsub' id filter entry hx hid hfilter htarget
    rw [hfilters] at hfilter
    obtain ⟨rsub, hx, he, -, hp, ht⟩ := hsurvives hx
    rw [he, hp]
    exact h.own hx (ht.symm.trans hid) hfilter htarget

theorem Pointed.of_keeps (h : w.Pointed) (hkeeps : w.Quiet w')
    (hfilters : w'.filters = w.filters) : w'.Pointed := by
  refine ⟨?_, ?_⟩
  · rw [hkeeps.registry, hfilters]
    exact h.live
  · rw [hkeeps.registry, hfilters]
    exact h.own

theorem Pointed.withTree {tree : NamespaceTree} (h : w.Pointed) :
    ({ w with tree := tree } : MoqxRelay).Pointed := ⟨h.live, h.own⟩

theorem Pointed.publishNamespace {ns : TrackNamespace} {callback : Option CallbackId}
    {peerID : String} (h : w.Pointed)
    (houtlive : w.TargetsOutlive (.publishNamespace session ns callback peerID))
    (hs : w.doPublishNamespace ns session callback peerID = .ok w') : w'.Pointed := by
  rcases doPublishNamespace_spec hs with rfl | ⟨tree, result, -, hannounces⟩
  · exact h
  · refine h.erase houtlive hs rfl hannounces.filters ?_
    rw [hannounces.toQuiet.registry]
    exact withoutReplaced_survives _ _ _

/-- The chains of a PUBLISH: its own is new, the others are as they were. -/
theorem filters_publish {ftn : FullTrackName} {requestID : RequestID} {handle : HandleId}
    {id : FilterId} (hs : w.publish session ftn requestID handle extensions = .ok w')
    (hfilter' : w'.filters.lookup id = some filter') :
    w.filters.lookup id = some filter' ∨ id = w.nextId + 1 ∧
      filter'.activityTarget = some w.registry.nextEntry := by
  rcases publish_spec hs with rfl | ⟨tree, added, forward, -, -, rfl⟩
  · exact .inl hfilter'
  · change (passOn session w.nextId added.subscribers _).filters.lookup id = some filter'
      at hfilter'
    rw [(announces_passOn _ _ _).filters] at hfilter'
    obtain ⟨filter, hfilter, hsame⟩ := (works_entered ftn session extensions (w.nextId + 1)
      added.rankings).chain_of_some
        (R := fun f f' => f.SameChain f' ∧ (id = w.nextId + 1 ∨ f' = f)) hfilter'
        (fun f => ⟨.refl f, .inr rfl⟩) (by
          rintro f f' change ⟨rfl, _, _, hchange⟩ ⟨hsame, -⟩
          exact ⟨hsame.trans (hchange.sameChain f'), .inl rfl⟩)
    have hfilters : (w.recorded session ftn requestID handle extensions tree).filters =
        (w.withPublisher session ftn requestID handle extensions).filters :=
      (endEvicted_attends _).filters
    rw [hfilters] at hfilter
    rcases lookup_insert_some hfilter with ⟨rfl, rfl⟩ | ⟨hne, hfilter⟩
    · exact .inr ⟨rfl, hsame.1.activityTarget⟩
    · rcases hsame.2 with rfl | rfl
      · exact absurd rfl hne
      · exact .inl hfilter

theorem Pointed.publish {ftn : FullTrackName} {requestID : RequestID} {handle : HandleId}
    (h : w.Pointed) (hw : w.Base)
    (houtlive : w.TargetsOutlive (.publish session ftn requestID handle extensions))
    (hs : w.publish session ftn requestID handle extensions = .ok w') : w'.Pointed := by
  rcases publish_keeps hs with rfl | ⟨tree, added, -, hkeeps⟩
  · exact h
  have hfind := find_of_publish hkeeps
  refine ⟨?_, ?_⟩
  · intro id filter entry hfilter hwrites htarget
    rcases filters_publish hs hfilter with hfilter | ⟨-, hnew⟩
    · obtain ⟨x, rsub, hx, hpublish, he⟩ := h.live hfilter hwrites htarget
      have hne : x ≠ ftn := by
        intro heq
        subst heq
        obtain ⟨rsub', hx', he'⟩ :=
          houtlive.kept hs hx hfilter hwrites (by simp [Op.ends]) (htarget.trans (by rw [he]))
        rw [hfind, if_pos rfl, Option.some.injEq] at hx'
        rw [← hx'] at he'
        exact absurd (hw.registry.entry_lt hx) (Nat.not_lt.mpr he'.le)
      exact ⟨x, rsub, (hfind x).trans ((if_neg hne).trans hx), hpublish, he⟩
    · rw [hnew] at htarget
      cases htarget
      exact ⟨ftn, _, (hfind ftn).trans (if_pos rfl), rfl, rfl⟩
  · intro x rsub id filter entry hx hid hfilter htarget
    rw [hfind] at hx
    split at hx
    · cases hx
      cases hid
      rcases filters_publish hs hfilter with hfilter | ⟨-, hnew⟩
      · have := hw.filter_lt hfilter
        lia
      · rw [hnew] at htarget
        cases htarget
        exact ⟨rfl, rfl⟩
    · have hlt := hw.chain_lt hx hid
      rcases filters_publish hs hfilter with hfilter | ⟨heq, -⟩
      · exact h.own hx hid hfilter htarget
      · lia

/-- The chain that ends writes no more; the others are as they were. -/
theorem filters_publishDone {id id' : FilterId} (hs : w.publishDone id = .ok w')
    (hfilter' : w'.filters.lookup id' = some filter') :
    ∃ filter, w.filters.lookup id' = some filter ∧ filter.SameChain filter' ∧
      (filter'.ended = true ∨ id' ≠ id ∧ filter' = filter) := by
  obtain ⟨found, tree, hfound, -, rfl⟩ := publishDone_spec hs
  have hfilters : ∀ w₁ : MoqxRelay, (w₁.drain found.forwarder).filters = w₁.filters :=
    fun w₁ => filters_setForwarder _ _
  rw [hfilters, filters_endedInRankings, lookup_filters_setFilter] at hfilter'
  split at hfilter'
  · next heq =>
    obtain ⟨filter, hfilter, rfl⟩ := Option.map_eq_some_iff.mp hfilter'
    exact ⟨filter, heq ▸ hfilter, ⟨rfl, rfl, rfl, rfl⟩, .inl rfl⟩
  · next hne => exact ⟨filter', hfilter', .refl _, .inr ⟨hne, rfl⟩⟩

theorem Pointed.publishDone {id : FilterId} (h : w.Pointed)
    (houtlive : w.TargetsOutlive (.publishDone id)) (hs : w.publishDone id = .ok w') :
    w'.Pointed := by
  obtain ⟨found, tree, empty, hfound, -, hquiet⟩ := publishDone_keeps hs
  have hregistry : w'.registry = (w.registry.onPublisherTerminated found.ftn empty).1 :=
    hquiet.registry
  refine ⟨?_, ?_⟩
  · intro id' filter' entry hfilter' hwrites htarget
    obtain ⟨filter, hfilter, hsame, hended | ⟨hne, rfl⟩⟩ := filters_publishDone hs hfilter'
    · rw [hwrites.1] at hended
      cases hended
    · obtain ⟨x, rsub, hx, hpublish, rfl⟩ := h.live hfilter hwrites htarget
      obtain ⟨rsub', hx', he⟩ := houtlive.kept hs hx hfilter hwrites
        (by simpa [Op.ends, eq_comm] using hne) htarget
      refine ⟨x, rsub', hx', ?_, he⟩
      rw [hregistry] at hx'
      obtain ⟨_, hx₀, -, -, hp, -⟩ :=
        onPublisherTerminated_survives _ _ _ hx'
      rw [hx, Option.some.injEq] at hx₀
      rw [hp, ← hx₀, hpublish]
  · intro x rsub' id' filter' entry hx hid hfilter' htarget
    rw [hregistry] at hx
    obtain ⟨filter, hfilter, hsame, -⟩ := filters_publishDone hs hfilter'
    obtain ⟨rsub, hx, he, -, hp, ht⟩ :=
      onPublisherTerminated_survives _ _ _ hx
    rw [he, hp]
    exact h.own hx (ht.symm.trans hid) hfilter (hsame.activityTarget.symm.trans htarget)

/-- A new ranking observes chains of entries only. -/
theorem filters_joined {subNs : SubscribeNamespace} {tree : NamespaceTree} {id : FilterId}
    (hfilter' : (w.joined session subNs tree).filters.lookup id = some filter') :
    ∃ filter, w.filters.lookup id = some filter ∧ filter.SameChain filter' ∧
      (filter' = filter ∨ ∃ x rsub, w.registry.find x = some rsub ∧
        rsub.topNFilter = some id) := by
  unfold joined at hfilter'
  cases hT : subNs.trackFilter with
  | none =>
    rw [hT] at hfilter'
    exact ⟨filter', hfilter', .refl _, .inl rfl⟩
  | some trackFilter =>
    rw [hT, Option.elim_some, joinRanking_eq, filters_callRanking] at hfilter'
    generalize hw₁ : ({ w with tree := tree, nextId := w.nextId + 1 } : MoqxRelay) = w₁ at hfilter'
    cases hr : w₁.tree.ranking subNs.trackNamespacePrefix.reverse trackFilter.propertyType with
    | some ranking =>
      rw [hr, Option.elim_some] at hfilter'
      subst hw₁
      exact ⟨filter', hfilter', .refl _, .inl rfl⟩
    | none =>
      rw [hr, Option.elim_none] at hfilter'
      obtain ⟨filter, hfilter, hsame⟩ := (works_withRetro _ _).chain_of_some
        (R := fun f f' => f.SameChain f' ∧ (f' = f ∨ ∃ x rsub, w₁.registry.find x = some rsub ∧
          rsub.topNFilter = some id)) hfilter' (fun f => ⟨.refl f, .inl rfl⟩) (by
          rintro f f' change ⟨⟨x, rsub, hx, hid, -⟩, hchange⟩ ⟨hsame, -⟩
          exact ⟨hsame.trans (hchange.sameChain f'), .inr ⟨x, rsub, hx, hid⟩⟩)
      subst hw₁
      exact ⟨filter, hfilter, hsame⟩

theorem Pointed.joined (h : w.Pointed) (session : SessionId) (subNs : SubscribeNamespace)
    (tree : NamespaceTree) : (w.joined session subNs tree).Pointed := by
  have hregistry : (w.joined session subNs tree).registry = w.registry :=
    (joined_quiet session subNs tree).registry
  refine ⟨?_, ?_⟩
  · intro id filter' entry hfilter' hwrites htarget
    rw [hregistry]
    obtain ⟨filter, hfilter, hsame, rfl | ⟨x, rsub, hx, hid⟩⟩ := filters_joined hfilter'
    · exact h.live hfilter hwrites htarget
    · obtain ⟨hpublish, he⟩ :=
        h.own hx hid hfilter (hsame.activityTarget.symm.trans htarget)
      exact ⟨x, rsub, hx, hpublish, he⟩
  · intro x rsub id filter' entry hx hid hfilter' htarget
    rw [hregistry] at hx
    obtain ⟨filter, hfilter, hsame, -⟩ := filters_joined hfilter'
    exact h.own hx hid hfilter (hsame.activityTarget.symm.trans htarget)

/-- An object leaves a chain without observers as it is. -/
theorem filters_object {id id' : FilterId} (hs : w.object id extensions = .ok w')
    (hfilter' : w'.filters.lookup id' = some filter') :
    ∃ filter, w.filters.lookup id' = some filter ∧ filter.SameChain filter' ∧
      (filter'.Writes → filter.Writes) := by
  obtain ⟨found, observed, hfound, hworks⟩ := works_object hs
  by_cases hobservers : found.observers.keys = []
  · -- nothing is observed, so nothing but the history changes
    have hentries : found.observers.entries = [] := by
      simpa [AList.keys, List.keys] using hobservers
    unfold MoqxRelay.object at hs
    rw [hfound] at hs
    simp only [checkProperties, hentries, List.map_nil, observeValues] at hs
    cases hs
    exact ⟨filter', hfilter', .refl _, fun hwrites => hwrites⟩
  · obtain ⟨filter, hfilter, hsame⟩ := hworks.chain_of_some
      (R := fun f f' => f.SameChain f' ∧ f'.ended = f.ended ∧ (id' = id ∨ f' = f)) hfilter'
      (fun f => ⟨.refl f, rfl, .inr rfl⟩) (by
        rintro f f' change ⟨rfl, hchange⟩ ⟨hsame, hended, -⟩
        exact ⟨hsame.trans (hchange f').1, (hchange f').2.trans hended, .inl rfl⟩)
    refine ⟨filter, hfilter, hsame.1, ?_⟩
    rintro ⟨hended, hkeys⟩
    refine ⟨hsame.2.1.symm.trans hended, ?_⟩
    rcases hsame.2.2 with rfl | rfl
    · rw [show w.filters.lookup id' = some filter from hfilter] at hfound
      cases hfound
      exact hobservers
    · exact hkeys

theorem Pointed.object {id : FilterId} (h : w.Pointed) (hs : w.object id extensions = .ok w') :
    w'.Pointed := by
  have hobserves := object_observes hs
  refine ⟨?_, ?_⟩
  · intro id' filter' entry hfilter' hwrites htarget
    obtain ⟨filter, hfilter, hsame, hwrote⟩ := filters_object hs hfilter'
    obtain ⟨x, rsub, hx, hpublish, he⟩ :=
      h.live hfilter (hwrote hwrites) (hsame.activityTarget.symm.trans htarget)
    obtain ⟨now, hx'⟩ := hobserves.registry.kept hx
    exact ⟨x, _, hx', hpublish, he⟩
  · intro x rsub' id' filter' entry hx hid hfilter' htarget
    obtain ⟨filter, hfilter, hsame, -⟩ := filters_object hs hfilter'
    obtain ⟨rsub, hx, he, -, hp, ht⟩ := hobserves.registry.survives hx
    rw [he, hp]
    exact h.own hx (ht.symm.trans hid) hfilter (hsame.activityTarget.symm.trans htarget)

theorem Pointed.onEmpty {id : ForwarderId} (h : w.Pointed)
    (houtlive : w.TargetsOutlive (.onEmpty id)) (hs : w.onEmpty id = .ok w') : w'.Pointed := by
  rcases onEmpty_spec hs with rfl | ⟨handle, rfl⟩ | ⟨forwarder, rsub, outputs, -, -, -, rfl⟩
  · exact h
  · exact h.of_keeps (announces_send _).toQuiet rfl
  · exact h.erase houtlive hs rfl rfl (remove_survives _ _)

theorem Pointed.step (h : w.Pointed) (hw : w.Base) (houtlive : w.TargetsOutlive op)
    (hs : w.step op = .ok w') : w'.Pointed := by
  by_cases hidle : op.idles = true
  · exact h.idle hw (hw.idle hidle hs)
  cases op with
  | publishNamespace session ns callback peerID => exact h.publishNamespace houtlive hs
  | publishNamespaceDone session ns =>
    rcases doPublishNamespaceDone_spec hw.tree hs with rfl | ⟨tree, -, hannounces⟩
    · exact h
    · exact h.withTree.of_keeps hannounces.toQuiet hannounces.filters
  | publish session ftn requestID handle extensions => exact h.publish hw houtlive hs
  | object filter extensions => exact h.object hs
  | publishDone filter => exact h.publishDone houtlive hs
  | subscribeNamespace session subNs =>
    rcases subscribeNamespace_spec hs with rfl | ⟨tree, -, hannounces⟩
    · exact h
    · exact (h.joined session subNs tree).of_keeps hannounces.toQuiet hannounces.filters
  | unsubscribeNamespace session prefix_ =>
    obtain ⟨tree, _, -, rfl | ⟨id, n, rfl⟩⟩ := unsubscribeNamespace_edits hw.tree hs
    · exact h.withTree
    · exact h.withTree.of_keeps (quiet_callRanking _ _) (filters_callRanking _ _)
  | onEmpty forwarder => exact h.onEmpty houtlive hs
  | _ => exact absurd rfl hidle

theorem Live.observes {entry : EntryId} (h : w.Live entry) (hobserves : w.Observes w') :
    w'.Live entry := by
  obtain ⟨x, rsub, hx, he⟩ := h
  obtain ⟨now, hx'⟩ := hobserves.registry.kept hx
  exact ⟨x, _, hx', he⟩

end MoqxRelay

end Moqx
