import Moqx.Relay.RankedTracks

/-! Which rankings observe which chain. A chain has one observer per property type, the last one
that was registered. -/
namespace Moqx

open Maps Runs NamespaceTree

namespace MoqxRelay

variable {w w' w'' : MoqxRelay}

/-- A chain that gets an observer. -/
theorem lookup_registers {T T' : Nat} {id : RankingId} {change : TopNFilter → TopNFilter}
    (h : Registers T id change) (filter : TopNFilter) :
    (change filter).observers.lookup T' =
      if T' = T then some ⟨none, id⟩ else filter.observers.lookup T' := by
  subst h
  split
  · next heq =>
    subst heq
    exact AList.lookup_insert _
  · next hne => exact AList.lookup_insert_ne hne

section Entering

variable {ftn : FullTrackName} {session : SessionId} {extensions : IntExtensions}
  {chain : FilterId} {filter' : TopNFilter} {rankings : List (Nat × RankingId)}

theorem filters_enterRanking (e : Nat × RankingId) (id : FilterId) :
    (enterRanking ftn session extensions chain w e).filters.lookup id =
      if id = chain then (w.filters.lookup chain).map fun filter =>
        { filter with observers := filter.observers.insert e.1 ⟨none, e.2⟩ }
      else w.filters.lookup id := by
  rw [enterRanking, registerObserver, lookup_filters_setFilter, filters_callRanking]

/-- The rankings on the way to the root observe the chain of a new PUBLISH, if no two of them
rank by the same property. -/
theorem observers_entered
    (hlone : ∀ e ∈ rankings, ∀ e' ∈ rankings, e.1 = e'.1 → e.2 = e'.2)
    (h : (rankings.foldl (enterRanking ftn session extensions chain) w).filters.lookup chain =
      some filter') : ∀ e ∈ rankings, filter'.observers.lookup e.1 = some ⟨none, e.2⟩ := by
  intro e he
  refine foldl_visits (I := fun _ : MoqxRelay => True)
    (f := enterRanking ftn session extensions chain)
    (G := fun e (w₁ : MoqxRelay) => e ∈ rankings → ∀ filter, w₁.filters.lookup chain =
      some filter → filter.observers.lookup e.1 = some ⟨none, e.2⟩) rankings trivial
    (fun _ _ _ _ => trivial) ?_ ?_ e he he filter' h
  · intro w₁ _ e _ _ filter hfilter
    rw [filters_enterRanking, if_pos rfl] at hfilter
    obtain ⟨before, -, rfl⟩ := Option.map_eq_some_iff.mp hfilter
    exact AList.lookup_insert _
  · intro w₁ _ e' he' e hdone he filter hfilter
    rw [filters_enterRanking, if_pos rfl] at hfilter
    obtain ⟨before, hbefore, rfl⟩ := Option.map_eq_some_iff.mp hfilter
    by_cases hT : e.1 = e'.1
    · rw [hT, hlone e he e' he' hT]
      exact AList.lookup_insert _
    · exact (AList.lookup_insert_ne hT).trans (hdone he before hbefore)

/-- The observers of a chain are those it had and those it was given. -/
theorem mem_observers_entered {T : Nat} {entry : ObserverEntry}
    (h : (rankings.foldl (enterRanking ftn session extensions chain) w).filters.lookup chain =
      some filter') (hT : filter'.observers.lookup T = some entry) :
    (T, entry.ranking) ∈ rankings ∨
      ∃ filter, w.filters.lookup chain = some filter ∧ filter.observers.lookup T = some entry := by
  have hkept := foldl_keeps (I := fun w₁ : MoqxRelay => ∀ filter₁ entry,
      w₁.filters.lookup chain = some filter₁ → filter₁.observers.lookup T = some entry →
      (T, entry.ranking) ∈ rankings ∨ ∃ filter, w.filters.lookup chain = some filter ∧
        filter.observers.lookup T = some entry)
    (f := enterRanking ftn session extensions chain) (s := w) rankings
    (fun filter₁ entry hfilter hentry => .inr ⟨filter₁, hfilter, hentry⟩) ?_
  · exact hkept filter' entry h hT
  · intro w₁ hw₁ e he filter₁ entry hfilter hentry
    rw [filters_enterRanking, if_pos rfl] at hfilter
    obtain ⟨before, hbefore, rfl⟩ := Option.map_eq_some_iff.mp hfilter
    by_cases hsame : T = e.1
    · subst hsame
      have := (AList.lookup_insert _).symm.trans hentry
      cases this
      exact .inl he
    · exact hw₁ before entry hbefore ((AList.lookup_insert_ne hsame).symm.trans hentry)

end Entering

/-- A ranking observes a chain, and has seen nothing of it yet. -/
def Watches (w : MoqxRelay) (chain : FilterId) (T : Nat) (id : RankingId) : Prop :=
  ∀ filter, w.filters.lookup chain = some filter → filter.observers.lookup T = some ⟨none, id⟩

section Retro

variable {T : Nat} {id : RankingId} {chain : FilterId}

theorem Watches.works {P : RankingId → PropertyRanking.Op → Prop}
    {F : FilterId → (TopNFilter → TopNFilter) → Prop} (h : w.Watches chain T id)
    (hworks : Works P F w w') (hF : ∀ c change, F c change → Registers T id change) :
    w'.Watches chain T id := by
  intro filter' hfilter'
  obtain ⟨filter, hfilter, hkept⟩ := hworks.chain_of_some
    (R := fun f f' => f.observers.lookup T = some ⟨none, id⟩ →
      f'.observers.lookup T = some ⟨none, id⟩) hfilter' (fun _ hT => hT) (by
      intro f f' change hchange hT hf
      rw [lookup_registers (hF _ _ hchange)]
      split
      · rfl
      · exact hT hf)
  exact hkept (h filter hfilter)

variable {rsub : RelaySubscription} {path : Path}

theorem watches_observeRetro {ns : TrackNamespace} {publish : String × SessionId}
    (hfind : w.registry.find ⟨ns, publish.1⟩ = some rsub) (hchain : rsub.topNFilter = some chain) :
    (observeRetro ns T id w publish).Watches chain T id := by
  intro filter hfilter
  have hview : (w.registry.getTopNView ⟨ns, publish.1⟩).bind (fun view => view.topNFilter) =
      some chain := by
    rw [SubscriptionRegistry.getTopNView, hfind]
    exact hchain
  unfold observeRetro at hfilter
  rw [hview] at hfilter
  simp only [registerObserver, lookup_filters_setFilter, if_true] at hfilter
  obtain ⟨before, -, rfl⟩ := Option.map_eq_some_iff.mp hfilter
  exact AList.lookup_insert _

/-- The chain of a recorded track is observed when the walk comes to its node. -/
theorem watches_registerRetro {trackName : String}
    (hfind : w.registry.find ⟨path.reverse, trackName⟩ = some rsub)
    (hchain : rsub.topNFilter = some chain) (hrecord : (w.publishAt path trackName).isSome = true) :
    (registerRetro T id w path).Watches chain T id := by
  unfold publishAt at hrecord
  unfold registerRetro
  cases hnode : w.tree.lookup path with
  | none =>
    rw [NamespaceTree.record, hnode] at hrecord
    cases hrecord
  | some node =>
    rw [record_of_lookup hnode] at hrecord
    obtain ⟨publisher, hpublisher⟩ := Option.isSome_iff_exists.mp hrecord
    have hobserved := foldl_visits (I := fun w₁ : MoqxRelay => w₁.registry = w.registry)
      (f := observeRetro path.reverse T id)
      (G := fun (publish : String × SessionId) (w₁ : MoqxRelay) => publish.1 = trackName →
        w₁.Watches chain T id) (node.publishes.entries.map fun e => (e.1, e.2)) rfl ?_ ?_ ?_
      (trackName, publisher) (mem_entries_iff.mpr hpublisher) rfl
    · have hcalls : ∀ (tracks : List RetroTrack) (w₁ : MoqxRelay),
          Works (fun _ _ => True) (fun _ _ => False) w₁ (tracks.foldl
            (fun w track => w.callRanking id (.registerTrack ⟨path.reverse, track.trackName⟩
              track.initialPropertyValue track.publishSession)) w₁) :=
        fun tracks w₁ => works_foldl _ _ fun _ _ _ => Works.refl.call trivial
      exact hobserved.works (hcalls _ _) fun _ _ hfalse => hfalse.elim
    · intro w₁ hw₁ publish _
      exact (quiet_observeRetro _ _ _ _).registry.trans hw₁
    · intro w₁ hw₁ publish _ hname
      subst hname
      exact watches_observeRetro (hw₁ ▸ hfind) hchain
    · intro w₁ hw₁ publish _ publish' hdone hname
      have hworks : Works (fun _ _ => False) (fun _ change => Registers T id change) w₁
          (observeRetro path.reverse T id w₁ publish) := by
        unfold observeRetro
        split
        · exact .refl
        · exact Works.refl.filter rfl
      exact (hdone hname).works hworks fun _ _ hchange => hchange

/-- A new ranking observes the chains of all recorded tracks below its node. -/
theorem watches_withRetro {x : FullTrackName} (htree : w.tree.WF)
    (hfind : w.registry.find x = some rsub) (hchain : rsub.topNFilter = some chain)
    (hsuffix : path <:+ x.trackNamespace.reverse)
    (hrecord : (w.publishAt x.trackNamespace.reverse x.trackName).isSome = true) :
    (w.withRetro path T).Watches chain T w.nextId := by
  obtain ⟨-, hrecords, -, -⟩ := insertRanking_spec htree path T w.nextId
  refine foldl_visits (I := fun w₁ : MoqxRelay => w₁.registry = w.registry ∧
      w₁.tree = (w.withRanking path T).tree) (f := registerRetro T w.nextId)
    (G := fun p (w₁ : MoqxRelay) => p = x.trackNamespace.reverse →
      w₁.Watches chain T w.nextId) ((w.withRanking path T).tree.subtree path) ⟨rfl, rfl⟩
    ?_ ?_ ?_ x.trackNamespace.reverse (mem_subtree_of_publishAt T htree hsuffix hrecord) rfl
  · rintro w₁ ⟨hregistry, htree₁⟩ p _
    have hquiet := quiet_registerRetro (w := w₁) T w.nextId p
    exact ⟨hquiet.registry.trans hregistry, hquiet.tree.trans htree₁⟩
  · rintro w₁ ⟨hregistry, htree₁⟩ p _ rfl
    have hfind₁ : w₁.registry.find ⟨x.trackNamespace.reverse.reverse, x.trackName⟩ = some rsub := by
      rw [hregistry, List.reverse_reverse]
      exact hfind
    refine watches_registerRetro hfind₁ hchain ?_
    rw [publishAt, htree₁]
    change (((w.tree.insertRanking _ _ _).record _).publishes.lookup _).isSome = true
    rw [hrecords]
    exact hrecord
  · rintro w₁ ⟨hregistry, htree₁⟩ p _ p' hdone hp'
    exact (hdone hp').works (works_registerRetro T w.nextId p) fun _ _ hchange => hchange.2

/-- What a new ranking does to a chain. -/
theorem observers_withRetro {filter' : TopNFilter}
    (h : (w.withRetro path T).filters.lookup chain = some filter') :
    ∃ filter, w.filters.lookup chain = some filter ∧ filter'.ended = filter.ended ∧
      (∀ T', T' ≠ T → filter'.observers.lookup T' = filter.observers.lookup T') ∧
      (filter'.observers.lookup T = filter.observers.lookup T ∨
        filter'.observers.lookup T = some ⟨none, w.nextId⟩ ∧
          ∃ x rsub, w.registry.find x = some rsub ∧ rsub.topNFilter = some chain ∧
            path <:+ x.trackNamespace.reverse) := by
  refine (works_withRetro (w := w) path T).chain_of_some
    (R := fun f f' => f'.ended = f.ended ∧
      (∀ T', T' ≠ T → f'.observers.lookup T' = f.observers.lookup T') ∧
      (f'.observers.lookup T = f.observers.lookup T ∨
        f'.observers.lookup T = some ⟨none, w.nextId⟩ ∧
          ∃ x rsub, w.registry.find x = some rsub ∧ rsub.topNFilter = some chain ∧
            path <:+ x.trackNamespace.reverse)) h
    (fun _ => ⟨rfl, fun _ _ => rfl, .inl rfl⟩) ?_
  rintro f f' change ⟨⟨x, rsub, hx, hid, hsuffix, -⟩, hchange⟩ ⟨hended, hother, -⟩
  refine ⟨?_, ?_, .inr ⟨?_, x, rsub, hx, hid, hsuffix⟩⟩
  · subst hchange
    exact hended
  · intro T' hne
    rw [lookup_registers hchange, if_neg hne]
    exact hother T' hne
  · rw [lookup_registers hchange, if_pos rfl]

end Retro

section Object

variable {id : FilterId} {filter : TopNFilter} {T : Nat} {entry : ObserverEntry} {value : Nat}
  {allows fired fired' : Bool} {extensions : IntExtensions}

/-- A value that is new to the observer of a chain is noted. -/
theorem filters_observeValue
    (h : w.observeValue id filter T entry value allows = .ok w') (c : FilterId) :
    w'.filters.lookup c =
      if c = id ∧ entry.lastSeenValue ≠ some value then
        (w.filters.lookup id).map fun filter => { filter with
          observers := filter.observers.insert T { entry with lastSeenValue := some value } }
      else w.filters.lookup c := by
  obtain ⟨w₁, htouch, h⟩ := bind_ok h
  cases h
  have htouched : w₁.filters = w.filters := by
    obtain ⟨registry, -, rfl⟩ := touchActivityTarget_spec htouch
    rfl
  by_cases hseen : entry.lastSeenValue = some value
  · simp only [hseen, if_true, ne_eq, not_true_eq_false, and_false, if_false]
    split
    · rw [filters_callRanking, htouched]
    · rw [htouched]
  · simp only [hseen, if_false, ne_eq, not_false_eq_true, and_true]
    split
    · rw [filters_callRanking, filters_callRanking, lookup_filters_setFilter, htouched]
    · rw [filters_callRanking, lookup_filters_setFilter, htouched]

theorem trackOf_sweepIdle (ranking : RankingId) (activity : Activity) (ranking' : RankingId)
    (x : FullTrackName) :
    (w.callRanking ranking (.sweepIdle activity)).trackOf ranking' x = w.trackOf ranking' x := by
  rw [trackOf_callRanking]
  split
  · next heq =>
    subst heq
    unfold trackOf
    cases w.rankings.lookup ranking' with
    | none => rfl
    | some r => exact PropertyRanking.track_sweepIdle activity
  · rfl

theorem trackOf_updateSortValue (hok : w.RankingsOk) (ranking : RankingId) (x : FullTrackName)
    (value : Nat) (activity : Activity) (ranking' : RankingId) :
    (w.callRanking ranking (.updateSortValue x value activity)).trackOf ranking' x =
      if ranking' = ranking then (w.trackOf ranking' x).map fun track => (value, track.2)
      else w.trackOf ranking' x := by
  rw [trackOf_callRanking]
  split
  · next heq =>
    subst heq
    unfold trackOf
    cases hlookup : w.rankings.lookup ranking' with
    | none => rfl
    | some r =>
      rw [Option.bind_some, Option.bind_some, PropertyRanking.step,
        PropertyRanking.track_updateSortValue (hok.wf hlookup), if_pos rfl]
  · rfl

/-- The ranking that observes the property learns such a value. -/
theorem trackOf_observeValue (hok : w.RankingsOk)
    (h : w.observeValue id filter T entry value allows = .ok w') (ranking : RankingId) :
    w'.trackOf ranking filter.ftn =
      if ranking = entry.ranking ∧ entry.lastSeenValue ≠ some value then
        (w.trackOf ranking filter.ftn).map fun track => (value, track.2)
      else w.trackOf ranking filter.ftn := by
  obtain ⟨w₁, htouch, h⟩ := bind_ok h
  cases h
  have htouched : w₁.trackOf ranking filter.ftn = w.trackOf ranking filter.ftn := by
    obtain ⟨registry, -, rfl⟩ := touchActivityTarget_spec htouch
    rfl
  have hnoted : ∀ change, ((w₁.setFilter id change).callRanking entry.ranking
      (.updateSortValue filter.ftn value w₁.activity)).trackOf ranking filter.ftn =
      if ranking = entry.ranking then
        (w.trackOf ranking filter.ftn).map fun track => (value, track.2)
      else w.trackOf ranking filter.ftn := by
    intro change
    have hworks : Works (fun _ _ => True) (fun _ _ => True) w (w₁.setFilter id change) :=
      (Works.refl.touch htouch).filter trivial
    rw [trackOf_updateSortValue (hok.works hworks), trackOf_eq (rankings_setFilter _ _), htouched]
  by_cases hseen : entry.lastSeenValue = some value
  · simp only [hseen, if_true, ne_eq, not_true_eq_false, and_false, if_false]
    split
    · rw [trackOf_sweepIdle, htouched]
    · exact htouched
  · simp only [hseen, if_false, ne_eq, not_false_eq_true, and_true]
    split
    · rw [trackOf_sweepIdle]
      exact hnoted _
    · exact hnoted _

theorem observers_observeValue {f : TopNFilter}
    (h : w.observeValue id filter T entry value allows = .ok w')
    (hf : w.filters.lookup id = some f) :
    ∃ f', w'.filters.lookup id = some f' ∧ f'.ended = f.ended ∧
      (∀ T', T' ≠ T → f'.observers.lookup T' = f.observers.lookup T') ∧
      (f.observers.lookup T = some entry →
        f'.observers.lookup T = some { entry with lastSeenValue := some value }) := by
  have hfilters := filters_observeValue h id
  by_cases hseen : entry.lastSeenValue = some value
  · rw [if_neg fun hnew => hnew.2 hseen] at hfilters
    refine ⟨f, hfilters.trans hf, rfl, fun _ _ => rfl, fun hentry => ?_⟩
    rw [hentry, ← hseen]
  · rw [if_pos ⟨rfl, hseen⟩, hf, Option.map_some] at hfilters
    exact ⟨_, hfilters, rfl, fun T' hne => AList.lookup_insert_ne hne,
      fun _ => AList.lookup_insert _⟩

variable {entries : List (Nat × ObserverEntry)} {ranking : RankingId}

/-- The loop of `checkProperties` notes every new value in the chain. -/
theorem filters_observeValues {f : TopNFilter}
    (h : observeValues id filter extensions allows entries w fired = .ok (w', fired'))
    (hnodup : (entries.map Prod.fst).Nodup) (hf : w.filters.lookup id = some f) :
    ∃ f', w'.filters.lookup id = some f' ∧ f'.ended = f.ended ∧
      (∀ T, T ∉ entries.map Prod.fst → f'.observers.lookup T = f.observers.lookup T) ∧
      ∀ T entry, (T, entry) ∈ entries → f.observers.lookup T = some entry →
        f'.observers.lookup T = some { entry with
          lastSeenValue := (extensions T).or entry.lastSeenValue } := by
  induction entries generalizing w f fired with
  | nil =>
    cases h
    exact ⟨f, hf, rfl, fun _ _ => rfl, fun _ _ hmem => by cases hmem⟩
  | cons e rest ih =>
    obtain ⟨T₀, entry₀⟩ := e
    rw [List.map_cons, List.nodup_cons] at hnodup
    simp only [observeValues] at h
    split at h
    · next hnone =>
      obtain ⟨f', hf', hended, hother, hnoted⟩ := ih h hnodup.2 hf
      refine ⟨f', hf', hended,
        fun T hT => hother T fun hmem => hT (List.mem_cons_of_mem _ hmem), ?_⟩
      intro T entry hmem hentry
      rcases List.mem_cons.mp hmem with heq | hmem
      · cases heq
        rw [hother T₀ hnodup.1, hentry, hnone, Option.none_or]
      · exact hnoted T entry hmem hentry
    · next value hvalue =>
      obtain ⟨w₁, hobserve, h⟩ := bind_ok h
      obtain ⟨f₁, hf₁, hended₁, hother₁, hnoted₁⟩ := observers_observeValue hobserve hf
      obtain ⟨f', hf', hended, hother, hnoted⟩ := ih h hnodup.2 hf₁
      refine ⟨f', hf', hended.trans hended₁, ?_, ?_⟩
      · intro T hT
        rw [List.map_cons, List.mem_cons, not_or] at hT
        rw [hother T hT.2, hother₁ T hT.1]
      · intro T entry hmem hentry
        rcases List.mem_cons.mp hmem with heq | hrest
        · cases heq
          rw [hother T₀ hnodup.1, hnoted₁ hentry, hvalue, Option.some_or]
        · have hne : T ≠ T₀ := by
            rintro rfl
            exact hnodup.1 (List.mem_map.mpr ⟨_, hrest, rfl⟩)
          exact hnoted T entry hrest ((hother₁ T hne).trans hentry)

/-- The history of a chain when an object has come through it. -/
def withObserved (w : MoqxRelay) (id : FilterId) (extensions : IntExtensions) : MoqxRelay :=
  { w with observed := w.observed.insert id fun propertyType =>
      (extensions propertyType).or (((w.observed.lookup id).getD fun _ => none) propertyType) }

/-- An object is recorded in the history; then the loop runs over the observers of the chain. -/
theorem object_eq (hfilter : w.filters.lookup id = some filter)
    (h : w.object id extensions = .ok w') :
    ∃ allows w₁ fired, observeValues id filter extensions allows
        (filter.observers.entries.map fun e => (e.1, e.2)) (w.withObserved id extensions) false =
          .ok (w₁, fired) ∧
      w' = if fired then w₁.setFilter id fun filter =>
          { filter with lastActivityNotify := some w.now }
        else w₁ := by
  unfold MoqxRelay.object at h
  rw [hfilter] at h
  obtain ⟨⟨w₁, fired⟩, hvalues, h⟩ := bind_ok h
  cases h
  exact ⟨_, w₁, fired, hvalues, rfl⟩

theorem nodup_observers (filter : TopNFilter) :
    ((filter.observers.entries.map fun e => (e.1, e.2)).map Prod.fst).Nodup := by
  rw [List.map_map]
  exact filter.observers.nodupKeys

/-- What an object does to the chain it passes through. -/
theorem observers_object (hfilter : w.filters.lookup id = some filter)
    (h : w.object id extensions = .ok w') :
    (∃ filter', w'.filters.lookup id = some filter' ∧ filter'.ended = filter.ended ∧
      ∀ T, filter'.observers.lookup T = (filter.observers.lookup T).map fun entry =>
        { entry with lastSeenValue := (extensions T).or entry.lastSeenValue }) ∧
      ∀ c, c ≠ id → w'.filters.lookup c = w.filters.lookup c := by
  refine ⟨?_, ?_⟩
  · obtain ⟨allows, w₁, fired, hvalues, rfl⟩ := object_eq hfilter h
    obtain ⟨f', hf', hended, hother, hnoted⟩ :=
      filters_observeValues hvalues (nodup_observers filter) hfilter
    have hobservers : ∀ T, f'.observers.lookup T = (filter.observers.lookup T).map fun entry =>
        { entry with lastSeenValue := (extensions T).or entry.lastSeenValue } := by
      intro T
      cases hT : filter.observers.lookup T with
      | some entry => exact hnoted T entry (mem_entries_iff.mpr hT) hT
      | none =>
        rw [hother T, hT]
        · rfl
        · intro hmem
          obtain ⟨⟨T', entry⟩, hentry, rfl⟩ := List.mem_map.mp hmem
          rw [mem_entries_iff.mp hentry] at hT
          cases hT
    split
    · refine ⟨{ f' with lastActivityNotify := some w.now }, ?_, hended, hobservers⟩
      rw [lookup_filters_setFilter, if_pos rfl, hf']
      rfl
    · exact ⟨f', hf', hended, hobservers⟩
  · intro c hne
    obtain ⟨found, observed, -, hworks⟩ := works_object h
    have hchain := hworks.chain (R := fun f f' => f' = f) c (fun _ => rfl) (by
      rintro f f' change ⟨rfl, -⟩ -
      exact absurd rfl hne)
    cases hc : w.filters.lookup c with
    | none => exact hchain.1 hc
    | some f =>
      obtain ⟨f', hf', rfl⟩ := hchain.2 f hc
      exact hf'

/-- Without a new value for the property of a ranking, the loop leaves its track alone. -/
theorem trackOf_observeValues_of_seen (hok : w.RankingsOk)
    (h : observeValues id filter extensions allows entries w fired = .ok (w', fired'))
    (hseen : ∀ T entry, (T, entry) ∈ entries → entry.ranking = ranking →
      extensions T = none ∨ extensions T = entry.lastSeenValue) :
    w'.trackOf ranking filter.ftn = w.trackOf ranking filter.ftn := by
  induction entries generalizing w fired with
  | nil =>
    cases h
    rfl
  | cons e rest ih =>
    obtain ⟨T₀, entry₀⟩ := e
    have hrest := fun T entry (hmem : (T, entry) ∈ rest) =>
      hseen T entry (List.mem_cons_of_mem _ hmem)
    simp only [observeValues] at h
    split at h
    · exact ih hok h hrest
    · next value hvalue =>
      obtain ⟨w₁, hobserve, h⟩ := bind_ok h
      rw [ih (hok.works (works_observeValue hobserve)) h hrest,
        trackOf_observeValue hok hobserve, if_neg]
      rintro ⟨rfl, hnew⟩
      rcases hseen T₀ entry₀ List.mem_cons_self rfl with hnone | hsame
      · rw [hnone] at hvalue
        cases hvalue
      · exact hnew (hsame.symm.trans hvalue)

/-- A new value for the property of a ranking reaches it. -/
theorem trackOf_observeValues_of_new (hok : w.RankingsOk)
    (h : observeValues id filter extensions allows entries w fired = .ok (w', fired'))
    (hnodup : (entries.map Prod.fst).Nodup)
    (honly : ∀ T' entry', (T', entry') ∈ entries → entry'.ranking = ranking → T' = T)
    (hmem : (T, entry) ∈ entries) (hranking : entry.ranking = ranking)
    (hvalue : extensions T = some value) (hnew : entry.lastSeenValue ≠ some value) :
    w'.trackOf ranking filter.ftn =
      (w.trackOf ranking filter.ftn).map fun track => (value, track.2) := by
  induction entries generalizing w fired with
  | nil => cases hmem
  | cons e rest ih =>
    obtain ⟨T₀, entry₀⟩ := e
    rw [List.map_cons, List.nodup_cons] at hnodup
    have hrest := fun T' entry' (hmem' : (T', entry') ∈ rest) =>
      honly T' entry' (List.mem_cons_of_mem _ hmem')
    simp only [observeValues] at h
    rcases List.mem_cons.mp hmem with heq | hmem'
    · cases heq
      simp only [hvalue] at h
      obtain ⟨w₁, hobserve, h⟩ := bind_ok h
      have hlater : w'.trackOf ranking filter.ftn = w₁.trackOf ranking filter.ftn := by
        refine trackOf_observeValues_of_seen (hok.works (works_observeValue hobserve)) h ?_
        intro T' entry' hmem' hsame
        have hT := hrest T' entry' hmem' hsame
        subst hT
        exact absurd (List.mem_map.mpr ⟨_, hmem', rfl⟩) hnodup.1
      rw [hlater, trackOf_observeValue hok hobserve, if_pos ⟨hranking.symm, hnew⟩]
    · have hother : entry₀.ranking ≠ ranking := by
        intro hsame
        have hT := honly T₀ entry₀ List.mem_cons_self hsame
        subst hT
        exact hnodup.1 (List.mem_map.mpr ⟨_, hmem', rfl⟩)
      split at h
      · exact ih hok h hnodup.2 hrest hmem'
      · obtain ⟨w₁, hobserve, h⟩ := bind_ok h
        rw [ih (hok.works (works_observeValue hobserve)) h hnodup.2 hrest hmem',
          trackOf_observeValue hok hobserve, if_neg fun hsame => hother hsame.1.symm]

/-- The value of a track in the ranking that alone observes a property of its chain. -/
theorem trackOf_object (hok : w.RankingsOk) (hfilter : w.filters.lookup id = some filter)
    (h : w.object id extensions = .ok w')
    (honly : ∀ T' entry', filter.observers.lookup T' = some entry' → entry'.ranking = ranking →
      T' = T) (hentry : filter.observers.lookup T = some entry)
    (hranking : entry.ranking = ranking) :
    w'.trackOf ranking filter.ftn =
      if extensions T = none ∨ extensions T = entry.lastSeenValue then
        w.trackOf ranking filter.ftn
      else (w.trackOf ranking filter.ftn).map fun track => ((extensions T).getD 0, track.2) := by
  obtain ⟨allows, w₁, fired, hvalues, rfl⟩ := object_eq hfilter h
  have hok' : (w.withObserved id extensions).RankingsOk :=
    ⟨hok.wf, hok.ranking_lt, hok.there, hok.apart⟩
  have hlast : ∀ b : Bool, ((if b then w₁.setFilter id fun filter =>
      { filter with lastActivityNotify := some w.now } else w₁) : MoqxRelay).trackOf ranking
        filter.ftn = w₁.trackOf ranking filter.ftn := by
    intro b
    split
    · exact trackOf_eq (rankings_setFilter _ _) _ _
    · rfl
  rw [hlast]
  split
  · next hseen =>
    change _ = (w.withObserved id extensions).trackOf ranking filter.ftn
    refine trackOf_observeValues_of_seen hok' hvalues ?_
    intro T' entry' hmem hsame
    have hentry' := mem_entries_iff.mp hmem
    have hT := honly T' entry' hentry' hsame
    subst hT
    rw [hentry] at hentry'
    cases hentry'
    exact hseen
  · next hnew =>
    rw [not_or] at hnew
    obtain ⟨value, hvalue⟩ := Option.ne_none_iff_exists'.mp hnew.1
    rw [hvalue, Option.getD_some]
    change _ = ((w.withObserved id extensions).trackOf ranking filter.ftn).map _
    refine trackOf_observeValues_of_new hok' hvalues (nodup_observers filter) ?_
      (mem_entries_iff.mpr hentry) hranking hvalue ?_
    · intro T' entry' hmem
      exact honly T' entry' (mem_entries_iff.mp hmem)
    · intro hsame
      exact hnew.2 (hvalue.trans hsame.symm)

end Object

end MoqxRelay

end Moqx
