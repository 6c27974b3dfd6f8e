import Moqx.Relay.Reconciled

/-! Sessions that begin or cease to publish while they are in a group. What they have been given is
their own selection while they own a track and the shared one while they own none, in the runs
where the hand-over between the two goes well. -/
namespace Moqx

open Maps Ranks

namespace PropertyRanking

variable {r r' : PropertyRanking} {g : TopNGroup} {x : FullTrackName} {i j n : Nat}
  {session : SessionId} {info : SessionInfo}

/-- A change tells a publisher just how its own selection changes. -/
def Follows (session : SessionId) (g : TopNGroup) (change : GroupChange) : Prop :=
  ∀ info, g.sessions.lookup session = some info → info.selectedTracks.Nodup →
    ∃ info', change.1.sessions.lookup session = some info' ∧ info'.selectedTracks.Nodup ∧
      replay info.selectedTracks.toFinset (heard session change.2) =
        some info'.selectedTracks.toFinset

variable {change : GroupChange} {op : Op}

theorem Follows.andThen {f : TopNGroup → GroupChange} (h : Follows session g change)
    (hf : Follows session change.1 (f change.1)) : Follows session g (change.andThen f) := by
  intro info hs hd
  obtain ⟨info₁, hs₁, hd₁, hreplay⟩ := h info hs hd
  obtain ⟨info₂, hs₂, hd₂, hreplay'⟩ := hf info₁ hs₁ hd₁
  refine ⟨info₂, hs₂, hd₂, ?_⟩
  rw [GroupChange.andThen, heard_append, replay_append, hreplay, Option.bind_some, hreplay']

theorem Follows.of_silent (hs : change.1.sessions = g.sessions) (hh : heard session change.2 = []) :
    Follows session g change := fun info hl hd =>
  ⟨info, hs ▸ hl, hd, by rw [hh, replay_nil]⟩

section
variable (hr : r.names.Nodup)
include hr

theorem reconcileSessions_follows (p : SessionId → Bool) :
    Follows session g (r.reconcileSessions n p g) := by
  intro info hs hd
  rw [lookup_reconcileSessions, heard_reconcileSessions, hs]
  cases p session with
  | false => exact ⟨info, rfl, hd, rfl⟩
  | true => exact ⟨_, rfl, aboveWaterline_nodup hr session _, replay_reconcile hr info hd n session⟩

variable (hpub : r.isPublisher session = true)
include hpub

theorem notifyTrackSelected_follows (x : FullTrackName) :
    Follows session g (r.notifyTrackSelected x g) := by
  intro info hs hd
  obtain ⟨info', hs', hd', hreplay⟩ :=
    reconcileSessions_follows (n := g.maxSelected) hr r.isPublisher info hs hd
  refine ⟨info', hs', hd', ?_⟩
  rw [heard_reconcileSessions, hs, hpub] at hreplay
  rw [heard_notifyTrackSelected hs, if_pos hpub]
  exact hreplay

theorem notifyTrackMoved_follows (x : FullTrackName) (entered : Bool) :
    Follows session g (r.notifyTrackMoved x entered n g) := by
  intro info hs hd
  have hbatch : heard session (if entered then batchSelected x (r.viewers g) else []) = [] := by
    cases entered with
    | false => rfl
    | true => rw [if_pos rfl, heard_batchSelected, hs, Option.map_some, hpub]; rfl
  obtain ⟨info', hs', hd', hreplay⟩ := reconcileSessions_follows (n := n) hr (fun session =>
    r.isPublisher session && some session ≠
      (r.trackIndexByName x).map fun e => e.2.publisherRaw) info hs hd
  refine ⟨info', hs', hd', ?_⟩
  simp only [notifyTrackMoved, heard_append, hbatch, List.append_nil]
  exact hreplay

theorem registerInGroup_follows (hnone : i < n → r.names[n]? = none) :
    Follows session g (r.registerInGroup x i n g) := by
  unfold registerInGroup
  split
  · next hin =>
    have hselect : Follows session g (r.notifyTrackSelected x (g.select x)) :=
      notifyTrackSelected_follows hr hpub x
    refine hselect.andThen (.of_silent (demoteTrackAtRank_sessions r _ n) ?_)
    simp only [demoteTrackAtRank, hnone hin, heard_nil]
  · exact reconcileSessions_follows hr r.isPublisher

end

/-- What a session of the group for `n` should have been given. -/
def due (r : PropertyRanking) (n : Nat) (session : SessionId) (info : SessionInfo) :
    Finset FullTrackName :=
  if r.isPublisher session then info.selectedTracks.toFinset else best n r.names

/-- A session that is taken for one that publishes already. -/
def wasPublisher (info : SessionInfo) : Bool :=
  !info.selectedTracks.isEmpty || info.waterlineKey.isSome

/-- A new track of rank `rank` that every session of a group hears of as it should: it pushes no
track out of the shared selection where a session publishes, and its own publisher, if it is in
the group, has been given what its selection is compared with. -/
def RegistrationFits (r : PropertyRanking) (publisher : SessionId) (rank n : Nat)
    (session : SessionId) (info : SessionInfo) : Prop :=
  (r.Owns session ∨ session = publisher → rank < n → r.rankedTracks.entries.length < n) ∧
    (session = publisher → if wasPublisher info then
        r.Owns session ∨ info.selectedTracks.toFinset = best n r.names
      else ¬ r.Owns session ∧ n ≤ rank)

instance (r : PropertyRanking) (publisher : SessionId) (rank n : Nat) (session : SessionId)
    (info : SessionInfo) : Decidable (r.RegistrationFits publisher rank n session info) :=
  inferInstanceAs (Decidable (_ ∧ _))

/-- A session owns a track besides `ftn`. -/
def OwnsBut (r : PropertyRanking) (ftn : FullTrackName) (session : SessionId) : Prop :=
  ∃ e ∈ r.rankedTracks.entries, e.2.ftn ≠ ftn ∧ e.2.publisherRaw = session

instance (r : PropertyRanking) (ftn : FullTrackName) (session : SessionId) :
    Decidable (r.OwnsBut ftn session) :=
  inferInstanceAs (Decidable (∃ e ∈ r.rankedTracks.entries,
    e.2.ftn ≠ ftn ∧ e.2.publisherRaw = session))

/-- An ended track that every session of a group hears of as it should: a session that goes on
publishing did not have it selected or is reconciled, and one that ceases to publish has been given
the shared selection. -/
def RemovalFits (r : PropertyRanking) (ftn : FullTrackName) (n : Nat) (session : SessionId)
    (info : SessionInfo) : Prop :=
  if r.OwnsBut ftn session then r.Promotes ftn n ∨ ftn ∉ info.selectedTracks
  else r.Owns session → ¬ r.Promotes ftn n ∧
    info.selectedTracks.toFinset = best n (r.names.filter (· ≠ ftn))

instance (r : PropertyRanking) (ftn : FullTrackName) (n : Nat) (session : SessionId)
    (info : SessionInfo) : Decidable (r.RemovalFits ftn n session info) :=
  inferInstanceAs (Decidable (if r.OwnsBut ftn session then _ else _))

/-- A call that every session of the group for `n` hears of as it should. A move must not take a
track across the shared selection if a session of the group publishes. -/
def Fits (r : PropertyRanking) (n : Nat) (g : TopNGroup) : Op → Prop
  | .registerTrack ftn value publisher => r.trackIndexByName ftn = none →
      ∀ member ∈ g.sessions.entries, r.RegistrationFits publisher
        (placeOf r.rankedTracks.entries ⟨value.getD 0, r.nextSeq⟩) n member.1 member.2
  | .updateSortValue ftn value _ => ∀ e ∈ r.trackIndexByName ftn, e.1.value ≠ value →
      ∀ session ∈ g.sessions.keys, r.Owns session →
        (r.getCachedRank ftn < n ↔ placeOf (r.rankedTracks.entries.filter fun d => d.2.ftn ≠ ftn)
          ⟨value, e.1.arrivalSeq⟩ < n)
  | .removeTrack ftn => (r.trackIndexByName ftn).isSome →
      ∀ member ∈ g.sessions.entries, r.RemovalFits ftn n member.1 member.2
  | _ => True

instance (r : PropertyRanking) (n : Nat) (g : TopNGroup) (op : Op) : Decidable (r.Fits n g op) := by
  induction op using Op.casesOn <;> unfold Fits <;> infer_instance

/-- A call after which every session of every group has been given what is due. -/
def HandsOver (r : PropertyRanking) (op : Op) : Prop :=
  ∀ group ∈ r.topNGroups.entries, r.Fits group.1 group.2 op

instance (r : PropertyRanking) (op : Op) : Decidable (r.HandsOver op) :=
  inferInstanceAs (Decidable (∀ group ∈ r.topNGroups.entries, r.Fits group.1 group.2 op))

theorem aboveWaterline_subset {waterlineKey : Option RankKey} {y : FullTrackName}
    (h : y ∈ r.aboveWaterline session waterlineKey) : y ∈ r.names := by
  obtain ⟨e, he, rfl⟩ := List.mem_map.mp h
  exact List.mem_map.mpr ⟨e, List.mem_of_mem_filter he, rfl⟩

/-- The selected tracks of a session are registered. -/
def Known (r : PropertyRanking) (_ : SessionId) (info : SessionInfo) : Prop :=
  ∀ y ∈ info.selectedTracks, y ∈ r.names

theorem known_reconcile (session : SessionId) (info : SessionInfo) :
    r.Known session (r.reconcilePublisherSelection info n session).1 :=
  fun _ hy => aboveWaterline_subset hy

/-- A session that goes on publishing when a track ends. -/
theorem ownsBut_of_owns {l : List Entry} {e : Entry} (hw : r.WF)
    (placed : Placed l i e r.rankedTracks.entries) (tracks : r'.rankedTracks.entries = l) :
    r'.Owns session ↔ r.OwnsBut e.2.ftn session := by
  obtain ⟨-, hname, -⟩ := placed.rest_tracksOk hw.tracks
  constructor
  · rintro ⟨a, ha, howner⟩
    rw [tracks] at ha
    exact ⟨a, placed.mem_iff.mpr (.inr ha), hname a ha, howner⟩
  · rintro ⟨a, ha, hne, howner⟩
    refine ⟨a, ?_, howner⟩
    rw [tracks]
    refine (placed.mem_iff.mp ha).resolve_left ?_
    rintro rfl
    exact hne rfl

/-- Removals that fit leave no track selected that is not registered. -/
theorem Turn.known (turn : Turn r n g op r' change) (hw : r.WF) (hw' : r'.WF)
    (hidle : r.idleTimeout = 0) (hmax : g.maxSelected = n) (hshared : g.Shared (best n r.names))
    (ok : r.Fits n g op) (h : r.Publishers r.Known g) : r'.Publishers r'.Known change.1 := by
  refine turn.publishers hw hw' hidle hmax hshared known_reconcile (fun _ _ _ h => h)
    fun session info hl hpub hpub' hspared y hy => ?_
  have hbefore := h session info hl hpub y hy
  cases hspared with
  | same tracks =>
    rw [names, tracks]
    exact hbefore
  | moved placed placed' below => exact placed'.mem_names.mpr (placed.mem_names.mp hbefore)
  | @ended l i e call placed tracks stays =>
    subst call
    have hfits := ok (by rw [trackIndexByName_of_mem hw (placed.mem_iff.mpr (.inl rfl))]; rfl)
      ⟨session, info⟩ (AList.mem_lookup_iff.mp hl)
    rw [RemovalFits, if_pos ((ownsBut_of_owns hw placed tracks).mp (hw'.isPublisher_iff.mp hpub'))]
      at hfits
    have hne : y ≠ e.2.ftn := fun heq => hfits.resolve_left stays (heq ▸ hy)
    rw [names, tracks]
    exact (placed.mem_names.mp hbefore).resolve_left hne

theorem toFinset_foldl_insert (l seen : List FullTrackName) :
    (l.foldl (fun seen ftn => seen.insert ftn) seen).toFinset = seen.toFinset ∪ l.toFinset := by
  induction l generalizing seen with
  | nil => simp
  | cons y l ih =>
    rw [List.foldl_cons, ih, List.toFinset_cons]
    ext z
    simp
    tauto

theorem nodup_foldl_insert (l : List FullTrackName) {seen : List FullTrackName}
    (h : seen.Nodup) : (l.foldl (fun seen ftn => seen.insert ftn) seen).Nodup := by
  induction l generalizing seen with
  | nil => exact h
  | cons y l ih => exact ih h.insert

/-- What the selection of a session that registers a track is compared with. -/
theorem reconcilePublisherInGroup_self (hr : r.names.Nodup)
    (hs : g.sessions.lookup session = some info) (hd : info.selectedTracks.Nodup) :
    ∃ info', (r.reconcilePublisherInGroup session n g).1.sessions.lookup session = some info' ∧
      info'.selectedTracks.Nodup ∧
      replay (if wasPublisher info then info.selectedTracks.toFinset else best n r.names)
        (heard session (r.reconcilePublisherInGroup session n g).2) =
          some info'.selectedTracks.toFinset := by
  simp only [reconcilePublisherInGroup, hs]
  refine ⟨_, AList.lookup_insert _, aboveWaterline_nodup hr session _, ?_⟩
  by_cases hwas : wasPublisher info = true
  · have hwas' := hwas
    rw [wasPublisher] at hwas'
    rw [if_pos hwas, if_pos hwas']
    exact replay_reconcile hr info hd n session
  · have hnil : info.selectedTracks = [] := by
      simp only [wasPublisher, Bool.or_eq_true, Bool.not_eq_true', List.isEmpty_eq_false_iff,
        not_or, not_not] at hwas
      exact hwas.1
    have hwas' := hwas
    rw [wasPublisher] at hwas'
    rw [if_neg hwas, if_neg hwas']
    have hseeded := replay_reconcile hr { info with
      selectedTracks := (r.names.take n).foldl (fun seen ftn => seen.insert ftn)
        info.selectedTracks } (nodup_foldl_insert _ hd) n session
    rw [toFinset_foldl_insert, hnil, List.toFinset_nil, Finset.empty_union] at hseeded
    rw [hnil]
    exact hseeded

section
variable {info' : SessionInfo} {publisher : SessionId} {value : Nat} {activity : Activity}
  {l : List Entry}
  {e : Entry} (hw : r.WF) (hw' : r'.WF)
  (hs : g.sessions.lookup session = some info) (hd : info.selectedTracks.Nodup)
include hw hw' hs hd

/-- The first step of a registration takes a session from what is due to a selection of its own. -/
theorem due_reconciled (placed : Placed r.rankedTracks.entries i e r'.rankedTracks.entries)
    (howns : r.Owns session ∨ session = publisher)
    (hfits : r.RegistrationFits publisher i n session info) : ∃ info₁,
      (r'.reconcilePublisherInGroup publisher n g).1.sessions.lookup session = some info₁ ∧
      info₁.selectedTracks.Nodup ∧ replay (r.due n session info)
        (heard session (r'.reconcilePublisherInGroup publisher n g).2) =
          some info₁.selectedTracks.toFinset := by
  by_cases hself : session = publisher
  · subst hself
    obtain ⟨info₁, hs₁, hd₁, hreplay₁⟩ :=
      reconcilePublisherInGroup_self (n := n) hw'.names_nodup hs hd
    refine ⟨info₁, hs₁, hd₁, ?_⟩
    rw [← hreplay₁]
    congr 1
    rw [due]
    have hbase := hfits.2 rfl
    split at hbase
    · next hwas =>
      split
      · rfl
      · next hpub₀ =>
        exact (hbase.resolve_left fun h => hpub₀ (hw.isPublisher_iff.mpr h)).symm
    · next hwas =>
      rw [if_neg hwas, if_neg fun hp => hbase.1 (hw.isPublisher_iff.mp hp)]
      have hnames : r'.names = _ := placed.names
      rw [hnames, best_insertIdx_of_le hbase.2]
      rfl
  · obtain ⟨hlook, hsilent⟩ := reconcilePublisherInGroup_other (r := r') (g := g) (n := n) hself
    refine ⟨info, hlook.trans hs, hd, ?_⟩
    rw [hsilent, due, if_pos (hw.isPublisher_iff.mpr (howns.resolve_right hself)), replay_nil]

variable (hpub : r'.isPublisher session = true)
include hpub

theorem due_registered {value : Option Nat}
    (ok : r.Fits n g (.registerTrack x value publisher))
    (placed : Placed r.rankedTracks.entries i (⟨value.getD 0, r.nextSeq⟩, ⟨x, publisher⟩)
      r'.rankedTracks.entries) (fresh : ∀ e ∈ r.rankedTracks.entries, e.2.ftn ≠ x)
    (hs' : ((r'.reconcilePublisherInGroup publisher n g).andThen
      (r'.registerInGroup x i n)).1.sessions.lookup session = some info') :
    replay (r.due n session info) (heard session ((r'.reconcilePublisherInGroup publisher n
      g).andThen (r'.registerInGroup x i n)).2) = some info'.selectedTracks.toFinset := by
  have hfits := ok (trackIndexByName_eq_none.mpr fresh) ⟨session, info⟩ (AList.mem_lookup_iff.mp hs)
  rw [placeOf_eq placed r'.rankedTracks.sorted] at hfits
  have howns : r.Owns session ∨ session = publisher := by
    obtain ⟨a, ha, howner⟩ := hw'.isPublisher_iff.mp hpub
    rcases placed.mem_iff.mp ha with rfl | ha
    · exact .inr howner.symm
    · exact .inl ⟨a, ha, howner⟩
  have hnone : i < n → r'.names[n]? = none := by
    intro hin
    have hlt := hfits.1 howns hin
    rw [List.getElem?_eq_none_iff, names, List.length_map, placed.length]
    omega
  obtain ⟨info₁, hs₁, hd₁, hreplay₁⟩ := due_reconciled hw hw' hs hd placed howns hfits
  obtain ⟨info₂, hs₂, -, hreplay₂⟩ :=
    registerInGroup_follows hw'.names_nodup hpub hnone info₁ hs₁ hd₁
  obtain rfl := Option.some.inj (hs₂.symm.trans hs')
  rw [GroupChange.andThen, heard_append, replay_append, hreplay₁, Option.bind_some, hreplay₂]

theorem due_recomputed (ok : r.Fits n g (.updateSortValue e.2.ftn value activity))
    (placed : Placed l i e r.rankedTracks.entries)
    (placed' : Placed l j (⟨value, e.1.arrivalSeq⟩, e.2) r'.rankedTracks.entries)
    (changed : e.1.value ≠ value)
    (hs' : (r'.recomputeGroup e.2.ftn i j n g).1.sessions.lookup session = some info') :
    replay (r.due n session info) (heard session (r'.recomputeGroup e.2.ftn i j n g).2) =
      some info'.selectedTracks.toFinset := by
  have hpub₀ : r.isPublisher session = true :=
    (isPublisher_of_moved hw hw' placed placed').symm.trans hpub
  have hfits := ok e (trackIndexByName_of_mem hw (placed.mem_iff.mpr (.inl rfl))) changed session
    (AList.mem_keys.mp (AList.lookup_isSome.mp (by rw [hs]; rfl))) (hw.isPublisher_iff.mp hpub₀)
  rw [getCachedRank_of_placed placed (placed.rest_tracksOk hw.tracks).2.1,
    placed.filter_ne hw.tracks, placeOf_eq placed' r'.rankedTracks.sorted] at hfits
  rw [recomputeGroup_stays hfits] at hs' ⊢
  obtain ⟨info₁, hs₁, -, hreplay⟩ :=
    notifyTrackMoved_follows (n := n) hw'.names_nodup hpub e.2.ftn false info hs hd
  obtain rfl := Option.some.inj (hs₁.symm.trans hs')
  rw [due, if_pos hpub₀]
  exact hreplay

theorem due_removed (hshared : g.Shared (best n r.names))
    (ok : r.Fits n g (.removeTrack e.2.ftn)) (placed : Placed l i e r.rankedTracks.entries)
    (tracks : r'.rankedTracks.entries = l)
    (hs' : (r'.removeInGroup e.2.ftn g).1.sessions.lookup session = some info') :
    replay (r.due n session info) (heard session (r'.removeInGroup e.2.ftn g).2 ++
      (Op.removeTrack e.2.ftn).ends) = some info'.selectedTracks.toFinset := by
  have howns := (ownsBut_of_owns hw placed tracks).mp (hw'.isPublisher_iff.mp hpub)
  have hfits := ok (by rw [trackIndexByName_of_mem hw (placed.mem_iff.mpr (.inl rfl))]; rfl)
    ⟨session, info⟩ (AList.mem_lookup_iff.mp hs)
  rw [RemovalFits, if_pos howns] at hfits
  have hpub₀ : r.isPublisher session = true := by
    obtain ⟨a, ha, -, howner⟩ := howns
    exact hw.isPublisher_iff.mpr ⟨a, ha, howner⟩
  rw [due, if_pos hpub₀, Op.ends, replay_append]
  have hgone : e.2.ftn ∉ r'.names := by
    rw [names, tracks]
    exact (placed.around hw.tracks).2.1
  rcases removeInGroup_cases hw placed tracks hshared with
    ⟨-, y, g', hsessions, -, heq⟩ | ⟨hstays, hsessions, hsilent⟩
  · rw [heq] at hs' ⊢
    obtain ⟨info₁, hs₁, -, hreplay⟩ :=
      notifyTrackSelected_follows (g := g') hw'.names_nodup hpub y info (hsessions ▸ hs) hd
    obtain rfl := Option.some.inj (hs₁.symm.trans hs')
    have hx : e.2.ftn ∉ info₁.selectedTracks.toFinset := by
      intro hmem
      rw [lookup_notifyTrackSelected, hsessions, hs, hpub] at hs₁
      obtain rfl := Option.some.inj hs₁
      exact hgone (aboveWaterline_subset (List.mem_toFinset.mp hmem))
    rw [hreplay, Option.bind_some, replay_ended, Finset.erase_eq_of_notMem hx, replay_nil]
  · rw [hsessions] at hs'
    have hx : e.2.ftn ∉ info.selectedTracks.toFinset := fun hmem =>
      hfits.resolve_left hstays (List.mem_toFinset.mp hmem)
    rw [← Option.some.inj (hs.symm.trans hs'), hsilent, heard_nil, replay_nil, Option.bind_some,
      replay_ended, Finset.erase_eq_of_notMem hx, replay_nil]

/-- A session that publishes after a call has been given its own selection. -/
theorem Turn.due_publisher (turn : Turn r n g op r' change) (hidle : r.idleTimeout = 0)
    (hshared : g.Shared (best n r.names)) (ok : r.Fits n g op)
    (hknown : r.Publishers r.Known g) (hjoin : op.joins n session = false)
    (hs' : change.1.sessions.lookup session = some info') :
    replay (r.due n session info) (heard session change.2 ++ op.ends) =
      some info'.selectedTracks.toFinset := by
  -- what is due to a session that published before
  have hsame : r'.rankedTracks = r.rankedTracks →
      r.due n session info = info.selectedTracks.toFinset := by
    intro ht
    rw [due, ← isPublisher_of_tracks hw hw' ht, if_pos hpub]
  have hinfo : ∀ {info₁}, some info = some info₁ → info₁ = info := fun h => (Option.some.inj h).symm
  cases turn with
  | quiet tracks apart unknown =>
    rw [hsame tracks, hinfo (hs.symm.trans hs')]
    cases op with
    | removeTrack x =>
      have hx : x ∉ info.selectedTracks.toFinset := by
        intro hmem
        rw [isPublisher_of_tracks hw hw' tracks] at hpub
        exact unknown x rfl (hknown session info hs hpub x (List.mem_toFinset.mp hmem))
      rw [heard_nil, Op.ends, List.nil_append, replay_ended, Finset.erase_eq_of_notMem hx,
        replay_nil]
    | _ => rfl
  | registered placed fresh =>
    simp only [Op.ends, List.append_nil]
    exact due_registered hw hw' hs hd hpub ok placed fresh hs'
  | @recomputed x value activity _ l i j e sweeps name placed placed' changed idle =>
    cases sweeps with
    | true => exact absurd hidle (idle rfl)
    | false =>
      subst name
      simp only [GroupChange.andThen, sweepAfter, Bool.false_eq_true, if_false, Op.ends,
        List.append_nil] at hs' ⊢
      exact due_recomputed hw hw' hs hd hpub ok placed placed' changed hs'
  | moved name placed placed' below members =>
    rw [due, ← isPublisher_of_moved hw hw' placed placed', if_pos hpub,
      hinfo (hs.symm.trans hs')]
    rfl
  | removed name placed tracks =>
    subst name
    exact due_removed hw hw' hs hd hpub hshared ok placed tracks hs'
  | swept tracks idle => exact absurd hidle idle
  | joinedAsPublisher tracks publisher =>
    have hne := ne_of_joins hjoin
    rw [TopNGroup.setSession, AList.lookup_insert_ne (Ne.symm hne)] at hs'
    rw [hsame tracks, hinfo (hs.symm.trans hs'), heard_reconcile_other hne]
    rfl
  | joinedAsViewer tracks viewer =>
    have hne := ne_of_joins hjoin
    rw [TopNGroup.setSession, AList.lookup_insert_ne (Ne.symm hne)] at hs'
    rw [hsame tracks, hinfo (hs.symm.trans hs'),
      heard_map_other _ fun x => by simp [Callback.heardBy, hne]]
    rfl
  | forwarded tracks member =>
    rw [hsame tracks]
    rcases lookup_insert_some hs' with ⟨rfl, rfl⟩ | ⟨-, hs'⟩
    · rw [hinfo (hs.symm.trans member)]
      rfl
    · rw [hinfo (hs.symm.trans hs')]
      rfl
  | left tracks =>
    rw [hsame tracks, hinfo (hs.symm.trans (lookup_erase_some hs').2)]
    rfl

end

/-- A session whose last track ends has been given the shared selection. -/
theorem Turn.due_ceases (turn : Turn r n g op r' change) (hw : r.WF) (hw' : r'.WF)
    (hshared : g.Shared (best n r.names)) (ok : r.Fits n g op)
    (hs : g.sessions.lookup session = some info) (hpub : r.isPublisher session = true)
    (hview : r'.isPublisher session = false) :
    replay info.selectedTracks.toFinset (heard session change.2 ++ op.ends) =
      some (best n r'.names) := by
  have hsame : r'.isPublisher session ≠ r.isPublisher session := by
    rw [hpub, hview]
    exact Bool.false_ne_true
  cases turn with
  | @registered x value publisher _ i placed fresh =>
    obtain ⟨a, ha, howner⟩ := hw.isPublisher_iff.mp hpub
    have howns := hw'.isPublisher_iff.mpr ⟨a, placed.mem_iff.mpr (.inr ha), howner⟩
    exact absurd howns (by simp [hview])
  | @recomputed x value activity _ l i j e sweeps name placed placed' changed idle
  | @moved x value activity _ l i j e name placed placed' below members =>
    exact absurd (isPublisher_of_moved hw hw' placed placed') hsame
  | @removed x _ l i e name placed tracks =>
    subst name
    have hnot : ¬ r.OwnsBut e.2.ftn session := by
      rw [← ownsBut_of_owns hw placed tracks, ← hw'.isPublisher_iff, hview]
      exact Bool.false_ne_true
    have hfits := ok (by rw [trackIndexByName_of_mem hw (placed.mem_iff.mpr (.inl rfl))]; rfl)
      ⟨session, info⟩ (AList.mem_lookup_iff.mp hs)
    rw [RemovalFits, if_neg hnot] at hfits
    obtain ⟨hstays, hgiven⟩ := hfits (hw.isPublisher_iff.mp hpub)
    have hnames : r.names.filter (· ≠ e.2.ftn) = r'.names := by
      rw [names, placed.names_filter_ne hw.tracks, names, tracks]
    rw [hnames] at hgiven
    have hx : e.2.ftn ∉ best n r'.names := by
      intro hmem
      have hmem := mem_of_mem_best hmem
      rw [names, tracks] at hmem
      exact (placed.around hw.tracks).2.1 hmem
    rcases removeInGroup_cases hw placed tracks hshared with ⟨hpromotes, -⟩ | ⟨-, -, hsilent⟩
    · exact absurd hpromotes hstays
    · rw [hsilent, heard_nil, List.nil_append, Op.ends, replay_ended, hgiven,
        Finset.erase_eq_of_notMem hx, replay_nil]
  | quiet tracks | swept tracks | joinedAsPublisher tracks | joinedAsViewer tracks
  | forwarded tracks | left tracks => exact absurd (isPublisher_of_tracks hw hw' tracks) hsame

/-- A session that joins as a publisher is given its own selection. -/
theorem Turn.joined_publisher (turn : Turn r n g op r' change) (hw' : r'.WF)
    (hjoin : op.joins n session = true) (hpub : r'.isPublisher session = true)
    (hs : change.1.sessions.lookup session = some info) :
    replay ∅ (heard session change.2 ++ op.ends) = some info.selectedTracks.toFinset := by
  cases turn with
  | quiet tracks apart unknown => exact absurd (apart session) (by simp [hjoin])
  | @joinedAsViewer joining forward _ tracks viewer =>
    obtain rfl : joining = session := by simpa [Op.joins] using hjoin
    exact absurd viewer (by simp [hpub])
  | @joinedAsPublisher joining forward _ tracks publisher =>
    obtain rfl : joining = session := by simpa [Op.joins] using hjoin
    rw [TopNGroup.setSession, AList.lookup_insert] at hs
    obtain rfl := Option.some.inj hs
    simp only [Op.ends, List.append_nil]
    exact replay_reconcile hw'.names_nodup { forward := forward } List.nodup_nil n joining
  | _ => cases hjoin

section
variable {sweepThrottle : Milliseconds} {history : List Event}

/-- What holds of the group for `n` in a run of calls that fit. -/
structure Given (r : PropertyRanking) (history : List Event) (n : Nat) (g : TopNGroup) : Prop where
  known : r.Publishers r.Known g
  delivered : ∀ session info, g.sessions.lookup session = some info →
    deliveredIn n session history = some (r.due n session info)

theorem Reaches.given (h : Reaches HandsOver (create 0 0 sweepThrottle) history r) (n : Nat) :
    r.Given history n (r.groupOf n) := by
  induction h generalizing n with
  | start =>
    refine ⟨fun session info hl => ?_, fun session info hl => ?_⟩ <;> cases hl
  | @step history r op h ok ih =>
    have hw := h.wf (wf_create 0 0 sweepThrottle)
    have hw' := hw.step op
    cases hg : (r.step op).1.topNGroups.lookup n with
    | none =>
      have hempty := (groupOf_of_none hg).1
      refine ⟨fun session info hl => ?_, fun session info hl => ?_⟩ <;>
        (rw [hempty] at hl; cases hl)
    | some g =>
      rw [groupOf_eq hg]
      have hturn := step_turn hw hg
      have hshared := h.shared n
      have hfits : r.Fits n (r.groupOf n) op := by
        cases hg₀ : r.topNGroups.lookup n with
        | some g₀ =>
          rw [groupOf_eq hg₀]
          exact ok ⟨n, g₀⟩ (AList.mem_lookup_iff.mp hg₀)
        | none =>
          have hempty := (groupOf_of_none hg₀).1
          cases op <;> simp [Fits, hempty, AList.keys]
      refine ⟨hturn.known hw hw' h.limits.2 (groupOf_maxSelected hw n) hshared hfits (ih n).known,
        fun session info' hs' => ?_⟩
      cases hjoin : op.joins n session with
      | true =>
        rw [deliveredIn_joins hjoin, due]
        cases hpub : (r.step op).1.isPublisher session with
        | true => exact hturn.joined_publisher hw' hjoin hpub hs'
        | false => exact hturn.joined hw' hjoin hpub
      | false =>
        cases hs : (r.groupOf n).sessions.lookup session with
        | none => exact absurd (hturn.members hw' hjoin hs) (by simp [hs'])
        | some info =>
          rw [deliveredIn_cons hjoin, (ih n).delivered session info hs, Option.bind_some]
          have hd : info.selectedTracks.Nodup :=
            ((hw.getOrCreateTopNGroup n).groups n _
              (r.lookup_getOrCreateTopNGroup n)).distinct session info hs
          cases hpub : (r.step op).1.isPublisher session with
          | true =>
            have hgiven := hturn.due_publisher hw hw' hs hd hpub h.limits.2 hshared hfits
              (ih n).known hjoin hs'
            rw [due, due, hpub]
            exact hgiven
          | false =>
            rw [due, due, hpub]
            cases hpub₀ : r.isPublisher session with
            | true => exact hturn.due_ceases hw hw' hshared hfits hs hpub₀ hpub
            | false =>
              exact (hturn.shared hw hw' ((step_limits r op).1.trans h.limits.1) h.limits.2
                hshared).2 session info hs hpub hjoin

/-- Without a queue and without idle eviction, in a run where every call fits, each session of a
group has been given its own selection while it owns a track and the shared one while it owns none,
with no track selected that was delivered or evicted that was not. -/
theorem delivered_as_due (h : Reaches HandsOver (create 0 0 sweepThrottle) history r)
    (hg : r.topNGroups.lookup n = some g) (hs : g.sessions.lookup session = some info) :
    (r.Owns session → deliveredIn n session history = some info.selectedTracks.toFinset) ∧
      (¬ r.Owns session → ∃ d, deliveredIn n session history = some d ∧
        ∀ x, x ∈ d ↔ g.trackStates.lookup x = some .selected) ∧
      ((∀ e ∈ sinceJoined n session history, ∀ m g, m ≠ n →
          e.after.topNGroups.lookup m = some g → g.sessions.lookup session = none) →
        deliveredTo n session history = deliveredIn n session history) := by
  have hw := h.wf (wf_create 0 0 sweepThrottle)
  have hgiven := (h.given n).delivered session info (by rw [groupOf_eq hg]; exact hs)
  have hshared := h.shared n
  rw [groupOf_eq hg] at hshared
  refine ⟨fun howns => ?_, fun hnot => ⟨best n r.names, ?_, fun x => hshared.mem_iff.symm⟩,
    h.deliveredTo_eq⟩
  · rw [hgiven, due, if_pos (hw.isPublisher_iff.mpr howns)]
  · rw [hgiven, due, if_neg (mt hw.isPublisher_iff.mp hnot)]

end

/-- A viewer of two tracks begins to publish a third one below them, and ceases again. -/
theorem delivered_as_due_upgrade :
    let ops := [.registerTrack ⟨[], "a"⟩ (some 5) 0, .registerTrack ⟨[], "b"⟩ (some 4) 0,
      .addSessionToTopNGroup 1 7 true, .registerTrack ⟨[], "c"⟩ (some 3) 7,
      .removeTrack ⟨[], "c"⟩]
    let x := (create 0 0 0).run [] ops
    Reaches HandsOver (create 0 0 0) x.2 x.1 ∧ ∃ g info, x.1.topNGroups.lookup 1 = some g ∧
      g.sessions.lookup 7 = some info ∧ ¬ x.1.Owns 7 ∧ ∃ d, deliveredIn 1 7 x.2 = some d ∧
        ∀ y, y ∈ d ↔ g.trackStates.lookup y = some .selected := by
  intro ops x
  have hrun : Reaches HandsOver (create 0 0 0) x.2 x.1 := Reaches.start.run (by decide +kernel)
  have hnot : ¬ x.1.Owns 7 := by decide +kernel
  have hgroup : ((x.1.topNGroups.lookup 1).any fun g => (g.sessions.lookup 7).isSome) = true := by
    decide +kernel
  refine ⟨hrun, ?_⟩
  cases hg : x.1.topNGroups.lookup 1 with
  | none => simp [hg] at hgroup
  | some g =>
    rw [hg, Option.any_some] at hgroup
    obtain ⟨info, hs⟩ := Option.isSome_iff_exists.mp hgroup
    exact ⟨g, info, rfl, hs, hnot, (delivered_as_due hrun hg hs).2.1 hnot⟩

/-- A viewer begins to publish below the track it was given. A better track of another publisher
then comes in: the session is told of the change as a publisher, and once more with the eviction
from the shared selection. -/
theorem publisher_evicted_twice :
    let ops := [.registerTrack ⟨[], "a"⟩ (some 5) 1, .addSessionToTopNGroup 1 0 true,
      .registerTrack ⟨[], "c"⟩ (some 3) 0, .registerTrack ⟨[], "b"⟩ (some 10) 2]
    let x := (create 0 0 0).run [] ops
    Reaches (fun _ _ => True) (create 0 0 0) x.2 x.1 ∧ x.1.Owns 0 ∧
      (sinceJoined 1 0 x.2).flatMap (Event.heardBy 0) =
        [.select ⟨[], "a"⟩, .evict ⟨[], "a"⟩, .select ⟨[], "b"⟩, .evict ⟨[], "a"⟩] ∧
      deliveredTo 1 0 x.2 = none := by
  refine ⟨Reaches.start.run ⟨trivial, trivial, trivial, trivial, trivial⟩, ?_⟩
  decide +kernel

end PropertyRanking

end Moqx
