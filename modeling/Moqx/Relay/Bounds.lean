import Moqx.Relay.Selection

/-! How many tracks a group selects and queues, with idle eviction. -/
namespace Moqx

open Maps Ranks

/-- A group with these tracks selected, and those it deselected in the queue, once each. -/
structure TopNGroup.Stands (maxDeselected : Nat) (names : List FullTrackName)
    (selected : Finset FullTrackName) (g : TopNGroup) : Prop where
  selects : ∀ x, g.trackStates.lookup x = some .selected ↔ x ∈ selected
  queued : ∀ x, x ∈ g.deselectedQueue ↔ g.trackStates.lookup x = some .deselected
  nodup : g.deselectedQueue.Nodup
  length : g.deselectedQueue.length ≤ maxDeselected
  known : ∀ x state, g.trackStates.lookup x = some state → x ∈ names

namespace TopNGroup

variable {maxDeselected : Nat} {names : List FullTrackName} {selected : Finset FullTrackName}
  {g g' : TopNGroup} {x : FullTrackName}

/-- What trimming leaves of a queue and of the states. -/
theorem trimQueue_spec (maxDeselected : Nat) (sessions : List SessionId)
    (queue : List FullTrackName) (states : AList fun _ : FullTrackName => TrackState)
    (hq : ∀ x, x ∈ queue ↔ states.lookup x = some .deselected) (hd : queue.Nodup) :
    let trimmed := trimQueue maxDeselected sessions queue states
    (∀ x, x ∈ trimmed.1 ↔ trimmed.2.1.lookup x = some .deselected) ∧ trimmed.1.Nodup ∧
      trimmed.1.length ≤ maxDeselected ∧
      (∀ x, trimmed.2.1.lookup x = some .selected ↔ states.lookup x = some .selected) ∧
      ∀ x state, trimmed.2.1.lookup x = some state → states.lookup x = some state := by
  induction queue generalizing states with
  | nil => exact ⟨hq, hd, Nat.zero_le _, fun _ => Iff.rfl, fun _ _ => id⟩
  | cons y rest ih =>
    obtain ⟨hy, hrest⟩ := List.nodup_cons.mp hd
    unfold trimQueue
    by_cases hlong : maxDeselected < (y :: rest).length
    · have hstate : states.lookup y = some .deselected := (hq y).mp List.mem_cons_self
      have hq' : ∀ x, x ∈ rest ↔ (states.erase y).lookup x = some .deselected := by
        intro x
        by_cases hxy : x = y
        · subst hxy
          simp [hy]
        · rw [AList.lookup_erase_ne hxy, ← hq]
          simp [hxy]
      obtain ⟨hqueued, hnodup, hlength, hselects, hsub⟩ := ih (states.erase y) hq' hrest
      rw [if_pos hlong]
      refine ⟨hqueued, hnodup, hlength, fun x => ?_, fun x state hx => ?_⟩
      · rw [hselects]
        by_cases hxy : x = y
        · subst hxy
          simp [hstate]
        · rw [AList.lookup_erase_ne hxy]
      · exact (lookup_erase_some (hsub x state hx)).2
    · rw [if_neg hlong]
      exact ⟨hq, hd, Nat.le_of_not_lt hlong, fun _ => Iff.rfl, fun _ _ => id⟩

namespace Stands

theorem of_eq (h : g.Stands maxDeselected names selected)
    (hq : g'.deselectedQueue = g.deselectedQueue) (hs : g'.trackStates = g.trackStates) :
    g'.Stands maxDeselected names selected :=
  ⟨hs ▸ h.selects, by rw [hq, hs]; exact h.queued, hq ▸ h.nodup, hq ▸ h.length, hs ▸ h.known⟩

theorem mono {names' : List FullTrackName} (h : g.Stands maxDeselected names selected)
    (hsub : ∀ x ∈ names, x ∈ names') : g.Stands maxDeselected names' selected :=
  ⟨h.selects, h.queued, h.nodup, h.length, fun x state hx => hsub x (h.known x state hx)⟩

/-- Selecting a track takes it out of the queue. -/
theorem select (h : g.Stands maxDeselected names selected) (hx : x ∈ names) :
    ((g.select x).removeFromDeselectedQueue x).Stands maxDeselected names (insert x selected) := by
  have hlook : ∀ y, y ≠ x → (g.select x).trackStates.lookup y = g.trackStates.lookup y :=
    fun y hy => AList.lookup_insert_ne hy
  have hself : (g.select x).trackStates.lookup x = some .selected := AList.lookup_insert _
  refine ⟨fun y => ?_, fun y => ?_, h.nodup.filter _, ?_, fun y state hy => ?_⟩
  · by_cases hxy : y = x
    · subst hxy
      simp [hself]
    · rw [removeFromDeselectedQueue_trackStates, hlook y hxy, h.selects]
      simp [hxy]
  · by_cases hxy : y = x
    · subst hxy
      simp [hself, removeFromDeselectedQueue]
    · rw [removeFromDeselectedQueue_trackStates, hlook y hxy, ← h.queued]
      simp [removeFromDeselectedQueue, TopNGroup.select, hxy]
  · exact Nat.le_trans (List.length_filter_le _ _) h.length
  · by_cases hxy : y = x
    · exact hxy ▸ hx
    · rw [removeFromDeselectedQueue_trackStates, hlook y hxy] at hy
      exact h.known y state hy

/-- A track that is not queued yet can be demoted. -/
theorem demoteTrack (h : g.Stands maxDeselected names selected) (hx : x ∈ names)
    (hnot : g.trackStates.lookup x ≠ some .deselected) :
    (g.demoteTrack maxDeselected x).1.Stands maxDeselected names (selected.erase x) := by
  have hnew : x ∉ g.deselectedQueue := fun hmem => hnot ((h.queued x).mp hmem)
  have hq : ∀ y, y ∈ g.deselectedQueue ++ [x] ↔
      (g.trackStates.insert x .deselected).lookup y = some .deselected := by
    intro y
    by_cases hxy : y = x
    · subst hxy
      simp
    · rw [AList.lookup_insert_ne hxy, ← h.queued]
      simp [hxy]
  have hd : (g.deselectedQueue ++ [x]).Nodup := by
    rw [List.nodup_append]
    refine ⟨h.nodup, List.nodup_singleton x, fun a ha b hb => ?_⟩
    rw [List.mem_singleton.mp hb]
    rintro rfl
    exact hnew ha
  obtain ⟨hqueued, hnodup, hlength, hselects, hsub⟩ :=
    trimQueue_spec maxDeselected g.sessions.keys _ _ hq hd
  refine ⟨fun y => ?_, hqueued, hnodup, hlength, fun y state hy => ?_⟩
  · refine (hselects y).trans ?_
    by_cases hxy : y = x
    · subst hxy
      simp
    · rw [AList.lookup_insert_ne hxy, h.selects]
      simp [hxy]
  · rcases lookup_insert_some (hsub y state hy) with ⟨rfl, -⟩ | ⟨-, hy⟩
    · exact hx
    · exact h.known y state hy

/-- A track that ended is forgotten. -/
theorem withoutTrack (h : g.Stands maxDeselected names selected) {names' : List FullTrackName}
    (hnames : ∀ y ∈ names, y ≠ x → y ∈ names') :
    (g.withoutTrack x).Stands maxDeselected names' (selected.erase x) := by
  refine ⟨fun y => ?_, fun y => ?_, h.nodup.filter _, ?_, fun y state hy => ?_⟩
  · by_cases hxy : y = x
    · subst hxy
      simp [TopNGroup.withoutTrack]
    · simp only [TopNGroup.withoutTrack, removeFromDeselectedQueue_trackStates]
      rw [AList.lookup_erase_ne hxy, h.selects]
      simp [hxy]
  · by_cases hxy : y = x
    · subst hxy
      simp [TopNGroup.withoutTrack, removeFromDeselectedQueue]
    · simp only [TopNGroup.withoutTrack, removeFromDeselectedQueue_trackStates]
      rw [AList.lookup_erase_ne hxy, ← h.queued]
      simp [removeFromDeselectedQueue, hxy]
  · exact Nat.le_trans (List.length_filter_le _ _) h.length
  · obtain ⟨hne, hy⟩ := lookup_erase_some hy
    exact hnames y (h.known y state hy) hne

end Stands

end TopNGroup

namespace PropertyRanking

variable {r r' : PropertyRanking} {g : TopNGroup} {x : FullTrackName} {i j n : Nat}
  {selected : Finset FullTrackName} {names : List FullTrackName}

/-- A group within its bounds. -/
def Bounded (r : PropertyRanking) (n : Nat) (g : TopNGroup) : Prop :=
  ∃ selected : Finset FullTrackName, selected.card ≤ n ∧ g.Stands r.maxDeselected r.names selected

theorem Bounded.of_eq {g' : TopNGroup} (h : r.Bounded n g)
    (hq : g'.deselectedQueue = g.deselectedQueue) (hs : g'.trackStates = g.trackStates) :
    r.Bounded n g' := by
  obtain ⟨selected, hcard, hstands⟩ := h
  exact ⟨selected, hcard, hstands.of_eq hq hs⟩

theorem card_erase_lt {k : Nat} (h : x ∈ selected) (hcard : selected.card ≤ k) :
    (selected.erase x).card < k := by
  have hpos := Finset.card_pos.mpr ⟨x, h⟩
  rw [Finset.card_erase_of_mem h]
  omega

/-- A group with room for one more may promote. -/
theorem promoteNextAvailableTrack_bounded (h : g.Stands r.maxDeselected r.names selected)
    (hcard : selected.card < n) (x : FullTrackName) :
    ∃ selected', selected'.card ≤ n ∧ selected ⊆ selected' ∧
      (r.promoteNextAvailableTrack x g).1.Stands r.maxDeselected r.names selected' := by
  unfold promoteNextAvailableTrack
  split
  · next y hfind =>
    have hy : y ∈ r.names := List.mem_of_find?_eq_some hfind
    refine ⟨insert y selected, ?_, Finset.subset_insert y selected, (h.select hy).of_eq rfl rfl⟩
    exact Nat.le_trans (Finset.card_insert_le y selected) hcard
  · exact ⟨selected, Nat.le_of_lt hcard, Finset.Subset.refl _, h⟩

/-- A sweep puts another track in the place of each idle one. -/
theorem sweepTracks_bounded (activity : Activity) {tracks : List FullTrackName}
    (hd : tracks.Nodup) (hsel : ∀ x ∈ tracks, x ∈ selected) (hcard : selected.card ≤ n)
    (h : g.Stands r.maxDeselected r.names selected) :
    r.Bounded n (r.sweepTracks activity tracks g).1 := by
  induction tracks generalizing g selected with
  | nil => exact ⟨selected, hcard, h⟩
  | cons x rest ih =>
    obtain ⟨hx, hrest⟩ := List.nodup_cons.mp hd
    have hxsel := hsel x List.mem_cons_self
    have hstate : g.trackStates.lookup x = some .selected := (h.selects x).mpr hxsel
    unfold sweepTracks
    split
    · have hdemoted := h.demoteTrack (h.known x _ hstate) (by rw [hstate]; decide)
      obtain ⟨selected', hcard', hsub, hstands⟩ :=
        promoteNextAvailableTrack_bounded hdemoted (card_erase_lt hxsel hcard) x
      refine ih hrest (fun y hy => hsub ?_) hcard' hstands
      refine Finset.mem_erase.mpr ⟨?_, hsel y (List.mem_cons_of_mem x hy)⟩
      rintro rfl
      exact hx hy
    · exact ih hrest (fun y hy => hsel y (List.mem_cons_of_mem x hy)) hcard h

theorem sweepGroup_bounded (activity : Activity) (h : r.Bounded n g) :
    r.Bounded n (r.sweepGroup activity g).1 := by
  obtain ⟨selected, hcard, hstands⟩ := h
  refine sweepTracks_bounded activity ?_ (fun x hx => ?_) hcard hstands
  · exact g.trackStates.keys_nodup.sublist (List.filter_sublist.map _)
  · obtain ⟨e, he, rfl⟩ := List.mem_map.mp hx
    obtain ⟨hmem, hstate⟩ := List.mem_filter.mp he
    have hstate : e.2 = .selected := by simpa using hstate
    refine (hstands.selects e.1).mp (AList.mem_lookup_iff.mpr ?_)
    rw [← hstate]
    exact hmem

/-- The end of a track lets at most one other in. -/
theorem removeInGroup_bounded (h : g.Stands r.maxDeselected names selected)
    (hcard : selected.card ≤ n) (hnames : ∀ y ∈ names, y ≠ x → y ∈ r.names) :
    r.Bounded n (r.removeInGroup x g).1 := by
  have hforgotten := h.withoutTrack (x := x) hnames
  have hless : (selected.erase x).card ≤ n := Nat.le_trans (Finset.card_erase_le) hcard
  unfold removeInGroup
  split
  · next hnone =>
    refine ⟨selected, hcard, h.selects, h.queued, h.nodup, h.length, fun y state hy => ?_⟩
    refine hnames y (h.known y state hy) ?_
    rintro rfl
    rw [hnone] at hy
    cases hy
  · next state hstate =>
    dsimp only
    split
    · next hsel =>
      have hx : x ∈ selected := (h.selects x).mp (hsel ▸ hstate)
      have hlt := card_erase_lt hx hcard
      split
      · next promoted rest hqueue =>
        have hqueue : (g.withoutTrack x).deselectedQueue = promoted :: rest := hqueue
        have hnodup := hforgotten.nodup
        rw [hqueue, List.nodup_cons] at hnodup
        have hpromoted : promoted ∈ r.names := hforgotten.known promoted .deselected
          ((hforgotten.queued promoted).mp (by rw [hqueue]; exact List.mem_cons_self))
        refine ⟨insert promoted (selected.erase x),
          Nat.le_trans (Finset.card_insert_le _ _) hlt, ?_⟩
        have hrest : ((g.withoutTrack x).deselectedQueue.filter fun y => y ≠ promoted) = rest := by
          rw [hqueue, List.filter_cons, if_neg (by simp), List.filter_eq_self]
          intro y hy
          simpa using fun heq : y = promoted => hnodup.1 (heq ▸ hy)
        exact (hforgotten.select hpromoted).of_eq hrest.symm rfl
      · obtain ⟨selected', hcard', -, hstands⟩ :=
          promoteNextAvailableTrack_bounded (n := n) hforgotten hlt x
        exact ⟨selected', hcard', hstands⟩
    · exact ⟨selected.erase x, hless, hforgotten⟩

/-- Taking a track in leaves a group within its bounds: the track was selected, or there is room, or
the track that it displaces is selected. -/
def HasRoom (g : TopNGroup) (n : Nat) (others : List FullTrackName) (x : FullTrackName) : Prop :=
  g.trackStates.lookup x = some .selected ∨
    ((g.trackStates.entries.filter fun e => e.2 = .selected).length < n) ∨
    others[n - 1]?.any (fun y => g.trackStates.lookup y = some .selected) = true

instance (g : TopNGroup) (n : Nat) (others : List FullTrackName) (x : FullTrackName) :
    Decidable (HasRoom g n others x) :=
  inferInstanceAs (Decidable (_ ∨ _ ∨ _))

theorem length_selected (h : ∀ x, g.trackStates.lookup x = some .selected ↔ x ∈ selected) :
    (g.trackStates.entries.filter fun e => e.2 = .selected).length = selected.card := by
  have hnodup : ((g.trackStates.entries.filter fun e => e.2 = .selected).map fun e => e.1).Nodup :=
    g.trackStates.keys_nodup.sublist (List.filter_sublist.map _)
  rw [← List.length_map (f := fun e : Sigma fun _ : FullTrackName => TrackState => e.1),
    ← List.toFinset_card_of_nodup hnodup]
  congr 1
  ext x
  rw [List.mem_toFinset, ← h, List.mem_map]
  constructor
  · rintro ⟨e, he, rfl⟩
    obtain ⟨hmem, hstate⟩ := List.mem_filter.mp he
    refine AList.mem_lookup_iff.mpr ?_
    rw [← (by simpa using hstate : e.2 = .selected)]
    exact hmem
  · intro hx
    exact ⟨⟨x, .selected⟩, List.mem_filter.mpr ⟨AList.mem_lookup_iff.mp hx, by simp⟩, rfl⟩

/-- A track comes in and the one at the next rank goes. -/
theorem demoteTrackAtRank_bounded (h : g.Stands r.maxDeselected r.names selected)
    (hcard : selected.card ≤ n ∨ selected.card ≤ n + 1 ∧
      ∃ y, r.names[n]? = some y ∧ y ∈ selected) :
    r.Bounded n (r.demoteTrackAtRank n g).1 := by
  unfold demoteTrackAtRank
  cases hy : r.names[n]? with
  | none =>
    refine ⟨selected, hcard.resolve_right ?_, h⟩
    rintro ⟨-, y, hsome, -⟩
    simp [hy] at hsome
  | some y =>
    dsimp only
    split
    · next hsel =>
      have hmem := (h.selects y).mp hsel
      refine ⟨selected.erase y, ?_, h.demoteTrack (h.known y _ hsel) (by rw [hsel]; decide)⟩
      exact Nat.lt_succ_iff.mp (card_erase_lt hmem (by omega))
    · next hsel =>
      refine ⟨selected, hcard.resolve_right ?_, h⟩
      rintro ⟨-, y', hsome, hmem⟩
      obtain rfl : y = y' := Option.some.inj (hy.symm.trans hsome)
      exact hsel ((h.selects y).mpr hmem)

/-- How many tracks are selected once a track has come in. -/
theorem HasRoom.card (h : ∀ x, g.trackStates.lookup x = some .selected ↔ x ∈ selected)
    {others : List FullTrackName} (hroom : HasRoom g n others x) (hcard : selected.card ≤ n) :
    (insert x selected).card ≤ n ∨ (insert x selected).card ≤ n + 1 ∧
      ∃ y, others[n - 1]? = some y ∧ y ∈ insert x selected := by
  have hinsert := Finset.card_insert_le x selected
  rcases hroom with hsel | hless | hnext
  · rw [Finset.insert_eq_of_mem ((h x).mp hsel)]
    exact .inl hcard
  · rw [length_selected h] at hless
    exact .inl (by omega)
  · cases hy : others[n - 1]? with
    | none => simp [hy] at hnext
    | some y =>
      rw [hy, Option.any_some, decide_eq_true_iff] at hnext
      exact .inr ⟨by omega, y, rfl, Finset.mem_insert_of_mem ((h y).mp hnext)⟩

/-- What a new track changes in a group with room for it. -/
theorem registerInGroup_bounded {l : List FullTrackName} (hx : x ∉ l) (hi : i ≤ l.length)
    (hnames : r.names = l.insertIdx i x) (h : g.Stands r.maxDeselected l selected)
    (hcard : selected.card ≤ n) (hroom : i < n → HasRoom g n l x) :
    r.Bounded n (r.registerInGroup x i n g).1 := by
  have hmem : ∀ y, y ∈ r.names ↔ y = x ∨ y ∈ l := fun y => by
    rw [hnames, List.mem_insertIdx hi]
  have hgrown := h.mono fun y hy => (hmem y).mpr (.inr hy)
  unfold registerInGroup
  split
  · next hin =>
    have hnew : x ∉ g.deselectedQueue := fun hqueued =>
      hx (h.known x _ ((h.queued x).mp hqueued))
    have hselected : (g.select x).Stands r.maxDeselected r.names (insert x selected) := by
      refine (hgrown.select ((hmem x).mpr (.inl rfl))).of_eq ?_ rfl
      refine (List.filter_eq_self.mpr fun y hy => ?_).symm
      simpa using fun heq : y = x => hnew (heq ▸ hy)
    have hat : r.names[n]? = l[n - 1]? := by rw [hnames, List.getElem?_insertIdx_of_gt hin]
    refine demoteTrackAtRank_bounded (hselected.of_eq rfl rfl) ?_
    rw [hat]
    exact (hroom hin).card h.selects hcard
  · exact ⟨selected, hcard, hgrown.of_eq rfl rfl⟩

/-- A group that lost a track to a move takes the next one in. -/
theorem promoteTrackAtRank_bounded (h : g.Stands r.maxDeselected r.names selected)
    (hcard : selected.card < n ∨ selected.card ≤ n ∧
      ∃ y, r.names[n - 1]? = some y ∧ y ∈ selected) :
    r.Bounded n (r.promoteTrackAtRank n g).1 := by
  have hle : selected.card ≤ n := by omega
  unfold promoteTrackAtRank
  cases hy : r.names[n - 1]? with
  | none => exact ⟨selected, hle, h⟩
  | some y =>
    dsimp only
    split
    · exact ⟨selected, hle, h⟩
    · next hsel =>
      have hlt : selected.card < n := by
        refine hcard.resolve_right ?_
        rintro ⟨-, y', hsome, hmem⟩
        obtain rfl : y = y' := Option.some.inj (hy.symm.trans hsome)
        exact hsel ((h.selects y).mpr hmem)
      refine ⟨insert y selected, Nat.le_trans (Finset.card_insert_le y selected) hlt, ?_⟩
      exact (h.select (List.mem_of_getElem? hy)).of_eq rfl rfl

/-- What a move changes in a group with room for it. -/
theorem recomputeGroup_bounded {l : List FullTrackName} (hx : x ∉ l) (hj : j ≤ l.length)
    (hnames : r.names = l.insertIdx j x) (h : g.Stands r.maxDeselected r.names selected)
    (hcard : selected.card ≤ n)
    (hqueue : i < n ∧ n ≤ j → g.trackStates.lookup x ≠ some .deselected)
    (hroom : ¬ (i < n ↔ j < n) → HasRoom g n l x) :
    r.Bounded n (r.recomputeGroup x i j n g).1 := by
  have hmem : x ∈ r.names := by
    rw [hnames]
    exact (List.mem_insertIdx hj).mpr (.inl rfl)
  by_cases hstays : i < n ↔ j < n
  · rw [recomputeGroup_stays hstays]
    exact ⟨selected, hcard, h.of_eq rfl rfl⟩
  · have hroom := hroom hstays
    by_cases hin : i < n
    · have hnj : n ≤ j := Nat.le_of_not_lt fun hjn => hstays (by simp [hin, hjn])
      rw [recomputeGroup_leaves hin hnj]
      have hdemoted := h.demoteTrack hmem (hqueue ⟨hin, hnj⟩)
      refine promoteTrackAtRank_bounded (hdemoted.of_eq rfl rfl) ?_
      have herase : (selected.erase x).card ≤ selected.card := Finset.card_erase_le
      rcases hroom with hsel | hless | hnext
      · exact .inl (card_erase_lt ((h.selects x).mp hsel) hcard)
      · rw [length_selected h.selects] at hless
        exact .inl (by omega)
      · cases hy : l[n - 1]? with
        | none => simp [hy] at hnext
        | some y =>
          rw [hy, Option.any_some, decide_eq_true_iff] at hnext
          have hne : y ≠ x := fun heq => hx (heq ▸ List.mem_of_getElem? hy)
          refine .inr ⟨by omega, y, ?_, Finset.mem_erase.mpr ⟨hne, (h.selects y).mp hnext⟩⟩
          rw [hnames, List.getElem?_insertIdx_of_lt (by omega), hy]
    · have hjn : j < n := Nat.lt_of_not_le fun hnj => hstays (by omega)
      rw [recomputeGroup_enters (Nat.le_of_not_lt hin) hjn]
      have hat : r.names[n]? = l[n - 1]? := by rw [hnames, List.getElem?_insertIdx_of_gt hjn]
      refine demoteTrackAtRank_bounded ((h.select hmem).of_eq rfl rfl) ?_
      rw [hat]
      exact hroom.card h.selects hcard

/-- A call that leaves the group for `n` within its bounds: a track that comes in or changes sides
finds room, and a track that leaves is not in the queue already. -/
def LeavesRoom (r : PropertyRanking) (n : Nat) (g : TopNGroup) : Op → Prop
  | .registerTrack ftn value _ => r.trackIndexByName ftn = none →
      placeOf r.rankedTracks.entries ⟨value.getD 0, r.nextSeq⟩ < n → HasRoom g n r.names ftn
  | .updateSortValue ftn value _ => ∀ e ∈ r.trackIndexByName ftn, e.1.value ≠ value →
      let newRank := placeOf (r.rankedTracks.entries.filter fun d => d.2.ftn ≠ ftn)
        ⟨value, e.1.arrivalSeq⟩
      (r.getCachedRank ftn < n ∧ n ≤ newRank → g.trackStates.lookup ftn ≠ some .deselected) ∧
        (¬ (r.getCachedRank ftn < n ↔ newRank < n) →
          HasRoom g n (r.names.filter (· ≠ ftn)) ftn)
  | _ => True

instance (r : PropertyRanking) (n : Nat) (g : TopNGroup) (op : Op) :
    Decidable (r.LeavesRoom n g op) := by
  induction op using Op.casesOn <;> unfold LeavesRoom <;> infer_instance

/-- A call that leaves every group within its bounds. -/
def KeepsBounds (r : PropertyRanking) (op : Op) : Prop :=
  ∀ group ∈ r.topNGroups.entries, r.LeavesRoom group.1 group.2 op

instance (r : PropertyRanking) (op : Op) : Decidable (r.KeepsBounds op) :=
  inferInstanceAs (Decidable (∀ group ∈ r.topNGroups.entries, r.LeavesRoom group.1 group.2 op))

theorem Turn.bounded {op : Op} {change : GroupChange} (turn : Turn r n g op r' change)
    (hw : r.WF) (hw' : r'.WF) (hlimit : r'.maxDeselected = r.maxDeselected)
    (ok : r.LeavesRoom n g op) (h : r.Bounded n g) : r'.Bounded n change.1 := by
  obtain ⟨selected, hcard, hstands⟩ := h
  rw [← hlimit] at hstands
  have hkept : r'.rankedTracks = r.rankedTracks → r'.Bounded n g := by
    intro ht
    refine ⟨selected, hcard, hstands.mono fun x hx => ?_⟩
    rw [names, ht]
    exact hx
  cases turn with
  | quiet tracks apart unknown => exact hkept tracks
  | @registered x value publisher _ i placed fresh =>
    obtain ⟨-, hx, hi⟩ := placed.around hw'.tracks
    have hfirst : (r'.reconcilePublisherInGroup publisher n g).1.Stands r'.maxDeselected r.names
        selected := by
      unfold reconcilePublisherInGroup
      split
      · exact hstands
      · exact hstands.of_eq rfl rfl
    refine registerInGroup_bounded hx hi placed.names hfirst hcard fun hin => ?_
    have hroom := ok (trackIndexByName_eq_none.mpr fresh)
      (by rw [placeOf_eq placed r'.rankedTracks.sorted]; exact hin)
    unfold reconcilePublisherInGroup
    split <;> exact hroom
  | @recomputed x value activity _ l i j e sweeps name placed placed' changed idle =>
    subst name
    obtain ⟨-, hx, hi⟩ := placed.around hw.tracks
    obtain ⟨-, -, hj⟩ := placed'.around hw'.tracks
    have hroom := ok e (trackIndexByName_of_mem hw (placed.mem_iff.mpr (.inl rfl))) changed
    rw [getCachedRank_of_placed placed (placed.rest_tracksOk hw.tracks).2.1,
      placed.filter_ne hw.tracks, placeOf_eq placed' r'.rankedTracks.sorted, names,
      placed.names_filter_ne hw.tracks] at hroom
    have hsame : ∀ y ∈ r.names, y ∈ r'.names := fun y hy =>
      placed'.mem_names.mpr (placed.mem_names.mp hy)
    have hmoved := recomputeGroup_bounded hx hj placed'.names (hstands.mono hsame) hcard
      hroom.1 hroom.2
    cases sweeps with
    | true => exact sweepGroup_bounded activity hmoved
    | false => exact hmoved
  | @moved x value activity _ l i j e name placed placed' below members =>
    exact ⟨selected, hcard, hstands.mono fun y hy =>
      placed'.mem_names.mpr (placed.mem_names.mp hy)⟩
  | @removed x _ l i e name placed tracks =>
    subst name
    refine removeInGroup_bounded hstands hcard fun y hy hne => ?_
    rw [names, tracks]
    exact (placed.mem_names.mp hy).resolve_left hne
  | swept tracks idle => exact sweepGroup_bounded _ (hkept tracks)
  | joinedAsPublisher tracks | joinedAsViewer tracks | forwarded tracks | left tracks =>
    exact (hkept tracks).of_eq rfl rfl

/-- Tracks that come in or move make no groups. -/
theorem leavesRoom_of_created {op : Op} {g' : TopNGroup} (h : r.topNGroups.lookup n = none)
    (h' : (r.step op).1.topNGroups.lookup n = some g') (g : TopNGroup) : r.LeavesRoom n g op := by
  cases op with
  | registerTrack ftn value publisher =>
    simp only [step, registerTrack] at h'
    split at h'
    · exact absurd h' (by simp [h])
    · obtain ⟨g₁, hg₁, -⟩ := of_onGroups h'
      obtain ⟨g₀, hg₀, -⟩ := of_onGroups hg₁
      exact absurd (h.symm.trans hg₀) (by simp)
  | updateSortValue ftn value activity =>
    simp only [step, updateSortValue] at h'
    split at h'
    · exact absurd h' (by simp [h])
    · split at h'
      · exact absurd h' (by simp [h])
      · split at h'
        · obtain ⟨g₁, -, -, -, hg₁, -⟩ := sweepIdle_group h'
          obtain ⟨g₀, hg₀, -⟩ := of_onGroups hg₁
          exact absurd (h.symm.trans hg₀) (by simp)
        · exact absurd (h.symm.trans h') (by simp)
  | _ => trivial

/-- A new group is within its bounds. -/
theorem groupOf_bounded (hw : r.WF) (h : r.topNGroups.lookup n = none) :
    r.Bounded n (r.groupOf n) := by
  have hshared := groupOf_shared h
  refine ⟨best n r.names, ?_, fun x => hshared.mem_iff, fun x => ?_, ?_, ?_, fun x state hx => ?_⟩
  · rw [card_best hw.names_nodup]
    exact Nat.min_le_left _ _
  · rw [hshared.queue, hshared.states]
    split <;> simp
  · rw [hshared.queue]
    exact List.nodup_nil
  · rw [hshared.queue]
    exact Nat.zero_le _
  · rw [hshared.states] at hx
    split at hx
    · next hmem => exact mem_of_mem_best hmem
    · cases hx

section
variable {maxDeselected : Nat} {idleTimeout sweepThrottle : Milliseconds} {history : List Event}

theorem Reaches.bounded
    (h : Reaches KeepsBounds (create maxDeselected idleTimeout sweepThrottle) history r) (n : Nat) :
    r.Bounded n (r.groupOf n) := by
  induction h generalizing n with
  | start => exact groupOf_bounded (wf_create _ _ _) rfl
  | @step history r op h ok ih =>
    have hw := h.wf (wf_create _ _ _)
    have hw' := hw.step op
    cases hg : (r.step op).1.topNGroups.lookup n with
    | none => exact groupOf_bounded hw' hg
    | some g =>
      rw [groupOf_eq hg]
      refine (step_turn hw hg).bounded hw hw' (step_limits r op).1 ?_ (ih n)
      cases hg₀ : r.topNGroups.lookup n with
      | some g₀ =>
        rw [groupOf_eq hg₀]
        exact ok ⟨n, g₀⟩ (AList.mem_lookup_iff.mp hg₀)
      | none => exact leavesRoom_of_created hg₀ hg _

/-- In a run whose calls leave room, each group selects at most `n` tracks, and its queue holds just
the deselected ones, none of them twice and at most `maxDeselected` in all. -/
theorem selection_bounded
    (h : Reaches KeepsBounds (create maxDeselected idleTimeout sweepThrottle) history r)
    (hg : r.topNGroups.lookup n = some g) :
    (g.trackStates.entries.filter fun e => e.2 = .selected).length ≤ n ∧
      g.deselectedQueue.Nodup ∧
      (∀ x, x ∈ g.deselectedQueue ↔ g.trackStates.lookup x = some .deselected) ∧
      g.deselectedQueue.length ≤ maxDeselected := by
  obtain ⟨selected, hcard, hstands⟩ := h.bounded n
  rw [groupOf_eq hg, h.limits.1] at hstands
  rw [length_selected hstands.selects]
  exact ⟨hcard, hstands.nodup, hstands.queued, hstands.length⟩

end

/-- An idle track makes room for another one, and a worse track than both is registered. -/
theorem selection_bounded_idle :
    let idle : Activity := ⟨10, fun ftn => if ftn = ⟨[], "a"⟩ then 0 else 10⟩
    let ops := [.registerTrack ⟨[], "a"⟩ (some 5) 0, .registerTrack ⟨[], "b"⟩ (some 4) 0,
      .addSessionToTopNGroup 1 7 true, .sweepIdle idle, .registerTrack ⟨[], "c"⟩ (some 3) 0]
    let x := (create 1 1 0).run [] ops
    Reaches KeepsBounds (create 1 1 0) x.2 x.1 ∧ ∃ g, x.1.topNGroups.lookup 1 = some g ∧
      (g.trackStates.entries.filter fun e => e.2 = .selected).length ≤ 1 ∧
      g.deselectedQueue.length ≤ 1 := by
  intro idle ops x
  have hrun : Reaches KeepsBounds (create 1 1 0) x.2 x.1 := Reaches.start.run (by decide +kernel)
  obtain ⟨g, hg⟩ : ∃ g, x.1.topNGroups.lookup 1 = some g :=
    Option.isSome_iff_exists.mp (by decide +kernel)
  obtain ⟨hcard, -, -, hlength⟩ := selection_bounded hrun hg
  exact ⟨hrun, g, hg, hcard, hlength⟩

/-- An idle track makes room for another one. A better track is then registered: it displaces the
idle track, which is not selected, and the group for one track selects two. -/
theorem two_selected_of_one :
    let idle : Activity := ⟨10, fun ftn => if ftn = ⟨[], "a"⟩ then 0 else 10⟩
    let ops := [.registerTrack ⟨[], "a"⟩ (some 5) 0, .registerTrack ⟨[], "b"⟩ (some 4) 0,
      .addSessionToTopNGroup 1 7 true, .sweepIdle idle, .registerTrack ⟨[], "c"⟩ (some 9) 0]
    let x := (create 1 1 0).run [] ops
    Reaches (fun _ _ => True) (create 1 1 0) x.2 x.1 ∧
      (x.1.topNGroups.lookup 1).map (fun g =>
        (g.trackStates.entries.filter fun e => e.2 = .selected).length) = some 2 := by
  refine ⟨Reaches.start.run ⟨trivial, trivial, trivial, trivial, trivial, trivial⟩, ?_⟩
  decide +kernel

end PropertyRanking

end Moqx
