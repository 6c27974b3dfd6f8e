import Moqx.Relay.RankingView
import Moqx.Relay.Replay

/-! Without a deselected queue and without idle eviction a group selects the best tracks, and its
viewers are given just those. -/
namespace Moqx

open Maps Ranks

/-- A group without a track that ended. -/
def TopNGroup.withoutTrack (g : TopNGroup) (x : FullTrackName) : TopNGroup :=
  { g with trackStates := g.trackStates.erase x }.removeFromDeselectedQueue x

/-- A group with these tracks selected and nothing queued. -/
structure TopNGroup.Shared (selected : Finset FullTrackName) (g : TopNGroup) : Prop where
  queue : g.deselectedQueue = []
  states : ∀ x, g.trackStates.lookup x = if x ∈ selected then some .selected else none

namespace TopNGroup.Shared

variable {selected : Finset FullTrackName} {g g' : TopNGroup} {x : FullTrackName}

theorem of_eq (h : g.Shared selected) (hq : g'.deselectedQueue = g.deselectedQueue)
    (hs : g'.trackStates = g.trackStates) : g'.Shared selected :=
  ⟨hq.trans h.queue, fun y => hs ▸ h.states y⟩

theorem mem_iff (h : g.Shared selected) :
    g.trackStates.lookup x = some .selected ↔ x ∈ selected := by
  rw [h.states]
  split <;> simp_all

theorem select (h : g.Shared selected) (x : FullTrackName) :
    (g.select x).Shared (insert x selected) := by
  refine ⟨h.queue, fun y => ?_⟩
  by_cases hy : y = x
  · subst hy
    simp [TopNGroup.select]
  · rw [TopNGroup.select, AList.lookup_insert_ne hy, h.states]
    simp [hy]

theorem removeFromDeselectedQueue (h : g.Shared selected) (x : FullTrackName) :
    (g.removeFromDeselectedQueue x).Shared selected :=
  ⟨by simp [TopNGroup.removeFromDeselectedQueue, h.queue], h.states⟩

theorem erase (h : g.Shared selected) (x : FullTrackName) :
    { g with trackStates := g.trackStates.erase x }.Shared (selected.erase x) := by
  refine ⟨h.queue, fun y => ?_⟩
  by_cases hy : y = x
  · subst hy
    simp
  · rw [AList.lookup_erase_ne hy, h.states]
    simp [hy]

/-- Without a queue a demoted track is gone. -/
theorem demoteTrack (h : g.Shared selected) (x : FullTrackName) :
    (g.demoteTrack 0 x).1.Shared (selected.erase x) := by
  refine ⟨by simp [TopNGroup.demoteTrack, trimDeselectedQueue, trimQueue, h.queue], fun y => ?_⟩
  have hstates : (g.demoteTrack 0 x).1.trackStates =
      (g.trackStates.insert x .deselected).erase x := by
    simp [TopNGroup.demoteTrack, trimDeselectedQueue, trimQueue, h.queue]
  rw [hstates]
  by_cases hy : y = x
  · subst hy
    simp
  · rw [AList.lookup_erase_ne hy, AList.lookup_insert_ne hy, h.states]
    simp [hy]

end TopNGroup.Shared

section
variable {l : List FullTrackName} {x : FullTrackName} {i n : Nat}
  (hl : l.Nodup) (hx : x ∉ l) (hi : i ≤ l.length) (hin : i < n)
include hl hx hi hin

/-- A track comes in, and the `n`-th of the others is pushed out. -/
theorem replay_enter : replay (best n l) (.select x :: (l[n - 1]?.map .evict).toList) =
    some (best n (l.insertIdx i x)) := by
  rw [replay_select fun h => hx (mem_of_mem_best h)]
  cases hy : l[n - 1]? with
  | none => exact congrArg some (best_enter_none hi hin hy)
  | some y =>
    have hmem : y ∈ insert x (best n l) := by
      rw [best_eq_insert (by omega) hy]
      simp
    rw [Option.map_some, Option.toList_some, replay_evict hmem, best_enter hl hx hi hin hy,
      replay_nil]

/-- A track goes out, and the `n`-th of the others takes the free place. -/
theorem replay_leave : replay (best n (l.insertIdx i x))
    (.evict x :: (l[n - 1]?.map .select).toList) = some (best n l) := by
  have hmem : x ∈ best n (l.insertIdx i x) := by
    rw [best_insertIdx_of_lt hi hin]
    exact Finset.mem_insert_self x _
  rw [replay_evict hmem, best_leave hx hi hin]
  cases hy : l[n - 1]? with
  | none => exact congrArg some (best_eq_of_none hy).symm
  | some y =>
    rw [Option.map_some, Option.toList_some, replay_select (notMem_best hl hy), replay_nil,
      best_eq_insert (by omega) hy]

/-- A track ends after the `n`-th of the others was given in its place. -/
theorem replay_end : replay (best n (l.insertIdx i x))
    ((l[n - 1]?.map .select).toList ++ [.ended x]) = some (best n l) := by
  have hbest := best_insertIdx_of_lt (x := x) hi hin
  cases hy : l[n - 1]? with
  | none =>
    rw [Option.map_none, Option.toList_none, List.nil_append, replay_ended, best_leave hx hi hin,
      best_eq_of_none hy, replay_nil]
  | some y =>
    have hyx : y ≠ x := fun h => hx (h ▸ List.mem_of_getElem? hy)
    have hnew : y ∉ best n (l.insertIdx i x) := by
      rw [hbest, Finset.mem_insert, not_or]
      exact ⟨hyx, notMem_best hl hy⟩
    rw [Option.map_some, Option.toList_some, List.singleton_append, replay_select hnew,
      replay_ended, Finset.erase_insert_of_ne hyx, best_leave hx hi hin,
      ← best_eq_insert (by omega) hy, replay_nil]

end

namespace PropertyRanking

variable {r r' : PropertyRanking} {g : TopNGroup} {x : FullTrackName} {i j n : Nat}
  {session : SessionId} {info : SessionInfo} {l : List FullTrackName}
  {selected : Finset FullTrackName}

theorem notifyTrackSelected_shared (h : g.Shared selected) :
    (r.notifyTrackSelected x g).1.Shared selected := h.of_eq rfl rfl

theorem notifyTrackMoved_shared (h : g.Shared selected) (entered : Bool) :
    (r.notifyTrackMoved x entered n g).1.Shared selected := h.of_eq rfl rfl

/-- A group that took a track in sends its last one away. -/
theorem demoteTrackAtRank_spec (hmd : r.maxDeselected = 0) (hl : l.Nodup) (hx : x ∉ l)
    (hi : i ≤ l.length) (hin : i < n) (hnames : r.names = l.insertIdx i x)
    (h : g.Shared (insert x (best n l))) :
    (r.demoteTrackAtRank n g).1.Shared (best n r.names) ∧
      ∀ session info, g.sessions.lookup session = some info →
        heard session (r.demoteTrackAtRank n g).2 = (l[n - 1]?.map .evict).toList := by
  have hat : r.names[n]? = l[n - 1]? := by
    rw [hnames, List.getElem?_insertIdx_of_gt hin]
  unfold demoteTrackAtRank
  rw [hat, hnames]
  cases hy : l[n - 1]? with
  | none =>
    refine ⟨?_, fun session info _ => rfl⟩
    rw [← best_enter_none hi hin hy]
    exact h
  | some y =>
    have hsel : g.trackStates.lookup y = some .selected := by
      rw [h.mem_iff, best_eq_insert (by omega) hy]
      simp
    simp only [hsel, if_true, hmd]
    refine ⟨?_, fun session info hs => heard_demoteTrack hs h.queue y⟩
    rw [← best_enter hl hx hi hin hy]
    exact h.demoteTrack y

/-- Telling of a newly selected track. -/
theorem select_spec (hs : g.sessions.lookup session = some info)
    (hview : r.isPublisher session = false) :
    heard session (r.notifyTrackSelected x g).2 = [.select x] := by
  rw [heard_notifyTrackSelected hs, hview]
  rfl

/-- A group that lost a track to a move takes the next one in. -/
theorem promoteTrackAtRank_spec (hl : l.Nodup) (hnj : n ≤ j) (hj : j ≤ l.length) (hn : 0 < n)
    (hnames : r.names = l.insertIdx j x) (h : g.Shared (best (n - 1) l)) :
    (r.promoteTrackAtRank n g).1.Shared (best n l) ∧
      ∀ session info, g.sessions.lookup session = some info → r.isPublisher session = false →
        heard session (r.promoteTrackAtRank n g).2 = (l[n - 1]?.map .select).toList := by
  have hat : r.names[n - 1]? = l[n - 1]? := by
    rw [hnames, List.getElem?_insertIdx_of_lt (by omega)]
  unfold promoteTrackAtRank
  rw [hat]
  cases hy : l[n - 1]? with
  | none =>
    rw [List.getElem?_eq_none_iff] at hy
    omega
  | some y =>
    have hsel : g.trackStates.lookup y ≠ some .selected := by
      rw [ne_eq, h.mem_iff]
      exact notMem_best hl hy
    simp only [hsel, if_false]
    refine ⟨notifyTrackSelected_shared ?_, fun session info hs hview => select_spec hs hview⟩
    rw [best_eq_insert hn hy]
    exact (h.select y).removeFromDeselectedQueue y

/-- A group that lost a track for good takes the next one in. -/
theorem promoteNextAvailableTrack_eq (hl : r.names.Nodup) (hx : x ∉ r.names)
    (h : g.Shared (best (n - 1) r.names)) : r.promoteNextAvailableTrack x g =
      r.names[n - 1]?.elim (g, []) fun y =>
        r.notifyTrackSelected y ((g.select y).removeFromDeselectedQueue y) := by
  have hfind : (r.names.find? fun y => y ≠ x ∧ g.trackStates.lookup y ≠ some .selected) =
      r.names[n - 1]? := by
    refine find?_eq_getElem? (fun y hy => ?_) fun y hy => ?_
    · have hmem := h.mem_iff.mpr (mem_best.mpr hy)
      simp [hmem]
    · have hne : y ≠ x := fun heq => hx (heq ▸ List.mem_of_getElem? hy)
      have hsel := mt h.mem_iff.mp (notMem_best hl hy)
      simp [hne, hsel]
  rw [promoteNextAvailableTrack, hfind]
  cases r.names[n - 1]? with
  | none => rfl
  | some y => rfl

/-- What a new track changes in a group. -/
theorem registerInGroup_spec (hmd : r.maxDeselected = 0) (hl : l.Nodup) (hx : x ∉ l)
    (hi : i ≤ l.length) (hnames : r.names = l.insertIdx i x) (h : g.Shared (best n l)) :
    (r.registerInGroup x i n g).1.Shared (best n r.names) ∧
      ∀ session info, g.sessions.lookup session = some info → r.isPublisher session = false →
        replay (best n l) (heard session (r.registerInGroup x i n g).2) =
          some (best n r.names) := by
  unfold registerInGroup
  split
  · next hin =>
    have hnotified : (r.notifyTrackSelected x (g.select x)).1.Shared (insert x (best n l)) :=
      notifyTrackSelected_shared (h.select x)
    obtain ⟨hshared, hheard⟩ := demoteTrackAtRank_spec hmd hl hx hi hin hnames hnotified
    refine ⟨hshared, fun session info hs hview => ?_⟩
    have hs' : (r.notifyTrackSelected x (g.select x)).1.sessions.lookup session = some info := by
      rw [lookup_notifyTrackSelected, hview]
      simp [hs]
    rw [GroupChange.andThen, heard_append, hheard session info hs',
      select_spec (g := g.select x) hs hview, hnames]
    exact replay_enter hl hx hi hin
  · next hin =>
    rw [hnames, best_insertIdx_of_le (Nat.le_of_not_lt hin)]
    refine ⟨h.of_eq rfl rfl, fun session info hs hview => ?_⟩
    rw [heard_reconcileSessions, hs, hview]
    rfl

theorem recomputeGroup_enters (hi : n ≤ i) (hj : j < n) :
    r.recomputeGroup x i j n g = (GroupChange.andThen
      (r.notifyTrackMoved x true n ((g.select x).removeFromDeselectedQueue x))
      (r.demoteTrackAtRank n)) := by
  simp [recomputeGroup, GroupChange.andThen, Nat.not_lt.mpr hi, hj]

theorem recomputeGroup_leaves (hi : i < n) (hj : n ≤ j) :
    r.recomputeGroup x i j n g = ((g.demoteTrack r.maxDeselected x).andThen
      (r.notifyTrackMoved x false n)).andThen (r.promoteTrackAtRank n) := by
  simp [recomputeGroup, GroupChange.andThen, Nat.not_lt.mpr hj, hi]

theorem recomputeGroup_stays (h : i < n ↔ j < n) :
    r.recomputeGroup x i j n g = r.notifyTrackMoved x false n g := by
  by_cases hi : i < n
  · simp [recomputeGroup, GroupChange.andThen, hi, h.mp hi]
  · simp [recomputeGroup, GroupChange.andThen, hi, mt h.mpr hi]

/-- What a move changes in a group. -/
theorem recomputeGroup_spec (hmd : r.maxDeselected = 0) (hl : l.Nodup) (hx : x ∉ l)
    (hi : i ≤ l.length) (hj : j ≤ l.length) (hnames : r.names = l.insertIdx j x)
    (h : g.Shared (best n (l.insertIdx i x))) :
    (r.recomputeGroup x i j n g).1.Shared (best n r.names) ∧
      ∀ session info, g.sessions.lookup session = some info → r.isPublisher session = false →
        replay (best n (l.insertIdx i x)) (heard session (r.recomputeGroup x i j n g).2) =
          some (best n r.names) := by
  have hmoved : ∀ (g' : TopNGroup) (entered : Bool) (session : SessionId) (info : SessionInfo),
      g'.sessions.lookup session = some info → r.isPublisher session = false →
      (r.notifyTrackMoved x entered n g').1.sessions.lookup session = some info := by
    intro g' entered session info hs hview
    rw [notifyTrackMoved, lookup_reconcileSessions, hs, hview]
    rfl
  by_cases hin : i < n
  · by_cases hjn : j < n
    · -- it stays among the best
      rw [recomputeGroup_stays (by simp [hin, hjn]), hnames, best_insertIdx_of_lt hj hjn,
        ← best_insertIdx_of_lt hi hin]
      refine ⟨notifyTrackMoved_shared h false, fun session info hs hview => ?_⟩
      rw [heard_notifyTrackMoved hs x false hview]
      rfl
    · have hnj := Nat.le_of_not_lt hjn
      rw [recomputeGroup_leaves hin hnj, hmd]
      have hdemoted : (g.demoteTrack 0 x).1.Shared (best (n - 1) l) := by
        rw [← best_leave hx hi hin]
        exact h.demoteTrack x
      obtain ⟨hshared, hheard⟩ := promoteTrackAtRank_spec hl hnj hj (by omega) hnames
        (notifyTrackMoved_shared (r := r) (x := x) (n := n) hdemoted false)
      rw [hnames, best_insertIdx_of_le hnj]
      refine ⟨hshared, fun session info hs hview => ?_⟩
      simp only [GroupChange.andThen, heard_append]
      rw [hheard session info (hmoved _ false session info hs hview) hview,
        heard_demoteTrack hs h.queue, heard_notifyTrackMoved (g := (g.demoteTrack 0 x).1) hs x
          false hview]
      exact replay_leave hl hx hi hin
  · have hni := Nat.le_of_not_lt hin
    rw [best_insertIdx_of_le hni] at h ⊢
    by_cases hjn : j < n
    · rw [recomputeGroup_enters hni hjn]
      have hselected : ((g.select x).removeFromDeselectedQueue x).Shared (insert x (best n l)) :=
        (h.select x).removeFromDeselectedQueue x
      obtain ⟨hshared, hheard⟩ := demoteTrackAtRank_spec hmd hl hx hj hjn hnames
        (notifyTrackMoved_shared (r := r) (x := x) (n := n) hselected true)
      refine ⟨hshared, fun session info hs hview => ?_⟩
      simp only [GroupChange.andThen, heard_append]
      rw [hheard session info (hmoved _ true session info hs hview),
        heard_notifyTrackMoved (g := (g.select x).removeFromDeselectedQueue x) hs x true hview,
        hnames]
      exact replay_enter hl hx hj hjn
    · -- it stays below
      rw [recomputeGroup_stays (by simp [hin, hjn]), hnames,
        best_insertIdx_of_le (Nat.le_of_not_lt hjn)]
      refine ⟨notifyTrackMoved_shared h false, fun session info hs hview => ?_⟩
      rw [heard_notifyTrackMoved hs x false hview]
      rfl

section
variable (hl : r.names.Nodup) (hx : x ∉ r.names) (hi : i ≤ r.names.length)
  (h : g.Shared (best n (r.names.insertIdx i x)))
include hl hx hi h

/-- The end of a selected track lets the next one in. -/
theorem removeInGroup_selected (hin : i < n) : (g.withoutTrack x).Shared (best (n - 1) r.names) ∧
    r.removeInGroup x g = r.names[n - 1]?.elim (g.withoutTrack x, []) fun y =>
      r.notifyTrackSelected y (((g.withoutTrack x).select y).removeFromDeselectedQueue y) := by
  have hsel : g.trackStates.lookup x = some .selected := by
    rw [h.mem_iff, best_insertIdx_of_lt hi hin]
    exact Finset.mem_insert_self x _
  have herased : (g.withoutTrack x).Shared (best (n - 1) r.names) := by
    rw [← best_leave hx hi hin]
    exact (h.erase x).removeFromDeselectedQueue x
  refine ⟨herased, ?_⟩
  rw [← promoteNextAvailableTrack_eq hl hx herased, removeInGroup, hsel]
  have hqueue := herased.queue
  simp only [TopNGroup.withoutTrack] at hqueue ⊢
  simp only [if_true, hqueue]

omit hl hi in
/-- The end of any other track changes nothing. -/
theorem removeInGroup_unselected (hin : n ≤ i) :
    x ∉ best n r.names ∧ r.removeInGroup x g = (g, []) := by
  rw [best_insertIdx_of_le hin] at h
  have hnot : x ∉ best n r.names := fun hmem => hx (mem_of_mem_best hmem)
  have hnone : g.trackStates.lookup x = none := by rw [h.states, if_neg hnot]
  exact ⟨hnot, by simp only [removeInGroup, hnone]⟩

/-- What the end of a track changes in a group. -/
theorem removeInGroup_spec : (r.removeInGroup x g).1.Shared (best n r.names) ∧
    ∀ session info, g.sessions.lookup session = some info → r.isPublisher session = false →
      replay (best n (r.names.insertIdx i x))
        (heard session (r.removeInGroup x g).2 ++ [.ended x]) = some (best n r.names) := by
  by_cases hin : i < n
  · obtain ⟨herased, heq⟩ := removeInGroup_selected hl hx hi h hin
    have hend := replay_end hl hx hi hin
    rw [heq]
    cases hy : r.names[n - 1]? with
    | none =>
      rw [best_eq_of_none hy] at hend ⊢
      refine ⟨herased, fun session info hs hview => ?_⟩
      rw [hy] at hend
      exact hend
    | some y =>
      rw [hy] at hend
      refine ⟨notifyTrackSelected_shared ?_, fun session info hs hview => ?_⟩
      · rw [best_eq_insert (by omega) hy]
        exact (herased.select y).removeFromDeselectedQueue y
      · rw [Option.elim_some, select_spec (by exact hs) hview]
        exact hend
  · have hni := Nat.le_of_not_lt hin
    obtain ⟨hnot, heq⟩ := removeInGroup_unselected hx h hni
    rw [best_insertIdx_of_le hni] at h ⊢
    rw [heq]
    refine ⟨h, fun session info hs hview => ?_⟩
    rw [heard_nil, List.nil_append, replay_ended, Finset.erase_eq_of_notMem hnot, replay_nil]

end

theorem reconcilePublisherInGroup_shared (h : g.Shared selected) (publisher : SessionId) :
    (r.reconcilePublisherInGroup publisher n g).1.Shared selected := by
  unfold reconcilePublisherInGroup
  split
  · exact h
  · exact h.of_eq rfl rfl

/-- The publisher of a registered track. -/
theorem isPublisher_of_placed {entries : List Entry} {e : Entry} (hw : r.WF)
    (h : Placed entries i e r.rankedTracks.entries) : r.isPublisher e.2.publisherRaw = true :=
  hw.isPublisher_iff.mpr ⟨e, h.mem_iff.mpr (.inl rfl), rfl⟩

theorem ne_of_joins {joining : SessionId} {forward : Bool}
    (h : (Op.addSessionToTopNGroup n joining forward).joins n session = false) :
    joining ≠ session := by
  simpa [Op.joins] using h

/-- One call keeps the best tracks selected, and tells the viewers what changed. -/
theorem Turn.shared {op : Op} {change : GroupChange} (turn : Turn r n g op r' change) (hw : r.WF)
    (hw' : r'.WF) (hmd : r'.maxDeselected = 0) (hidle : r.idleTimeout = 0)
    (h : g.Shared (best n r.names)) : change.1.Shared (best n r'.names) ∧
      ∀ session info, g.sessions.lookup session = some info → r'.isPublisher session = false →
        op.joins n session = false →
        replay (best n r.names) (heard session change.2 ++ op.ends) = some (best n r'.names) := by
  have hsame : r'.rankedTracks = r.rankedTracks → r'.names = r.names := fun htracks => by
    rw [names, htracks, names]
  cases turn with
  | quiet tracks apart unknown =>
    rw [hsame tracks]
    refine ⟨h, fun session info _ _ _ => ?_⟩
    cases op with
    | removeTrack x =>
      have hx : x ∉ best n r.names := fun hmem => unknown x rfl (mem_of_mem_best hmem)
      simp [Op.ends, Finset.erase_eq_of_notMem hx]
    | _ => rfl
  | @registered x value publisher _ i placed fresh =>
    obtain ⟨hl, hx, hi⟩ := placed.around hw'.tracks
    obtain ⟨hshared, hheard⟩ := registerInGroup_spec hmd hl hx hi placed.names
      (reconcilePublisherInGroup_shared (r := r') h publisher)
    refine ⟨hshared, fun session info hs hview _ => ?_⟩
    have hne : session ≠ publisher := by
      rintro rfl
      exact Bool.false_ne_true (hview.symm.trans (isPublisher_of_placed hw' placed))
    obtain ⟨hlook, hnone⟩ := reconcilePublisherInGroup_other (r := r') (g := g) (n := n) hne
    simp only [GroupChange.andThen, heard_append, hnone, List.nil_append, Op.ends, List.append_nil]
    exact hheard session info (hlook.trans hs) hview
  | @recomputed x value activity _ l i j e sweeps name placed placed' changed idle =>
    have hsweeps : sweeps = false := by
      cases sweeps with
      | false => rfl
      | true => exact absurd hidle (idle rfl)
    subst hsweeps name
    obtain ⟨hl, hx, hi⟩ := placed.around hw.tracks
    obtain ⟨-, -, hj⟩ := placed'.around hw'.tracks
    have hnames : r.names = _ := placed.names
    rw [hnames] at h ⊢
    obtain ⟨hshared, hheard⟩ := recomputeGroup_spec hmd hl hx hi hj placed'.names h
    refine ⟨hshared, fun session info hs hview _ => ?_⟩
    simp only [GroupChange.andThen, sweepAfter, Bool.false_eq_true, if_false, Op.ends,
      List.append_nil]
    exact hheard session info hs hview
  | moved name placed placed' below members =>
    have hnames : best n r'.names = best n r.names := by
      have hold : r.names = _ := placed.names
      have hnew : r'.names = _ := placed'.names
      rw [hold, hnew, best_insertIdx_of_le below.1, best_insertIdx_of_le below.2]
    rw [hnames]
    exact ⟨h, fun session info _ _ _ => rfl⟩
  | @removed x _ entries i e name placed tracks =>
    subst name
    obtain ⟨hl, hx, hi⟩ := placed.around hw.tracks
    have hold : r.names = _ := placed.names
    have hnew : r'.names = entries.map fun e => e.2.ftn := by rw [names, tracks]
    rw [hold, ← hnew] at h ⊢
    rw [← hnew] at hl hx hi
    obtain ⟨hshared, hheard⟩ := removeInGroup_spec hl hx hi h
    exact ⟨hshared, fun session info hs hview _ => hheard session info hs hview⟩
  | swept tracks idle => exact absurd hidle idle
  | joinedAsPublisher tracks publisher =>
    rw [hsame tracks]
    refine ⟨h.of_eq rfl rfl, fun session info _ _ hjoin => ?_⟩
    have hne := ne_of_joins hjoin
    rw [heard_reconcile_other hne]
    rfl
  | joinedAsViewer tracks viewer =>
    rw [hsame tracks]
    refine ⟨h.of_eq rfl rfl, fun session info _ _ hjoin => ?_⟩
    have hne := ne_of_joins hjoin
    rw [heard_map_other _ fun x => by simp [Callback.heardBy, hne]]
    rfl
  | forwarded tracks member | left tracks =>
    rw [hsame tracks]
    exact ⟨h.of_eq rfl rfl, fun session info _ _ _ => rfl⟩

/-- A viewer that joins is given the best tracks. -/
theorem Turn.joined {op : Op} {change : GroupChange} (turn : Turn r n g op r' change)
    (hw' : r'.WF) (hjoin : op.joins n session = true) (hview : r'.isPublisher session = false) :
    replay ∅ (heard session change.2 ++ op.ends) = some (best n r'.names) := by
  cases turn with
  | quiet tracks apart unknown => exact absurd (apart session) (by simp [hjoin])
  | @joinedAsPublisher joining forward _ tracks publisher =>
    obtain rfl : joining = session := by simpa [Op.joins] using hjoin
    exact absurd publisher (by simp [hview])
  | @joinedAsViewer joining forward _ tracks viewer =>
    obtain rfl : joining = session := by simpa [Op.joins] using hjoin
    rw [heard_map _ .select fun x => by simp [Callback.heardBy]]
    have hreplay := replay_selects (d := ∅) (hw'.names_nodup.sublist (List.take_sublist n _))
      fun x _ => Finset.notMem_empty x
    simpa [Op.ends, best] using hreplay
  | _ => cases hjoin

theorem heard_recomputeGroup_none (hr : r.names.Nodup) (hs : g.sessions.lookup session = none) :
    heard session (r.recomputeGroup x i j n g).2 = [] := by
  have hmoved : ∀ (g : TopNGroup) entered, g.sessions.lookup session = none →
      heard session (r.notifyTrackMoved x entered n g).2 = [] :=
    fun g entered hs => heard_notifyTrackMoved_none hs x entered
  by_cases hin : i < n
  · by_cases hjn : j < n
    · rw [recomputeGroup_stays (by simp [hin, hjn])]
      exact hmoved g false hs
    · rw [recomputeGroup_leaves hin (Nat.le_of_not_lt hjn)]
      refine heard_andThen_none hs ((demoteTrack_keeps _).andThen fun _ =>
        notifyTrackMoved_keeps hr false) ?_ fun g' hs' => heard_promoteTrackAtRank_none hs'
      exact heard_andThen_none hs (demoteTrack_keeps _) (heard_demoteTrack_none hs _ x)
        fun g' hs' => hmoved g' false hs'
  · by_cases hjn : j < n
    · rw [recomputeGroup_enters (Nat.le_of_not_lt hin) hjn]
      have hselect : GroupKeeps g ((g.select x).removeFromDeselectedQueue x) := .of_sessions rfl rfl
      exact heard_andThen_none hs (hselect.trans (notifyTrackMoved_keeps hr true))
        (hmoved _ true hs) fun g' hs' => heard_demoteTrackAtRank_none hs'
    · rw [recomputeGroup_stays (by simp [hin, hjn])]
      exact hmoved g false hs

/-- A call says nothing to the sessions outside a group. -/
theorem Turn.heard_none {op : Op} {change : GroupChange} (turn : Turn r n g op r' change)
    (hw' : r'.WF) (hidle : r.idleTimeout = 0) (hs : change.1.sessions.lookup session = none) :
    heard session change.2 = [] := by
  have hr := hw'.names_nodup
  cases turn with
  | quiet tracks apart unknown => rfl
  | @registered x value publisher _ i placed fresh =>
    have hfirst : GroupKeeps g (r'.reconcilePublisherInGroup publisher n g).1 :=
      reconcilePublisherInGroup_keeps hr publisher
    have hs₀ := (hfirst.andThen fun _ => registerInGroup_keeps hr i).lookup_none.mp hs
    refine heard_andThen_none hs₀ hfirst (heard_reconcilePublisherInGroup_none hs₀ publisher)
      fun g' hs' => ?_
    unfold registerInGroup
    split
    · exact heard_andThen_none hs' (notifyTrackSelected_keeps hr (.of_sessions rfl rfl))
        (heard_notifyTrackSelected_none (by exact hs') x) fun g'' hs'' =>
          heard_demoteTrackAtRank_none hs''
    · exact heard_reconcileSessions_none hs' _
  | @recomputed x value activity _ l i j e sweeps name placed placed' changed idle =>
    cases sweeps with
    | true => exact absurd hidle (idle rfl)
    | false =>
      have hk : GroupKeeps g (r'.recomputeGroup x i j n g).1 := recomputeGroup_keeps hr i j
      have hs₀ :=
        (hk.andThen (f := r'.sweepAfter activity false) fun _ => .refl _).lookup_none.mp hs
      exact heard_andThen_none hs₀ hk (heard_recomputeGroup_none hr hs₀) fun g' _ => rfl
  | moved name placed placed' below members => rfl
  | removed name placed tracks =>
    exact heard_removeInGroup_none ((removeInGroup_keeps hr).lookup_none.mp hs) _
  | swept tracks idle => exact absurd hidle idle
  | @joinedAsPublisher joining forward _ tracks publisher =>
    refine heard_reconcile_other (fun heq => ?_) _
    subst heq
    rw [TopNGroup.setSession, AList.lookup_insert] at hs
    cases hs
  | @joinedAsViewer joining forward _ tracks viewer =>
    have hne : joining ≠ session := by
      rintro rfl
      rw [TopNGroup.setSession, AList.lookup_insert] at hs
      cases hs
    exact heard_map_other _ (fun x => by simp [Callback.heardBy, hne]) _
  | forwarded tracks member => rfl
  | left tracks => rfl

theorem lookup_foldl_select (l : List FullTrackName)
    (states : AList fun _ : FullTrackName => TrackState) (x : FullTrackName) :
    (l.foldl (fun states ftn => states.insert ftn .selected) states).lookup x =
      if x ∈ l then some .selected else states.lookup x := by
  induction l generalizing states with
  | nil => rfl
  | cons y l ih =>
    rw [List.foldl_cons, ih]
    by_cases hxy : x = y
    · subst hxy
      simp
    · simp [hxy, AList.lookup_insert_ne hxy]

/-- A new group selects the best tracks. -/
theorem groupOf_shared (h : r.topNGroups.lookup n = none) :
    (r.groupOf n).Shared (best n r.names) := by
  obtain ⟨-, hqueue, hstates⟩ := groupOf_of_none h
  refine ⟨hqueue, fun x => ?_⟩
  rw [hstates, lookup_foldl_select]
  simp [mem_best]

section
variable {allowed : PropertyRanking → Op → Prop} {sweepThrottle : Milliseconds}
  {history : List Event}

theorem Reaches.shared (h : Reaches allowed (create 0 0 sweepThrottle) history r) (n : Nat) :
    (r.groupOf n).Shared (best n r.names) := by
  induction h generalizing n with
  | start => exact groupOf_shared rfl
  | @step history r op h ok ih =>
    have hw := h.wf (wf_create 0 0 sweepThrottle)
    cases hg : (r.step op).1.topNGroups.lookup n with
    | none => exact groupOf_shared hg
    | some g =>
      rw [groupOf_eq hg]
      exact ((step_turn hw hg).shared hw (hw.step op) ((step_limits r op).1.trans h.limits.1)
        h.limits.2 (ih n)).1

/-- A session that has owned no track since it joined has been given the best ones. -/
theorem Reaches.delivered (h : Reaches allowed (create 0 0 sweepThrottle) history r)
    (hs : (r.groupOf n).sessions.lookup session = some info)
    (hview : ∀ e ∈ sinceJoined n session history, ¬ e.after.Owns session) :
    deliveredIn n session history = some (best n r.names) := by
  induction h generalizing info with
  | start => cases hs
  | @step history r op h ok ih =>
    have hw := h.wf (wf_create 0 0 sweepThrottle)
    have hw' := hw.step op
    cases hg : (r.step op).1.topNGroups.lookup n with
    | none =>
      rw [(groupOf_of_none hg).1] at hs
      cases hs
    | some g =>
      rw [groupOf_eq hg] at hs
      have hturn := step_turn hw hg
      have hnow : (r.step op).1.isPublisher session = false := by
        have howns : ¬ (r.step op).1.Owns session := hview _ (mem_sinceJoined_self _ _)
        simpa [← hw'.isPublisher_iff] using howns
      cases hjoin : op.joins n session with
      | true =>
        rw [deliveredIn_joins hjoin]
        exact hturn.joined hw' hjoin hnow
      | false =>
        rw [deliveredIn_cons hjoin]
        cases hs₀ : (r.groupOf n).sessions.lookup session with
        | none => exact absurd (hturn.members hw' hjoin hs₀) (by simp [hs])
        | some info₀ =>
          have hbefore := ih hs₀ fun e he => hview e (mem_sinceJoined_cons hjoin he)
          rw [hbefore, Option.bind_some]
          exact (hturn.shared hw hw' ((step_limits r op).1.trans h.limits.1) h.limits.2
            (h.shared n)).2 session info₀ hs₀ hnow hjoin

/-- A session that is in no other group hears from one group only. -/
theorem heardBy_eq (hw : r.WF) (hidle : r.idleTimeout = 0) (op : Op)
    (h : ∀ m g, m ≠ n → (r.step op).1.topNGroups.lookup m = some g →
      g.sessions.lookup session = none) :
    heard session ((r.step op).2.map fun c => c.2) = heard session (firedIn n (r.step op).2) := by
  have hother : ∀ c ∈ (r.step op).2, c.1 ≠ n → c.2.heardBy session = [] := by
    intro c hc hne
    obtain ⟨g, hg⟩ := lookup_of_fired hc
    have hnone := (step_turn hw hg).heard_none (hw.step op) hidle (h c.1 g hne hg)
    have hmem : c.2 ∈ firedIn c.1 (r.step op).2 :=
      List.mem_map.mpr ⟨c, List.mem_filter.mpr ⟨hc, by simp⟩, rfl⟩
    exact List.flatMap_eq_nil_iff.mp hnone c.2 hmem
  generalize (r.step op).2 = fired at hother
  induction fired with
  | nil => rfl
  | cons c fired ih =>
    have ih := ih fun c' hc' => hother c' (List.mem_cons_of_mem c hc')
    have hc := hother c List.mem_cons_self
    simp only [heard, firedIn, List.map_cons, List.flatMap_cons, List.filter_cons] at ih ⊢
    by_cases hne : c.1 = n
    · simp [hne, ih]
    · simp [hne, ih, hc hne]

theorem Reaches.deliveredTo_eq (h : Reaches allowed (create 0 0 sweepThrottle) history r)
    (honly : ∀ e ∈ sinceJoined n session history, ∀ m g, m ≠ n →
      e.after.topNGroups.lookup m = some g → g.sessions.lookup session = none) :
    deliveredTo n session history = deliveredIn n session history := by
  have hevents : (sinceJoined n session history).flatMap (Event.heardBy session) =
      (sinceJoined n session history).flatMap (Event.heardIn n session) := by
    induction h with
    | start => rfl
    | @step history r op h ok ih =>
      have hself := heardBy_eq (h.wf (wf_create 0 0 sweepThrottle)) h.limits.2 op
        (honly _ (mem_sinceJoined_self _ _))
      cases hjoin : op.joins n session with
      | true => simp [sinceJoined, hjoin, Event.heardBy, Event.heardIn, hself]
      | false =>
        have ih := ih fun e he => honly e (mem_sinceJoined_cons hjoin he)
        simp [sinceJoined, hjoin, Event.heardBy, Event.heardIn, hself] at ih ⊢
        exact ih
  rw [deliveredTo, hevents, deliveredIn]

/-- The `n` best of some tracks: fewer than `n` of them have a better key. -/
def IsBest (tracks : List Entry) (n : Nat) (x : FullTrackName) : Prop :=
  ∃ e ∈ tracks, e.2.ftn = x ∧ (tracks.filter fun d => e.1 < d.1).length < n

instance (tracks : List Entry) (n : Nat) (x : FullTrackName) : Decidable (IsBest tracks n x) :=
  inferInstanceAs (Decidable (∃ e ∈ tracks, e.2.ftn = x ∧
    (tracks.filter fun d => e.1 < d.1).length < n))

theorem mem_best_iff {tracks : List Entry} (h : tracks.Pairwise fun a b => b.1 < a.1) :
    x ∈ best n (tracks.map fun e => e.2.ftn) ↔ IsBest tracks n x := by
  rw [mem_best, ← List.map_take, List.mem_map]
  simp only [mem_take_iff_of_pairwise h, IsBest]
  constructor
  · rintro ⟨e, ⟨he, hlt⟩, hx⟩
    exact ⟨e, he, hx, hlt⟩
  · rintro ⟨e, he, hx, hlt⟩
    exact ⟨e, ⟨he, hlt⟩, hx⟩

/-- The value and the owner that the calls of a run, the last one first, give a track. -/
def calledTrack (x : FullTrackName) : List Event → Option (Nat × SessionId)
  | [] => none
  | e :: history =>
    let before := calledTrack x history
    match e.op with
    | .registerTrack ftn value publisher =>
      if x = ftn then before.or (some (value.getD 0, publisher)) else before
    | .updateSortValue ftn value _ =>
      if x = ftn then before.map fun t => (value, t.2) else before
    | .removeTrack ftn => if x = ftn then none else before
    | _ => before

/-- The ranked tracks, their values and their owners are those of the calls. -/
theorem track_eq_calledTrack {maxDeselected : Nat} {idleTimeout : Milliseconds}
    (h : Reaches allowed (create maxDeselected idleTimeout sweepThrottle) history r)
    (x : FullTrackName) : r.track x = calledTrack x history := by
  induction h with
  | start => rfl
  | @step history r op h ok ih =>
    have hw := h.wf (wf_create maxDeselected idleTimeout sweepThrottle)
    rw [calledTrack, ← ih]
    cases op with
    | registerTrack ftn value publisher => exact track_registerTrack hw value publisher
    | updateSortValue ftn value activity => exact track_updateSortValue hw value activity
    | removeTrack ftn => exact track_removeTrack hw
    | addSessionToTopNGroup n session forward => exact track_addSessionToTopNGroup n session forward
    | removeSessionFromTopNGroup n session => exact track_removeSessionFromTopNGroup n session
    | sweepIdle activity => exact track_sweepIdle activity
    | getOrCreateTopNGroup n =>
      exact congrArg (fun m => trackIn m.entries x) (r.getOrCreateTopNGroup_tracks n)
    | removeTopNGroup => rfl
    | updateSessionForward n session forward =>
      simp only [PropertyRanking.step, updateSessionForward]
      split
      · rfl
      · split <;> rfl

/-- Without a queue and without idle eviction, each group selects its `n` best tracks, all of them
if there are fewer, and every session of the group that has owned no track since it joined has been
given just those, each selected when it was not delivered and evicted when it was. -/
theorem best_tracks_selected (h : Reaches allowed (create 0 0 sweepThrottle) history r)
    (hg : r.topNGroups.lookup n = some g) :
    ∃ d : Finset FullTrackName, d.card = min n r.rankedTracks.entries.length ∧
      (∀ x, x ∈ d ↔ IsBest r.rankedTracks.entries n x) ∧
      (∀ x, g.trackStates.lookup x = some .selected ↔ x ∈ d) ∧ g.deselectedQueue = [] ∧
      ∀ session info, g.sessions.lookup session = some info →
        (∀ e ∈ sinceJoined n session history, ¬ e.after.Owns session) →
        deliveredIn n session history = some d ∧
          ((∀ e ∈ sinceJoined n session history, ∀ m g, m ≠ n →
              e.after.topNGroups.lookup m = some g → g.sessions.lookup session = none) →
            deliveredTo n session history = some d) := by
  have hw := h.wf (wf_create 0 0 sweepThrottle)
  have hshared := h.shared n
  rw [groupOf_eq hg] at hshared
  refine ⟨best n r.names, ?_, fun x => mem_best_iff r.rankedTracks.sorted,
    fun x => hshared.mem_iff, hshared.queue, fun session info hs hview => ?_⟩
  · rw [card_best hw.names_nodup, names, List.length_map]
  · have hin := h.delivered (n := n) (by rw [groupOf_eq hg]; exact hs) hview
    exact ⟨hin, fun honly => (h.deliveredTo_eq honly).trans hin⟩

/-- A selected track has been registered, and no registered one that is not selected has a higher
value. -/
theorem selected_of_calls (h : Reaches allowed (create 0 0 sweepThrottle) history r)
    (hg : r.topNGroups.lookup n = some g) (hx : g.trackStates.lookup x = some .selected) :
    ∃ a, calledTrack x history = some a ∧ ∀ y b, calledTrack y history = some b →
      g.trackStates.lookup y ≠ some .selected → b.1 ≤ a.1 := by
  have hw := h.wf (wf_create 0 0 sweepThrottle)
  have hshared := h.shared n
  rw [groupOf_eq hg] at hshared
  obtain ⟨e, he, rfl, hlt⟩ := (mem_best_iff r.rankedTracks.sorted).mp (hshared.mem_iff.mp hx)
  simp only [← track_eq_calledTrack h]
  refine ⟨_, trackIn_of_mem hw.tracks.names he, fun y b hy hn => ?_⟩
  obtain ⟨d, hd, rfl⟩ := Option.map_eq_some_iff.mp hy
  by_contra hgt
  have hbetter : e.1 < d.1 := .inl (not_le.mp hgt)
  have hle := List.countP_mono_left (l := r.rankedTracks.entries)
    (p := fun a => d.1 < a.1) (q := fun a => e.1 < a.1)
    fun a _ ha => decide_eq_true (hbetter.trans (of_decide_eq_true ha))
  rw [List.countP_eq_length_filter, List.countP_eq_length_filter] at hle
  exact hn (hshared.mem_iff.mpr ((mem_best_iff r.rankedTracks.sorted).mpr
    ⟨d, List.mem_of_find?_eq_some hd, by simpa using List.find?_some hd, hle.trans_lt hlt⟩))

end

/-- Two tracks, a viewer of the best one, and a better track that takes its place. -/
theorem best_tracks_selected_viewer :
    let ops := [.registerTrack ⟨[], "a"⟩ (some 5) 0, .addSessionToTopNGroup 1 7 true,
      .registerTrack ⟨[], "b"⟩ (some 9) 1]
    let x := (create 0 0 0).run [] ops
    Reaches (fun _ _ => True) (create 0 0 0) x.2 x.1 ∧
      ∃ d : Finset FullTrackName, d.card = 1 ∧
        (∀ y, y ∈ d ↔ IsBest x.1.rankedTracks.entries 1 y) ∧ deliveredTo 1 7 x.2 = some d := by
  intro ops x
  have hrun : Reaches (fun _ _ => True) (create 0 0 0) x.2 x.1 :=
    Reaches.start.run ⟨trivial, trivial, trivial, trivial⟩
  have hgroup : ((x.1.topNGroups.lookup 1).any fun g => (g.sessions.lookup 7).isSome) = true := by
    decide +kernel
  have hkeys : ∀ e ∈ sinceJoined 1 7 x.2, e.after.topNGroups.keys = [1] := by decide +kernel
  have hview : ∀ e ∈ sinceJoined 1 7 x.2, ¬ e.after.Owns 7 := by decide +kernel
  have hlength : x.1.rankedTracks.entries.length = 2 := by decide +kernel
  refine ⟨hrun, ?_⟩
  cases hg : x.1.topNGroups.lookup 1 with
  | none => simp [hg] at hgroup
  | some g =>
    rw [hg, Option.any_some] at hgroup
    obtain ⟨info, hs⟩ := Option.isSome_iff_exists.mp hgroup
    obtain ⟨d, hcard, hbest, -, -, hdelivered⟩ := best_tracks_selected hrun hg
    refine ⟨d, hcard, hbest, (hdelivered 7 info hs hview).2 fun e he m g' hm hg' => ?_⟩
    have hmem : m ∈ e.after.topNGroups.keys :=
      AList.mem_keys.mp (AList.lookup_isSome.mp (by rw [hg']; rfl))
    rw [hkeys e he] at hmem
    exact absurd (List.mem_singleton.mp hmem) hm

end PropertyRanking

end Moqx
