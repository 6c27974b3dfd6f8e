import Moqx.Relay.Selection

/-! What reconciling gives every publisher of a group, and which calls reconcile whom. -/
namespace Moqx

open Maps Ranks

namespace PropertyRanking

variable {r r' : PropertyRanking} {g : TopNGroup} {x : FullTrackName} {i j n : Nat}
  {session : SessionId} {info : SessionInfo}

/-- All publishers of a group have a property. -/
def Publishers (r : PropertyRanking) (P : SessionId → SessionInfo → Prop) (g : TopNGroup) : Prop :=
  ∀ session info, g.sessions.lookup session = some info → r.isPublisher session = true →
    P session info

variable {P : SessionId → SessionInfo → Prop}

theorem Publishers.of_sessions {g' : TopNGroup} (h : r.Publishers P g)
    (hs : g'.sessions = g.sessions) : r.Publishers P g' := fun session info hl =>
  h session info (hs ▸ hl)

section
variable (hrec : ∀ session info, P session (r.reconcilePublisherSelection info n session).1)
include hrec

theorem reconcileSessions_publishers :
    r.Publishers P (r.reconcileSessions n r.isPublisher g).1 := by
  intro session info hl hpub
  rw [lookup_reconcileSessions, hpub] at hl
  obtain ⟨info₀, -, rfl⟩ := Option.map_eq_some_iff.mp hl
  exact hrec session info₀

theorem notifyTrackSelected_publishers (hmax : g.maxSelected = n) :
    r.Publishers P (r.notifyTrackSelected x g).1 := by
  subst hmax
  exact reconcileSessions_publishers hrec

theorem promoteTrackAtRank_publishers (hmax : g.maxSelected = n) (h : r.Publishers P g) :
    r.Publishers P (r.promoteTrackAtRank n g).1 := by
  unfold promoteTrackAtRank
  split
  · split
    · exact h
    · exact notifyTrackSelected_publishers hrec hmax
  · exact h

theorem registerInGroup_publishers (hmax : g.maxSelected = n) :
    r.Publishers P (r.registerInGroup x i n g).1 := by
  unfold registerInGroup
  split
  · have h : r.Publishers P (r.notifyTrackSelected x (g.select x)).1 :=
      notifyTrackSelected_publishers hrec hmax
    exact h.of_sessions (demoteTrackAtRank_sessions r _ n)
  · exact reconcileSessions_publishers hrec

/-- All publishers but the one whose track moved are reconciled. -/
theorem notifyTrackMoved_publishers (entered : Bool)
    (hown : ∀ session info, some session = (r.trackIndexByName x).map (fun e => e.2.publisherRaw) →
      g.sessions.lookup session = some info → P session info) :
    r.Publishers P (r.notifyTrackMoved x entered n g).1 := by
  intro session info hl hpub
  rw [notifyTrackMoved, lookup_reconcileSessions, hpub] at hl
  obtain ⟨info₀, hl₀, rfl⟩ := Option.map_eq_some_iff.mp hl
  split
  · exact hrec session info₀
  · next hself => exact hown session info₀ (by simpa using hself) hl₀

theorem recomputeGroup_publishers (hmax : g.maxSelected = n)
    (hown : ∀ session info, some session = (r.trackIndexByName x).map (fun e => e.2.publisherRaw) →
      g.sessions.lookup session = some info → P session info) :
    r.Publishers P (r.recomputeGroup x i j n g).1 := by
  by_cases hin : i < n
  · by_cases hjn : j < n
    · rw [recomputeGroup_stays (by simp [hin, hjn])]
      exact notifyTrackMoved_publishers hrec false hown
    · rw [recomputeGroup_leaves hin (Nat.le_of_not_lt hjn)]
      exact promoteTrackAtRank_publishers hrec hmax
        (notifyTrackMoved_publishers (g := (g.demoteTrack r.maxDeselected x).1) hrec false hown)
  · by_cases hjn : j < n
    · rw [recomputeGroup_enters (Nat.le_of_not_lt hin) hjn]
      have h : r.Publishers P
          (r.notifyTrackMoved x true n ((g.select x).removeFromDeselectedQueue x)).1 :=
        notifyTrackMoved_publishers hrec true hown
      exact h.of_sessions (demoteTrackAtRank_sessions r _ n)
    · rw [recomputeGroup_stays (by simp [hin, hjn])]
      exact notifyTrackMoved_publishers hrec false hown

end

/-- The end of a track lets another one into the shared selection for `n`. -/
def Promotes (r : PropertyRanking) (ftn : FullTrackName) (n : Nat) : Prop :=
  r.getCachedRank ftn < n ∧ n < r.rankedTracks.entries.length

instance (r : PropertyRanking) (ftn : FullTrackName) (n : Nat) : Decidable (r.Promotes ftn n) :=
  inferInstanceAs (Decidable (_ ∧ _))

/-- Then the sessions of the group are told of that track, and otherwise nothing. -/
theorem removeInGroup_cases {l : List Entry} {e : Entry} (hw : r.WF)
    (placed : Placed l i e r.rankedTracks.entries) (tracks : r'.rankedTracks.entries = l)
    (h : g.Shared (best n r.names)) :
    (r.Promotes e.2.ftn n ∧ ∃ y g', g'.sessions = g.sessions ∧ g'.maxSelected = g.maxSelected ∧
        r'.removeInGroup e.2.ftn g = r'.notifyTrackSelected y g') ∨
      (¬ r.Promotes e.2.ftn n ∧ (r'.removeInGroup e.2.ftn g).1.sessions = g.sessions ∧
        (r'.removeInGroup e.2.ftn g).2 = []) := by
  obtain ⟨hl, hx, hi⟩ := placed.around hw.tracks
  have hold : r.names = _ := placed.names
  have hnew : r'.names = l.map fun e => e.2.ftn := by rw [names, tracks]
  rw [hold, ← hnew] at h
  rw [← hnew] at hl hx hi
  have hlength : r.rankedTracks.entries.length = r'.names.length + 1 := by
    rw [placed.length, hnew, List.length_map]
  have hrank : r.getCachedRank e.2.ftn = i :=
    getCachedRank_of_placed placed (placed.rest_tracksOk hw.tracks).2.1
  rw [Promotes, hrank, hlength]
  by_cases hin : i < n
  · obtain ⟨-, heq⟩ := removeInGroup_selected hl hx hi h hin
    rw [heq]
    cases hy : r'.names[n - 1]? with
    | none =>
      rw [List.getElem?_eq_none_iff] at hy
      exact .inr ⟨by omega, rfl, rfl⟩
    | some y =>
      obtain ⟨hlt, -⟩ := List.getElem?_eq_some_iff.mp hy
      exact .inl ⟨by omega, y, ((g.withoutTrack e.2.ftn).select y).removeFromDeselectedQueue y,
        rfl, rfl, rfl⟩
  · obtain ⟨-, heq⟩ := removeInGroup_unselected hx h (Nat.le_of_not_lt hin)
    rw [heq]
    exact .inr ⟨by omega, rfl, rfl⟩

/-- The publisher a moved track is found under. -/
theorem publisher_of_placed {l : List Entry} {e : Entry} (hw : r.WF)
    (placed : Placed l i e r.rankedTracks.entries) :
    (r.trackIndexByName e.2.ftn).map (fun e => e.2.publisherRaw) = some e.2.publisherRaw := by
  rw [trackIndexByName_of_mem hw (placed.mem_iff.mpr (.inl rfl))]
  rfl

/-- A session publishes after a move if it did before. -/
theorem isPublisher_of_moved {l : List Entry} {e : Entry} {key : RankKey} (hw : r.WF)
    (hw' : r'.WF) (placed : Placed l i e r.rankedTracks.entries)
    (placed' : Placed l j (key, e.2) r'.rankedTracks.entries) :
    r'.isPublisher session = r.isPublisher session := by
  rw [Bool.eq_iff_iff, hw.isPublisher_iff, hw'.isPublisher_iff]
  constructor
  · rintro ⟨a, ha, howner⟩
    rcases placed'.mem_iff.mp ha with rfl | ha
    · exact ⟨e, placed.mem_iff.mpr (.inl rfl), howner⟩
    · exact ⟨a, placed.mem_iff.mpr (.inr ha), howner⟩
  · rintro ⟨a, ha, howner⟩
    rcases placed.mem_iff.mp ha with rfl | ha
    · exact ⟨_, placed'.mem_iff.mpr (.inl rfl), howner⟩
    · exact ⟨a, placed'.mem_iff.mpr (.inr ha), howner⟩

theorem isPublisher_of_tracks (hw : r.WF) (hw' : r'.WF) (ht : r'.rankedTracks = r.rankedTracks) :
    r'.isPublisher session = r.isPublisher session := by
  rw [Bool.eq_iff_iff, hw.isPublisher_iff, hw'.isPublisher_iff, Owns, ht, Owns]

theorem groupOf_maxSelected (hw : r.WF) (n : Nat) : (r.groupOf n).maxSelected = n :=
  ((hw.getOrCreateTopNGroup n).groups n _ (r.lookup_getOrCreateTopNGroup n)).maxSelected

/-- How a call can spare a publisher the reconciliation: the tracks stay, its own track moves, a
track moves far below, or a track ends and none takes its place in the shared selection. -/
inductive Spared (r r' : PropertyRanking) (n : Nat) (op : Op) (session : SessionId) : Prop
  | same (tracks : r'.rankedTracks = r.rankedTracks)
  | moved {l i j e key} (placed : Placed l i e r.rankedTracks.entries)
      (placed' : Placed l j (key, e.2) r'.rankedTracks.entries)
      (below : e.2.publisherRaw = session ∨
        n + ownedIn l session ≤ i ∧ n + ownedIn l session ≤ j)
  | ended {l i e} (call : op = .removeTrack e.2.ftn) (placed : Placed l i e r.rankedTracks.entries)
      (tracks : r'.rankedTracks.entries = l) (stays : ¬ r.Promotes e.2.ftn n)

/-- A property that reconciling gives holds of all publishers after a call if it is carried over by
those that are spared. -/
theorem Turn.publishers {op : Op} {change : GroupChange} (turn : Turn r n g op r' change)
    (hw : r.WF) (hw' : r'.WF) (hidle : r.idleTimeout = 0) (hmax : g.maxSelected = n)
    (hshared : g.Shared (best n r.names))
    (hrec : ∀ session info, P session (r'.reconcilePublisherSelection info n session).1)
    (hforward : ∀ session info forward, P session info → P session { info with forward := forward })
    (hspared : ∀ session info, g.sessions.lookup session = some info →
      r.isPublisher session = true → r'.isPublisher session = true →
      Spared r r' n op session → P session info) : r'.Publishers P change.1 := by
  have hkept : r'.rankedTracks = r.rankedTracks → r'.Publishers P g := by
    intro ht session info hl hpub
    exact hspared session info hl ((isPublisher_of_tracks hw hw' ht).symm.trans hpub) hpub
      (.same ht)
  cases turn with
  | quiet tracks apart unknown => exact hkept tracks
  | @registered x value publisher _ i placed fresh =>
    have hk : GroupKeeps g (r'.reconcilePublisherInGroup publisher n g).1 :=
      reconcilePublisherInGroup_keeps hw'.names_nodup publisher
    exact registerInGroup_publishers hrec (hk.maxSelected.trans hmax)
  | @recomputed x value activity _ l i j e sweeps name placed placed' changed idle =>
    cases sweeps with
    | true => exact absurd hidle (idle rfl)
    | false =>
      subst name
      refine recomputeGroup_publishers hrec hmax fun session info hself hl => ?_
      rw [publisher_of_placed hw' placed'] at hself
      have hpub := isPublisher_of_placed hw' placed'
      rw [← Option.some.inj hself] at hpub
      exact hspared session info hl ((isPublisher_of_moved hw hw' placed placed').symm.trans hpub)
        hpub (.moved placed placed' (.inl (Option.some.inj hself).symm))
  | @moved x value activity _ l i j e name placed placed' below members =>
    intro session info hl hpub
    refine hspared session info hl ((isPublisher_of_moved hw hw' placed placed').symm.trans hpub)
      hpub (.moved placed placed' ?_)
    by_cases hself : e.2.publisherRaw = session
    · exact .inl hself
    · refine .inr (members session info hl fun hzero => ?_)
      obtain ⟨a, ha, howner⟩ := hw'.isPublisher_iff.mp hpub
      rcases placed'.mem_iff.mp ha with rfl | ha
      · exact hself howner
      · exact ownedIn_eq_zero.mp hzero a ha howner
  | @removed x _ l i e name placed tracks =>
    subst name
    rcases removeInGroup_cases hw placed tracks hshared with
      ⟨-, y, g', -, hmax', heq⟩ | ⟨hstays, hsessions, -⟩
    · -- the next track is promoted, so all publishers are reconciled
      rw [heq]
      exact notifyTrackSelected_publishers hrec (hmax'.trans hmax)
    · intro session info hs hpub
      rw [hsessions] at hs
      obtain ⟨a, ha, howner⟩ := hw'.isPublisher_iff.mp hpub
      rw [tracks] at ha
      have hpub₀ : r.isPublisher session = true :=
        hw.isPublisher_iff.mpr ⟨a, placed.mem_iff.mpr (.inr ha), howner⟩
      exact hspared session info hs hpub₀ hpub (.ended rfl placed tracks hstays)
  | swept tracks idle => exact absurd hidle idle
  | @joinedAsPublisher joining forward _ tracks publisher =>
    intro session info hl hpub
    rcases lookup_insert_some hl with ⟨rfl, rfl⟩ | ⟨-, hl⟩
    · exact hrec session _
    · exact hkept tracks session info hl hpub
  | @joinedAsViewer joining forward _ tracks viewer =>
    intro session info hl hpub
    rcases lookup_insert_some hl with ⟨rfl, rfl⟩ | ⟨-, hl⟩
    · exact absurd hpub (by simp [viewer])
    · exact hkept tracks session info hl hpub
  | @forwarded moving forward _ info₀ tracks member =>
    intro session info hl hpub
    rcases lookup_insert_some hl with ⟨rfl, rfl⟩ | ⟨-, hl⟩
    · exact hforward session info₀ forward (hkept tracks session info₀ member hpub)
    · exact hkept tracks session info hl hpub
  | left tracks =>
    intro session info hl hpub
    exact hkept tracks session info (lookup_erase_some hl).2 hpub

end PropertyRanking

end Moqx
