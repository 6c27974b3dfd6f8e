import Moqx.Relay.PropertyRanking

/-! What every sequence of calls keeps: tracks and their keys stay apart, the tracks of each
publisher are counted, and the thresholds cover every group. -/
namespace Moqx

open Maps Ranks

abbrev Entry := RankKey × RankedEntry

/-- The list `l'` is `l` with `e` put in at position `i`. -/
structure Placed (l : List Entry) (i : Nat) (e : Entry) (l' : List Entry) : Prop where
  le : i ≤ l.length
  eq : l' = l.insertIdx i e

/-- How many of the tracks belong to a session. -/
def ownedIn (l : List Entry) (session : SessionId) : Nat :=
  (l.filter fun e => e.2.publisherRaw = session).length

/-- A count as the table keeps it: no entry for zero. -/
def countOf (k : Nat) : Option Nat := if k = 0 then none else some k

@[simp] theorem countOf_succ (k : Nat) : countOf (k + 1) = some (k + 1) := rfl

@[simp] theorem countOf_getD (k : Nat) : (countOf k).getD 0 = k := by
  cases k <;> rfl

theorem countOf_isSome {k : Nat} : (countOf k).isSome = true ↔ k ≠ 0 := by
  cases k <;> simp [countOf]

/-- Tracks with names and arrival numbers of their own. -/
structure TracksOk (l : List Entry) (nextSeq : Nat) : Prop where
  names : (l.map fun e => e.2.ftn).Nodup
  seqs : (l.map fun e => e.1.arrivalSeq).Nodup
  fresh : ∀ e ∈ l, e.1.arrivalSeq < nextSeq

namespace Placed

variable {l l' : List Entry} {i : Nat} {e : Entry} {nextSeq : Nat}

theorem perm (h : Placed l i e l') : l'.Perm (e :: l) := by
  rw [h.eq]
  exact List.perm_insertIdx e l h.le

theorem mem_iff (h : Placed l i e l') {a : Entry} : a ∈ l' ↔ a = e ∨ a ∈ l := by
  rw [h.perm.mem_iff, List.mem_cons]

theorem length (h : Placed l i e l') : l'.length = l.length + 1 := by
  rw [h.perm.length_eq, List.length_cons]

theorem names (h : Placed l i e l') : l'.map (fun e => e.2.ftn) =
    (l.map fun e => e.2.ftn).insertIdx i e.2.ftn := by
  rw [h.eq, List.map_insertIdx]

theorem ownedIn (h : Placed l i e l') (session : SessionId) : ownedIn l' session =
    ownedIn l session + if e.2.publisherRaw = session then 1 else 0 := by
  have hperm := (h.perm.filter fun e => decide (e.2.publisherRaw = session)).length_eq
  rw [Moqx.ownedIn, hperm, List.filter_cons]
  by_cases howner : e.2.publisherRaw = session <;> simp [howner, Moqx.ownedIn]

theorem tracksOk (h : Placed l i e l') (hl : TracksOk l nextSeq)
    (hname : ∀ a ∈ l, a.2.ftn ≠ e.2.ftn) (hseq : ∀ a ∈ l, a.1.arrivalSeq ≠ e.1.arrivalSeq)
    {nextSeq' : Nat} (hle : nextSeq ≤ nextSeq') (hfresh : e.1.arrivalSeq < nextSeq') :
    TracksOk l' nextSeq' := by
  refine ⟨?_, ?_, fun a ha => ?_⟩
  · rw [(h.perm.map _).nodup_iff, List.map_cons, List.nodup_cons]
    refine ⟨fun hmem => ?_, hl.names⟩
    obtain ⟨a, ha, heq⟩ := List.mem_map.mp hmem
    exact hname a ha heq
  · rw [(h.perm.map _).nodup_iff, List.map_cons, List.nodup_cons]
    refine ⟨fun hmem => ?_, hl.seqs⟩
    obtain ⟨a, ha, heq⟩ := List.mem_map.mp hmem
    exact hseq a ha heq
  · rcases h.mem_iff.mp ha with rfl | ha
    · exact hfresh
    · exact Nat.lt_of_lt_of_le (hl.fresh a ha) hle

theorem rest_tracksOk (h : Placed l i e l') (hl : TracksOk l' nextSeq) : TracksOk l nextSeq ∧
    (∀ a ∈ l, a.2.ftn ≠ e.2.ftn) ∧ ∀ a ∈ l, a.1.arrivalSeq ≠ e.1.arrivalSeq := by
  have hnames := (h.perm.map fun e => e.2.ftn).nodup_iff.mp hl.names
  have hseqs := (h.perm.map fun e => e.1.arrivalSeq).nodup_iff.mp hl.seqs
  rw [List.map_cons, List.nodup_cons] at hnames hseqs
  refine ⟨⟨hnames.2, hseqs.2, fun a ha => hl.fresh a (h.mem_iff.mpr (.inr ha))⟩,
    fun a ha heq => hnames.1 ?_, fun a ha heq => hseqs.1 ?_⟩
  · exact List.mem_map.mpr ⟨a, ha, heq⟩
  · exact List.mem_map.mpr ⟨a, ha, heq⟩

/-- The names around a track that is put in. -/
theorem around (h : Placed l i e l') (hl : TracksOk l' nextSeq) :
    (l.map fun e => e.2.ftn).Nodup ∧ e.2.ftn ∉ (l.map fun e => e.2.ftn) ∧
      i ≤ (l.map fun e => e.2.ftn).length := by
  obtain ⟨hrest, hname, -⟩ := h.rest_tracksOk hl
  refine ⟨hrest.names, fun hmem => ?_, by simpa using h.le⟩
  obtain ⟨a, ha, heq⟩ := List.mem_map.mp hmem
  exact hname a ha heq

theorem mem_names (h : Placed l i e l') {y : FullTrackName} :
    y ∈ l'.map (fun e => e.2.ftn) ↔ y = e.2.ftn ∨ y ∈ l.map fun e => e.2.ftn := by
  rw [(h.perm.map _).mem_iff, List.map_cons, List.mem_cons]

/-- The tracks besides the one that is put in. -/
theorem filter_ne (h : Placed l i e l') (hl : TracksOk l' nextSeq) :
    (l'.filter fun d => d.2.ftn ≠ e.2.ftn) = l := by
  obtain ⟨-, hname, -⟩ := h.rest_tracksOk hl
  rw [h.eq, filter_insertIdx _ h.le, if_neg (by simp), List.filter_eq_self]
  simpa using hname

theorem names_filter_ne (h : Placed l i e l') (hl : TracksOk l' nextSeq) :
    ((l'.map fun d => d.2.ftn).filter fun y => y ≠ e.2.ftn) = l.map fun d => d.2.ftn := by
  rw [← h.filter_ne hl, List.filter_map]
  rfl

end Placed

namespace PropertyRanking

/-- The rank a key would take among some tracks. -/
def placeOf (tracks : List Entry) (key : RankKey) : Nat :=
  (tracks.filter fun e => key < e.1).length

variable {e : Entry} {l : List Entry}

theorem placeOf_eq {l' : List Entry} {i : Nat} (h : Placed l i e l')
    (hl : l'.Pairwise fun a b => b.1 < a.1) : placeOf l e.1 = i :=
  length_filter_gt h.le (h.eq ▸ hl)

variable {r : PropertyRanking} {ftn : FullTrackName} {session : SessionId}

/-- A session is the publisher of a registered track. -/
def Owns (r : PropertyRanking) (session : SessionId) : Prop :=
  ∃ e ∈ r.rankedTracks.entries, e.2.publisherRaw = session

instance (r : PropertyRanking) (session : SessionId) : Decidable (r.Owns session) :=
  inferInstanceAs (Decidable (∃ e ∈ r.rankedTracks.entries, e.2.publisherRaw = session))

/-- The rank of a track is its position. -/
theorem getCachedRank_of_placed {i : Nat} (h : Placed l i e r.rankedTracks.entries)
    (hname : ∀ a ∈ l, a.2.ftn ≠ e.2.ftn) : r.getCachedRank e.2.ftn = i := by
  unfold getCachedRank
  rw [h.eq, findIdx?_insertIdx h.le (by simp) (by simpa using hname), Option.getD_some]

theorem trackIndexByName_eq_none : r.trackIndexByName ftn = none ↔
    ∀ e ∈ r.rankedTracks.entries, e.2.ftn ≠ ftn := by
  simp [trackIndexByName]

theorem mem_of_trackIndexByName (h : r.trackIndexByName ftn = some e) :
    e ∈ r.rankedTracks.entries ∧ e.2.ftn = ftn := by
  refine ⟨List.mem_of_find?_eq_some h, ?_⟩
  simpa using List.find?_some h

/-- A group within the thresholds. -/
structure GroupOk (r : PropertyRanking) (n : Nat) (g : TopNGroup) : Prop where
  maxSelected : g.maxSelected = n
  selection : n ≤ r.selectionThreshold
  extended : ∀ session info count, g.sessions.lookup session = some info →
    r.publisherTrackCount.lookup session = some count → n + count ≤ r.publisherExtendedThreshold
  distinct : ∀ session info, g.sessions.lookup session = some info → info.selectedTracks.Nodup

structure WF (r : PropertyRanking) : Prop where
  tracks : TracksOk r.rankedTracks.entries r.nextSeq
  counts : ∀ session, r.publisherTrackCount.lookup session =
    countOf (ownedIn r.rankedTracks.entries session)
  groups : ∀ n g, r.topNGroups.lookup n = some g → r.GroupOk n g

theorem ownedIn_eq_zero : ownedIn l session = 0 ↔ ∀ e ∈ l, e.2.publisherRaw ≠ session := by
  simp [ownedIn]

theorem WF.isPublisher_iff (hw : r.WF) : r.isPublisher session = true ↔ r.Owns session := by
  rw [isPublisher, hw.counts, countOf_isSome, ne_eq, ownedIn_eq_zero]
  simp [Owns]

theorem WF.names_nodup (hw : r.WF) : r.names.Nodup := hw.tracks.names

theorem trackIndexByName_of_mem (hw : r.WF) (he : e ∈ r.rankedTracks.entries) :
    r.trackIndexByName e.2.ftn = some e := by
  cases hfind : r.trackIndexByName e.2.ftn with
  | none => exact absurd rfl (trackIndexByName_eq_none.mp hfind e he)
  | some a =>
    obtain ⟨ha, hname⟩ := mem_of_trackIndexByName hfind
    exact congrArg some (List.inj_on_of_nodup_map hw.tracks.names ha he hname)

/-- A new track goes in at its rank. -/
theorem insertTrack_placed (hw : r.WF) (hnew : r.trackIndexByName ftn = none) (value : Nat)
    (publisher : SessionId) : ∃ i, Placed r.rankedTracks.entries i
      (⟨value, r.nextSeq⟩, ⟨ftn, publisher⟩)
      (r.insertTrack ftn value publisher).rankedTracks.entries ∧
      (r.insertTrack ftn value publisher).getCachedRank ftn = i := by
  have hkey : ∀ e ∈ r.rankedTracks.entries, e.1 ≠ ⟨value, r.nextSeq⟩ := by
    intro e he heq
    have hlt := hw.tracks.fresh e he
    rw [heq] at hlt
    exact Nat.lt_irrefl _ hlt
  obtain ⟨i, hi, heq⟩ := emplaceEntry_eq_insertIdx (x := (⟨ftn, publisher⟩ : RankedEntry)) hkey
  have hplaced : Placed r.rankedTracks.entries i (⟨value, r.nextSeq⟩, ⟨ftn, publisher⟩)
      (r.insertTrack ftn value publisher).rankedTracks.entries := ⟨hi, heq⟩
  exact ⟨i, hplaced, getCachedRank_of_placed hplaced (trackIndexByName_eq_none.mp hnew)⟩

/-- An erased track leaves its place. -/
theorem erase_placed (h : e ∈ r.rankedTracks.entries) :
    ∃ i, Placed (r.rankedTracks.erase e.1).entries i e r.rankedTracks.entries := by
  obtain ⟨i, hi, heq⟩ := RankMap.entries_eq_insertIdx h
  exact ⟨i, hi, heq⟩

/-- A track with a new value moves from one place to another. -/
theorem moveTrack_placed (hw : r.WF) (h : e ∈ r.rankedTracks.entries) (value : Nat) :
    ∃ j, Placed (r.rankedTracks.erase e.1).entries j (⟨value, e.1.arrivalSeq⟩, e.2)
      (r.moveTrack e.1 ⟨value, e.1.arrivalSeq⟩ e.2).rankedTracks.entries := by
  obtain ⟨i, hplaced⟩ := erase_placed h
  have hseq := (hplaced.rest_tracksOk hw.tracks).2.2
  have hkey : ∀ a ∈ (r.rankedTracks.erase e.1).entries, a.1 ≠ ⟨value, e.1.arrivalSeq⟩ := by
    intro a ha heq
    refine hseq a ha ?_
    rw [heq]
  obtain ⟨j, hj, heq⟩ := emplaceEntry_eq_insertIdx (x := e.2) hkey
  exact ⟨j, hj, heq⟩

end PropertyRanking

/-- A change of a group that keeps its members. -/
structure GroupKeeps (g g' : TopNGroup) : Prop where
  maxSelected : g'.maxSelected = g.maxSelected
  members : ∀ session, (g'.sessions.lookup session).isSome = (g.sessions.lookup session).isSome
  distinct : (∀ session info, g.sessions.lookup session = some info → info.selectedTracks.Nodup) →
    ∀ session info, g'.sessions.lookup session = some info → info.selectedTracks.Nodup

variable {g g' : TopNGroup}

theorem GroupKeeps.of_sessions (hm : g'.maxSelected = g.maxSelected)
    (hs : g'.sessions = g.sessions) : GroupKeeps g g' :=
  ⟨hm, fun _ => by rw [hs], by rw [hs]; exact id⟩

theorem GroupKeeps.refl (g : TopNGroup) : GroupKeeps g g := .of_sessions rfl rfl

theorem GroupKeeps.trans {g'' : TopNGroup} (h : GroupKeeps g g') (h' : GroupKeeps g' g'') :
    GroupKeeps g g'' :=
  ⟨h'.maxSelected.trans h.maxSelected, fun s => (h'.members s).trans (h.members s),
    fun hd => h'.distinct (h.distinct hd)⟩

theorem GroupKeeps.andThen {x : GroupChange} {f : TopNGroup → GroupChange} (h : GroupKeeps g x.1)
    (hf : ∀ g', GroupKeeps g' (f g').1) : GroupKeeps g (x.andThen f).1 :=
  h.trans (hf x.1)

theorem GroupKeeps.lookup_none {session : SessionId} (h : GroupKeeps g g') :
    g'.sessions.lookup session = none ↔ g.sessions.lookup session = none := by
  rw [← Option.isSome_eq_false_iff.trans Option.isNone_iff_eq_none, h.members,
    Option.isSome_eq_false_iff.trans Option.isNone_iff_eq_none]

namespace TopNGroup

variable (g : TopNGroup) (ftn : FullTrackName) (maxDeselected : Nat)

@[simp] theorem demoteTrack_sessions :
    (g.demoteTrack maxDeselected ftn).1.sessions = g.sessions := rfl
@[simp] theorem demoteTrack_maxSelected :
    (g.demoteTrack maxDeselected ftn).1.maxSelected = g.maxSelected := rfl

end TopNGroup

namespace PropertyRanking

variable (r : PropertyRanking) (g : TopNGroup) (n : Nat) (ftn : FullTrackName)

@[simp] theorem demoteTrackAtRank_sessions :
    (r.demoteTrackAtRank n g).1.sessions = g.sessions := by
  unfold demoteTrackAtRank
  split
  · split
    · rfl
    · rfl
  · rfl

@[simp] theorem demoteTrackAtRank_maxSelected :
    (r.demoteTrackAtRank n g).1.maxSelected = g.maxSelected := by
  unfold demoteTrackAtRank
  split
  · split
    · rfl
    · rfl
  · rfl

theorem lookup_reconcileSessions (p : SessionId → Bool) (session : SessionId) :
    (r.reconcileSessions n p g).1.sessions.lookup session =
      (g.sessions.lookup session).map fun info =>
        if p session then (r.reconcilePublisherSelection info n session).1 else info := by
  simp [reconcileSessions]

theorem lookup_notifyTrackSelected (session : SessionId) :
    (r.notifyTrackSelected ftn g).1.sessions.lookup session =
      (g.sessions.lookup session).map fun info => if r.isPublisher session then
        (r.reconcilePublisherSelection info g.maxSelected session).1 else info :=
  r.lookup_reconcileSessions g g.maxSelected r.isPublisher session

variable {r g n ftn}

theorem demoteTrack_keeps (maxDeselected : Nat) :
    GroupKeeps g (g.demoteTrack maxDeselected ftn).1 := .of_sessions rfl rfl

theorem demoteTrackAtRank_keeps : GroupKeeps g (r.demoteTrackAtRank n g).1 :=
  .of_sessions (by simp) (by simp)

section
variable (hr : r.names.Nodup)
include hr

theorem aboveWaterline_nodup (session : SessionId) (waterlineKey : Option RankKey) :
    (r.aboveWaterline session waterlineKey).Nodup :=
  hr.sublist (List.filter_sublist.map _)

theorem reconcileSessions_keeps (p : SessionId → Bool) :
    GroupKeeps g (r.reconcileSessions n p g).1 := by
  refine ⟨rfl, fun session => ?_, fun hd session info h => ?_⟩
  · rw [lookup_reconcileSessions, Option.isSome_map]
  · rw [lookup_reconcileSessions] at h
    obtain ⟨info₀, hl, rfl⟩ := Option.map_eq_some_iff.mp h
    split
    · exact aboveWaterline_nodup hr session _
    · exact hd session info₀ hl

theorem notifyTrackSelected_keeps {g₀ : TopNGroup} (h : GroupKeeps g₀ g) :
    GroupKeeps g₀ (r.notifyTrackSelected ftn g).1 :=
  h.trans (reconcileSessions_keeps hr r.isPublisher)

theorem notifyTrackMoved_keeps (entered : Bool) :
    GroupKeeps g (r.notifyTrackMoved ftn entered n g).1 :=
  reconcileSessions_keeps hr _

theorem promoteNextAvailableTrack_keeps {g₀ : TopNGroup} (h : GroupKeeps g₀ g) :
    GroupKeeps g₀ (r.promoteNextAvailableTrack ftn g).1 := by
  unfold promoteNextAvailableTrack
  split
  · exact h.trans (notifyTrackSelected_keeps hr (.of_sessions rfl rfl))
  · exact h

theorem promoteTrackAtRank_keeps : GroupKeeps g (r.promoteTrackAtRank n g).1 := by
  unfold promoteTrackAtRank
  split
  · split
    · exact .refl g
    · exact notifyTrackSelected_keeps hr (.of_sessions rfl rfl)
  · exact .refl g

theorem registerInGroup_keeps (rank : Nat) :
    GroupKeeps g (r.registerInGroup ftn rank n g).1 := by
  unfold registerInGroup
  split
  · have hselect : GroupKeeps g (r.notifyTrackSelected ftn (g.select ftn)).1 :=
      notifyTrackSelected_keeps hr (.of_sessions rfl rfl)
    exact hselect.andThen fun _ => demoteTrackAtRank_keeps
  · exact reconcileSessions_keeps hr _

theorem recomputeGroup_keeps (oldRank newRank : Nat) :
    GroupKeeps g (r.recomputeGroup ftn oldRank newRank n g).1 := by
  have hchanged : ∀ x : GroupChange, GroupKeeps g x.1 → ∀ entered,
      GroupKeeps g (x.andThen (r.notifyTrackMoved ftn entered n)).1 := fun x hx entered =>
    hx.andThen fun _ => notifyTrackMoved_keeps hr entered
  unfold recomputeGroup
  dsimp only
  generalize hx : (if decide (oldRank < n) ≠ decide (newRank < n) then
    if decide (newRank < n) = true then ((g.select ftn).removeFromDeselectedQueue ftn, [])
    else TopNGroup.demoteTrack r.maxDeselected ftn g else (g, [])) = x
  have hkeeps : GroupKeeps g x.1 := by
    rw [← hx]
    split
    · split
      · exact .of_sessions rfl rfl
      · exact demoteTrack_keeps _
    · exact .refl g
  split
  · exact (hchanged x hkeeps _).andThen fun _ => demoteTrackAtRank_keeps
  · split
    · exact (hchanged x hkeeps _).andThen fun _ => promoteTrackAtRank_keeps hr
    · exact hchanged x hkeeps _

theorem removeInGroup_keeps : GroupKeeps g (r.removeInGroup ftn g).1 := by
  unfold removeInGroup
  split
  · exact .refl g
  · dsimp only
    split
    · split
      · exact notifyTrackSelected_keeps hr (.of_sessions rfl rfl)
      · exact promoteNextAvailableTrack_keeps hr (.of_sessions rfl rfl)
    · exact .of_sessions rfl rfl

theorem sweepTracks_keeps (activity : Activity) (tracks : List FullTrackName) :
    GroupKeeps g (r.sweepTracks activity tracks g).1 := by
  induction tracks generalizing g with
  | nil => exact .refl g
  | cons ftn rest ih =>
    unfold sweepTracks
    split
    · exact ((demoteTrack_keeps _).andThen fun _ =>
        promoteNextAvailableTrack_keeps hr (.refl _)).andThen fun _ => ih
    · exact ih

theorem reconcilePublisherInGroup_keeps (session : SessionId) :
    GroupKeeps g (r.reconcilePublisherInGroup session n g).1 := by
  unfold reconcilePublisherInGroup
  split
  · exact .refl g
  · next info hl =>
    refine ⟨rfl, fun s => ?_, fun hd s info' h => ?_⟩
    · by_cases hs : s = session
      · subst hs
        simp [hl]
      · simp [AList.lookup_insert_ne hs]
    · rcases lookup_insert_some h with ⟨rfl, rfl⟩ | ⟨-, h⟩
      · exact aboveWaterline_nodup hr _ _
      · exact hd s info' h

end

/-- A running maximum is at least what it starts from and what any element makes of it. -/
theorem le_foldl {α : Type} {f : Nat → α → Nat} (hf : ∀ b a, b ≤ f b a) (l : List α) (b : Nat) :
    b ≤ l.foldl f b := by
  induction l generalizing b with
  | nil => exact Nat.le_refl b
  | cons a l ih => exact Nat.le_trans (hf b a) (ih (f b a))

theorem le_foldl_of_mem {α : Type} {f : Nat → α → Nat} (hf : ∀ b a, b ≤ f b a) {l : List α} {a : α}
    {k : Nat} (ha : a ∈ l) (hk : ∀ b, k ≤ f b a) (b : Nat) : k ≤ l.foldl f b := by
  induction l generalizing b with
  | nil => cases ha
  | cons c l ih =>
    rcases List.mem_cons.mp ha with rfl | ha
    · exact Nat.le_trans (hk b) (le_foldl hf l _)
    · exact ih ha (f b c)

theorem le_maxN (h : r.topNGroups.lookup n = some g) : n ≤ r.maxN :=
  le_foldl_of_mem (fun b a => Nat.le_max_left b a)
    (AList.mem_keys.mp (AList.lookup_isSome.mp (by rw [h]; rfl))) (fun b => Nat.le_max_right b n) 0

/-- What one session adds to the extended threshold. -/
def extendedBy (r : PropertyRanking) (n best : Nat) (session : SessionId) : Nat :=
  match r.publisherTrackCount.lookup session with
  | some count => max best (n + count)
  | none => best

theorem le_extendedBy (r : PropertyRanking) (n best : Nat) (session : SessionId) :
    best ≤ r.extendedBy n best session := by
  unfold extendedBy
  split
  · exact Nat.le_max_left _ _
  · exact Nat.le_refl _

theorem maxExtended_eq (r : PropertyRanking) (least : Nat) : r.maxExtended least =
    r.topNGroups.entries.foldl (fun best (e : Sigma fun _ : Nat => TopNGroup) =>
      e.2.sessions.keys.foldl (r.extendedBy e.1) best) least := rfl

theorem least_le_maxExtended (r : PropertyRanking) (least : Nat) : least ≤ r.maxExtended least := by
  rw [maxExtended_eq]
  exact le_foldl (fun b (e : Sigma fun _ : Nat => TopNGroup) =>
    le_foldl (r.le_extendedBy e.1) _ b) _ _

theorem le_maxExtended {session : SessionId} {info : SessionInfo} {count : Nat}
    (h : r.topNGroups.lookup n = some g) (hs : g.sessions.lookup session = some info)
    (hc : r.publisherTrackCount.lookup session = some count) (least : Nat) :
    n + count ≤ r.maxExtended least := by
  rw [maxExtended_eq]
  have hmem : session ∈ g.sessions.keys :=
    AList.mem_keys.mp (AList.lookup_isSome.mp (by rw [hs]; rfl))
  refine le_foldl_of_mem (fun b (e : Sigma fun _ : Nat => TopNGroup) =>
      le_foldl (r.le_extendedBy e.1) _ b)
    (AList.mem_lookup_iff.mp h) (fun b => ?_) _
  refine le_foldl_of_mem (r.le_extendedBy n) hmem (fun b => ?_) b
  simp only [extendedBy, hc]
  exact Nat.le_max_right _ _

theorem GroupOk.keeps (h : r.GroupOk n g) {g' : TopNGroup} (hk : GroupKeeps g g') :
    r.GroupOk n g' := by
  refine ⟨hk.maxSelected.trans h.maxSelected, h.selection, fun session info count hl hcount => ?_,
    hk.distinct h.distinct⟩
  have hsome := hk.members session
  rw [hl, Option.isSome_some] at hsome
  obtain ⟨info₀, hl₀⟩ := Option.isSome_iff_exists.mp hsome.symm
  exact h.extended session info₀ count hl₀ hcount

theorem lookup_onGroups (r : PropertyRanking) (f : Nat → TopNGroup → GroupChange) (n : Nat) :
    (r.onGroups f).1.topNGroups.lookup n = (r.topNGroups.lookup n).map fun g => (f n g).1 := by
  simp [onGroups]

theorem WF.onGroups {f : Nat → TopNGroup → GroupChange} (hw : r.WF)
    (hf : ∀ n g, r.topNGroups.lookup n = some g → GroupKeeps g (f n g).1) :
    (r.onGroups f).1.WF := by
  refine ⟨hw.tracks, hw.counts, fun n g' h => ?_⟩
  rw [lookup_onGroups] at h
  obtain ⟨g, hg, rfl⟩ := Option.map_eq_some_iff.mp h
  obtain ⟨hmax, hsel, hext, hdist⟩ := (hw.groups n g hg).keeps (hf n g hg)
  exact ⟨hmax, hsel, hext, hdist⟩

theorem WF.setGroup (hw : r.WF) (hg : r.GroupOk n g) : (r.setGroup n g).WF := by
  refine ⟨hw.tracks, hw.counts, fun m g' h => ?_⟩
  rcases lookup_insert_some h with ⟨rfl, rfl⟩ | ⟨-, h⟩
  · exact ⟨hg.maxSelected, hg.selection, hg.extended, hg.distinct⟩
  · obtain ⟨hmax, hsel, hext, hdist⟩ := hw.groups m g' h
    exact ⟨hmax, hsel, hext, hdist⟩

/-- Recomputing the extended threshold makes it cover every session. -/
theorem updatePublisherExtendedThreshold_wf (ht : TracksOk r.rankedTracks.entries r.nextSeq)
    (hc : ∀ session, r.publisherTrackCount.lookup session =
      countOf (ownedIn r.rankedTracks.entries session))
    (hg : ∀ n g, r.topNGroups.lookup n = some g → g.maxSelected = n ∧ n ≤ r.selectionThreshold ∧
      ∀ session info, g.sessions.lookup session = some info → info.selectedTracks.Nodup) :
    r.updatePublisherExtendedThreshold.WF := by
  refine ⟨ht, hc, fun n g hl => ?_⟩
  obtain ⟨hmax, hsel, hdist⟩ := hg n g hl
  refine ⟨hmax, hsel, fun session info count hs hcount => ?_, hdist⟩
  exact Nat.le_trans (le_maxExtended hl hs hcount 0) (Nat.le_add_right _ _)

theorem WF.updatePublisherExtendedThreshold (hw : r.WF) :
    r.updatePublisherExtendedThreshold.WF :=
  updatePublisherExtendedThreshold_wf hw.tracks hw.counts fun n g h =>
    ⟨(hw.groups n g h).maxSelected, (hw.groups n g h).selection, (hw.groups n g h).distinct⟩

/-- Recomputing the selection threshold makes it cover every group. -/
theorem updateSelectionThreshold_wf (ht : TracksOk r.rankedTracks.entries r.nextSeq)
    (hc : ∀ session, r.publisherTrackCount.lookup session =
      countOf (ownedIn r.rankedTracks.entries session))
    (hg : ∀ n g, r.topNGroups.lookup n = some g → g.maxSelected = n ∧
      ∀ session info, g.sessions.lookup session = some info → info.selectedTracks.Nodup ∧
        ∀ count, r.publisherTrackCount.lookup session = some count →
          n + count ≤ r.publisherExtendedThreshold) :
    r.updateSelectionThreshold.WF := by
  refine ⟨ht, hc, fun n g hl => ?_⟩
  obtain ⟨hmax, hsessions⟩ := hg n g hl
  exact ⟨hmax, Nat.le_trans (le_maxN hl) (Nat.le_add_right _ _),
    fun session info count hs => (hsessions session info hs).2 count,
    fun session info hs => (hsessions session info hs).1⟩

theorem GroupOk.sessionOk (h : r.GroupOk n g) (session : SessionId) (info : SessionInfo)
    (hs : g.sessions.lookup session = some info) : info.selectedTracks.Nodup ∧
      ∀ count, r.publisherTrackCount.lookup session = some count →
        n + count ≤ r.publisherExtendedThreshold :=
  ⟨h.distinct session info hs, fun count => h.extended session info count hs⟩

variable {e : Entry}

/-- A new track is counted for its publisher. -/
theorem lookup_count_insert {counts : AList fun _ : SessionId => Nat} {l l' : List Entry}
    {i : Nat} (h : Placed l i e l') (hc : ∀ s, counts.lookup s = countOf (ownedIn l s)) (s) :
    (counts.insert e.2.publisherRaw ((counts.lookup e.2.publisherRaw).getD 0 + 1)).lookup s =
      countOf (ownedIn l' s) := by
  rw [h.ownedIn]
  by_cases hs : s = e.2.publisherRaw
  · subst hs
    rw [AList.lookup_insert, if_pos rfl, hc, countOf_getD, countOf_succ]
  · rw [AList.lookup_insert_ne hs, if_neg (Ne.symm hs), hc, Nat.add_zero]

theorem WF.insertTrack (hw : r.WF) (hnew : r.trackIndexByName ftn = none) (value : Nat)
    (publisher : SessionId) : (r.insertTrack ftn value publisher).WF := by
  obtain ⟨i, hplaced, -⟩ := insertTrack_placed hw hnew value publisher
  have htracks : TracksOk (r.insertTrack ftn value publisher).rankedTracks.entries
      (r.nextSeq + 1) :=
    hplaced.tracksOk hw.tracks (trackIndexByName_eq_none.mp hnew)
      (fun a ha => Nat.ne_of_lt (hw.tracks.fresh a ha)) (Nat.le_succ _) (Nat.lt_succ_self _)
  exact updatePublisherExtendedThreshold_wf
    (r := { r.insertTrack ftn value publisher with publisherExtendedThreshold := 0 }) htracks
    (lookup_count_insert hplaced hw.counts) fun n g h =>
      ⟨(hw.groups n g h).maxSelected, (hw.groups n g h).selection, (hw.groups n g h).distinct⟩

/-- A key's entry is the one the index finds. -/
theorem moveTrack_wf (hw : r.WF) (h : e ∈ r.rankedTracks.entries) (value : Nat) :
    (r.moveTrack e.1 ⟨value, e.1.arrivalSeq⟩ e.2).WF := by
  obtain ⟨i, hold⟩ := erase_placed h
  obtain ⟨j, hnew⟩ := moveTrack_placed hw h value
  obtain ⟨hrest, hname, hseq⟩ := hold.rest_tracksOk hw.tracks
  refine ⟨hnew.tracksOk hrest hname hseq (Nat.le_refl _) (hw.tracks.fresh e h), fun s => ?_,
    fun n g hg => ?_⟩
  · rw [hnew.ownedIn, ← hold.ownedIn]
    exact hw.counts s
  · obtain ⟨hmax, hsel, hext, hdist⟩ := hw.groups n g hg
    exact ⟨hmax, hsel, hext, hdist⟩

/-- A removed track is no longer counted for its publisher. -/
theorem lookup_count_erase {counts : AList fun _ : SessionId => Nat} {l l' : List Entry}
    {i k : Nat} (h : Placed l i e l') (hc : ∀ s, counts.lookup s = countOf (ownedIn l' s))
    (hk : ownedIn l' e.2.publisherRaw = k) (s) :
    (if k - 1 = 0 then counts.erase e.2.publisherRaw
      else counts.insert e.2.publisherRaw (k - 1)).lookup s = countOf (ownedIn l s) := by
  have howned := h.ownedIn s
  by_cases hs : s = e.2.publisherRaw
  · subst hs
    rw [if_pos rfl, hk] at howned
    split
    · next hzero => rw [AList.lookup_erase, (by omega : ownedIn l e.2.publisherRaw = 0)]; rfl
    · next hzero => rw [AList.lookup_insert, (by omega : ownedIn l e.2.publisherRaw = k - 1),
        countOf, if_neg hzero]
  · rw [if_neg (Ne.symm hs), Nat.add_zero] at howned
    rw [← howned, ← hc]
    split
    · exact AList.lookup_erase_ne hs
    · exact AList.lookup_insert_ne hs

theorem WF.eraseTrack (hw : r.WF) (h : e ∈ r.rankedTracks.entries) : (r.eraseTrack e.1 e.2).WF := by
  obtain ⟨i, hold⟩ := erase_placed h
  have howned := hold.ownedIn e.2.publisherRaw
  rw [if_pos rfl] at howned
  have hcount := hw.counts e.2.publisherRaw
  rw [howned, countOf_succ] at hcount
  simp only [PropertyRanking.eraseTrack, decrementTrackCount, hcount]
  exact updatePublisherExtendedThreshold_wf
    (r := PropertyRanking.mk _ _ _ _ (r.rankedTracks.erase e.1) _ _ _ _ 0 _)
    (hold.rest_tracksOk hw.tracks).1 (lookup_count_erase hold hw.counts howned) fun n g h =>
      ⟨(hw.groups n g h).maxSelected, (hw.groups n g h).selection, (hw.groups n g h).distinct⟩

theorem WF.registerTrack (hw : r.WF) (ftn : FullTrackName) (value : Option Nat)
    (publisher : SessionId) : (r.registerTrack ftn value publisher).1.WF := by
  unfold PropertyRanking.registerTrack
  split
  · exact hw
  · next hnew =>
    have hins := hw.insertTrack (by simpa using hnew) (value.getD 0) publisher
    have hrec := hins.onGroups (f := fun n g => (r.insertTrack ftn (value.getD 0)
      publisher).reconcilePublisherInGroup publisher n g)
      fun n g _ => reconcilePublisherInGroup_keeps hins.names_nodup publisher
    exact hrec.onGroups fun n g _ => registerInGroup_keeps hrec.names_nodup _

theorem WF.sweepIdle (hw : r.WF) (activity : Activity) : (r.sweepIdle activity).1.WF := by
  unfold PropertyRanking.sweepIdle
  split
  · exact hw
  · split
    · exact hw
    · have hswept : { r with lastSweepTime := some activity.now }.WF :=
        ⟨hw.tracks, hw.counts, fun n g h =>
          have hok := hw.groups n g h
          ⟨hok.maxSelected, hok.selection, hok.extended, hok.distinct⟩⟩
      exact hswept.onGroups fun n g _ => sweepTracks_keeps hswept.names_nodup activity _

theorem WF.updateSortValue (hw : r.WF) (ftn : FullTrackName) (value : Nat) (activity : Activity) :
    (r.updateSortValue ftn value activity).1.WF := by
  unfold PropertyRanking.updateSortValue
  cases hfind : r.trackIndexByName ftn with
  | none => exact hw
  | some e =>
    have hmoved := moveTrack_wf hw (mem_of_trackIndexByName hfind).1 value
    dsimp only
    split
    · exact hw
    · split
      · exact (hmoved.onGroups fun n g _ => recomputeGroup_keeps hmoved.names_nodup _ _).sweepIdle
          activity
      · exact hmoved

theorem WF.removeTrack (hw : r.WF) (ftn : FullTrackName) : (r.removeTrack ftn).1.WF := by
  unfold PropertyRanking.removeTrack
  cases hfind : r.trackIndexByName ftn with
  | none => exact hw
  | some e =>
    have herased := hw.eraseTrack (mem_of_trackIndexByName hfind).1
    exact herased.onGroups fun n g _ => removeInGroup_keeps herased.names_nodup

theorem WF.getOrCreateTopNGroup (hw : r.WF) (n : Nat) : (r.getOrCreateTopNGroup n).1.WF := by
  unfold PropertyRanking.getOrCreateTopNGroup
  cases hl : r.topNGroups.lookup n with
  | some g => exact hw
  | none =>
    have hgroup : ((r.setGroup n { maxSelected := n }).updateSelectionThreshold).WF := by
      refine updateSelectionThreshold_wf hw.tracks hw.counts fun m g' h => ?_
      rcases lookup_insert_some h with ⟨rfl, rfl⟩ | ⟨-, h⟩
      · exact ⟨rfl, fun session info hs => by cases hs⟩
      · exact ⟨(hw.groups m g' h).maxSelected, (hw.groups m g' h).sessionOk⟩
    have hsel :
        n ≤ (r.setGroup n { maxSelected := n }).updateSelectionThreshold.selectionThreshold :=
      (hgroup.groups n _ (AList.lookup_insert _)).selection
    exact hgroup.setGroup ⟨rfl, hsel, fun _ _ _ hs => (by cases hs), fun _ _ hs => by cases hs⟩

/-- The group that is asked for is in the table. -/
theorem lookup_getOrCreateTopNGroup (r : PropertyRanking) (n : Nat) :
    (r.getOrCreateTopNGroup n).1.topNGroups.lookup n = some (r.getOrCreateTopNGroup n).2 := by
  unfold PropertyRanking.getOrCreateTopNGroup
  cases hl : r.topNGroups.lookup n with
  | some g => exact hl
  | none => exact AList.lookup_insert _

/-- A session that comes in or is changed keeps a group in order. -/
theorem GroupOk.insert (h : r.GroupOk n g) {info : SessionInfo} (hd : info.selectedTracks.Nodup)
    (he : ∀ count, r.publisherTrackCount.lookup session = some count →
      n + count ≤ r.publisherExtendedThreshold) :
    r.GroupOk n { g with sessions := g.sessions.insert session info } := by
  refine ⟨h.maxSelected, h.selection, fun s info' count hs hcount => ?_, fun s info' hs => ?_⟩
  · rcases lookup_insert_some hs with ⟨rfl, rfl⟩ | ⟨-, hs⟩
    · exact he count hcount
    · exact h.extended s info' count hs hcount
  · rcases lookup_insert_some hs with ⟨rfl, rfl⟩ | ⟨-, hs⟩
    · exact hd
    · exact h.distinct s info' hs

theorem WF.addSessionToTopNGroup (hw : r.WF) (n : Nat) (session : SessionId) (forward : Bool) :
    (r.addSessionToTopNGroup n session forward).1.WF := by
  have hgot := hw.getOrCreateTopNGroup n
  have hok := hgot.groups n _ (r.lookup_getOrCreateTopNGroup n)
  unfold PropertyRanking.addSessionToTopNGroup
  generalize hx : r.getOrCreateTopNGroup n = x at hgot hok
  obtain ⟨r', g⟩ := x
  dsimp only at hgot hok ⊢
  split
  · next hpub =>
    have hjoined := updatePublisherExtendedThreshold_wf (r := r'.setGroup n
        { g with sessions := g.sessions.insert session { forward := forward } })
      hgot.tracks hgot.counts fun m g' h => by
        rcases lookup_insert_some h with ⟨rfl, rfl⟩ | ⟨-, h⟩
        · refine ⟨hok.maxSelected, hok.selection, fun s info hs => ?_⟩
          rcases lookup_insert_some hs with ⟨rfl, rfl⟩ | ⟨-, hs⟩
          · exact List.nodup_nil
          · exact hok.distinct s info hs
        · exact ⟨(hgot.groups m g' h).maxSelected, (hgot.groups m g' h).selection,
            (hgot.groups m g' h).distinct⟩
    have hmember := hjoined.groups n _ (AList.lookup_insert _)
    refine hjoined.setGroup ⟨hmember.maxSelected, hmember.selection, fun s info count hs => ?_,
      fun s info hs => ?_⟩
    · rcases lookup_insert_some hs with ⟨rfl, rfl⟩ | ⟨hne, hs⟩
      · exact hmember.extended s _ count (AList.lookup_insert _)
      · exact hmember.extended s info count ((AList.lookup_insert_ne hne).trans hs)
    · rcases lookup_insert_some hs with ⟨rfl, rfl⟩ | ⟨hne, hs⟩
      · exact aboveWaterline_nodup hjoined.names_nodup _ _
      · exact hmember.distinct s info ((AList.lookup_insert_ne hne).trans hs)
  · next hpub =>
    refine hgot.setGroup (hok.insert List.nodup_nil fun count hcount => ?_)
    rw [isPublisher, PropertyRanking.setGroup, hcount] at hpub
    exact absurd rfl hpub

theorem WF.updateSessionForward (hw : r.WF) (n : Nat) (session : SessionId) (forward : Bool) :
    (r.updateSessionForward n session forward).WF := by
  unfold PropertyRanking.updateSessionForward
  cases hl : r.topNGroups.lookup n with
  | none => exact hw
  | some g =>
    dsimp only
    cases hs : g.sessions.lookup session with
    | none => exact hw
    | some info =>
      obtain ⟨hd, he⟩ := (hw.groups n g hl).sessionOk session info hs
      exact hw.setGroup ((hw.groups n g hl).insert hd he)

theorem WF.removeTopNGroup (hw : r.WF) (n : Nat) : (r.removeTopNGroup n).WF := by
  refine updateSelectionThreshold_wf hw.tracks hw.counts fun m g h => ?_
  obtain ⟨-, hl⟩ := lookup_erase_some h
  exact ⟨(hw.groups m g hl).maxSelected, (hw.groups m g hl).sessionOk⟩

theorem WF.removeSessionFromTopNGroup (hw : r.WF) (n : Nat) (session : SessionId) :
    (r.removeSessionFromTopNGroup n session).WF := by
  unfold PropertyRanking.removeSessionFromTopNGroup
  cases hl : r.topNGroups.lookup n with
  | none => exact hw
  | some g =>
    have hok := hw.groups n g hl
    have hleft : (r.setGroup n { g with sessions := g.sessions.erase session }).WF :=
      hw.setGroup ⟨hok.maxSelected, hok.selection,
        fun s info count hs => hok.extended s info count (lookup_erase_some hs).2,
        fun s info hs => hok.distinct s info (lookup_erase_some hs).2⟩
    have hgone : (if (g.sessions.erase session).keys.isEmpty then
        (r.setGroup n { g with sessions := g.sessions.erase session }).removeTopNGroup n
        else r.setGroup n { g with sessions := g.sessions.erase session }).WF := by
      split
      · exact hleft.removeTopNGroup n
      · exact hleft
    dsimp only
    split
    · exact hgone.updatePublisherExtendedThreshold
    · exact hgone

theorem WF.step (hw : r.WF) (op : Op) : (r.step op).1.WF := by
  cases op with
  | registerTrack ftn value publisher => exact hw.registerTrack ftn value publisher
  | updateSortValue ftn value activity => exact hw.updateSortValue ftn value activity
  | removeTrack ftn => exact hw.removeTrack ftn
  | getOrCreateTopNGroup n => exact hw.getOrCreateTopNGroup n
  | addSessionToTopNGroup n session forward => exact hw.addSessionToTopNGroup n session forward
  | updateSessionForward n session forward => exact hw.updateSessionForward n session forward
  | removeSessionFromTopNGroup n session => exact hw.removeSessionFromTopNGroup n session
  | removeTopNGroup n => exact hw.removeTopNGroup n
  | sweepIdle activity => exact hw.sweepIdle activity

end PropertyRanking

end Moqx
