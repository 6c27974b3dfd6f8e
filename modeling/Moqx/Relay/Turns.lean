import Moqx.Relay.Ranked

/-! What one call does to one group: the cases of `step`, each with the group and the callbacks it
leaves. -/
namespace Moqx

open Maps Ranks

/-- A group with a session set. -/
def TopNGroup.setSession (g : TopNGroup) (session : SessionId) (info : SessionInfo) : TopNGroup :=
  { g with sessions := g.sessions.insert session info }

namespace PropertyRanking

/-- A session joins the group for `n`. -/
def Op.joins : Op → Nat → SessionId → Bool
  | .addSessionToTopNGroup maxSelected joining _, n, session =>
    maxSelected = n && joining = session
  | _, _, _ => false

variable {r : PropertyRanking} {g : TopNGroup} {n : Nat} {ftn : FullTrackName}

/-- The callbacks one group fired. -/
def firedIn (n : Nat) (fired : List (Nat × Callback)) : List Callback :=
  (fired.filter fun c => c.1 = n).map fun c => c.2

@[simp] theorem firedIn_append (a b : List (Nat × Callback)) :
    firedIn n (a ++ b) = firedIn n a ++ firedIn n b := by
  simp [firedIn]

theorem firedIn_map {α : Type} (f : α → Callback) (l : List α) :
    firedIn n (l.map fun a => (n, f a)) = l.map f := by
  simp [firedIn, List.filter_map, Function.comp_def]

variable {m : Nat} {g' : TopNGroup} {op : Op} {activity : Activity} {session : SessionId}

theorem firedIn_map_ne {α : Type} (h : m ≠ n) (f : α → Callback) (l : List α) :
    firedIn n (l.map fun a => (m, f a)) = [] := by
  simp [firedIn, List.filter_map, Function.comp_def, h]

/-- Each group hears its own change only. -/
theorem firedIn_onGroups {f : Nat → TopNGroup → GroupChange}
    (h : r.topNGroups.lookup n = some g) : firedIn n (r.onGroups f).2 = (f n g).2 := by
  have hflat : firedIn n (r.onGroups f).2 = r.topNGroups.entries.flatMap fun e =>
      firedIn n ((f e.1 e.2).2.map fun callback => (e.1, callback)) := by
    simp only [onGroups, firedIn, List.filter_flatMap, List.map_flatMap]
  rw [hflat, flatMap_entries (a := n) fun e he => firedIn_map_ne he (fun c => c) _, h]
  exact (firedIn_map (fun c => c) _).trans (List.map_id _)

/-- A group when a session asks for it. -/
def groupOf (r : PropertyRanking) (n : Nat) : TopNGroup := (r.getOrCreateTopNGroup n).2

theorem groupOf_eq (h : r.topNGroups.lookup n = some g) : r.groupOf n = g := by
  simp [groupOf, getOrCreateTopNGroup, h]

/-- The sweep that may follow a move. -/
def sweepAfter (r : PropertyRanking) (activity : Activity) (sweeps : Bool) (g : TopNGroup) :
    GroupChange :=
  if sweeps then r.sweepGroup activity g else (g, [])

/-- What a call does to the group for `n`: the ranking after it, and the group with the callbacks
fired for it. -/
inductive Turn (r : PropertyRanking) (n : Nat) (g : TopNGroup) :
    Op → PropertyRanking → GroupChange → Prop
  | quiet {op r'} (tracks : r'.rankedTracks = r.rankedTracks)
      (apart : ∀ session, op.joins n session = false)
      (unknown : ∀ ftn, op = .removeTrack ftn → ftn ∉ r.names) : Turn r n g op r' (g, [])
  | registered {ftn value publisher r' i}
      (placed : Placed r.rankedTracks.entries i (⟨Option.getD value 0, r.nextSeq⟩, ⟨ftn, publisher⟩)
        r'.rankedTracks.entries)
      (fresh : ∀ e ∈ r.rankedTracks.entries, e.2.ftn ≠ ftn) :
      Turn r n g (.registerTrack ftn value publisher) r'
        ((r'.reconcilePublisherInGroup publisher n g).andThen (r'.registerInGroup ftn i n))
  | recomputed {ftn value activity r' l i j e sweeps} (name : e.2.ftn = ftn)
      (placed : Placed l i e r.rankedTracks.entries)
      (placed' : Placed l j (⟨value, e.1.arrivalSeq⟩, e.2) r'.rankedTracks.entries)
      (changed : e.1.value ≠ value)
      (idle : sweeps = true → r.idleTimeout ≠ 0) :
      Turn r n g (.updateSortValue ftn value activity) r'
        ((r'.recomputeGroup ftn i j n g).andThen (r'.sweepAfter activity sweeps))
  | moved {ftn value activity r' l i j e} (name : e.2.ftn = ftn)
      (placed : Placed l i e r.rankedTracks.entries)
      (placed' : Placed l j (⟨value, e.1.arrivalSeq⟩, e.2) r'.rankedTracks.entries)
      (below : n ≤ i ∧ n ≤ j)
      (members : ∀ session info, g.sessions.lookup session = some info →
        ownedIn l session ≠ 0 →
        n + ownedIn l session ≤ i ∧ n + ownedIn l session ≤ j) :
      Turn r n g (.updateSortValue ftn value activity) r' (g, [])
  | removed {ftn r' l i e} (name : e.2.ftn = ftn)
      (placed : Placed l i e r.rankedTracks.entries) (tracks : r'.rankedTracks.entries = l) :
      Turn r n g (.removeTrack ftn) r' (r'.removeInGroup ftn g)
  | swept {activity r'} (tracks : r'.rankedTracks = r.rankedTracks) (idle : r.idleTimeout ≠ 0) :
      Turn r n g (.sweepIdle activity) r' (r'.sweepGroup activity g)
  | joinedAsPublisher {session forward r'} (tracks : r'.rankedTracks = r.rankedTracks)
      (publisher : r'.isPublisher session = true) :
      Turn r n g (.addSessionToTopNGroup n session forward) r'
        (g.setSession session
            (r'.reconcilePublisherSelection { forward := forward } n session).1,
          (r'.reconcilePublisherSelection { forward := forward } n session).2)
  | joinedAsViewer {session forward r'} (tracks : r'.rankedTracks = r.rankedTracks)
      (viewer : r'.isPublisher session = false) :
      Turn r n g (.addSessionToTopNGroup n session forward) r'
        (g.setSession session { forward := forward },
          (r'.names.take n).map fun ftn => .onSelected ftn session forward)
  | forwarded {session forward r' info} (tracks : r'.rankedTracks = r.rankedTracks)
      (member : g.sessions.lookup session = some info) :
      Turn r n g (.updateSessionForward n session forward) r'
        (g.setSession session { info with forward := forward }, [])
  | left {session r'} (tracks : r'.rankedTracks = r.rankedTracks) :
      Turn r n g (.removeSessionFromTopNGroup n session) r'
        ({ g with sessions := g.sessions.erase session }, [])

/-- A group present after a change of all groups was there before. -/
theorem of_onGroups {f : Nat → TopNGroup → GroupChange}
    (h : (r.onGroups f).1.topNGroups.lookup n = some g') : ∃ g, r.topNGroups.lookup n = some g ∧
      g' = (f n g).1 ∧ firedIn n (r.onGroups f).2 = (f n g).2 := by
  rw [lookup_onGroups] at h
  obtain ⟨g, hg, heq⟩ := Option.map_eq_some_iff.mp h
  exact ⟨g, hg, heq.symm, firedIn_onGroups hg⟩

/-- A call that fires nothing and keeps the group. -/
theorem Turn.of_kept {r' : PropertyRanking} {callbacks : List Callback}
    (h : r.topNGroups.lookup n = some g') (hf : callbacks = [])
    (tracks : r'.rankedTracks = r.rankedTracks) (apart : ∀ session, op.joins n session = false)
    (unknown : ∀ ftn, op = .removeTrack ftn → ftn ∉ r.names) :
    Turn r n (r.groupOf n) op r' (g', callbacks) := by
  rw [groupOf_eq h, hf]
  exact .quiet tracks apart unknown

theorem registerTrack_turn (hw : r.WF) {value : Option Nat} {publisher : SessionId}
    (h : (r.registerTrack ftn value publisher).1.topNGroups.lookup n = some g') :
    Turn r n (r.groupOf n) (.registerTrack ftn value publisher)
      (r.registerTrack ftn value publisher).1
      (g', firedIn n (r.registerTrack ftn value publisher).2) := by
  by_cases hknown : (r.trackIndexByName ftn).isSome = true
  · rw [registerTrack, if_pos hknown] at h ⊢
    exact .of_kept h rfl rfl (by simp [Op.joins]) (by simp)
  · have hnew : r.trackIndexByName ftn = none := by simpa using hknown
    rw [registerTrack, if_neg hknown] at h ⊢
    simp only [reconcilePublisherInAllGroups] at h ⊢
    obtain ⟨i, hplaced, hrank⟩ := insertTrack_placed hw hnew (value.getD 0) publisher
    obtain ⟨g₁, hg₁, hg', hfired⟩ := of_onGroups h
    obtain ⟨g, hg, rfl, hfired₁⟩ := of_onGroups hg₁
    rw [firedIn_append, hfired, hg', hfired₁, hrank,
      groupOf_eq (r := r) (by exact hg)]
    exact .registered hplaced (trackIndexByName_eq_none.mp hnew)

/-- A rank move inside no window leaves every group's selections in place. -/
theorem uncrossed (hw : r.WF) {a b : Nat} (hne : r.publisherTrackCount.keys ≠ [])
    (h : r.crossesThreshold a b = false) (hg : r.topNGroups.lookup n = some g) :
    (n ≤ a ∧ n ≤ b) ∧ ∀ session info count, g.sessions.lookup session = some info →
      r.publisherTrackCount.lookup session = some count → n + count ≤ a ∧ n + count ≤ b := by
  have hok := hw.groups n g hg
  have hgroups : r.topNGroups.keys.isEmpty = false := by
    have hmem : n ∈ r.topNGroups.keys :=
      AList.mem_keys.mp (AList.lookup_isSome.mp (by rw [hg]; rfl))
    rw [List.isEmpty_eq_false_iff]
    exact List.ne_nil_of_mem hmem
  have hcounts : (!r.publisherTrackCount.keys.isEmpty) = true := by simpa using hne
  have hmaxN : n ≤ r.maxExtended r.maxN := Nat.le_trans (le_maxN hg) (r.least_le_maxExtended _)
  simp only [crossesThreshold, hgroups, hcounts, Bool.false_eq_true, if_false, if_true] at h
  split at h
  · next hfar =>
    have hsel := hok.selection
    refine ⟨by omega, fun session info count hs hcount => ?_⟩
    have hext := hok.extended session info count hs hcount
    omega
  · split at h
    · cases h
    · split at h
      · cases h
      · have hfar : r.maxExtended r.maxN ≤ min a b ∧ r.maxExtended r.maxN ≤ max a b := by
          simp only [Bool.or_eq_false_iff, decide_eq_false_iff_not, not_lt] at h
          exact h
        refine ⟨by omega, fun session info count hs hcount => ?_⟩
        have hext := le_maxExtended hg hs hcount r.maxN
        omega

theorem publisherTrackCount_ne_nil (hw : r.WF) {e : Entry} (he : e ∈ r.rankedTracks.entries) :
    r.publisherTrackCount.keys ≠ [] := by
  have hpub : r.isPublisher e.2.publisherRaw = true := hw.isPublisher_iff.mpr ⟨e, he, rfl⟩
  exact List.ne_nil_of_mem (AList.mem_keys.mp (AList.lookup_isSome.mp hpub))

/-- A sweep reads the ranking, not the table of groups. -/
theorem sweepTracks_of_groups {groups : AList fun _ : Nat => TopNGroup} {last : Option TimePoint}
    (activity : Activity) (tracks : List FullTrackName) (g : TopNGroup) :
    { r with topNGroups := groups, lastSweepTime := last }.sweepTracks activity tracks g =
      r.sweepTracks activity tracks g := by
  induction tracks generalizing g with
  | nil => rfl
  | cons ftn rest ih =>
    unfold sweepTracks
    rw [ih g]
    congr 1
    simp only [GroupChange.andThen, ih]
    rfl

/-- A sweep runs over all groups or not at all. -/
theorem sweepIdle_cases (r : PropertyRanking) (activity : Activity) :
    r.sweepIdle activity = (r, []) ∨ r.idleTimeout ≠ 0 ∧ r.sweepIdle activity =
      { r with lastSweepTime := some activity.now }.onGroups fun _ g =>
        r.sweepGroup activity g := by
  unfold sweepIdle
  split
  · exact .inl rfl
  · next hidle =>
    split
    · exact .inl rfl
    · refine .inr ⟨hidle, ?_⟩
      have hsame : ∀ g, { r with lastSweepTime := some activity.now }.sweepGroup activity g =
          r.sweepGroup activity g := fun g =>
        sweepTracks_of_groups activity _ g
      simp only [hsame]

theorem sweepIdle_group (h : (r.sweepIdle activity).1.topNGroups.lookup n = some g') :
    ∃ g sweeps groups last, r.topNGroups.lookup n = some g ∧
      (sweeps = true → r.idleTimeout ≠ 0) ∧
      (r.sweepIdle activity).1 = { r with topNGroups := groups, lastSweepTime := last } ∧
      (g', firedIn n (r.sweepIdle activity).2) =
        { r with topNGroups := groups, lastSweepTime := last }.sweepAfter activity sweeps g := by
  rcases r.sweepIdle_cases activity with heq | ⟨hidle, heq⟩
  · rw [heq] at h ⊢
    exact ⟨g', false, r.topNGroups, r.lastSweepTime, h, by simp, rfl, rfl⟩
  · rw [heq] at h ⊢
    obtain ⟨g, hg, rfl, hfired⟩ := of_onGroups h
    refine ⟨g, true, _, _, hg, fun _ => hidle, rfl, ?_⟩
    rw [hfired]
    exact (sweepTracks_of_groups activity _ g).symm

theorem updateSortValue_turn (hw : r.WF) {value : Nat}
    (h : (r.updateSortValue ftn value activity).1.topNGroups.lookup n = some g') :
    Turn r n (r.groupOf n) (.updateSortValue ftn value activity)
      (r.updateSortValue ftn value activity).1
      (g', firedIn n (r.updateSortValue ftn value activity).2) := by
  unfold updateSortValue at h ⊢
  cases hfind : r.trackIndexByName ftn with
  | none =>
    simp only [hfind] at h
    exact .of_kept h rfl rfl (by simp [Op.joins]) (by simp)
  | some e =>
    obtain ⟨oldKey, entry⟩ := e
    obtain ⟨hmem, hname⟩ := mem_of_trackIndexByName hfind
    simp only [hfind] at h ⊢
    split at h
    · next hsame =>
      rw [if_pos hsame]
      exact .of_kept h rfl rfl (by simp [Op.joins]) (by simp)
    · next hsame =>
      rw [if_neg hsame]
      obtain ⟨i, hold⟩ := erase_placed hmem
      obtain ⟨j, hnew⟩ := moveTrack_placed hw hmem value
      have hmoved := moveTrack_wf hw hmem value
      obtain ⟨hrest, hothers, -⟩ := hold.rest_tracksOk hw.tracks
      have hi : r.getCachedRank ftn = i := by
        rw [← hname]
        exact getCachedRank_of_placed hold hothers
      have hj : (r.moveTrack oldKey ⟨value, oldKey.arrivalSeq⟩ entry).getCachedRank ftn = j := by
        rw [← hname]
        exact getCachedRank_of_placed (e := (⟨value, oldKey.arrivalSeq⟩, entry)) hnew hothers
      rw [hi, hj] at h ⊢
      split at h
      · next hcross =>
        rw [if_pos hcross]
        simp only [recomputeTopNGroups] at h ⊢
        obtain ⟨g₁, sweeps, groups, last, hg₁, hidle, heq, hpair⟩ := sweepIdle_group h
        obtain ⟨g, hg, rfl, hfired⟩ := of_onGroups hg₁
        obtain ⟨rfl, hswept⟩ := Prod.mk.inj hpair
        rw [firedIn_append, hfired, hswept, heq, groupOf_eq (r := r) (by exact hg)]
        exact .recomputed hname hold hnew hsame hidle
      · next hcross =>
        rw [if_neg hcross]
        obtain ⟨hbelow, hmembers⟩ := uncrossed hmoved
          (publisherTrackCount_ne_nil hmoved (hnew.mem_iff.mpr (.inl rfl)))
          (by simpa using hcross) h
        rw [groupOf_eq (r := r) (by exact h)]
        refine .moved hname hold hnew hbelow fun session info hs howned => ?_
        have hcount := hmoved.counts session
        rw [hnew.ownedIn] at hcount
        have hsome : ∃ k, countOf (ownedIn (r.rankedTracks.erase oldKey).entries session +
            if entry.publisherRaw = session then 1 else 0) = some k ∧
            ownedIn (r.rankedTracks.erase oldKey).entries session ≤ k := by
          exact ⟨_, if_neg fun hzero => howned (Nat.eq_zero_of_add_eq_zero_right hzero),
            Nat.le_add_right _ _⟩
        obtain ⟨k, hk, hle⟩ := hsome
        have hfar := hmembers session info k hs (hcount.trans hk)
        dsimp only at hle ⊢
        omega

theorem removeTrack_turn (h : (r.removeTrack ftn).1.topNGroups.lookup n = some g') :
    Turn r n (r.groupOf n) (.removeTrack ftn) (r.removeTrack ftn).1
      (g', firedIn n (r.removeTrack ftn).2) := by
  unfold removeTrack at h ⊢
  cases hfind : r.trackIndexByName ftn with
  | none =>
    simp only [hfind] at h
    refine .of_kept h rfl rfl (by simp [Op.joins]) fun ftn' heq hmem => ?_
    obtain rfl : ftn = ftn' := by simpa using heq
    obtain ⟨e, he, hname⟩ := List.mem_map.mp hmem
    exact trackIndexByName_eq_none.mp hfind e he hname
  | some e =>
    obtain ⟨hmem, hname⟩ := mem_of_trackIndexByName hfind
    simp only [hfind] at h ⊢
    obtain ⟨i, hold⟩ := erase_placed hmem
    obtain ⟨g, hg, rfl, hfired⟩ := of_onGroups h
    have hgroups : (r.eraseTrack e.1 e.2).topNGroups = r.topNGroups := by
      simp only [eraseTrack, decrementTrackCount]
      split <;> rfl
    have htracks : (r.eraseTrack e.1 e.2).rankedTracks = r.rankedTracks.erase e.1 := by
      simp only [eraseTrack, decrementTrackCount]
      split <;> rfl
    rw [hfired, groupOf_eq (hgroups ▸ hg)]
    exact .removed hname hold (congrArg RankMap.entries htracks)

theorem sweepIdle_turn (h : (r.sweepIdle activity).1.topNGroups.lookup n = some g') :
    Turn r n (r.groupOf n) (.sweepIdle activity) (r.sweepIdle activity).1
      (g', firedIn n (r.sweepIdle activity).2) := by
  obtain ⟨g, sweeps, groups, last, hg, hidle, heq, hpair⟩ := sweepIdle_group h
  rw [hpair, heq, groupOf_eq hg]
  cases sweeps with
  | false => exact .quiet rfl (by simp [Op.joins]) (by simp)
  | true => exact .swept rfl (hidle rfl)

theorem lookup_setGroup (r : PropertyRanking) (m : Nat) (g : TopNGroup) :
    (r.setGroup m g).topNGroups.lookup m = some g := AList.lookup_insert _

theorem lookup_setGroup_ne (g : TopNGroup) (h : n ≠ m) :
    (r.setGroup m g).topNGroups.lookup n = r.topNGroups.lookup n := AList.lookup_insert_ne h

theorem getOrCreateTopNGroup_tracks (r : PropertyRanking) (m : Nat) :
    (r.getOrCreateTopNGroup m).1.rankedTracks = r.rankedTracks := by
  unfold getOrCreateTopNGroup
  split <;> rfl

theorem lookup_getOrCreateTopNGroup_ne (h : n ≠ m) :
    (r.getOrCreateTopNGroup m).1.topNGroups.lookup n = r.topNGroups.lookup n := by
  unfold getOrCreateTopNGroup
  split
  · rfl
  · rw [lookup_setGroup_ne _ h]
    exact lookup_setGroup_ne _ h

theorem getOrCreateTopNGroup_turn (h : (r.getOrCreateTopNGroup m).1.topNGroups.lookup n = some g') :
    Turn r n (r.groupOf n) (.getOrCreateTopNGroup m) (r.getOrCreateTopNGroup m).1 (g', []) := by
  by_cases hm : n = m
  · subst hm
    rw [lookup_getOrCreateTopNGroup] at h
    obtain rfl := Option.some.inj h
    exact .quiet (r.getOrCreateTopNGroup_tracks n) (by simp [Op.joins]) (by simp)
  · rw [lookup_getOrCreateTopNGroup_ne hm] at h
    exact .of_kept h rfl (r.getOrCreateTopNGroup_tracks m) (by simp [Op.joins])
      (by simp)

theorem addSessionToTopNGroup_turn {forward : Bool}
    (h : (r.addSessionToTopNGroup m session forward).1.topNGroups.lookup n = some g') :
    Turn r n (r.groupOf n) (.addSessionToTopNGroup m session forward)
      (r.addSessionToTopNGroup m session forward).1
      (g', firedIn n (r.addSessionToTopNGroup m session forward).2) := by
  have htracks := r.getOrCreateTopNGroup_tracks m
  have hne : n ≠ m → (r.getOrCreateTopNGroup m).1.topNGroups.lookup n = r.topNGroups.lookup n :=
    lookup_getOrCreateTopNGroup_ne
  unfold addSessionToTopNGroup at h ⊢
  have hgroup : (r.getOrCreateTopNGroup m).2 = r.groupOf m := rfl
  generalize r.getOrCreateTopNGroup m = x at h htracks hne hgroup ⊢
  obtain ⟨r₁, g⟩ := x
  dsimp only at h htracks hne hgroup ⊢
  subst hgroup
  split at h
  · next hpub =>
    rw [if_pos hpub]
    by_cases hm : n = m
    · subst hm
      rw [lookup_setGroup] at h
      obtain rfl := Option.some.inj h
      rw [firedIn_map (fun callback => callback), List.map_id']
      exact .joinedAsPublisher htracks hpub
    · rw [lookup_setGroup_ne _ hm] at h
      have hl : r.topNGroups.lookup n = some g' :=
        (hne hm).symm.trans ((lookup_setGroup_ne _ hm).symm.trans h)
      refine .of_kept hl (firedIn_map_ne (Ne.symm hm) _ _) htracks ?_ (by simp)
      simp [Op.joins, Ne.symm hm]
  · next hview =>
    rw [if_neg hview]
    by_cases hm : n = m
    · subst hm
      rw [lookup_setGroup] at h
      obtain rfl := Option.some.inj h
      rw [firedIn_map]
      exact .joinedAsViewer htracks (by simpa using hview)
    · have hl : r.topNGroups.lookup n = some g' :=
        (hne hm).symm.trans ((lookup_setGroup_ne _ hm).symm.trans h)
      refine .of_kept hl (firedIn_map_ne (Ne.symm hm) _ _) htracks ?_ (by simp)
      simp [Op.joins, Ne.symm hm]

theorem updateSessionForward_turn {forward : Bool}
    (h : (r.updateSessionForward m session forward).topNGroups.lookup n = some g') :
    Turn r n (r.groupOf n) (.updateSessionForward m session forward)
      (r.updateSessionForward m session forward) (g', []) := by
  have hkept : ∀ {r' : PropertyRanking}, r.topNGroups.lookup n = some g' →
      r'.rankedTracks = r.rankedTracks →
      Turn r n (r.groupOf n) (.updateSessionForward m session forward) r' (g', []) :=
    fun hl ht => .of_kept hl rfl ht (by simp [Op.joins]) (by simp)
  unfold updateSessionForward at h ⊢
  cases hl : r.topNGroups.lookup m with
  | none =>
    simp only [hl] at h
    exact hkept h rfl
  | some g =>
    simp only [hl] at h
    cases hs : g.sessions.lookup session with
    | none =>
      simp only [hs] at h ⊢
      exact hkept h rfl
    | some info =>
      simp only [hs] at h ⊢
      by_cases hm : n = m
      · subst hm
        rw [lookup_setGroup] at h
        obtain rfl := Option.some.inj h
        rw [groupOf_eq hl]
        exact .forwarded rfl hs
      · exact hkept ((lookup_setGroup_ne _ hm).symm.trans h) rfl

theorem removeTopNGroup_turn (h : (r.removeTopNGroup m).topNGroups.lookup n = some g') :
    Turn r n (r.groupOf n) (.removeTopNGroup m) (r.removeTopNGroup m) (g', []) :=
  .of_kept (lookup_erase_some h).2 rfl rfl (by simp [Op.joins]) (by simp)

theorem removeSessionFromTopNGroup_turn
    (h : (r.removeSessionFromTopNGroup m session).topNGroups.lookup n = some g') :
    Turn r n (r.groupOf n) (.removeSessionFromTopNGroup m session)
      (r.removeSessionFromTopNGroup m session) (g', []) := by
  unfold removeSessionFromTopNGroup at h ⊢
  cases hl : r.topNGroups.lookup m with
  | none =>
    simp only [hl] at h
    exact .of_kept h rfl rfl (by simp [Op.joins]) (by simp)
  | some g =>
    simp only [hl] at h
    set r₁ := r.setGroup m { g with sessions := g.sessions.erase session } with hr₁
    set r₂ := if (g.sessions.erase session).keys.isEmpty then r₁.removeTopNGroup m else r₁ with hr₂
    have htracks : r₂.rankedTracks = r.rankedTracks := by
      rw [hr₂]
      split <;> rfl
    have hlook : r₂.topNGroups.lookup n = some g' → r₁.topNGroups.lookup n = some g' := by
      rw [hr₂]
      split
      · exact fun h => (lookup_erase_some h).2
      · exact id
    have htracks' : (if r.isPublisher session then r₂.updatePublisherExtendedThreshold
        else r₂).rankedTracks = r.rankedTracks := by
      split <;> exact htracks
    have hafter : r₁.topNGroups.lookup n = some g' := by
      split at h <;> exact hlook h
    by_cases hm : n = m
    · subst hm
      rw [lookup_setGroup] at hafter
      obtain rfl := Option.some.inj hafter
      rw [groupOf_eq hl]
      exact .left htracks'
    · exact .of_kept ((lookup_setGroup_ne _ hm).symm.trans hafter) rfl htracks'
        (by simp [Op.joins]) (by simp)

/-- The cases of a call, for the group that is there after it. -/
theorem step_turn (hw : r.WF) (h : (r.step op).1.topNGroups.lookup n = some g') :
    Turn r n (r.groupOf n) op (r.step op).1 (g', firedIn n (r.step op).2) := by
  cases op with
  | registerTrack ftn value publisher => exact registerTrack_turn hw h
  | updateSortValue ftn value activity => exact updateSortValue_turn hw h
  | removeTrack ftn => exact removeTrack_turn h
  | getOrCreateTopNGroup m => exact getOrCreateTopNGroup_turn h
  | addSessionToTopNGroup m session forward => exact addSessionToTopNGroup_turn h
  | updateSessionForward m session forward => exact updateSessionForward_turn h
  | removeSessionFromTopNGroup m session => exact removeSessionFromTopNGroup_turn h
  | removeTopNGroup m => exact removeTopNGroup_turn h
  | sweepIdle activity => exact sweepIdle_turn h

/-- The members of a group after a call were there before or join with it. -/
theorem Turn.members {r' : PropertyRanking} {change : GroupChange}
    (turn : Turn r n g op r' change) (hw' : r'.WF) (hjoin : op.joins n session = false)
    (hs : g.sessions.lookup session = none) : change.1.sessions.lookup session = none := by
  have hr := hw'.names_nodup
  cases turn with
  | quiet tracks apart unknown => exact hs
  | @registered x value publisher _ i placed fresh =>
    have hk : GroupKeeps g (r'.reconcilePublisherInGroup publisher n g).1 :=
      reconcilePublisherInGroup_keeps hr publisher
    exact (hk.andThen fun _ => registerInGroup_keeps hr i).lookup_none.mpr hs
  | @recomputed x value activity _ l i j e sweeps name placed placed' changed idle =>
    have hk : GroupKeeps g (r'.recomputeGroup x i j n g).1 := recomputeGroup_keeps hr i j
    refine (hk.andThen fun g' => ?_).lookup_none.mpr hs
    cases sweeps with
    | true => exact sweepTracks_keeps hr activity _
    | false => exact .refl g'
  | moved name placed placed' below members => exact hs
  | removed name placed tracks => exact (removeInGroup_keeps hr).lookup_none.mpr hs
  | swept tracks idle => exact (sweepTracks_keeps hr _ _).lookup_none.mpr hs
  | @joinedAsPublisher joining forward _ tracks publisher
  | @joinedAsViewer joining forward _ tracks viewer =>
    have hne : session ≠ joining := by simpa [Op.joins, eq_comm] using hjoin
    rw [TopNGroup.setSession, AList.lookup_insert_ne hne, hs]
  | @forwarded moving forward _ info tracks member =>
    have hne : session ≠ moving := by
      rintro rfl
      rw [hs] at member
      cases member
    rw [TopNGroup.setSession, AList.lookup_insert_ne hne, hs]
  | @left leaving _ tracks =>
    by_cases hne : session = leaving
    · subst hne
      exact AList.lookup_erase _ _
    · exact (AList.lookup_erase_ne hne).trans hs

/-- A group nobody has asked for. -/
theorem groupOf_of_none (h : r.topNGroups.lookup n = none) : (r.groupOf n).sessions = ∅ ∧
    (r.groupOf n).deselectedQueue = [] ∧ (r.groupOf n).trackStates =
      (r.names.take n).foldl (fun states ftn => states.insert ftn .selected) ∅ := by
  rw [groupOf, getOrCreateTopNGroup, h]
  exact ⟨rfl, rfl, rfl⟩

/-- Only groups that are there fire callbacks. -/
theorem lookup_of_fired {c : Nat × Callback} (h : c ∈ (r.step op).2) :
    ∃ g, (r.step op).1.topNGroups.lookup c.1 = some g := by
  have hgroups : ∀ (r : PropertyRanking) f, c ∈ (r.onGroups f).2 →
      ∃ g, (r.onGroups f).1.topNGroups.lookup c.1 = some g := by
    intro r f hc
    obtain ⟨e, he, hmem⟩ := List.mem_flatMap.mp hc
    obtain ⟨callback, -, rfl⟩ := List.mem_map.mp hmem
    rw [lookup_onGroups, AList.mem_lookup_iff.mpr he]
    exact ⟨_, rfl⟩
  have hkeep : ∀ (r : PropertyRanking) f, (∃ g, r.topNGroups.lookup c.1 = some g) →
      ∃ g, (r.onGroups f).1.topNGroups.lookup c.1 = some g := by
    rintro r f ⟨g, hg⟩
    rw [lookup_onGroups, hg]
    exact ⟨_, rfl⟩
  have hsweep : ∀ (r : PropertyRanking) activity, c ∈ (r.sweepIdle activity).2 ∨
      (∃ g, r.topNGroups.lookup c.1 = some g) →
      ∃ g, (r.sweepIdle activity).1.topNGroups.lookup c.1 = some g := by
    intro r activity hc
    rcases r.sweepIdle_cases activity with heq | ⟨-, heq⟩ <;> rw [heq] at hc ⊢
    · exact hc.resolve_left List.not_mem_nil
    · rcases hc with hc | hc
      · exact hgroups _ _ hc
      · exact hkeep _ _ hc
  cases op with
  | registerTrack ftn value publisher =>
    simp only [step, registerTrack] at h ⊢
    split at h
    · cases h
    · next hnew =>
      rw [if_neg hnew]
      rcases List.mem_append.mp h with h | h
      · exact hkeep _ _ (hgroups _ _ h)
      · exact hgroups _ _ h
  | updateSortValue ftn value activity =>
    simp only [step, updateSortValue] at h ⊢
    split at h
    · cases h
    · split at h
      · cases h
      · split at h
        · next hsame hcross =>
          rw [if_neg hsame, if_pos hcross]
          rcases List.mem_append.mp h with h | h
          · exact hsweep _ activity (.inr (hgroups _ _ h))
          · exact hsweep _ activity (.inl h)
        · cases h
  | removeTrack ftn =>
    simp only [step, removeTrack] at h ⊢
    split at h
    · cases h
    · exact hgroups _ _ h
  | getOrCreateTopNGroup m => cases h
  | addSessionToTopNGroup m session forward =>
    simp only [step, addSessionToTopNGroup] at h ⊢
    split at h
    · next hpub =>
      obtain ⟨callback, -, rfl⟩ := List.mem_map.mp h
      rw [if_pos hpub]
      exact ⟨_, lookup_setGroup _ m _⟩
    · next hview =>
      obtain ⟨callback, -, rfl⟩ := List.mem_map.mp h
      rw [if_neg hview]
      exact ⟨_, lookup_setGroup _ m _⟩
  | updateSessionForward m session forward => cases h
  | removeSessionFromTopNGroup m session => cases h
  | removeTopNGroup m => cases h
  | sweepIdle activity => exact hsweep r activity (.inl h)

end PropertyRanking

end Moqx
