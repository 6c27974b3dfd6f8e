import Moqx.Relay.Turns

/-! A ranking as the relay sees it: which track has which value and owner, and which session is in
which group. -/
namespace Moqx

open Maps Ranks

namespace PropertyRanking

variable {r : PropertyRanking} {ftn x : FullTrackName} {n m : Nat} {session s : SessionId}

/-- The value and the owner of a track among ranked entries. -/
def trackIn (l : List Entry) (x : FullTrackName) : Option (Nat × SessionId) :=
  (l.find? fun e => e.2.ftn = x).map fun e => (e.1.value, e.2.publisherRaw)

/-- The value and the owner of a track, if it is ranked. -/
def track (r : PropertyRanking) (x : FullTrackName) : Option (Nat × SessionId) :=
  trackIn r.rankedTracks.entries x

/-- Whether a session is in the group of `n`. -/
def member (r : PropertyRanking) (n : Nat) (s : SessionId) : Bool :=
  (r.topNGroups.lookup n).any fun g => (g.sessions.lookup s).isSome

theorem trackIn_eq_none {l : List Entry} : trackIn l x = none ↔ ∀ e ∈ l, e.2.ftn ≠ x := by
  simp [trackIn]

theorem trackIn_of_mem {l : List Entry} {e : Entry} (hl : (l.map fun e => e.2.ftn).Nodup)
    (he : e ∈ l) : trackIn l e.2.ftn = some (e.1.value, e.2.publisherRaw) := by
  cases hfind : l.find? fun a => a.2.ftn = e.2.ftn with
  | none =>
    have hne := List.find?_eq_none.mp hfind e he
    simp at hne
  | some a =>
    have hname : a.2.ftn = e.2.ftn := by simpa using List.find?_some hfind
    have heq : a = e := List.inj_on_of_nodup_map hl (List.mem_of_find?_eq_some hfind) he hname
    rw [trackIn, hfind, heq]
    rfl

/-- One more entry is one more track. -/
theorem trackIn_placed {l l' : List Entry} {i : Nat} {e : Entry} (h : Placed l i e l')
    (hl' : (l'.map fun e => e.2.ftn).Nodup) (x : FullTrackName) :
    trackIn l' x = if x = e.2.ftn then some (e.1.value, e.2.publisherRaw) else trackIn l x := by
  have hl : (l.map fun e => e.2.ftn).Nodup := by
    have := (h.perm.map fun e => e.2.ftn).nodup_iff.mp hl'
    exact (List.nodup_cons.mp this).2
  split
  · next heq =>
    subst heq
    exact trackIn_of_mem hl' (h.mem_iff.mpr (.inl rfl))
  · next hne =>
    cases hold : trackIn l x with
    | none =>
      rw [trackIn_eq_none] at hold ⊢
      intro a ha
      rcases h.mem_iff.mp ha with rfl | ha
      · exact fun heq => hne heq.symm
      · exact hold a ha
    | some t =>
      obtain ⟨a, hfind, rfl⟩ := Option.map_eq_some_iff.mp hold
      have hname : a.2.ftn = x := by simpa using List.find?_some hfind
      subst hname
      exact trackIn_of_mem hl' (h.mem_iff.mpr (.inr (List.mem_of_find?_eq_some hfind)))

theorem track_isSome_iff : (r.track x).isSome = (r.trackIndexByName x).isSome := by
  simp [track, trackIn, trackIndexByName]

/-- A track is registered once; its value and owner stay as they were. -/
theorem track_registerTrack (hw : r.WF) (value : Option Nat) (publisher : SessionId) :
    (r.registerTrack ftn value publisher).1.track x =
      if x = ftn then (r.track x).or (some (value.getD 0, publisher)) else r.track x := by
  by_cases hknown : (r.trackIndexByName ftn).isSome = true
  · have heq : (r.registerTrack ftn value publisher).1 = r := by
      rw [registerTrack, if_pos hknown]
    rw [heq]
    split
    · next hx =>
      rw [hx]
      rw [← track_isSome_iff] at hknown
      obtain ⟨t, ht⟩ := Option.isSome_iff_exists.mp hknown
      rw [ht]
      rfl
    · rfl
  · have hnew : r.trackIndexByName ftn = none := by simpa using hknown
    obtain ⟨i, hplaced, -⟩ := insertTrack_placed hw hnew (value.getD 0) publisher
    have hwf := hw.insertTrack hnew (value.getD 0) publisher
    have heq : (r.registerTrack ftn value publisher).1.rankedTracks =
        (r.insertTrack ftn (value.getD 0) publisher).rankedTracks := by
      rw [registerTrack, if_neg hknown]
      rfl
    rw [track, heq, trackIn_placed hplaced hwf.tracks.names]
    split
    · next hx =>
      have hnone : r.track x = none := by
        rw [← Option.isNone_iff_eq_none, ← Option.isSome_eq_false_iff, track_isSome_iff, hx, hnew]
        rfl
      rw [hnone]
      rfl
    · rfl

theorem tracks_sweepIdle (activity : Activity) :
    (r.sweepIdle activity).1.rankedTracks = r.rankedTracks := by
  rcases sweepIdle_cases r activity with heq | ⟨-, heq⟩
  · rw [heq]
  · rw [heq]
    rfl

/-- A ranked track gets the new value. -/
theorem track_updateSortValue (hw : r.WF) (value : Nat) (activity : Activity) :
    (r.updateSortValue ftn value activity).1.track x =
      if x = ftn then (r.track x).map fun t => (value, t.2) else r.track x := by
  unfold updateSortValue
  cases hfind : r.trackIndexByName ftn with
  | none =>
    simp only
    split
    · next hx =>
      have hnone : r.track x = none := by
        rw [← Option.isNone_iff_eq_none, ← Option.isSome_eq_false_iff, track_isSome_iff, hx, hfind]
        rfl
      rw [hnone]
      rfl
    · rfl
  | some e =>
    obtain ⟨hmem, hname⟩ := mem_of_trackIndexByName hfind
    obtain ⟨i, hold⟩ := erase_placed hmem
    obtain ⟨j, hnew⟩ := moveTrack_placed hw hmem value
    have hself : r.track ftn = some (e.1.value, e.2.publisherRaw) := by
      subst hname
      exact trackIn_of_mem hw.tracks.names hmem
    have hmoved : trackIn (r.moveTrack e.1 ⟨value, e.1.arrivalSeq⟩ e.2).rankedTracks.entries x =
        if x = ftn then (r.track x).map fun t => (value, t.2) else r.track x := by
      have hwf := moveTrack_wf hw hmem value
      have hbefore := trackIn_placed hold hw.tracks.names x
      rw [trackIn_placed hnew hwf.tracks.names]
      simp only [hname] at hbefore ⊢
      split
      · next hx =>
        rw [hx, hself]
        rfl
      · next hx =>
        rw [if_neg hx] at hbefore
        exact hbefore.symm
    dsimp only
    split
    · next hsame =>
      split
      · next hx => rw [hx, hself, Option.map_some, hsame]
      · rfl
    · split
      · rw [track, tracks_sweepIdle]
        exact hmoved
      · exact hmoved

theorem track_removeTrack (hw : r.WF) :
    (r.removeTrack ftn).1.track x = if x = ftn then none else r.track x := by
  unfold removeTrack
  cases hfind : r.trackIndexByName ftn with
  | none =>
    simp only
    split
    · next hx =>
      rw [← Option.isNone_iff_eq_none, ← Option.isSome_eq_false_iff, track_isSome_iff, hx, hfind]
      rfl
    · rfl
  | some e =>
    obtain ⟨hmem, hname⟩ := mem_of_trackIndexByName hfind
    obtain ⟨i, hold⟩ := erase_placed hmem
    have hbefore := trackIn_placed hold hw.tracks.names x
    have heq : (r.eraseTrack e.1 e.2).rankedTracks = r.rankedTracks.erase e.1 := by
      unfold eraseTrack decrementTrackCount
      split <;> rfl
    change trackIn (r.eraseTrack e.1 e.2).rankedTracks.entries x = _
    rw [heq]
    split
    · next hx =>
      rw [trackIn_eq_none]
      intro a ha hax
      have hnodup := (hold.perm.map fun e => e.2.ftn).nodup_iff.mp hw.tracks.names
      exact (List.nodup_cons.mp hnodup).1
        (List.mem_map.mpr ⟨a, ha, hax.trans (hx.trans hname.symm)⟩)
    · next hx =>
      rw [hname, if_neg hx] at hbefore
      exact hbefore.symm

theorem track_addSessionToTopNGroup (n : Nat) (session : SessionId) (forward : Bool) :
    (r.addSessionToTopNGroup n session forward).1.track x = r.track x := by
  have htracks : (r.addSessionToTopNGroup n session forward).1.rankedTracks = r.rankedTracks := by
    have hgot := r.getOrCreateTopNGroup_tracks n
    unfold addSessionToTopNGroup
    dsimp only
    split <;> exact hgot
  rw [track, htracks]
  rfl

theorem track_removeSessionFromTopNGroup (n : Nat) (session : SessionId) :
    (r.removeSessionFromTopNGroup n session).track x = r.track x := by
  have htracks : (r.removeSessionFromTopNGroup n session).rankedTracks = r.rankedTracks := by
    unfold removeSessionFromTopNGroup
    split
    · rfl
    · dsimp only
      split <;> split <;> rfl
  rw [track, htracks]
  rfl

theorem track_sweepIdle (activity : Activity) :
    (r.sweepIdle activity).1.track x = r.track x := by
  rw [track, tracks_sweepIdle]
  rfl

/-- A change of all groups that keeps their members. -/
theorem member_onGroups {f : Nat → TopNGroup → GroupChange}
    (hf : ∀ n g, GroupKeeps g (f n g).1) : (r.onGroups f).1.member n s = r.member n s := by
  unfold member
  rw [lookup_onGroups]
  cases r.topNGroups.lookup n with
  | none => rfl
  | some g => exact (hf n g).members s

theorem member_registerTrack (hw : r.WF) (value : Option Nat) (publisher : SessionId) :
    (r.registerTrack ftn value publisher).1.member n s = r.member n s := by
  unfold registerTrack
  split
  · rfl
  · next hnew =>
    have hins := hw.insertTrack (by simpa using hnew) (value.getD 0) publisher
    have hrec := hins.onGroups (f := fun n g => (r.insertTrack ftn (value.getD 0)
      publisher).reconcilePublisherInGroup publisher n g)
      fun n g _ => reconcilePublisherInGroup_keeps hins.names_nodup publisher
    refine (member_onGroups fun n g => registerInGroup_keeps hrec.names_nodup _).trans ?_
    exact member_onGroups fun n g => reconcilePublisherInGroup_keeps hins.names_nodup publisher

theorem member_sweepIdle (hw : r.WF) (activity : Activity) :
    (r.sweepIdle activity).1.member n s = r.member n s := by
  rcases sweepIdle_cases r activity with heq | ⟨-, heq⟩
  · rw [heq]
  · rw [heq]
    exact member_onGroups fun n g => sweepTracks_keeps hw.names_nodup activity _

theorem member_updateSortValue (hw : r.WF) (value : Nat) (activity : Activity) :
    (r.updateSortValue ftn value activity).1.member n s = r.member n s := by
  unfold updateSortValue
  cases hfind : r.trackIndexByName ftn with
  | none => rfl
  | some e =>
    have hmoved := moveTrack_wf hw (mem_of_trackIndexByName hfind).1 value
    dsimp only
    split
    · rfl
    · split
      · refine (member_sweepIdle (hmoved.onGroups fun n g _ =>
          recomputeGroup_keeps hmoved.names_nodup _ _) activity).trans ?_
        exact member_onGroups fun n g => recomputeGroup_keeps hmoved.names_nodup _ _
      · rfl

theorem member_removeTrack (hw : r.WF) : (r.removeTrack ftn).1.member n s = r.member n s := by
  unfold removeTrack
  cases hfind : r.trackIndexByName ftn with
  | none => rfl
  | some e =>
    have herased := hw.eraseTrack (mem_of_trackIndexByName hfind).1
    refine (member_onGroups fun n g => removeInGroup_keeps herased.names_nodup).trans ?_
    unfold eraseTrack decrementTrackCount
    split <;> rfl

/-- A group that is made for a session has no other members. -/
theorem member_groupOf : ((r.groupOf n).sessions.lookup s).isSome = r.member n s := by
  unfold member
  cases hl : r.topNGroups.lookup n with
  | none =>
    rw [(groupOf_of_none hl).1]
    rfl
  | some g =>
    rw [groupOf_eq hl]
    rfl

theorem member_addSessionToTopNGroup (m : Nat) (session : SessionId) (forward : Bool) :
    (r.addSessionToTopNGroup m session forward).1.member n s =
      (r.member n s || decide (n = m ∧ s = session)) := by
  have hinserted : ∀ (r' : PropertyRanking) (info : SessionInfo),
      (∀ n', n' ≠ m → r'.topNGroups.lookup n' = r.topNGroups.lookup n') →
      (r'.setGroup m { r.groupOf m with
        sessions := (r.groupOf m).sessions.insert session info }).member n s =
        (r.member n s || decide (n = m ∧ s = session)) := by
    intro r' info hother
    by_cases hn : n = m
    · subst hn
      by_cases hs : s = session
      · subst hs
        simp [member, lookup_setGroup]
      · have hkept := member_groupOf (r := r) (n := n) (s := s)
        simp [member, lookup_setGroup, AList.lookup_insert_ne hs, hs] at hkept ⊢
        exact hkept
    · unfold member
      rw [lookup_setGroup_ne _ hn, hother n hn]
      simp [hn]
  unfold addSessionToTopNGroup
  have hother : ∀ n', n' ≠ m →
      (r.getOrCreateTopNGroup m).1.topNGroups.lookup n' = r.topNGroups.lookup n' := by
    intro n' hne
    exact lookup_getOrCreateTopNGroup_ne hne
  dsimp only
  split
  · refine hinserted _ _ fun n' hne => ?_
    exact (lookup_setGroup_ne _ hne).trans (hother n' hne)
  · exact hinserted _ _ hother

theorem member_removeSessionFromTopNGroup (m : Nat) (session : SessionId) :
    (r.removeSessionFromTopNGroup m session).member n s =
      (r.member n s && !decide (n = m ∧ s = session)) := by
  unfold removeSessionFromTopNGroup
  cases hl : r.topNGroups.lookup m with
  | none =>
    by_cases hn : n = m
    · subst hn
      simp [member, hl]
    · simp [hn]
  | some g =>
    have hleft : (r.setGroup m { g with sessions := g.sessions.erase session }).member n s =
        (r.member n s && !decide (n = m ∧ s = session)) := by
      by_cases hn : n = m
      · subst hn
        by_cases hs : s = session
        · subst hs
          simp [member, lookup_setGroup, AList.lookup_erase]
        · simp [member, lookup_setGroup, hl, AList.lookup_erase_ne hs, hs]
      · unfold member
        rw [lookup_setGroup_ne _ hn]
        simp [hn]
    -- a group that has lost its last session goes, and has no member left
    have hgone : (if (g.sessions.erase session).keys.isEmpty then
        (r.setGroup m { g with sessions := g.sessions.erase session }).removeTopNGroup m
        else r.setGroup m { g with sessions := g.sessions.erase session }).member n s =
        (r.member n s && !decide (n = m ∧ s = session)) := by
      split
      · next hempty =>
        rw [← hleft]
        have hgroups : ∀ r' : PropertyRanking, r'.updateSelectionThreshold.topNGroups =
          r'.topNGroups := fun _ => rfl
        unfold member removeTopNGroup
        rw [hgroups]
        by_cases hn : n = m
        · subst hn
          have hnone : (g.sessions.erase session).lookup s = none :=
            lookup_none_of_keys (List.isEmpty_iff.mp hempty) s
          simp [lookup_setGroup, AList.lookup_erase, hnone]
        · simp only [AList.lookup_erase_ne hn]
      · exact hleft
    dsimp only
    split
    · exact hgone
    · exact hgone

end PropertyRanking

end Moqx
