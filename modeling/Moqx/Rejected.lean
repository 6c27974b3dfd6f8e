import Moqx.Holders
import Moqx.Marked
import Moqx.Moxygen.Ranked

/-! Writes on the subscribe path that are answered with an error, and what they leave behind in
the track. -/
namespace Moqx

open Moxygen Maps CacheTrack Cache

section
variable [Moxygen] {c c' : Cache} {a : Act}

/-- A track's list of evictable groups loses nodes or gets a new one at its front. -/
theorem Prim.groupLRU_cases (h : Prim c a c') (tref : TrackRef) :
    (c'.tracks tref).groupLRU.Sublist (c.tracks tref).groupLRU ∨
      ((∃ g, (c'.tracks tref).groupLRU = (c.nextNode, g) :: (c.tracks tref).groupLRU) ∧
        c'.nextNode = c.nextNode + 1) := by
  have hsame : (c'.tracks tref).groupLRU = (c.tracks tref).groupLRU →
      (c'.tracks tref).groupLRU.Sublist (c.tracks tref).groupLRU := fun h => by rw [h]
  cases hs : a.isStructural with
  | true =>
    left
    cases h with
    | emplaceTrack ftn hl =>
      rw [emplaceTrack_tracks_eq]
      split
      · exact List.nil_sublist _
      · exact List.Sublist.refl _
    | eraseTrack => exact List.Sublist.refl _
    | markEvicted ftn tr => exact hsame (c.markEvicted_groupLRU tr tref)
    | emplaceGroup tr groupID => exact hsame (c.setTrack_emplaceGroup_groupLRU tr tref groupID)
    | evictGroup tr groupID ref =>
      rw [dropGroup_tracks_eq]
      split
      · exact List.filter_sublist
      · exact List.Sublist.refl _
    | _ => simp [Act.isStructural] at hs
  | false =>
    cases hl : a.isListing with
    | false => exact .inl (hsame ((h.sameLists hs hl).groupLRU tref))
    | true =>
      cases h with
      | addGroup ftn groupID tr ref h =>
        obtain ⟨-, hnode, hlists, -⟩ := addGroup_views ftn groupID h
        rw [hlists]
        by_cases htr : tref = tr
        · subst htr
          rw [if_pos rfl]
          exact .inr ⟨⟨groupID, rfl⟩, hnode⟩
        · rw [if_neg htr]
          exact .inl (List.Sublist.refl _)
      | removeGroup tr groupID ref h =>
        left
        unfold Cache.takeGroupFromLRU
        dsimp only
        split
        · by_cases htr : tref = tr
          · subst htr
            simp [Cache.setTrack, eraseNode]
          · simp [Cache.setTrack, htr]
        · exact List.Sublist.refl _
      | popGroup => exact .inl (List.Sublist.refl _)
      | _ => simp [Act.isListing] at hl

namespace Cache

/-- The nodes of a track's list of evictable groups are all different. -/
def ListsFresh (c : Cache) : Prop :=
  ∀ tref, ((c.tracks tref).groupLRU.map Prod.fst).Nodup ∧
    ∀ e ∈ (c.tracks tref).groupLRU, e.1 < c.nextNode

theorem ListsFresh.of_prim (hc : c.ListsFresh) (h : Prim c a c') : c'.ListsFresh := by
  intro tref
  obtain ⟨hnodup, hlt⟩ := hc tref
  rcases h.groupLRU_cases tref with hsub | ⟨⟨g, heq⟩, hnext⟩
  · refine ⟨hnodup.sublist (hsub.map _), fun e he => ?_⟩
    exact Nat.lt_of_lt_of_le (hlt e (hsub.subset he)) h.nextNode_le
  · rw [heq, hnext]
    refine ⟨?_, fun e he => ?_⟩
    · rw [List.map_cons, List.nodup_cons]
      refine ⟨fun hmem => ?_, hnodup⟩
      obtain ⟨e, he, heq⟩ := List.mem_map.mp hmem
      have hlt' := hlt e he
      rw [heq] at hlt'
      exact Nat.lt_irrefl _ hlt'
    · rcases List.mem_cons.mp he with rfl | he
      · exact Nat.lt_succ_self _
      · exact Nat.lt_succ_of_lt (hlt e he)

end Cache

theorem World.Reaches.listsFresh {Q : World → Op → Prop} {w : World} (h : Reaches Q w) :
    w.cache.ListsFresh := by
  refine h.keeps (I := fun w => w.cache.ListsFresh) ?_ fun w op w' hw _ hstep hc =>
    (hw.steps hstep).keeps (fun _ _ _ _ hprim hd => hd.of_prim hprim) hc
  intro tracks groups bytes minBytes default_ allowed tref
  simp [ofCache, Cache.create]

namespace CacheTrack

variable {t t' t'' : CacheTrack}

/-- The track `t'` is `t` without the groups of the ids `ids`. -/
structure Emptied (t t' : CacheTrack) (ids : List Nat) : Prop where
  gaps : t'.gaps = t.gaps
  heap : t'.heap = t.heap
  nextGroupRef : t'.nextGroupRef = t.nextGroupRef
  groups : ∀ g, t'.groups.lookup g = if g ∈ ids then none else t.groups.lookup g
  cachedContent : ∀ l : AbsoluteLocation, l.Valid →
    (contains t'.cachedContent l = true ↔ contains t.cachedContent l = true ∧ l.group ∉ ids)
  largest : t'.largestGroupAndObject = t.largestGroupAndObject
  endOfTrack : t'.endOfTrack = t.endOfTrack

theorem Emptied.refl (t : CacheTrack) : Emptied t t [] :=
  ⟨rfl, rfl, rfl, by simp, by simp, rfl, rfl⟩

variable {ids : List Nat}

theorem Emptied.trans {ids' : List Nat} (h : Emptied t t' ids) (h' : Emptied t' t'' ids') :
    Emptied t t'' (ids ++ ids') := by
  refine ⟨h'.gaps.trans h.gaps, h'.heap.trans h.heap, h'.nextGroupRef.trans h.nextGroupRef,
    fun g => ?_, fun l hl => ?_, h'.largest.trans h.largest, h'.endOfTrack.trans h.endOfTrack⟩
  · rw [h'.groups, h.groups]
    by_cases h1 : g ∈ ids <;> by_cases h2 : g ∈ ids' <;> simp [h1, h2]
  · rw [h'.cachedContent l hl, h.cachedContent l hl, List.mem_append, not_or, and_assoc]

theorem eraseGroup_emptied (t : CacheTrack) (groupID : Nat) (group : CacheGroup) :
    Emptied t (t.eraseGroup groupID group) [groupID] := by
  refine ⟨rfl, rfl, rfl, fun g => ?_, fun l hl => ?_, rfl, rfl⟩
  · by_cases hg : g = groupID
    · subst hg
      simp
    · simp [hg, AList.lookup_erase_ne hg]
  · have hle : (⟨groupID, 0⟩ : AbsoluteLocation) ≤ ⟨groupID, kLocationMax.object⟩ := by
      rw [AbsoluteLocation.le_def]
      dsimp only
      omega
    have hrem := contains_remove t.cachedContent _ _ l hle hl
    unfold AbsoluteLocation.Valid at hl
    refine hrem.trans (and_congr_right fun _ => not_congr ?_)
    simp only [AbsoluteLocation.le_def, List.mem_singleton]
    omega

/-- An id whose group holds nothing. -/
structure Blank (t : CacheTrack) (groupID : Nat) : Prop where
  objects : ∀ o, t.slot? ⟨groupID, o⟩ = none
  endOfGroup : t.groupEnded groupID = false
  priorGroupGap : t.priorGroupGap groupID = none
  cachedContent : ∀ l : AbsoluteLocation, l.Valid → l.group = groupID →
    contains t.cachedContent l = false

theorem Emptied.group? (h : Emptied t t' ids) (g : Nat) :
    t'.group? g = if g ∈ ids then none else t.group? g := by
  unfold CacheTrack.group?
  rw [h.groups, h.heap]
  split <;> rfl

/-- Taking groups out leaves no trace when they are blank. -/
theorem Emptied.unchanged_iff (h : Emptied t t' ids) : Unchanged t t' ↔ ∀ g ∈ ids, t.Blank g := by
  have hgroup := h.group?
  constructor
  · intro hu g hg
    refine ⟨fun o => ?_, ?_, ?_, fun l hl hlg => ?_⟩
    · rw [← hu.objects, slot?, hgroup, if_pos hg]
      rfl
    · rw [← hu.endOfGroup, groupEnded, hgroup, if_pos hg]
      rfl
    · rw [← hu.priorGroupGap, priorGroupGap, hgroup, if_pos hg]
      rfl
    · rw [← hu.cachedContent l hl, Bool.eq_false_iff]
      intro hc
      exact ((h.cachedContent l hl).mp hc).2 (hlg ▸ hg)
  · intro hblank
    refine ⟨fun l _ => by rw [h.gaps], fun l hl => ?_, fun l => ?_, fun g => ?_, fun g => ?_,
      h.largest, h.endOfTrack⟩
    · rw [Bool.eq_iff_iff, h.cachedContent l hl]
      refine and_iff_left_of_imp fun hc hmem => ?_
      rw [(hblank _ hmem).cachedContent l hl rfl] at hc
      cases hc
    · rw [slot?, hgroup]
      split
      · next hmem => exact ((hblank _ hmem).objects l.object).symm
      · rfl
    · rw [groupEnded, hgroup]
      split
      · next hmem => exact (hblank _ hmem).endOfGroup.symm
      · rfl
    · rw [priorGroupGap, hgroup]
      split
      · next hmem => exact (hblank _ hmem).priorGroupGap.symm
      · rfl

end CacheTrack

namespace Cache

/-- The least recently used evictable groups of a track beyond the limit on groups. -/
def groupVictims (c : Cache) (tref : TrackRef) : List Nat :=
  if c.maxCachedGroupsPerTrack = 0 then []
  else ((c.tracks tref).groupLRU.reverse.take
    ((c.tracks tref).groups.keys.length - c.maxCachedGroupsPerTrack)).map Prod.snd

variable {tref : TrackRef}

/-- A round that does not find its group is repeated for ever. -/
theorem evictOldestGroupsLoop_stuck {oldest : NodeId × Nat} (fuel : Nat)
    (hover : c.maxCachedGroupsPerTrack < (c.tracks tref).groups.keys.length)
    (hlast : (c.tracks tref).groupLRU.getLast? = some oldest)
    (hnone : (c.tracks tref).groups.lookup oldest.2 = none) :
    evictOldestGroupsLoop tref fuel c = .error .diverges := by
  induction fuel with
  | zero => rfl
  | succ fuel ih =>
    have hevict : c.evictGroup tref oldest.2 = .ok c := by simp [evictGroup, hnone]
    simp only [evictOldestGroupsLoop, if_pos hover, hlast, hevict]
    exact ih

omit [Moxygen] in
theorem eraseNode_last {α : Type} {l : List (NodeId × α)} {n : NodeId} {x : α}
    (h : ((l ++ [(n, x)]).map Prod.fst).Nodup) : eraseNode (l ++ [(n, x)]) (some n) = l := by
  rw [List.map_append, List.map_singleton, List.nodup_append] at h
  rw [eraseNode, List.filter_append]
  have hlast : [(n, x)].filter (fun e => decide (some e.1 ≠ some n)) = [] := by simp
  rw [hlast, List.append_nil, List.filter_eq_self]
  intro e he
  have hne := h.2.2 e.1 (List.mem_map_of_mem he) n (List.mem_singleton_self n)
  simpa using hne

omit [Moxygen] in
theorem eraseNode_keepsLast {α : Type} {l : List (NodeId × α)} {n : NodeId} {x : α}
    {iter : Option NodeId} (h : iter ≠ some n) :
    (eraseNode (l ++ [(n, x)]) iter).getLast? = some (n, x) := by
  have hkeep : [(n, x)].filter (fun e => decide (some e.1 ≠ iter)) = [(n, x)] := by
    simp [Ne.symm h]
  rw [eraseNode, List.filter_append, hkeep, List.getLast?_concat]

/-- Group-count eviction takes out the least recently used evictable groups. -/
theorem evictOldestGroupsLoop_emptied (fuel : Nat) (c : Cache)
    (hnodup : ((c.tracks tref).groupLRU.map Prod.fst).Nodup)
    (h : evictOldestGroupsLoop tref fuel c = .ok c') :
    (c.tracks tref).Emptied (c'.tracks tref)
      (((c.tracks tref).groupLRU.reverse.take
        ((c.tracks tref).groups.keys.length - c.maxCachedGroupsPerTrack)).map Prod.snd) := by
  induction fuel generalizing c with
  | zero => cases h
  | succ fuel ih =>
    unfold evictOldestGroupsLoop at h
    split at h
    swap
    · next hover =>
      cases h
      rw [Nat.sub_eq_zero_of_le (Nat.le_of_not_lt hover)]
      exact .refl _
    next hover =>
    cases hlast : (c.tracks tref).groupLRU.getLast? with
    | none =>
      simp only [hlast] at h
      cases h
      rw [List.getLast?_eq_none_iff] at hlast
      rw [hlast, List.reverse_nil, List.take_nil]
      exact .refl _
    | some oldest =>
      obtain ⟨n, g⟩ := oldest
      obtain ⟨l, hl⟩ := List.getLast?_eq_some_iff.mp hlast
      simp only [hlast] at h
      obtain ⟨d, hd, h⟩ := bind_eq_ok.mp h
      rcases c.evictGroup_cases tref g with ⟨hnone, -⟩ | ⟨ref, href, -, heq⟩ | ⟨ref, e, -, -, heq⟩
      · -- The oldest entry names no group: the loop would not have come back.
        have hstuck := evictOldestGroupsLoop_stuck (fuel + 1) hover hlast hnone
        simp only [evictOldestGroupsLoop, if_pos hover, hlast, hd] at hstuck
        change evictOldestGroupsLoop tref fuel d = .error .diverges at hstuck
        rw [h] at hstuck
        cases hstuck
      · rw [heq] at hd
        cases hd
        have hkey : g ∈ (c.tracks tref).groups.keys :=
          AList.mem_keys.mp (AList.lookup_isSome.mp (by rw [href]; rfl))
        have hlen : ((c.dropGroup tref g ref).tracks tref).groups.keys.length + 1 =
            (c.tracks tref).groups.keys.length := by
          rw [dropGroup_tracks, eraseGroup_groups, AList.keys_erase,
            List.length_erase_of_mem hkey]
          omega
        have hfirst : (c.tracks tref).Emptied ((c.dropGroup tref g ref).tracks tref) [g] := by
          rw [dropGroup_tracks]
          exact eraseGroup_emptied _ _ _
        have hlimit : (c.dropGroup tref g ref).maxCachedGroupsPerTrack =
            c.maxCachedGroupsPerTrack := rfl
        obtain ⟨k, hk⟩ : ∃ k, (c.tracks tref).groups.keys.length - c.maxCachedGroupsPerTrack =
            k + 1 := ⟨_, (Nat.succ_pred_eq_of_pos (Nat.sub_pos_of_lt hover)).symm⟩
        rw [hl, List.reverse_append, List.reverse_singleton, hk]
        by_cases hm : ((c.tracks tref).heap ref).lruIter = some n
        · have hlist : ((c.dropGroup tref g ref).tracks tref).groupLRU = l := by
            rw [dropGroup_tracks, eraseGroup_groupLRU, hm, hl]
            rw [hl] at hnodup
            exact eraseNode_last hnodup
          have hrest := ih (c.dropGroup tref g ref)
            (by
              rw [hlist]
              rw [hl] at hnodup
              exact hnodup.sublist ((List.sublist_append_left l _).map _)) h
          have hk' : ((c.dropGroup tref g ref).tracks tref).groups.keys.length -
              (c.dropGroup tref g ref).maxCachedGroupsPerTrack = k := by
            omega
          rw [hlist, hk'] at hrest
          exact hfirst.trans hrest
        · -- The group had another node: the list still names it, so this was the last round.
          have hlast' : ((c.dropGroup tref g ref).tracks tref).groupLRU.getLast? = some (n, g) := by
            rw [dropGroup_tracks, eraseGroup_groupLRU, hl]
            exact eraseNode_keepsLast hm
          have hnone : ((c.dropGroup tref g ref).tracks tref).groups.lookup g = none := by
            rw [dropGroup_tracks, eraseGroup_groups, AList.lookup_erase]
          have hdone : ¬ c.maxCachedGroupsPerTrack <
              ((c.dropGroup tref g ref).tracks tref).groups.keys.length := by
            intro hover'
            have hstuck := evictOldestGroupsLoop_stuck fuel hover' hlast' hnone
            rw [h] at hstuck
            cases hstuck
          have hzero : k = 0 := by omega
          have hsame : c' = c.dropGroup tref g ref := by
            cases fuel with
            | zero => cases h
            | succ fuel =>
              unfold evictOldestGroupsLoop at h
              rw [hlimit, if_neg hdone] at h
              cases h
              rfl
          rw [hzero, hsame]
          exact hfirst
      · rw [heq] at hd
        cases hd

theorem evictOldestGroupsIfNeeded_emptied (hc : c.ListsFresh)
    (h : c.evictOldestGroupsIfNeeded tref = .ok c') :
    (c.tracks tref).Emptied (c'.tracks tref) (c.groupVictims tref) := by
  unfold evictOldestGroupsIfNeeded at h
  unfold groupVictims
  split at h
  · next hzero =>
    cases h
    rw [if_pos hzero]
    exact .refl _
  · next hzero =>
    rw [if_neg hzero]
    exact evictOldestGroupsLoop_emptied _ c (hc tref).1 h

/-- Listing a group changes its iterators only. -/
theorem addGroupToLRU_marked (c : Cache) (ftn : FullTrackName) (groupID : Nat) (tref : TrackRef)
    (ref : GroupRef) :
    (c.tracks tref).Marked ((c.addGroupToLRU ftn groupID tref ref).tracks tref) ∅ ∅ ∧
      (((c.addGroupToLRU ftn groupID tref ref).tracks tref).heap ref).objects =
        ((c.tracks tref).heap ref).objects ∧
      ((c.addGroupToLRU ftn groupID tref ref).tracks tref).groups = (c.tracks tref).groups ∧
      ((c.addGroupToLRU ftn groupID tref ref).tracks tref).nextGroupRef =
        (c.tracks tref).nextGroupRef ∧
      ((c.addGroupToLRU ftn groupID tref ref).tracks tref).gaps = (c.tracks tref).gaps := by
  unfold addGroupToLRU
  dsimp only
  split
  · exact ⟨.refl _, rfl, rfl, rfl, rfl⟩
  · refine ⟨.of_heap ?_ ?_ ?_ ?_ ?_ fun r => ?_, ?_, ?_, ?_, ?_⟩
    case refine_6 =>
      by_cases hr : r = ref
      · subst hr
        simp [setTrack]
      · simp [setTrack, CacheTrack.setGroup, hr]
    all_goals simp [setTrack, CacheTrack.setGroup]

/-- The track right after a group was created for an id. -/
theorem getOrCreateGroupWithEviction_new {groupID : Nat} {ftn : FullTrackName} {ref : GroupRef}
    (hw : c.WF) (hc : c.ListsFresh) (hnone : (c.tracks tref).groups.lookup groupID = none)
    (h : c.getOrCreateGroupWithEviction tref groupID ftn = .ok (ref, c')) :
    ∃ t, (c.tracks tref).Emptied t (c.groupVictims tref) ∧ t.groups.lookup groupID = none ∧
      t.Marked (c'.tracks tref) ∅ ∅ ∧ ((c'.tracks tref).heap ref).objects = ∅ ∧
      (c'.tracks tref).RefsBounded ∧ ref < (c'.tracks tref).nextGroupRef ∧
      (c'.tracks tref).gaps = (c.tracks tref).gaps := by
  simp only [getOrCreateGroupWithEviction, hnone] at h
  obtain ⟨d, hd, h⟩ := bind_eq_ok.mp h
  cases h
  have hemptied := evictOldestGroupsIfNeeded_emptied hc hd
  have hbound : (d.tracks tref).RefsBounded := by
    intro g ref hg
    rw [hemptied.groups] at hg
    rw [hemptied.nextGroupRef]
    split at hg
    · cases hg
    · exact hw.bounded tref g ref hg
  have hnone' : (d.tracks tref).groups.lookup groupID = none := by
    rw [hemptied.groups, hnone]
    split <;> rfl
  have hmarked : (d.tracks tref).Marked ((d.tracks tref).emplaceGroup groupID) ∅ ∅ := by
    have hm := getOrCreateGroup_marked hbound groupID
    simpa [CacheTrack.getOrCreateGroup, hnone'] using hm
  have hbound' : ((d.tracks tref).emplaceGroup groupID).RefsBounded := by
    have hb := getOrCreateGroup_bounded hbound groupID
    simpa [CacheTrack.getOrCreateGroup, hnone'] using hb
  obtain ⟨h1, h2, h3, h4, h5⟩ := addGroupToLRU_marked
    (d.setTrack tref ((d.tracks tref).emplaceGroup groupID)) ftn groupID tref
    (d.tracks tref).nextGroupRef
  rw [setTrack_tracks] at h1 h2 h3 h4 h5
  refine ⟨d.tracks tref, hemptied, hnone', (hmarked.trans h1).congr (by simp) (by simp), ?_, ?_, ?_,
    h5.trans hemptied.gaps⟩
  · rw [h2]
    simp [CacheTrack.emplaceGroup]
  · intro g ref hg
    rw [h3] at hg
    rw [h4]
    exact hbound' g ref hg
  · rw [h4]
    simp [CacheTrack.emplaceGroup]

end Cache

namespace CacheTrack

variable {t t' : CacheTrack}

/-- The largest location refuses a location: the track has ended before it, or the track ends at
it although there is more. -/
def LargestRefused (t : CacheTrack) (l : AbsoluteLocation) (eot : Bool) : Prop :=
  (t.endOfTrack = true ∧ ∀ largest ∈ t.largestGroupAndObject, largest < l) ∨
    (eot = true ∧ ∃ largest ∈ t.largestGroupAndObject, l < largest)

variable {l : AbsoluteLocation}

theorem updateLargest_refused {eot : Bool} (h : t.LargestRefused l eot) :
    ∃ e, t.updateLargest l eot = (.error e, t) := by
  unfold updateLargest
  rcases h with ⟨hend, hall⟩ | ⟨heot, largest, hl, hlt⟩
  · rw [if_pos, if_pos hend]
    · exact ⟨_, rfl⟩
    · simpa [Option.all_eq_true] using hall
  · rw [Option.mem_def] at hl
    have hnot : ¬ largest < l := not_lt.mpr hlt.le
    have hne : largest ≠ l := ne_of_gt hlt
    simp only [hl, Option.all_some, hnot, decide_false, Bool.false_eq_true, if_false, heot, hne,
      ne_eq, Option.some.injEq, not_false_eq_true, decide_true, Bool.and_self, if_true]
    exact ⟨_, rfl⟩

theorem updateLargest_passed {eot : Bool} (h : ¬ t.LargestRefused l eot) :
    ((∃ largest ∈ t.largestGroupAndObject, l ≤ largest) ∧ t.updateLargest l eot = (.ok (), t)) ∨
      (∀ largest ∈ t.largestGroupAndObject, largest < l) ∧ t.updateLargest l eot =
        (.ok (), t.setInfo eot (some l) t.maxCacheDuration t.extensions t.lastWrite) := by
  unfold updateLargest
  by_cases hall : ∀ largest ∈ t.largestGroupAndObject, largest < l
  · right
    have hend : t.endOfTrack = false := by
      rw [Bool.eq_false_iff]
      exact fun hend => h (.inl ⟨hend, hall⟩)
    refine ⟨hall, ?_⟩
    rw [if_pos, if_neg (by simp [hend])]
    simpa [Option.all_eq_true] using hall
  · left
    push Not at hall
    obtain ⟨largest, hl, hle⟩ := hall
    refine ⟨⟨largest, hl, hle⟩, ?_⟩
    rw [Option.mem_def] at hl
    have hnot : ¬ largest < l := not_lt.mpr hle
    by_cases heot : eot = true
    · have heq : largest = l := by
        rcases eq_or_lt_of_le hle with heq | hlt
        · exact heq.symm
        · exact absurd (.inr ⟨heot, largest, hl, hlt⟩) h
      simp [hl, heq]
    · simp [hl, hnot, heot]

/-- Two states of a track that reaches as far. -/
structure SameEnd (t t' : CacheTrack) : Prop where
  largest : t'.largestGroupAndObject = t.largestGroupAndObject
  endOfTrack : t'.endOfTrack = t.endOfTrack

theorem SameEnd.trans {t'' : CacheTrack} (h : SameEnd t t') (h' : SameEnd t' t'') :
    SameEnd t t'' := ⟨h'.largest.trans h.largest, h'.endOfTrack.trans h.endOfTrack⟩

theorem processGapExtensions_sameEnd (t : CacheTrack) (groupID objectID : Nat) (ext : Extensions) :
    SameEnd t (t.processGapExtensions groupID objectID ext).2 := by
  have hget : ∀ t : CacheTrack, SameEnd t (t.getOrCreateGroup groupID).2 := by
    intro t
    unfold getOrCreateGroup
    split <;> exact ⟨rfl, rfl⟩
  have hobject : ∀ t : CacheTrack,
      SameEnd t (t.processPriorObjectExtension groupID objectID ext).2 := by
    intro t
    have hgo := hget t
    unfold processPriorObjectExtension processPriorObjectGap
    generalize t.getOrCreateGroup groupID = r at hgo
    dsimp only at hgo ⊢
    split
    · split_ifs <;> first | exact ⟨rfl, rfl⟩ | exact ⟨hgo.1, hgo.2⟩
    · exact ⟨rfl, rfl⟩
  have hgroup : ∀ gap, SameEnd t (t.processPriorGroupGap groupID gap).2 := by
    intro gap
    have hgo := hget t
    unfold processPriorGroupGap
    generalize t.getOrCreateGroup groupID = r at hgo
    dsimp only at hgo ⊢
    split
    · exact ⟨rfl, rfl⟩
    · split
      · split <;> exact hgo
      · split_ifs <;> exact ⟨hgo.1, hgo.2⟩
  unfold processGapExtensions
  cases getIntExtension ext kPriorGroupIdGapExtensionType with
  | none => exact hobject t
  | some gap =>
    have hg := hgroup gap
    dsimp only
    generalize t.processPriorGroupGap groupID gap = r at hg
    obtain ⟨res, t₁⟩ := r
    cases res with
    | error e => exact hg
    | ok _ => exact hg.trans (hobject t₁)

/-- Writing an object leaves the largest location alone. -/
theorem cacheObject_sameEnd {ref : GroupRef} {w : ObjectWrite} {res : Expected Unit}
    (h : t.cacheObject ref l.group l.object w = .ok (res, t')) : SameEnd t t' := by
  have hext := t.processGapExtensions_sameEnd l.group l.object w.extensions
  unfold cacheObject at h
  split at h
  · cases h
    exact ⟨rfl, rfl⟩
  · generalize t.processGapExtensions l.group l.object w.extensions = r at h hext
    obtain ⟨gapRes, t₁⟩ := r
    cases gapRes with
    | error e' =>
      cases h
      exact hext
    | ok _ =>
      obtain ⟨put, -, h⟩ := bind_eq_ok.mp h
      have hmark := t₁.markEnd_marked ref l w.status
      have hend : SameEnd t (t₁.markEnd ref l.group l.object w.status) :=
        hext.trans ⟨hmark.largest, hmark.endOfTrack⟩
      cases put with
      | ok g =>
        cases h
        exact ⟨hend.1, hend.2⟩
      | error e' =>
        cases h
        exact hend

/-- A group without objects has nothing that an object could clash with. -/
theorem cacheObject_fresh {ref : GroupRef} {w : ObjectWrite} {e : MoQPublishError}
    (hb : t.RefsBounded) (href : ref < t.nextGroupRef) (hempty : (t.heap ref).objects = ∅)
    (h : t.cacheObject ref l.group l.object w = .ok (.error e, t')) :
    contains t.gaps l = true ∨ ¬ t.GroupGapSettled l w.extensions ∨
      t.ExtensionsRefused l w.extensions := by
  by_contra hnot
  push Not at hnot
  obtain ⟨hgap, hs, hr⟩ := hnot
  obtain ⟨heq, hres, -⟩ := (processGapExtensions_settled hb hs).2 hr
  have hheap := (processPriorObjectExtension_heap href l.group l.object w.extensions).1
  rw [← heq] at hheap
  unfold cacheObject at h
  rw [if_neg hgap] at h
  generalize t.processGapExtensions l.group l.object w.extensions = r at h hres hheap
  obtain ⟨res, t₁⟩ := r
  cases hres
  have hobjects := t₁.markEnd_objects ref l.group l.object w.status
  rw [hheap, hempty] at hobjects
  simp [CacheGroup.putObject, hobjects, bind, Except.bind] at h

/-- How a location's group looks from outside decides about its extensions. -/
theorem extensionsRefused_congr (ext : Extensions)
    (hobjects : ∀ o, t'.slot? ⟨l.group, o⟩ = t.slot? ⟨l.group, o⟩)
    (hprior : t'.priorGroupGap l.group = t.priorGroupGap l.group) :
    (t'.ExtensionsRefused l ext ↔ t.ExtensionsRefused l ext) ∧
      (t'.GroupGapSettled l ext ↔ t.GroupGapSettled l ext) := by
  unfold ExtensionsRefused GroupGapRefused ObjectGapRefused GroupGapSettled
  simp only [hobjects, hprior, and_self]

/-- Refusing an object in a group that was created for it. -/
theorem refusedQuietly_fresh {r ref' : GroupRef} {w : ObjectWrite} {e : MoQPublishError}
    (hb : t'.RefsBounded) (href : ref' < t'.nextGroupRef) (hempty : (t'.heap ref').objects = ∅)
    {t'' : CacheTrack} (h : t'.cacheObject ref' l.group l.object w = .ok (.error e, t''))
    (hgaps : contains t'.gaps l = contains t.gaps l)
    (hobjects : ∀ o, t'.slot? ⟨l.group, o⟩ = t.slot? ⟨l.group, o⟩)
    (hprior : t'.priorGroupGap l.group = t.priorGroupGap l.group) :
    t'.RefusedQuietly ref' l w ↔ t.RefusedQuietly r l w := by
  obtain ⟨hext, hset⟩ := extensionsRefused_congr w.extensions hobjects hprior
  have hfresh := cacheObject_fresh hb href hempty h
  unfold RefusedQuietly
  rw [hgaps] at hfresh ⊢
  rw [hext, hset] at hfresh ⊢
  rcases hfresh with hgap | hs | hr
  · exact ⟨fun _ => .inl hgap, fun _ => .inl hgap⟩
  · exact or_congr_right ⟨fun h => absurd h.1 hs, fun h => absurd h.1 hs⟩
  · exact or_congr_right (and_congr_right fun _ => ⟨fun _ => .inl hr, fun _ => .inl hr⟩)

end CacheTrack

/-- What a write on the subscribe path asks for: an object at a location of a track, in the
group that a subgroup writeback holds or in the group of the location. -/
structure WriteRequest where
  track : TrackRef
  ftn : FullTrackName
  location : AbsoluteLocation
  held : Option GroupRef
  write : ObjectWrite

namespace WriteRequest

/-- The body that all writes share once caching is not skipped. -/
def perform (r : WriteRequest) (c : Cache) : Except Abort (Expected Unit × Cache) :=
  match c.updateLargest r.track r.location (r.write.status = .endOfTrack) with
  | (.error e, c) => .ok (.error e, c)
  | (.ok _, c) => do
    let (ref, c) ← r.held.elim (c.getOrCreateGroupWithEviction r.track r.location.group r.ftn)
      fun ref => .ok (ref, c)
    c.cacheObjectAndUpdateBytes r.track ref r.location.group r.location.object r.write

/-- The group that the object goes to. -/
def groupRef (r : WriteRequest) (c : Cache) : GroupRef :=
  (r.held.or ((c.tracks r.track).groups.lookup r.location.group)).getD
    (c.tracks r.track).nextGroupRef

/-- When a refused write leaves its track as it was: it is refused by the largest location, or
it does not move that location, it evicts blank groups at most, and the object is refused before
anything new is recorded. -/
def LeavesNoTrace (r : WriteRequest) (c : Cache) : Prop :=
  (c.tracks r.track).LargestRefused r.location (r.write.status = .endOfTrack) ∨
    (∃ largest ∈ (c.tracks r.track).largestGroupAndObject, r.location ≤ largest) ∧
      (r.held = none → (c.tracks r.track).groups.lookup r.location.group = none →
        ∀ g ∈ c.groupVictims r.track, (c.tracks r.track).Blank g) ∧
      (c.tracks r.track).RefusedQuietly (r.groupRef c) r.location r.write

variable {e : MoQPublishError} {l : AbsoluteLocation} {ref : GroupRef} {tref : TrackRef}

theorem cacheObjectAndUpdateBytes_rejected {w : ObjectWrite}
    (h : c.cacheObjectAndUpdateBytes tref ref l.group l.object w = .ok (.error e, c')) :
    (c.tracks tref).cacheObject ref l.group l.object w = .ok (.error e, c'.tracks tref) := by
  obtain ⟨⟨res, t⟩, hres, h⟩ := bind_eq_ok.mp h
  cases res with
  | error e' =>
    cases h
    rw [hres, setTrack_tracks]
  | ok _ =>
    obtain ⟨total, -, h⟩ := bind_eq_ok.mp h
    obtain ⟨d, -, h⟩ := bind_eq_ok.mp h
    cases h

/-- A write to a group that is there. -/
theorem rejected_existing {w : ObjectWrite} (hw : c.WF)
    (href : ref < (c.tracks tref).nextGroupRef)
    (h : c.cacheObjectAndUpdateBytes tref ref l.group l.object w = .ok (.error e, c')) :
    (c.tracks tref).Unchanged (c'.tracks tref) ↔ (c.tracks tref).RefusedQuietly ref l w :=
  cacheObject_rejected_iff (hw.bounded tref) href (cacheObjectAndUpdateBytes_rejected h)

/-- A write to a group that is made for it. -/
theorem rejected_new {ftn : FullTrackName} {d : Cache} {w : ObjectWrite} (hw : c.WF)
    (hc : c.ListsFresh) (hnone : (c.tracks tref).groups.lookup l.group = none)
    (hget : c.getOrCreateGroupWithEviction tref l.group ftn = .ok (ref, d))
    (h : d.cacheObjectAndUpdateBytes tref ref l.group l.object w = .ok (.error e, c')) :
    (c.tracks tref).Unchanged (c'.tracks tref) ↔
      (∀ g ∈ c.groupVictims tref, (c.tracks tref).Blank g) ∧
        (c.tracks tref).RefusedQuietly (c.tracks tref).nextGroupRef l w := by
  obtain ⟨t, hemptied, hnone', hmarked, hempty, hbound, href, hgaps⟩ :=
    getOrCreateGroupWithEviction_new hw hc hnone hget
  have hrej := cacheObjectAndUpdateBytes_rejected h
  -- Nothing is known of the group before and after it was made.
  have hgroup := CacheTrack.group?_of_lookup_none hnone
  have hgroup' := CacheTrack.group?_of_lookup_none hnone'
  have hobjects : ∀ o, (d.tracks tref).slot? ⟨l.group, o⟩ =
      (c.tracks tref).slot? ⟨l.group, o⟩ := by
    intro o
    rw [hmarked.objects]
    simp [CacheTrack.slot?, hgroup, hgroup']
  have hprior : (d.tracks tref).priorGroupGap l.group = (c.tracks tref).priorGroupGap l.group := by
    rw [hmarked.priorGroupGap]
    simp [CacheTrack.priorGroupGap, hgroup, hgroup']
  have hquiet := refusedQuietly_fresh (r := (c.tracks tref).nextGroupRef) hbound href
    hempty hrej (by rw [hgaps]) hobjects hprior
  have hiff := cacheObject_rejected_iff hbound href hrej
  rw [← hquiet, ← hiff, ← hemptied.unchanged_iff]
  constructor
  · intro hu
    -- A new prior-group gap would show, so the object was refused before anything was recorded.
    have hkeep : (d.tracks tref).Unchanged (c'.tracks tref) := by
      rw [hiff]
      by_cases hgap : contains (d.tracks tref).gaps l = true
      · exact .inl hgap
      have hs : (d.tracks tref).GroupGapSettled l w.extensions := by
        by_contra hs
        obtain ⟨hrec, hnone⟩ := cacheObject_recorded hbound hgap hs hrej
        rw [hu.priorGroupGap, ← hprior] at hrec
        exact hrec hnone
      have hr := cacheObject_fresh hbound href hempty hrej
      exact .inr ⟨hs, .inl ((hr.resolve_left hgap).resolve_left (not_not.mpr hs))⟩
    exact ⟨(hu.trans hkeep.symm).trans hmarked.unchanged.symm, hkeep⟩
  · rintro ⟨hvictims, hkeep⟩
    exact (hvictims.trans hmarked.unchanged).trans hkeep

/-- A refused write leaves its track as it was in exactly these cases. -/
theorem perform_rejected_iff {r : WriteRequest} (hw : c.WF) (hc : c.ListsFresh)
    (hheld : ∀ ref ∈ r.held, ref < (c.tracks r.track).nextGroupRef)
    (h : r.perform c = .ok (.error e, c')) :
    (c.tracks r.track).Unchanged (c'.tracks r.track) ↔ r.LeavesNoTrace c := by
  unfold perform Cache.updateLargest at h
  unfold LeavesNoTrace
  by_cases hl : (c.tracks r.track).LargestRefused r.location (r.write.status = .endOfTrack)
  · obtain ⟨e', he'⟩ := updateLargest_refused hl
    simp only [he', setTrack_self] at h
    cases h
    exact ⟨fun _ => .inl hl, fun _ => (CacheTrack.Marked.refl _).unchanged⟩
  rcases updateLargest_passed hl with ⟨hle, hup⟩ | ⟨hall, hup⟩
  · -- The largest location stays, and so does the track up to the choice of the group.
    simp only [hup, setTrack_self] at h
    obtain ⟨⟨ref, d⟩, hget, h⟩ := bind_eq_ok.mp h
    rw [or_iff_right hl, and_iff_right hle]
    cases hheld' : r.held with
    | some ref' =>
      simp only [hheld', Option.elim_some] at hget
      cases hget
      rw [rejected_existing hw (hheld ref hheld') h, and_iff_right (by simp)]
      simp [groupRef, hheld']
    | none =>
      simp only [hheld', Option.elim_none] at hget
      cases hlook : (c.tracks r.track).groups.lookup r.location.group with
      | some ref' =>
        simp only [Cache.getOrCreateGroupWithEviction, hlook] at hget
        cases hget
        rw [rejected_existing hw (hw.bounded _ _ _ hlook) h, and_iff_right (by simp)]
        simp [groupRef, hheld', hlook]
      | none =>
        rw [rejected_new hw hc hlook hget h]
        simp [groupRef, hheld', hlook]
  · -- The largest location has moved for good.
    simp only [hup] at h
    obtain ⟨⟨ref, d⟩, hget, h⟩ := bind_eq_ok.mp h
    have hprim : Prim c (.info r.track) (c.setTrack r.track
        ((c.tracks r.track).setInfo (r.write.status = .endOfTrack) (some r.location)
          (c.tracks r.track).maxCacheDuration (c.tracks r.track).extensions
          (c.tracks r.track).lastWrite)) := .info c r.track _ _ _ _ _
    have hkeep : (d.tracks r.track).largestGroupAndObject = some r.location := by
      cases hheld' : r.held with
      | some ref' =>
        simp only [hheld', Option.elim_some] at hget
        cases hget
        rw [setTrack_tracks]
        rfl
      | none =>
        simp only [hheld', Option.elim_none] at hget
        cases hlook : (c.tracks r.track).groups.lookup r.location.group with
        | some ref' =>
          simp only [Cache.getOrCreateGroupWithEviction, setTrack_tracks,
            CacheTrack.setInfo, hlook] at hget
          cases hget
          rw [setTrack_tracks]
        | none =>
          obtain ⟨t, hemptied, -, hmarked, -⟩ := getOrCreateGroupWithEviction_new
            (hw.of_prim hprim) (hc.of_prim hprim) (by rw [setTrack_tracks]; exact hlook) hget
          rw [hmarked.largest, hemptied.largest, setTrack_tracks]
          rfl
    have hmoved : (c'.tracks r.track).largestGroupAndObject = some r.location := by
      rw [(cacheObject_sameEnd (cacheObjectAndUpdateBytes_rejected h)).largest]
      exact hkeep
    constructor
    · intro hu
      have hlt := hall r.location (by rw [← hu.largest]; exact hmoved)
      exact absurd hlt (lt_irrefl _)
    · rintro (h | ⟨⟨largest, hl, hle⟩, -⟩)
      · exact absurd h hl
      · exact absurd (hall largest hl) (not_lt.mpr hle)

end WriteRequest

/-- A write of a publisher on the subscribe path, through the writeback with the id `id`. -/
inductive PublisherWrite where
  | subgroup (id : Nat) (write : SubgroupWrite)
  | objectStream (id : Nat) (header : ObjectHeader) (payload : Option Payload)
  | datagram (id : Nat) (header : ObjectHeader) (payload : Option Payload)

/-- The step of the world that the write is. -/
def PublisherWrite.op : PublisherWrite → Op
  | .subgroup id write => .writeSubgroup id write
  | .objectStream id header payload => .objectStream id header payload
  | .datagram id header payload => .datagram id header payload

/-- The answer of the cache to a write through a subgroup writeback. -/
def SubgroupWriteback.answer (w : SubgroupWriteback) (c : Cache) (now : TimePoint) :
    SubgroupWrite → Except Abort (Expected Unit × Cache)
  | .object objID payload ext => w.object c objID payload ext now
  | .beginObject objectID length initialPayload ext =>
    (fun r => (r.1, r.2.2)) <$> w.beginObject c objectID length initialPayload ext now
  | .objectPayload payload => (fun r => (.ok (), r.2)) <$> w.objectPayload c payload
  | .endOfGroup objID => w.endOfGroup c objID now
  | .endOfTrackAndGroup objID => w.endOfTrackAndGroup c objID now

/-- The object that a write through a subgroup writeback puts into the cache. -/
def SubgroupWriteback.objectWrite (w : SubgroupWriteback) (now : TimePoint) :
    SubgroupWrite → Option (Nat × ObjectWrite)
  | .object objID payload ext => some (objID, ⟨w.subgroup, .normal, ext, payload, true, false, now⟩)
  | .beginObject objectID _ initialPayload ext =>
    some (objectID, ⟨w.subgroup, .normal, ext, initialPayload, false, false, now⟩)
  | .objectPayload _ => none
  | .endOfGroup objID =>
    some (objID, ⟨w.subgroup, .endOfGroup, noExtensions, none, true, false, now⟩)
  | .endOfTrackAndGroup objID =>
    some (objID, ⟨w.subgroup, .endOfTrack, noExtensions, none, true, false, now⟩)

def SubgroupWriteback.request (w : SubgroupWriteback) (objectID : Nat) (ow : ObjectWrite) :
    WriteRequest :=
  ⟨w.track, w.ftn, ⟨w.group, objectID⟩, some w.groupRef, ow⟩

def SubscribeWriteback.request (w : SubscribeWriteback) (header : ObjectHeader)
    (payload : Option Payload) (isDatagram : Bool) (now : TimePoint) : WriteRequest :=
  ⟨w.track, w.ftn, ⟨header.group, header.id⟩, none,
    ⟨header.subgroup, header.status, header.extensions, payload, true, isDatagram, now⟩⟩

theorem SubscribeWriteback.perform_request (w : SubscribeWriteback) (c : Cache)
    (header : ObjectHeader) (payload : Option Payload) (isDatagram : Bool) (now : TimePoint)
    (h : ¬ (c.tracks w.track).shouldSkipCaching = true) :
    (w.request header payload isDatagram now).perform c =
      w.wholeObject c header payload isDatagram now := by
  rw [wholeObject, if_neg h]
  rfl

namespace World

variable {w w' : World}

/-- The answer of the cache to a write, before the downstream consumer sees it. -/
def answer (w : World) : PublisherWrite → Except Abort (Expected Unit × Cache)
  | .subgroup id write => do
    let sub ← orNoCaller (w.subgroups.lookup id)
    sub.answer w.cache w.now write
  | .objectStream id header payload => do
    let s ← orNoCaller (w.subscribers.lookup id)
    s.objectStream w.cache header payload w.now
  | .datagram id header payload => do
    let s ← orNoCaller (w.subscribers.lookup id)
    s.datagram w.cache header payload w.now

/-- What a write asks for. -/
def request (w : World) : PublisherWrite → Option WriteRequest
  | .subgroup id write => do
    let sub ← w.subgroups.lookup id
    let (objectID, ow) ← sub.objectWrite w.now write
    some (sub.request objectID ow)
  | .objectStream id header payload => do
    let s ← w.subscribers.lookup id
    some (s.request header payload false w.now)
  | .datagram id header payload => do
    let s ← w.subscribers.lookup id
    some (s.request header payload true w.now)

variable {write : PublisherWrite}

/-- The step of a write goes to the cache of its answer. -/
theorem step_of_answer {res : Expected Unit} {c : Cache} (h : w.answer write = .ok (res, c)) :
    ∃ w', w.step write.op = .ok w' ∧ w'.cache = c := by
  cases write with
  | subgroup id write =>
    obtain ⟨sub, hsub, h⟩ := bind_eq_ok.mp h
    have hperform : ∃ sub', sub.perform w.cache w.now write = .ok (sub', c) := by
      cases write with
      | object objID payload ext => exact ⟨sub, bind_eq_ok.mpr ⟨_, h, rfl⟩⟩
      | beginObject objectID length initialPayload ext =>
        obtain ⟨⟨res', sub', c'⟩, hb, heq⟩ := map_eq_ok.mp h
        cases heq
        exact ⟨sub', bind_eq_ok.mpr ⟨_, hb, rfl⟩⟩
      | objectPayload payload =>
        obtain ⟨⟨sub', c'⟩, hb, heq⟩ := map_eq_ok.mp h
        cases heq
        exact ⟨sub', hb⟩
      | endOfGroup objID | endOfTrackAndGroup objID => exact ⟨sub, bind_eq_ok.mpr ⟨_, h, rfl⟩⟩
    obtain ⟨sub', hp⟩ := hperform
    exact ⟨_, bind_eq_ok.mpr ⟨sub, hsub, bind_eq_ok.mpr ⟨_, hp, rfl⟩⟩, rfl⟩
  | objectStream id header payload | datagram id header payload =>
    obtain ⟨s, hs, h⟩ := bind_eq_ok.mp h
    exact ⟨_, bind_eq_ok.mpr ⟨s, hs, bind_eq_ok.mpr ⟨_, h, rfl⟩⟩, rfl⟩

/-- A write that is refused was not skipped. -/
theorem wholeObject_caches {s : SubscribeWriteback} {c c' : Cache} {header : ObjectHeader}
    {payload : Option Payload} {isDatagram : Bool} {now : TimePoint} {e : MoQPublishError}
    (h : s.wholeObject c header payload isDatagram now = .ok (.error e, c')) :
    ¬ (c.tracks s.track).shouldSkipCaching = true := by
  intro hskip
  rw [SubscribeWriteback.wholeObject, if_pos hskip] at h
  cases h

/-- Every refused write is a refused request. -/
theorem perform_of_answer {e : MoQPublishError} {c : Cache}
    (h : w.answer write = .ok (.error e, c)) :
    ∃ r, w.request write = some r ∧ r.perform w.cache = .ok (.error e, c) := by
  cases write with
  | subgroup id write =>
    obtain ⟨sub, hsub, h⟩ := bind_eq_ok.mp h
    have hsub := orNoCaller_eq_ok.mp hsub
    suffices hreq : ∃ objectID ow, sub.objectWrite w.now write = some (objectID, ow) ∧
        sub.write w.cache objectID ow = .ok (.error e, c) by
      obtain ⟨objectID, ow, how, hwrite⟩ := hreq
      exact ⟨sub.request objectID ow, by simp [request, hsub, how], hwrite⟩
    cases write with
    | object objID payload ext =>
      simp only [SubgroupWriteback.answer, SubgroupWriteback.object] at h
      split at h
      · cases h
      · exact ⟨_, _, rfl, h⟩
    | beginObject objectID length initialPayload ext =>
      obtain ⟨⟨res, sub', c'⟩, hb, heq⟩ := map_eq_ok.mp h
      cases heq
      unfold SubgroupWriteback.beginObject at hb
      split at hb
      · cases hb
      · obtain ⟨⟨res', d⟩, hwrite, hb⟩ := bind_eq_ok.mp hb
        cases res' with
        | error e' =>
          cases hb
          exact ⟨_, _, rfl, hwrite⟩
        | ok _ =>
          obtain ⟨_, -, hb⟩ := bind_eq_ok.mp hb
          cases hb
    | objectPayload payload =>
      obtain ⟨_, -, heq⟩ := map_eq_ok.mp h
      cases heq
    | endOfGroup objID =>
      simp only [SubgroupWriteback.answer, SubgroupWriteback.endOfGroup] at h
      split at h
      · cases h
      · exact ⟨_, _, rfl, h⟩
    | endOfTrackAndGroup objID =>
      simp only [SubgroupWriteback.answer, SubgroupWriteback.endOfTrackAndGroup] at h
      split at h
      · cases h
      · exact ⟨_, _, rfl, h⟩
  | objectStream id header payload =>
    obtain ⟨s, hs, h⟩ := bind_eq_ok.mp h
    have hs := orNoCaller_eq_ok.mp hs
    refine ⟨s.request header payload false w.now, by simp [request, hs], ?_⟩
    rw [s.perform_request _ _ _ _ _ (wholeObject_caches h)]
    exact h
  | datagram id header payload =>
    obtain ⟨s, hs, h⟩ := bind_eq_ok.mp h
    have hs := orNoCaller_eq_ok.mp hs
    refine ⟨s.request header payload true w.now, by simp [request, hs], ?_⟩
    rw [s.perform_request _ _ _ _ _ (wholeObject_caches h)]
    exact h

/-- A request names a group in use. -/
theorem request_held {r : WriteRequest} (hw : w.WF) (h : w.request write = some r) :
    ∀ ref ∈ r.held, ref < (w.cache.tracks r.track).nextGroupRef := by
  intro ref href
  cases write with
  | subgroup id write =>
    obtain ⟨sub, hsub, h⟩ := Option.bind_eq_some_iff.mp h
    obtain ⟨⟨objectID, ow⟩, -, h⟩ := Option.bind_eq_some_iff.mp h
    cases h
    cases href
    exact (hw.subgroups id sub hsub).2.1
  | objectStream id header payload | datagram id header payload =>
    obtain ⟨s, -, h⟩ := Option.bind_eq_some_iff.mp h
    cases h
    cases href

/-- A write on the subscribe path that the cache refuses leaves its track as it was in exactly
these cases, in every state that is reached. -/
theorem rejected_write_leaves_no_trace_iff {Q : World → Op → Prop} {write : PublisherWrite}
    {r : WriteRequest} {e : MoQPublishError} {c : Cache} (h : Reaches Q w)
    (hreq : w.request write = some r) (hrej : w.answer write = .ok (.error e, c)) :
    (w.cache.tracks r.track).Unchanged (c.tracks r.track) ↔ r.LeavesNoTrace w.cache := by
  obtain ⟨r', hreq', hperform⟩ := perform_of_answer hrej
  rw [hreq, Option.some.injEq] at hreq'
  subst hreq'
  exact WriteRequest.perform_rejected_iff h.wf.cache h.listsFresh (request_held h.wf hreq) hperform

end World

end

namespace World

/-- A group ends at object 2 and a later group begins. -/
def endsGroup : List Op :=
  [.subscribe ⟨[], "track"⟩, .beginSubgroup 0 0 0 (.ok ()), .writeSubgroup 1 (.endOfGroup 2),
    .beginSubgroup 0 1 0 (.ok ()), .writeSubgroup 2 (.object 0 (some [1]) noExtensions)]

/-- An object behind the end of its group. -/
def behindEnd : PublisherWrite := .subgroup 1 (.object 3 (some [1]) noExtensions)

/-- With a later group in the track, the object is refused and leaves no trace. -/
theorem rejected_write_leaves_no_trace_behindEnd : ∃ w r e c,
    runMeets (fun _ _ => True) (ofCache (.create 100 3 1000 0 none none)) endsGroup = some w ∧
      w.request behindEnd = some r ∧ w.answer behindEnd = .ok (.error e, c) ∧
      (w.cache.tracks r.track).Unchanged (c.tracks r.track) := by
  have hans : (runMeets (fun _ _ => True) (ofCache (.create 100 3 1000 0 none none))
      endsGroup).elim (.error .noCaller) (fun w => (w.answer behindEnd).map Prod.fst) =
      .ok (malformedTrack "Object in known gap") := by
    decide +kernel
  have hreq : (runMeets (fun _ _ => True) (ofCache (.create 100 3 1000 0 none none))
      endsGroup).elim none (fun w => (w.request behindEnd).map fun r => (r.location, r.held,
        (w.cache.tracks r.track).largestGroupAndObject,
        contains (w.cache.tracks r.track).gaps r.location)) =
      some (⟨0, 3⟩, some 0, some ⟨1, 0⟩, true) := by
    decide +kernel
  cases hw : runMeets (fun _ _ => True) (ofCache (.create 100 3 1000 0 none none)) endsGroup with
  | none =>
    rw [hw] at hreq
    cases hreq
  | some w => ?_
  rw [hw] at hans hreq
  obtain ⟨⟨res, c⟩, hans, rfl⟩ := map_eq_ok.mp hans
  obtain ⟨r, hreq, hr⟩ := Option.map_eq_some_iff.mp hreq
  simp only [Prod.mk.injEq] at hr
  obtain ⟨hloc, hheld, hlargest, hgap⟩ := hr
  refine ⟨w, r, _, c, rfl, hreq, hans, ?_⟩
  rw [rejected_write_leaves_no_trace_iff
    (.of_runMeets (.create 100 3 1000 0 none none) hw) hreq hans]
  refine .inr ⟨⟨⟨1, 0⟩, hlargest, ?_⟩, ?_, .inl hgap⟩
  · rw [hloc]
    decide
  · rw [hheld]
    simp

/-- As the newest object of the track it is refused as well, but it is the largest from then
on. -/
theorem behindEnd_leavesTrace :
    (((ofCache (.create 100 3 1000 0 none none)).run (endsGroup.take 3)).bind fun w =>
      (w.answer behindEnd).map fun r => ((w.cache.tracks 0).largestGroupAndObject, r.1,
        (r.2.tracks 0).largestGroupAndObject)) =
      .ok (some ⟨0, 2⟩, malformedTrack "Object in known gap", some ⟨0, 3⟩) := by
  decide +kernel

end World

end Moqx
