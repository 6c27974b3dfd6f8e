import Moqx.Wellformed

/-! What a write records in a track besides its object: gaps, end-of-group flags and prior-group
gaps, seen through the sets and the group map. -/
namespace Moqx

open Moxygen Maps AbsoluteLocation

variable [Moxygen] {t t' t'' : CacheTrack}

/-- A location that the location sets tell apart from all others. -/
def AbsoluteLocation.Valid (l : AbsoluteLocation) : Prop := l.object ≤ kLocationMax.object

namespace CacheTrack

/-- The end-of-group flag of an id; an id without a group has none. -/
def groupEnded (t : CacheTrack) (groupID : Nat) : Bool := (t.group? groupID).any (·.endOfGroup)

/-- The prior-group gap recorded for an id. -/
def priorGroupGap (t : CacheTrack) (groupID : Nat) : Option Nat :=
  (t.group? groupID).bind (·.seenPriorGroupIdGap)

/-- A location known not to exist. -/
def Known (t : CacheTrack) (l : AbsoluteLocation) : Prop :=
  contains t.gaps l = true ∧ contains t.cachedContent l = true

/-- Two tracks that nobody can tell apart by what was written to them. -/
structure Unchanged (t t' : CacheTrack) : Prop where
  gaps : ∀ l : AbsoluteLocation, l.Valid → contains t'.gaps l = contains t.gaps l
  cachedContent : ∀ l : AbsoluteLocation, l.Valid →
    contains t'.cachedContent l = contains t.cachedContent l
  objects : ∀ l, t'.slot? l = t.slot? l
  endOfGroup : ∀ groupID, t'.groupEnded groupID = t.groupEnded groupID
  priorGroupGap : ∀ groupID, t'.priorGroupGap groupID = t.priorGroupGap groupID
  largest : t'.largestGroupAndObject = t.largestGroupAndObject
  endOfTrack : t'.endOfTrack = t.endOfTrack

/-- The track `t'` is `t` with the locations of `gap` known not to exist and the groups of
`ended` ended. -/
structure Marked (t t' : CacheTrack) (gap : Set AbsoluteLocation) (ended : Set Nat) : Prop where
  gaps : ∀ l : AbsoluteLocation, l.Valid →
    (contains t'.gaps l = true ↔ contains t.gaps l = true ∨ l ∈ gap)
  cachedContent : ∀ l : AbsoluteLocation, l.Valid →
    (contains t'.cachedContent l = true ↔ contains t.cachedContent l = true ∨ l ∈ gap)
  objects : ∀ l, t'.slot? l = t.slot? l
  endOfGroup : ∀ groupID,
    t'.groupEnded groupID = true ↔ t.groupEnded groupID = true ∨ groupID ∈ ended
  priorGroupGap : ∀ groupID, t'.priorGroupGap groupID = t.priorGroupGap groupID
  largest : t'.largestGroupAndObject = t.largestGroupAndObject
  endOfTrack : t'.endOfTrack = t.endOfTrack

theorem Marked.refl (t : CacheTrack) : Marked t t ∅ ∅ :=
  ⟨by simp, by simp, fun _ => rfl, by simp, fun _ => rfl, rfl, rfl⟩

variable {ended : Set Nat} {gap gap' : Set AbsoluteLocation} {ref : GroupRef} {l : AbsoluteLocation}

theorem Marked.trans {ended' : Set Nat} (h : Marked t t' gap ended)
    (h' : Marked t' t'' gap' ended') : Marked t t'' (gap ∪ gap') (ended ∪ ended') := by
  refine ⟨fun l hl => ?_, fun l hl => ?_, fun l => (h'.objects l).trans (h.objects l),
    fun g => ?_, fun g => (h'.priorGroupGap g).trans (h.priorGroupGap g),
    h'.largest.trans h.largest, h'.endOfTrack.trans h.endOfTrack⟩
  · rw [h'.gaps l hl, h.gaps l hl, Set.mem_union, or_assoc]
  · rw [h'.cachedContent l hl, h.cachedContent l hl, Set.mem_union, or_assoc]
  · rw [h'.endOfGroup, h.endOfGroup, Set.mem_union, or_assoc]

/-- Marks leave no trace when everything they mark was known before. -/
theorem Marked.unchanged_iff (h : Marked t t' gap ended) :
    Unchanged t t' ↔ (∀ l ∈ gap, l.Valid → t.Known l) ∧ ∀ g ∈ ended, t.groupEnded g = true := by
  constructor
  · intro hu
    refine ⟨fun l hl hv => ⟨?_, ?_⟩, fun g hg => ?_⟩
    · rw [← hu.gaps l hv]
      exact (h.gaps l hv).mpr (.inr hl)
    · rw [← hu.cachedContent l hv]
      exact (h.cachedContent l hv).mpr (.inr hl)
    · rw [← hu.endOfGroup g]
      exact (h.endOfGroup g).mpr (.inr hg)
  · rintro ⟨hgap, hended⟩
    refine ⟨fun l hv => ?_, fun l hv => ?_, h.objects, fun g => ?_, h.priorGroupGap, h.largest,
      h.endOfTrack⟩
    · rw [Bool.eq_iff_iff, h.gaps l hv]
      exact or_iff_left_of_imp fun hl => (hgap l hl hv).1
    · rw [Bool.eq_iff_iff, h.cachedContent l hv]
      exact or_iff_left_of_imp fun hl => (hgap l hl hv).2
    · rw [Bool.eq_iff_iff, h.endOfGroup g]
      exact or_iff_left_of_imp (hended g)

theorem Marked.unchanged (h : Marked t t' ∅ ∅) : Unchanged t t' :=
  h.unchanged_iff.mpr ⟨by simp, by simp⟩

theorem Unchanged.trans (h : Unchanged t t') (h' : Unchanged t' t'') : Unchanged t t'' :=
  ⟨fun l hl => (h'.gaps l hl).trans (h.gaps l hl),
    fun l hl => (h'.cachedContent l hl).trans (h.cachedContent l hl),
    fun l => (h'.objects l).trans (h.objects l), fun g => (h'.endOfGroup g).trans (h.endOfGroup g),
    fun g => (h'.priorGroupGap g).trans (h.priorGroupGap g), h'.largest.trans h.largest,
    h'.endOfTrack.trans h.endOfTrack⟩

theorem Unchanged.symm (h : Unchanged t t') : Unchanged t' t :=
  ⟨fun l hl => (h.gaps l hl).symm, fun l hl => (h.cachedContent l hl).symm,
    fun l => (h.objects l).symm, fun g => (h.endOfGroup g).symm,
    fun g => (h.priorGroupGap g).symm, h.largest.symm, h.endOfTrack.symm⟩

/-- Changing only what is behind the group map, as a new empty group is. -/
theorem Marked.of_groups (hg : t'.gaps = t.gaps) (hc : t'.cachedContent = t.cachedContent)
    (hl : t'.largestGroupAndObject = t.largestGroupAndObject) (he : t'.endOfTrack = t.endOfTrack)
    (hobjects : ∀ l, t'.slot? l = t.slot? l)
    (hended : ∀ g, t'.groupEnded g = true ↔ t.groupEnded g = true ∨ g ∈ ended)
    (hprior : ∀ g, t'.priorGroupGap g = t.priorGroupGap g) : Marked t t' ∅ ended :=
  ⟨by simp [hg], by simp [hc], hobjects, hended, hprior, hl, he⟩

/-- Changing groups elsewhere than in their objects, flag and prior-group gap. -/
theorem Marked.of_heap (hg : t'.gaps = t.gaps) (hc : t'.cachedContent = t.cachedContent)
    (hl : t'.largestGroupAndObject = t.largestGroupAndObject) (he : t'.endOfTrack = t.endOfTrack)
    (hgroups : t'.groups = t.groups)
    (hheap : ∀ ref, (t'.heap ref).objects = (t.heap ref).objects ∧
      (t'.heap ref).endOfGroup = (t.heap ref).endOfGroup ∧
      (t'.heap ref).seenPriorGroupIdGap = (t.heap ref).seenPriorGroupIdGap) :
    Marked t t' ∅ ∅ := by
  refine .of_groups hg hc hl he (fun l => ?_) (fun g => ?_) fun g => ?_
  · unfold slot? group?
    rw [hgroups]
    cases t.groups.lookup l.group with
    | none => rfl
    | some ref => simp [(hheap ref).1]
  · unfold groupEnded group?
    rw [hgroups]
    cases t.groups.lookup g with
    | none => simp
    | some ref => simp [(hheap ref).2.1]
  · unfold CacheTrack.priorGroupGap group?
    rw [hgroups]
    cases t.groups.lookup g with
    | none => rfl
    | some ref => simp [(hheap ref).2.2]

theorem insertGap_marked {a b : AbsoluteLocation} (hab : a ≤ b) :
    Marked t (t.insertGap a b) (Set.Icc a b) ∅ := by
  refine ⟨fun l hl => ?_, fun l hl => ?_, fun _ => rfl, fun g => ?_, fun _ => rfl, rfl, rfl⟩
  · exact contains_insert _ a b l hab hl
  · exact contains_insert _ a b l hab hl
  · rw [Set.mem_empty_iff_false, or_false]
    rfl

/-- The groups after an id got a group, if it had none. -/
theorem getOrCreateGroup_group? (hb : t.RefsBounded) (groupID g : Nat) :
    (t.getOrCreateGroup groupID).2.group? g =
      if g = groupID ∧ t.groups.lookup groupID = none then some {} else t.group? g := by
  unfold getOrCreateGroup
  cases hl : t.groups.lookup groupID with
  | some ref => simp
  | none =>
    by_cases hg : g = groupID
    · subst hg
      simp [group?, emplaceGroup, setGroup]
    · have hheap : ∀ ref, t.groups.lookup g = some ref →
          Function.update t.heap t.nextGroupRef {} ref = t.heap ref := fun ref href =>
        Function.update_of_ne (Nat.ne_of_lt (hb g ref href)) _ _
      cases href : t.groups.lookup g with
      | none => simp [group?, emplaceGroup, setGroup, hg, AList.lookup_insert_ne hg, href]
      | some ref =>
        simp [group?, emplaceGroup, setGroup, hg, AList.lookup_insert_ne hg, href, hheap ref href]

theorem group?_of_lookup_none {g : Nat} (h : t.groups.lookup g = none) : t.group? g = none := by
  simp [group?, h]

theorem getOrCreateGroup_marked (hb : t.RefsBounded) (groupID : Nat) :
    Marked t (t.getOrCreateGroup groupID).2 ∅ ∅ := by
  have hgroup := getOrCreateGroup_group? hb groupID
  have hfields : (t.getOrCreateGroup groupID).2.gaps = t.gaps ∧
      (t.getOrCreateGroup groupID).2.cachedContent = t.cachedContent ∧
      (t.getOrCreateGroup groupID).2.largestGroupAndObject = t.largestGroupAndObject ∧
      (t.getOrCreateGroup groupID).2.endOfTrack = t.endOfTrack := by
    unfold getOrCreateGroup
    split <;> exact ⟨rfl, rfl, rfl, rfl⟩
  obtain ⟨h1, h2, h3, h4⟩ := hfields
  refine .of_groups h1 h2 h3 h4 (fun l => ?_) (fun g => ?_) fun g => ?_
  · rw [slot?, hgroup, slot?]
    split
    · next h =>
      rw [h.1, group?_of_lookup_none h.2]
      rfl
    · rfl
  · rw [groupEnded, hgroup, groupEnded, Set.mem_empty_iff_false, or_false]
    split
    · next h => rw [h.1, group?_of_lookup_none h.2]; rfl
    · rfl
  · rw [priorGroupGap, hgroup, priorGroupGap]
    split
    · next h => rw [h.1, group?_of_lookup_none h.2]; rfl
    · rfl

/-- The number of the group of an id is in use afterwards. -/
theorem getOrCreateGroup_lookup (t : CacheTrack) (groupID : Nat) :
    (t.getOrCreateGroup groupID).2.groups.lookup groupID = some (t.getOrCreateGroup groupID).1 := by
  unfold getOrCreateGroup
  cases hl : t.groups.lookup groupID with
  | some ref => exact hl
  | none => simp [emplaceGroup]

theorem getOrCreateGroup_bounded (hb : t.RefsBounded) (groupID : Nat) :
    (t.getOrCreateGroup groupID).2.RefsBounded := by
  unfold getOrCreateGroup
  cases hl : t.groups.lookup groupID with
  | some ref => exact hb
  | none =>
    intro g ref hg
    rcases Cache.lookup_emplaceGroup hg with ⟨-, rfl⟩ | ⟨-, hg⟩
    · exact Nat.lt_succ_self _
    · exact Nat.lt_succ_of_lt (hb g ref hg)

/-- A group that a writer holds keeps its place when another id gets a group. -/
theorem getOrCreateGroup_heap (href : ref < t.nextGroupRef) (groupID : Nat) :
    (t.getOrCreateGroup groupID).2.heap ref = t.heap ref ∧
      ref < (t.getOrCreateGroup groupID).2.nextGroupRef ∧
      ∀ g, (t.getOrCreateGroup groupID).2.groups.lookup g = some ref ↔
        t.groups.lookup g = some ref := by
  unfold getOrCreateGroup
  cases hl : t.groups.lookup groupID with
  | some r => exact ⟨rfl, href, fun _ => Iff.rfl⟩
  | none =>
    refine ⟨?_, Nat.lt_succ_of_lt href, fun g => ?_⟩
    · simp [emplaceGroup, setGroup, Nat.ne_of_lt href]
    · by_cases hg : g = groupID
      · subst hg
        have hne : t.nextGroupRef ≠ ref := Nat.ne_of_gt href
        simp [emplaceGroup, hl, hne]
      · simp [emplaceGroup, AList.lookup_insert_ne hg]

/-- Setting the flag of a group shows under the ids it is attached to. -/
theorem setEnded_marked (t : CacheTrack) (ref : GroupRef) :
    Marked t (t.setGroup ref { t.heap ref with endOfGroup := true }) ∅
      {g | t.groups.lookup g = some ref} := by
  have hgroup : ∀ g, (t.setGroup ref { t.heap ref with endOfGroup := true }).group? g =
      if t.groups.lookup g = some ref then some { t.heap ref with endOfGroup := true }
      else t.group? g := by
    intro g
    cases hl : t.groups.lookup g with
    | none => simp [group?, hl]
    | some r =>
      by_cases hr : r = ref
      · subst hr
        simp [group?, hl]
      · simp [group?, hl, hr]
  refine .of_groups rfl rfl rfl rfl (fun l => ?_) (fun g => ?_) fun g => ?_
  · rw [slot?, hgroup, slot?]
    split
    · next h => simp [group?, h]
    · rfl
  · rw [groupEnded, hgroup, groupEnded, Set.mem_ofPred_eq]
    split
    · next h => simp [h]
    · next h => simp [h]
  · rw [priorGroupGap, hgroup, priorGroupGap]
    split
    · next h => simp [group?, h]
    · rfl

theorem Marked.congr {ended' : Set Nat} (h : Marked t t' gap ended) (hg : ∀ l, l ∈ gap ↔ l ∈ gap')
    (he : ∀ g, g ∈ ended ↔ g ∈ ended') : Marked t t' gap' ended' := by
  have hgap : gap = gap' := Set.ext hg
  have hended : ended = ended' := Set.ext he
  rw [← hgap, ← hended]
  exact h

/-- The prior-group gap that comes with an object was recorded before, or is refused. -/
def GroupGapSettled (t : CacheTrack) (l : AbsoluteLocation) (ext : Extensions) : Prop :=
  ∀ gap ∈ getIntExtension ext kPriorGroupIdGapExtensionType, gap ≤ l.group →
    t.priorGroupGap l.group ≠ none

/-- A prior-group gap beyond group 0, or another one than was recorded. -/
def GroupGapRefused (t : CacheTrack) (groupID gap : Nat) : Prop :=
  groupID < gap ∨ ∃ seen ∈ t.priorGroupGap groupID, seen ≠ gap

/-- A prior-object gap beyond object 0, or with an object among its nearest locations. -/
def ObjectGapRefused (t : CacheTrack) (l : AbsoluteLocation) (gap : Nat) : Prop :=
  l.object < gap ∨ ∃ o, l.object - min gap kMaxGapValidation ≤ o ∧ o < l.object ∧
    (t.slot? ⟨l.group, o⟩).isSome = true

/-- The gap extensions of an object are refused. -/
def ExtensionsRefused (t : CacheTrack) (l : AbsoluteLocation) (ext : Extensions) : Prop :=
  (∃ gap ∈ getIntExtension ext kPriorGroupIdGapExtensionType, t.GroupGapRefused l.group gap) ∨
    ∃ gap ∈ getIntExtension ext kPriorObjectIdGapExtensionType, t.ObjectGapRefused l gap

/-- The locations of a prior-object gap. -/
def objectGapRange (l : AbsoluteLocation) (gap : Nat) : Set AbsoluteLocation :=
  {x | x.group = l.group ∧ l.object - gap ≤ x.object ∧ x.object < l.object}

/-- The locations that the prior-object gap of an object covers. -/
def objectGaps (l : AbsoluteLocation) (ext : Extensions) : Set AbsoluteLocation :=
  {x | ∃ gap ∈ getIntExtension ext kPriorObjectIdGapExtensionType, x ∈ objectGapRange l gap}

/-- A settled prior-group gap changes nothing. -/
theorem processPriorGroupGap_settled {groupID gap : Nat}
    (hs : gap ≤ groupID → t.priorGroupGap groupID ≠ none) :
    (t.GroupGapRefused groupID gap → ∃ e, t.processPriorGroupGap groupID gap = (.error e, t)) ∧
      (¬ t.GroupGapRefused groupID gap → t.processPriorGroupGap groupID gap = (.ok (), t)) := by
  unfold processPriorGroupGap
  by_cases hgap : groupID < gap
  · rw [if_pos hgap]
    exact ⟨fun _ => ⟨_, rfl⟩, fun h => absurd (.inl hgap) h⟩
  · rw [if_neg hgap]
    obtain ⟨seen, hseen⟩ := Option.ne_none_iff_exists'.mp (hs (Nat.le_of_not_lt hgap))
    obtain ⟨grp, hgrp, hsome⟩ := Option.bind_eq_some_iff.mp hseen
    obtain ⟨ref, hl, rfl⟩ := Option.map_eq_some_iff.mp hgrp
    have hget : t.getOrCreateGroup groupID = (ref, t) := by simp [getOrCreateGroup, hl]
    simp only [hget, hsome]
    by_cases hne : seen ≠ gap
    · rw [if_pos hne]
      exact ⟨fun _ => ⟨_, rfl⟩, fun h => absurd (.inr ⟨seen, hseen, hne⟩) h⟩
    · rw [if_neg hne]
      refine ⟨?_, fun _ => rfl⟩
      rintro (h | ⟨seen', hseen', hne'⟩)
      · exact absurd h hgap
      · rw [hseen, Option.mem_some_iff] at hseen'
        exact absurd (hseen' ▸ hne') hne

/-- A new prior-group gap is recorded before it is checked. -/
theorem processPriorGroupGap_recorded {groupID gap : Nat} (hb : t.RefsBounded)
    (hgap : gap ≤ groupID) (hnone : t.priorGroupGap groupID = none) :
    (t.processPriorGroupGap groupID gap).2.priorGroupGap groupID = some gap ∧
      (t.processPriorGroupGap groupID gap).2.RefsBounded := by
  have hlook := t.getOrCreateGroup_lookup groupID
  have hbound := getOrCreateGroup_bounded hb groupID
  have hprior := (getOrCreateGroup_marked hb groupID).priorGroupGap groupID
  unfold processPriorGroupGap
  rw [if_neg (Nat.not_lt.mpr hgap)]
  generalize t.getOrCreateGroup groupID = r at hlook hbound hprior
  obtain ⟨ref, t₁⟩ := r
  have hseen : (t₁.heap ref).seenPriorGroupIdGap = none := by
    rw [hnone, priorGroupGap, group?, hlook] at hprior
    exact hprior
  have hset : ∀ t₂ : CacheTrack, t₂.groups = t₁.groups →
      t₂.heap = Function.update t₁.heap ref { t₁.heap ref with seenPriorGroupIdGap := some gap } →
      t₂.nextGroupRef = t₁.nextGroupRef →
      t₂.priorGroupGap groupID = some gap ∧ t₂.RefsBounded := by
    intro t₂ hg hh hn
    refine ⟨?_, fun g r hr => ?_⟩
    · simp [priorGroupGap, group?, hg, hlook, hh]
    · rw [hg] at hr
      rw [hn]
      exact hbound g r hr
  simp only [hseen]
  split
  · split <;> exact hset _ rfl rfl rfl
  · exact hset _ rfl rfl rfl

omit [Moxygen] in
theorem Icc_objectGapRange {gap : Nat} (hpos : 0 < gap) (hle : gap ≤ l.object)
    (x : AbsoluteLocation) :
    x ∈ Set.Icc (⟨l.group, l.object - gap⟩ : AbsoluteLocation) ⟨l.group, l.object - 1⟩ ↔
      x ∈ objectGapRange l gap := by
  simp only [Set.mem_Icc, objectGapRange, Set.mem_ofPred_eq, le_def]
  omega

/-- A prior-object gap is refused without a trace, or its range is recorded. -/
theorem processPriorObjectGap_marked (hb : t.RefsBounded) (l : AbsoluteLocation) (gap : Nat) :
    (t.ObjectGapRefused l gap →
      (∃ e, (t.processPriorObjectGap l.group l.object gap).1 = .error e) ∧
        Marked t (t.processPriorObjectGap l.group l.object gap).2 ∅ ∅) ∧
    (¬ t.ObjectGapRefused l gap →
      (t.processPriorObjectGap l.group l.object gap).1 = .ok () ∧
        Marked t (t.processPriorObjectGap l.group l.object gap).2 (objectGapRange l gap) ∅) := by
  unfold processPriorObjectGap
  by_cases hgap : l.object < gap
  · rw [if_pos hgap]
    exact ⟨fun _ => ⟨⟨_, rfl⟩, .refl t⟩, fun h => absurd (.inl hgap) h⟩
  rw [if_neg hgap]
  by_cases hpos : 0 < gap
  swap
  · have hzero : gap = 0 := by omega
    subst hzero
    refine ⟨?_, fun _ => ⟨rfl, (Marked.refl t).congr (fun x => ?_) fun _ => Iff.rfl⟩⟩
    · rintro (h | ⟨o, h1, h2, -⟩)
      · exact absurd h hgap
      · rw [Nat.zero_min] at h1
        omega
    · simp only [objectGapRange, Set.mem_empty_iff_false, Set.mem_ofPred_eq, false_iff]
      omega
  rw [if_pos hpos]
  have hmarked := getOrCreateGroup_marked hb l.group
  have hlook := t.getOrCreateGroup_lookup l.group
  generalize t.getOrCreateGroup l.group = r at hmarked hlook
  obtain ⟨ref, t₁⟩ := r
  dsimp only at hmarked hlook ⊢
  -- The objects of the group are those the track had there before.
  have hobjects : ∀ o, (t₁.heap ref).objects.lookup o = t.slot? ⟨l.group, o⟩ := by
    intro o
    rw [← hmarked.objects]
    simp [slot?, group?, hlook]
  have hany : ((List.range' (l.object - min gap kMaxGapValidation)
      (min gap kMaxGapValidation)).any fun o => ((t₁.heap ref).objects.lookup o).isSome) = true ↔
      t.ObjectGapRefused l gap := by
    simp only [List.any_eq_true, List.mem_range'_1, hobjects, ObjectGapRefused]
    constructor
    · rintro ⟨o, ⟨h1, h2⟩, h3⟩
      exact .inr ⟨o, h1, by omega, h3⟩
    · rintro (h | ⟨o, h1, h2, h3⟩)
      · exact absurd h hgap
      · exact ⟨o, ⟨h1, by omega⟩, h3⟩
  by_cases hconf : t.ObjectGapRefused l gap
  · rw [if_pos (hany.mpr hconf)]
    exact ⟨fun _ => ⟨⟨_, rfl⟩, hmarked⟩, fun h => absurd hconf h⟩
  · rw [if_neg (fun h => hconf (hany.mp h))]
    refine ⟨fun h => absurd h hconf, fun _ => ⟨rfl, ?_⟩⟩
    have hle : (⟨l.group, l.object - gap⟩ : AbsoluteLocation) ≤ ⟨l.group, l.object - 1⟩ := by
      rw [le_def]
      dsimp only
      omega
    refine (hmarked.trans (insertGap_marked hle)).congr (fun x => ?_) (by simp)
    rw [Set.empty_union]
    exact Icc_objectGapRange hpos (Nat.le_of_not_lt hgap) x

/-- A group that a writer holds is left alone by a prior-object gap. -/
theorem processPriorObjectGap_heap (href : ref < t.nextGroupRef) (groupID objectID gap : Nat) :
    (t.processPriorObjectGap groupID objectID gap).2.heap ref = t.heap ref ∧
      ∀ g, (t.processPriorObjectGap groupID objectID gap).2.groups.lookup g = some ref ↔
        t.groups.lookup g = some ref := by
  obtain ⟨h1, -, h3⟩ := getOrCreateGroup_heap href groupID
  unfold processPriorObjectGap
  split
  · exact ⟨rfl, fun _ => Iff.rfl⟩
  · split
    · generalize t.getOrCreateGroup groupID = r at h1 h3
      dsimp only at h1 h3 ⊢
      split <;> exact ⟨h1, h3⟩
    · exact ⟨rfl, fun _ => Iff.rfl⟩

theorem processPriorObjectExtension_heap (href : ref < t.nextGroupRef) (groupID objectID : Nat)
    (ext : Extensions) :
    (t.processPriorObjectExtension groupID objectID ext).2.heap ref = t.heap ref ∧
      ∀ g, (t.processPriorObjectExtension groupID objectID ext).2.groups.lookup g = some ref ↔
        t.groups.lookup g = some ref := by
  unfold processPriorObjectExtension
  split
  · exact processPriorObjectGap_heap href _ _ _
  · exact ⟨rfl, fun _ => Iff.rfl⟩

theorem processPriorObjectExtension_marked (hb : t.RefsBounded) (l : AbsoluteLocation)
    (ext : Extensions) :
    ((∃ gap ∈ getIntExtension ext kPriorObjectIdGapExtensionType, t.ObjectGapRefused l gap) →
      (∃ e, (t.processPriorObjectExtension l.group l.object ext).1 = .error e) ∧
        Marked t (t.processPriorObjectExtension l.group l.object ext).2 ∅ ∅) ∧
    ((¬ ∃ gap ∈ getIntExtension ext kPriorObjectIdGapExtensionType, t.ObjectGapRefused l gap) →
      (t.processPriorObjectExtension l.group l.object ext).1 = .ok () ∧
        Marked t (t.processPriorObjectExtension l.group l.object ext).2 (objectGaps l ext) ∅) := by
  unfold processPriorObjectExtension objectGaps
  cases hext : getIntExtension ext kPriorObjectIdGapExtensionType with
  | none =>
    refine ⟨fun ⟨_, h, _⟩ => (by cases h), fun _ => ⟨rfl, ?_⟩⟩
    exact (Marked.refl t).congr (by simp) (by simp)
  | some gap =>
    obtain ⟨hrefused, hok⟩ := processPriorObjectGap_marked hb l gap
    refine ⟨fun ⟨gap', h, hr⟩ => ?_, fun hno => ?_⟩
    · rw [Option.mem_some_iff] at h
      exact hrefused (h ▸ hr)
    · obtain ⟨h1, h2⟩ := hok fun hr => hno ⟨gap, rfl, hr⟩
      exact ⟨h1, h2.congr (by simp) (by simp)⟩

/-- Gap extensions whose prior-group gap is settled leave no trace when they are refused, and
record the prior-object gap when they are not. -/
theorem processGapExtensions_settled (hb : t.RefsBounded) {ext : Extensions}
    (hs : t.GroupGapSettled l ext) :
    (t.ExtensionsRefused l ext →
      (∃ e, (t.processGapExtensions l.group l.object ext).1 = .error e) ∧
        Marked t (t.processGapExtensions l.group l.object ext).2 ∅ ∅) ∧
    (¬ t.ExtensionsRefused l ext →
      t.processGapExtensions l.group l.object ext =
        t.processPriorObjectExtension l.group l.object ext ∧
      (t.processGapExtensions l.group l.object ext).1 = .ok () ∧
        Marked t (t.processGapExtensions l.group l.object ext).2 (objectGaps l ext) ∅) := by
  obtain ⟨hrefused, hok⟩ := processPriorObjectExtension_marked hb l ext
  unfold processGapExtensions ExtensionsRefused
  cases hext : getIntExtension ext kPriorGroupIdGapExtensionType with
  | none =>
    refine ⟨fun h => ?_, fun h => ?_⟩
    · rcases h with ⟨_, h, _⟩ | h
      · cases h
      · exact hrefused h
    · exact ⟨rfl, hok fun h' => h (.inr h')⟩
  | some gap =>
    obtain ⟨hgroup, hpass⟩ := processPriorGroupGap_settled (hs gap hext)
    by_cases hr : t.GroupGapRefused l.group gap
    · obtain ⟨e, he⟩ := hgroup hr
      simp only [he]
      exact ⟨fun _ => ⟨⟨e, rfl⟩, .refl t⟩, fun h => absurd (.inl ⟨gap, rfl, hr⟩) h⟩
    · simp only [hpass hr]
      refine ⟨fun h => hrefused ?_, fun h => ⟨trivial, hok fun h' => h (.inr h')⟩⟩
      rcases h with ⟨gap', h, hr'⟩ | h
      · rw [Option.mem_some_iff] at h
        exact absurd (h ▸ hr') hr
      · exact h

/-- A new prior-group gap stays recorded whatever comes of the extensions. -/
theorem processGapExtensions_recorded (hb : t.RefsBounded) {ext : Extensions}
    (hs : ¬ t.GroupGapSettled l ext) :
    (t.processGapExtensions l.group l.object ext).2.priorGroupGap l.group ≠ none ∧
      t.priorGroupGap l.group = none := by
  unfold GroupGapSettled at hs
  push Not at hs
  obtain ⟨gap, hext, hle, hnone⟩ := hs
  refine ⟨?_, hnone⟩
  obtain ⟨hrec, hbound⟩ := processPriorGroupGap_recorded hb hle hnone
  unfold processGapExtensions
  rw [Option.mem_def] at hext
  simp only [hext]
  generalize t.processPriorGroupGap l.group gap = r at hrec hbound
  obtain ⟨res, t₁⟩ := r
  cases res with
  | error e => simp [hrec]
  | ok _ =>
    obtain ⟨hrefused, hok⟩ := processPriorObjectExtension_marked hbound l ext
    by_cases hr : ∃ gap ∈ getIntExtension ext kPriorObjectIdGapExtensionType,
        t₁.ObjectGapRefused l gap
    · rw [(hrefused hr).2.priorGroupGap, hrec]
      simp
    · rw [(hok hr).2.priorGroupGap, hrec]
      simp

/-- The locations after the end of a group. -/
def groupRest (l : AbsoluteLocation) : Set AbsoluteLocation :=
  {x | x.group = l.group ∧ l.object < x.object}

/-- The locations after the last group of a track. -/
def trackRest (l : AbsoluteLocation) : Set AbsoluteLocation :=
  {x | l.group < x.group ∧ x ≤ kLocationMax}

theorem Marked.valid (h : Marked t t' gap ended)
    (hg : ∀ l : AbsoluteLocation, l.Valid → (l ∈ gap ↔ l ∈ gap')) : Marked t t' gap' ended :=
  ⟨fun l hl => by rw [h.gaps l hl, hg l hl], fun l hl => by rw [h.cachedContent l hl, hg l hl],
    h.objects, h.endOfGroup, h.priorGroupGap, h.largest, h.endOfTrack⟩

theorem markGroupEnd_marked (t : CacheTrack) (l : AbsoluteLocation) :
    Marked t (t.markGroupEnd l.group l.object) (groupRest l) ∅ := by
  unfold markGroupEnd
  rw [nextInGroup_eq]
  split
  · next nextObj hnext =>
    split at hnext
    · next hlt =>
      cases hnext
      have hle : (⟨l.group, l.object + 1⟩ : AbsoluteLocation) ≤ ⟨l.group, kLocationMax.object⟩ := by
        exact .inr ⟨rfl, hlt⟩
      refine (insertGap_marked hle).valid fun x hx => ?_
      unfold AbsoluteLocation.Valid at hx
      simp only [Set.mem_Icc, groupRest, Set.mem_ofPred_eq, le_def]
      omega
    · cases hnext
  · next hnext =>
    split at hnext
    · cases hnext
    · next hlt =>
      dsimp only at hlt
      refine (Marked.refl t).valid fun x hx => ?_
      unfold AbsoluteLocation.Valid at hx
      simp only [Set.mem_empty_iff_false, groupRest, Set.mem_ofPred_eq, false_iff]
      omega

theorem markTrackEnd_marked (t : CacheTrack) (l : AbsoluteLocation) :
    Marked t (t.markTrackEnd l.group) (trackRest l) ∅ := by
  unfold markTrackEnd
  rw [nextGroup_eq]
  split
  · next nextGrp hnext =>
    split at hnext
    · next hlt =>
      cases hnext
      have hle : (⟨l.group + 1, 0⟩ : AbsoluteLocation) ≤ kLocationMax := by
        rw [le_def]
        dsimp only at hlt ⊢
        omega
      refine (insertGap_marked hle).congr (fun x => ?_) fun _ => Iff.rfl
      refine and_congr_left fun _ => ?_
      rw [le_def]
      dsimp only
      omega
    · cases hnext
  · next hnext =>
    split at hnext
    · cases hnext
    · next hlt =>
      dsimp only at hlt
      refine (Marked.refl t).congr (fun x => ?_) fun _ => Iff.rfl
      simp only [Set.mem_empty_iff_false, trackRest, Set.mem_ofPred_eq, le_def,
        false_iff]
      omega

/-- What an end marker makes known. -/
def endGaps (l : AbsoluteLocation) (status : ObjectStatus) : Set AbsoluteLocation :=
  {x | (status ≠ .normal ∧ x ∈ groupRest l) ∨ (status = .endOfTrack ∧ x ∈ trackRest l)}

theorem markEnd_marked (t : CacheTrack) (ref : GroupRef) (l : AbsoluteLocation)
    (status : ObjectStatus) :
    Marked t (t.markEnd ref l.group l.object status) (endGaps l status)
      {g | status ≠ .normal ∧ t.groups.lookup g = some ref} := by
  have hgroup := t.markGroupEnd_marked l
  have hgroups : (t.markGroupEnd l.group l.object).groups = t.groups := by
    unfold markGroupEnd
    split <;> rfl
  unfold markEnd
  cases status with
  | normal => exact (Marked.refl t).congr (by simp [endGaps]) (by simp)
  | endOfGroup =>
    refine (hgroup.trans (setEnded_marked _ ref)).congr (by simp [endGaps]) ?_
    simp [hgroups]
  | endOfTrack =>
    have htrack := (t.markGroupEnd l.group l.object).markTrackEnd_marked l
    have hgroups' : ((t.markGroupEnd l.group l.object).markTrackEnd l.group).groups = t.groups := by
      rw [← hgroups]
      unfold markTrackEnd
      split <;> rfl
    refine ((hgroup.trans htrack).trans (setEnded_marked _ ref)).congr (by simp [endGaps]) ?_
    simp [hgroups']

theorem markEnd_objects (t : CacheTrack) (ref : GroupRef) (groupID objectID : Nat)
    (status : ObjectStatus) :
    ((t.markEnd ref groupID objectID status).heap ref).objects = (t.heap ref).objects := by
  have hheap : (t.markGroupEnd groupID objectID).heap = t.heap := by
    unfold markGroupEnd
    split <;> rfl
  have hheap' : ((t.markGroupEnd groupID objectID).markTrackEnd groupID).heap = t.heap := by
    rw [← hheap]
    unfold markTrackEnd
    split <;> rfl
  unfold markEnd
  cases status <;> simp [hheap, hheap']

/-- The marks of an object were all known before: its prior-object gap, what its end marker
ends, and the flag of its group. -/
def MarksKnown (t : CacheTrack) (ref : GroupRef) (l : AbsoluteLocation) (w : ObjectWrite) : Prop :=
  (∀ x ∈ objectGaps l w.extensions ∪ endGaps l w.status, x.Valid → t.Known x) ∧
    (w.status ≠ .normal → ∀ g, t.groups.lookup g = some ref → t.groupEnded g = true)

/-- A refused object that leaves no trace in its track. -/
def RefusedQuietly (t : CacheTrack) (ref : GroupRef) (l : AbsoluteLocation) (w : ObjectWrite) :
    Prop :=
  contains t.gaps l = true ∨
    (t.GroupGapSettled l w.extensions ∧ (t.ExtensionsRefused l w.extensions ∨ t.MarksKnown ref l w))

/-- A new prior-group gap of a refused object outside the gaps stays recorded. -/
theorem cacheObject_recorded {w : ObjectWrite} {e : MoQPublishError} (hb : t.RefsBounded)
    (hgap : ¬ contains t.gaps l = true) (hs : ¬ t.GroupGapSettled l w.extensions)
    (h : t.cacheObject ref l.group l.object w = .ok (.error e, t')) :
    t'.priorGroupGap l.group ≠ none ∧ t.priorGroupGap l.group = none := by
  obtain ⟨hrec, hnone⟩ := processGapExtensions_recorded hb hs
  refine ⟨?_, hnone⟩
  unfold cacheObject at h
  rw [if_neg hgap] at h
  generalize t.processGapExtensions l.group l.object w.extensions = r at h hrec
  obtain ⟨res, t₁⟩ := r
  cases res with
  | error e' =>
    cases h
    exact hrec
  | ok _ =>
    obtain ⟨put, -, h⟩ := bind_eq_ok.mp h
    cases put with
    | error e' =>
      cases h
      rw [(t₁.markEnd_marked ref l w.status).priorGroupGap]
      exact hrec
    | ok g => cases h

theorem cacheObject_rejected_iff {w : ObjectWrite} {e : MoQPublishError} (hb : t.RefsBounded)
    (href : ref < t.nextGroupRef) (h : t.cacheObject ref l.group l.object w = .ok (.error e, t')) :
    Unchanged t t' ↔ t.RefusedQuietly ref l w := by
  by_cases hgap : contains t.gaps l = true
  · unfold cacheObject at h
    rw [if_pos hgap] at h
    cases h
    exact ⟨fun _ => .inl hgap, fun _ => (Marked.refl t).unchanged⟩
  by_cases hs : t.GroupGapSettled l w.extensions
  swap
  · obtain ⟨hrec, hnone⟩ := cacheObject_recorded hb hgap hs h
    refine ⟨fun hu => absurd (hu.priorGroupGap l.group) ?_, fun hq => ?_⟩
    · rw [hnone]
      exact hrec
    · rcases hq with hq | hq
      · exact absurd hq hgap
      · exact absurd hq.1 hs
  obtain ⟨hrefused, hok⟩ := processGapExtensions_settled hb hs
  unfold cacheObject at h
  rw [if_neg hgap] at h
  by_cases hr : t.ExtensionsRefused l w.extensions
  · obtain ⟨⟨e', he'⟩, hm⟩ := hrefused hr
    generalize t.processGapExtensions l.group l.object w.extensions = r at h he' hm
    obtain ⟨res, t₁⟩ := r
    cases he'
    cases h
    exact ⟨fun _ => .inr ⟨hs, .inl hr⟩, fun _ => hm.unchanged⟩
  · obtain ⟨heq, hres, hm⟩ := hok hr
    have hheap := processPriorObjectExtension_heap href l.group l.object w.extensions
    rw [← heq] at hheap
    generalize t.processGapExtensions l.group l.object w.extensions = r at h hres hm hheap
    obtain ⟨res, t₁⟩ := r
    cases hres
    obtain ⟨put, -, h⟩ := bind_eq_ok.mp h
    cases put with
    | ok g => cases h
    | error e' =>
      cases h
      have hmarks := hm.trans (t₁.markEnd_marked ref l w.status)
      rw [hmarks.unchanged_iff]
      constructor
      · rintro ⟨h1, h2⟩
        refine .inr ⟨hs, .inr ⟨h1, fun hst g hg => h2 g (.inr ⟨hst, ?_⟩)⟩⟩
        exact (hheap.2 g).mpr hg
      · rintro (hq | ⟨-, hq | ⟨h1, h2⟩⟩)
        · exact absurd hq hgap
        · exact absurd hq hr
        · refine ⟨h1, ?_⟩
          rintro g (hg | ⟨hst, hg⟩)
          · exact absurd hg (Set.notMem_empty g)
          · exact h2 hst g ((hheap.2 g).mp hg)

end CacheTrack

end Moqx
