import Moqx.Rejected

/-! Which objects a track accepts, told from the object and from the track before it. -/
namespace Moqx

open Moxygen Maps

variable [Moxygen] {t t' t'' : CacheTrack}

/-- A cached entry does not let itself be overwritten: its status or its forwarding preference
is another, or it is complete with another payload size. -/
def CacheEntry.OverwriteRefused (cached : CacheEntry) (w : ObjectWrite) : Prop :=
  w.status ≠ cached.status ∨
    (w.status = .normal ∧ cached.complete = true ∧
      (w.payload.isSome ≠ cached.payload.isSome ∨
        (w.payload.isSome = true ∧ w.payloadSize ≠ cached.payloadSize))) ∨
    cached.forwardingPreferenceIsDatagram ≠ w.forwardingPreferenceIsDatagram

theorem overwriteError_none_iff {cached : CacheEntry} {w : ObjectWrite} :
    CacheGroup.overwriteError cached w = none ↔ ¬ cached.OverwriteRefused w := by
  unfold CacheGroup.overwriteError CacheEntry.OverwriteRefused
  split_ifs with h1 h2 h3
  · simp [h1]
  · simp [h2]
  · simp [h3]
  · simp only [true_iff, not_or]
    exact ⟨h1, h2, h3⟩

theorem CacheGroup.putObject_refused_iff {g : CacheGroup} {objectID : Nat} {w : ObjectWrite}
    {res : Expected CacheGroup} (h : g.putObject objectID w = .ok res) :
    (∃ e, res = .error e) ↔ ∃ cached ∈ g.objects.lookup objectID, cached.OverwriteRefused w := by
  unfold putObject at h
  cases hl : g.objects.lookup objectID with
  | none =>
    rw [hl] at h
    cases h
    simp
  | some cached =>
    rw [hl] at h
    dsimp only at h
    have hiff : overwriteError cached w = none ↔ ¬ cached.OverwriteRefused w :=
      overwriteError_none_iff
    cases ho : overwriteError cached w with
    | some msg =>
      rw [ho] at h hiff
      cases h
      refine ⟨fun _ => ⟨cached, rfl, ?_⟩, fun _ => ⟨_, rfl⟩⟩
      by_contra hno
      exact absurd (hiff.mpr hno) (by simp)
    | none =>
      rw [ho] at h hiff
      obtain ⟨total, -, h⟩ := bind_eq_ok.mp h
      cases h
      refine ⟨fun ⟨e, he⟩ => (by cases he), ?_⟩
      rintro ⟨cached', hc, href⟩
      cases hc
      exact absurd href (hiff.mp rfl)

namespace CacheTrack

/-- Two states of a track with the same groups and objects. -/
structure SameObjects (t t' : CacheTrack) : Prop where
  groups : t'.groups = t.groups
  objects : ∀ ref, (t'.heap ref).objects = (t.heap ref).objects
  nextGroupRef : t'.nextGroupRef = t.nextGroupRef

namespace SameObjects

theorem refl (t : CacheTrack) : SameObjects t t := ⟨rfl, fun _ => rfl, rfl⟩

theorem trans (h : SameObjects t t') (h' : SameObjects t' t'') : SameObjects t t'' :=
  ⟨h'.groups.trans h.groups, fun ref => (h'.objects ref).trans (h.objects ref),
    h'.nextGroupRef.trans h.nextGroupRef⟩

theorem slot? (h : SameObjects t t') (l : AbsoluteLocation) : t'.slot? l = t.slot? l := by
  unfold CacheTrack.slot? group?
  rw [h.groups]
  cases t.groups.lookup l.group with
  | none => rfl
  | some ref => simp [h.objects]

theorem bounded (h : SameObjects t t') (hb : t.RefsBounded) : t'.RefsBounded := by
  intro g ref hl
  rw [h.groups] at hl
  rw [h.nextGroupRef]
  exact hb g ref hl

end SameObjects

variable {groupID : Nat} {ref : GroupRef} {l : AbsoluteLocation}

theorem hasObjects_iff : t.hasObjects groupID = true ↔ ∃ o, t.slot? ⟨groupID, o⟩ ≠ none := by
  unfold hasObjects slot?
  dsimp only
  cases t.group? groupID with
  | none => simp
  | some g =>
    simp only [Option.any_some, Option.bind_some, Bool.not_eq_true', List.isEmpty_eq_false_iff]
    constructor
    · intro hne
      obtain ⟨e, he⟩ := List.exists_mem_of_ne_nil _ hne
      refine ⟨e.1, ?_⟩
      rw [Ne, AList.lookup_eq_none, not_not]
      exact AList.mem_keys.mpr (List.mem_map_of_mem he)
    · rintro ⟨o, ho⟩ hnil
      rw [Ne, AList.lookup_eq_none, not_not, AList.mem_keys] at ho
      simp [AList.keys, hnil] at ho

/-- A prior-group gap is refused: it disagrees with its group, or it is new and one of the
nearest groups before it, as far as they are still there, has an object. -/
def PriorGroupRefused (t : CacheTrack) (kept : Set Nat) (groupID gap : Nat) : Prop :=
  t.GroupGapRefused groupID gap ∨
    (t.priorGroupGap groupID = none ∧ ∃ g ∈ kept, groupID ≤ g + min gap kMaxGapValidation ∧
      g < groupID ∧ ∃ o, t.slot? ⟨g, o⟩ ≠ none)

/-- An object is refused: it lies in a gap, one of its gap extensions is refused, or the object
that is there does not let itself be overwritten. -/
def ObjectRefused (t : CacheTrack) (kept : Set Nat) (l : AbsoluteLocation) (w : ObjectWrite) :
    Prop :=
  contains t.gaps l = true ∨
    (∃ gap ∈ getIntExtension w.extensions kPriorGroupIdGapExtensionType,
      t.PriorGroupRefused kept l.group gap) ∨
    (∃ gap ∈ getIntExtension w.extensions kPriorObjectIdGapExtensionType,
      t.ObjectGapRefused l gap) ∨
    ∃ cached ∈ t.slot? l, cached.OverwriteRefused w

theorem getOrCreateGroup_of_lookup (h : t.groups.lookup groupID = some ref) :
    t.getOrCreateGroup groupID = (ref, t) := by
  simp [getOrCreateGroup, h]

theorem priorGroupGap_of_lookup (h : t.groups.lookup groupID = some ref) :
    t.priorGroupGap groupID = (t.heap ref).seenPriorGroupIdGap := by
  simp [priorGroupGap, group?, h]

theorem slot?_of_lookup (h : t.groups.lookup l.group = some ref) :
    t.slot? l = (t.heap ref).objects.lookup l.object := by
  simp [slot?, group?, h]

theorem setSeen_sameObjects (t : CacheTrack) (ref : GroupRef) (seen : Option Nat) :
    SameObjects t (t.setGroup ref { t.heap ref with seenPriorGroupIdGap := seen }) := by
  refine ⟨rfl, fun ref' => ?_, rfl⟩
  by_cases hr : ref' = ref
  · subst hr
    simp [setGroup]
  · simp [setGroup, hr]

theorem processPriorGroupGap_refused_iff (hlook : t.groups.lookup groupID = some ref) (gap : Nat) :
    ((∃ e, (t.processPriorGroupGap groupID gap).1 = .error e) ↔
      t.PriorGroupRefused Set.univ groupID gap) ∧
      SameObjects t (t.processPriorGroupGap groupID gap).2 := by
  unfold processPriorGroupGap PriorGroupRefused GroupGapRefused
  by_cases hgap : groupID < gap
  · rw [if_pos hgap]
    exact ⟨⟨fun _ => .inl (.inl hgap), fun _ => ⟨_, rfl⟩⟩, .refl t⟩
  rw [if_neg hgap, getOrCreateGroup_of_lookup hlook, priorGroupGap_of_lookup hlook]
  dsimp only
  cases hseen : (t.heap ref).seenPriorGroupIdGap with
  | some seen =>
    dsimp only
    by_cases hne : seen ≠ gap
    · rw [if_pos hne]
      exact ⟨⟨fun _ => .inl (.inr ⟨seen, rfl, hne⟩), fun _ => ⟨_, rfl⟩⟩, .refl t⟩
    · rw [if_neg hne]
      refine ⟨⟨fun ⟨e, he⟩ => (by cases he), ?_⟩, .refl t⟩
      rintro ((h | ⟨seen', hs, hne'⟩) | ⟨h, -⟩)
      · exact absurd h hgap
      · cases hs
        exact absurd hne' hne
      · cases h
  | none =>
    -- The groups before are looked at after the gap was recorded, which is not in their way.
    have hsame := t.setSeen_sameObjects ref (some gap)
    have hany : (List.range' (groupID - min gap kMaxGapValidation)
        (min gap kMaxGapValidation)).any (t.setGroup ref
          { t.heap ref with seenPriorGroupIdGap := some gap }).hasObjects = true ↔
        ∃ g ∈ (Set.univ : Set Nat), groupID ≤ g + min gap kMaxGapValidation ∧ g < groupID ∧
          ∃ o, t.slot? ⟨g, o⟩ ≠ none := by
      simp only [List.any_eq_true, List.mem_range'_1, hasObjects_iff, hsame.slot?, Set.mem_univ,
        true_and]
      refine exists_congr fun g => ?_
      rw [← and_assoc]
      refine and_congr_left fun _ => ?_
      omega
    dsimp only
    by_cases hpos : 0 < gap
    · rw [if_pos hpos]
      split_ifs with hconf
      · exact ⟨⟨fun _ => .inr ⟨rfl, hany.mp hconf⟩, fun _ => ⟨_, rfl⟩⟩, hsame⟩
      · refine ⟨⟨fun ⟨e, he⟩ => (by cases he), ?_⟩, hsame.trans ⟨rfl, fun _ => rfl, rfl⟩⟩
        rintro ((h | ⟨seen', hs, -⟩) | ⟨-, h⟩)
        · exact absurd h hgap
        · cases hs
        · exact absurd (hany.mpr h) hconf
    · rw [if_neg hpos]
      refine ⟨⟨fun ⟨e, he⟩ => (by cases he), ?_⟩, hsame⟩
      rintro ((h | ⟨seen', hs, -⟩) | ⟨-, g, -, h1, h2, -⟩)
      · exact absurd h hgap
      · cases hs
      · omega

theorem processPriorObjectExtension_refused_iff (hb : t.RefsBounded) (l : AbsoluteLocation)
    (ext : Extensions) :
    (∃ e, (t.processPriorObjectExtension l.group l.object ext).1 = .error e) ↔
      ∃ gap ∈ getIntExtension ext kPriorObjectIdGapExtensionType, t.ObjectGapRefused l gap := by
  obtain ⟨hrefused, hok⟩ := processPriorObjectExtension_marked hb l ext
  refine ⟨fun ⟨e, he⟩ => ?_, fun h => (hrefused h).1⟩
  by_contra hno
  rw [(hok hno).1] at he
  cases he

theorem processPriorObjectExtension_sameObjects (hlook : t.groups.lookup l.group = some ref)
    (ext : Extensions) : SameObjects t (t.processPriorObjectExtension l.group l.object ext).2 := by
  unfold processPriorObjectExtension processPriorObjectGap
  rw [getOrCreateGroup_of_lookup hlook]
  dsimp only
  split
  · split_ifs <;> exact ⟨rfl, fun _ => rfl, rfl⟩
  · exact .refl t

theorem objectGapRefused_congr (h : SameObjects t t') (l : AbsoluteLocation) (gap : Nat) :
    t'.ObjectGapRefused l gap ↔ t.ObjectGapRefused l gap := by
  unfold ObjectGapRefused
  simp only [h.slot?]

theorem processGapExtensions_refused_iff (hb : t.RefsBounded)
    (hlook : t.groups.lookup l.group = some ref) (ext : Extensions) :
    ((∃ e, (t.processGapExtensions l.group l.object ext).1 = .error e) ↔
      (∃ gap ∈ getIntExtension ext kPriorGroupIdGapExtensionType,
        t.PriorGroupRefused Set.univ l.group gap) ∨
      ∃ gap ∈ getIntExtension ext kPriorObjectIdGapExtensionType, t.ObjectGapRefused l gap) ∧
      SameObjects t (t.processGapExtensions l.group l.object ext).2 := by
  unfold processGapExtensions
  cases hext : getIntExtension ext kPriorGroupIdGapExtensionType with
  | none =>
    refine ⟨?_, processPriorObjectExtension_sameObjects hlook ext⟩
    rw [processPriorObjectExtension_refused_iff hb]
    simp
  | some gap =>
    obtain ⟨hiff, hsame⟩ := processPriorGroupGap_refused_iff hlook gap
    dsimp only
    generalize t.processPriorGroupGap l.group gap = r at hiff hsame
    obtain ⟨res, t₁⟩ := r
    cases res with
    | error e =>
      exact ⟨⟨fun _ => .inl ⟨gap, rfl, hiff.mp ⟨e, rfl⟩⟩, fun _ => ⟨e, rfl⟩⟩, hsame⟩
    | ok _ =>
      have hno : ¬ t.PriorGroupRefused Set.univ l.group gap := by
        intro h
        obtain ⟨e, he⟩ := hiff.mpr h
        cases he
      have hlook₁ : t₁.groups.lookup l.group = some ref := by rw [hsame.groups, hlook]
      refine ⟨?_, hsame.trans (processPriorObjectExtension_sameObjects hlook₁ ext)⟩
      rw [processPriorObjectExtension_refused_iff (hsame.bounded hb)]
      simp only [objectGapRefused_congr hsame]
      refine ⟨.inr, ?_⟩
      rintro (⟨gap', hgap', h⟩ | h)
      · cases hgap'
        exact absurd h hno
      · exact h

/-- What is written to a group of the track is refused in exactly these cases. -/
theorem cacheObject_refused_iff (hb : t.RefsBounded) {w : ObjectWrite} {res : Expected Unit}
    (hlook : t.groups.lookup l.group = some ref)
    (h : t.cacheObject ref l.group l.object w = .ok (res, t')) :
    (∃ e, res = .error e) ↔ t.ObjectRefused Set.univ l w := by
  unfold ObjectRefused
  unfold cacheObject at h
  by_cases hgap : contains t.gaps l = true
  · rw [if_pos hgap] at h
    cases h
    exact ⟨fun _ => .inl hgap, fun _ => ⟨_, rfl⟩⟩
  rw [if_neg hgap] at h
  rw [or_iff_right hgap, ← or_assoc]
  obtain ⟨hiff, hsame⟩ := processGapExtensions_refused_iff hb hlook w.extensions
  rw [← hiff]
  generalize t.processGapExtensions l.group l.object w.extensions = r at h hsame
  obtain ⟨gapRes, t₁⟩ := r
  cases gapRes with
  | error e =>
    cases h
    exact ⟨fun _ => .inl ⟨e, rfl⟩, fun _ => ⟨e, rfl⟩⟩
  | ok _ =>
    obtain ⟨put, hput, h⟩ := bind_eq_ok.mp h
    have hslot : ((t₁.markEnd ref l.group l.object w.status).heap ref).objects.lookup l.object =
        t.slot? l := by
      rw [markEnd_objects, hsame.objects, slot?_of_lookup hlook]
    have hrefused := CacheGroup.putObject_refused_iff hput
    rw [hslot] at hrefused
    rw [or_iff_right (by simp), ← hrefused]
    cases put <;> cases h <;> simp

end CacheTrack

namespace Cache

variable {c c' : Cache} {tref : TrackRef}

/-- The groups of a track that are left once there is room for a group. -/
def keptGroups (c : Cache) (tref : TrackRef) (groupID : Nat) : Set Nat :=
  {g | (c.tracks tref).groups.lookup groupID = none → g ∉ c.groupVictims tref}

/-- Finding or making the group of an object decides nothing about the object. -/
theorem getOrCreateGroupWithEviction_refused_iff {l : AbsoluteLocation} {ftn : FullTrackName}
    {ref : GroupRef} (hw : c.WF) (hc : c.ListsFresh)
    (h : c.getOrCreateGroupWithEviction tref l.group ftn = .ok (ref, c')) :
    (c'.tracks tref).RefsBounded ∧ (c.tracks tref).SameEnd (c'.tracks tref) ∧
      ∀ w, (c'.tracks tref).ObjectRefused Set.univ l w ↔
        (c.tracks tref).ObjectRefused (c.keptGroups tref l.group) l w := by
  cases hlook : (c.tracks tref).groups.lookup l.group with
  | some ref' =>
    have hall : c.keptGroups tref l.group = Set.univ := by
      simp [keptGroups, hlook]
    simp only [getOrCreateGroupWithEviction, hlook] at h
    cases h
    rw [hall]
    exact ⟨hw.bounded tref, ⟨rfl, rfl⟩, fun _ => Iff.rfl⟩
  | none =>
    obtain ⟨t, hemptied, hnone, hmarked, hempty, hbound, -, hgaps⟩ :=
      getOrCreateGroupWithEviction_new hw hc hlook h
    refine ⟨hbound, ⟨hmarked.largest.trans hemptied.largest,
      hmarked.endOfTrack.trans hemptied.endOfTrack⟩, fun w => ?_⟩
    have hslot : ∀ x, (c'.tracks tref).slot? x =
        if x.group ∈ c.groupVictims tref then none else (c.tracks tref).slot? x := by
      intro x
      rw [hmarked.objects]
      unfold CacheTrack.slot? CacheTrack.group?
      rw [hemptied.groups, hemptied.heap]
      split <;> rfl
    have hprior : (c'.tracks tref).priorGroupGap l.group = none ∧
        (c.tracks tref).priorGroupGap l.group = none := by
      rw [hmarked.priorGroupGap]
      simp [CacheTrack.priorGroupGap, CacheTrack.group?, hnone, hlook]
    have hown : ∀ o, (c'.tracks tref).slot? ⟨l.group, o⟩ = none ∧
        (c.tracks tref).slot? ⟨l.group, o⟩ = none := by
      intro o
      have hslot' : (c.tracks tref).slot? ⟨l.group, o⟩ = none := by
        simp [CacheTrack.slot?, CacheTrack.group?, hlook]
      rw [hslot, hslot']
      simp
    have hgroups : ∀ gap, (c'.tracks tref).PriorGroupRefused Set.univ l.group gap ↔
        (c.tracks tref).PriorGroupRefused (c.keptGroups tref l.group) l.group gap := by
      intro gap
      unfold CacheTrack.PriorGroupRefused CacheTrack.GroupGapRefused
      rw [hprior.1, hprior.2]
      refine or_congr_right (and_congr_right fun _ => exists_congr fun g => ?_)
      by_cases hg : g ∈ c.groupVictims tref
      · simp [hslot, hg, keptGroups, hlook]
      · simp [hslot, hg, keptGroups]
    have hobjects : ∀ gap, (c'.tracks tref).ObjectGapRefused l gap ↔
        (c.tracks tref).ObjectGapRefused l gap := by
      intro gap
      unfold CacheTrack.ObjectGapRefused
      simp only [(hown _).1, (hown _).2]
    have hl : (c'.tracks tref).slot? l = (c.tracks tref).slot? l :=
      (hown l.object).1.trans (hown l.object).2.symm
    unfold CacheTrack.ObjectRefused
    simp only [hgaps, hgroups, hobjects, hl]

theorem sameEnd_of_evicts {a : Act} (h : Prim c a c') (ha : a.Evicts) :
    (c.tracks tref).SameEnd (c'.tracks tref) := by
  cases h with
  | evictGroup tr groupID ref =>
    rw [dropGroup_tracks_eq]
    split <;> exact ⟨rfl, rfl⟩
  | markEvicted ftn tr =>
    rw [markEvicted_tracks]
    split <;> exact ⟨rfl, rfl⟩
  | eraseTrack => exact ⟨rfl, rfl⟩
  | popGroup => exact ⟨rfl, rfl⟩
  | _ => exact False.elim ha

theorem evictForByteLimitIfNeeded_sameEnd (h : c.evictForByteLimitIfNeeded = .ok c') :
    (c.tracks tref).SameEnd (c'.tracks tref) := by
  have hspec : Spec (fun _ a => a.Evicts) c c.evictForByteLimitIfNeeded id :=
    evictForByteLimitIfNeeded_spec fun _ _ h => h
  exact (hspec.steps h).keeps (I := fun d => (c.tracks tref).SameEnd (d.tracks tref))
    (fun _ _ _ ha hprim hd => hd.trans (sameEnd_of_evicts hprim ha)) ⟨rfl, rfl⟩

/-- The cache's answer to an object is its track's. -/
theorem cacheObjectAndUpdateBytes_answer {ref : GroupRef} {l : AbsoluteLocation} {w : ObjectWrite}
    {res : Expected Unit}
    (h : c.cacheObjectAndUpdateBytes tref ref l.group l.object w = .ok (res, c')) :
    (∃ t, (c.tracks tref).cacheObject ref l.group l.object w = .ok (res, t)) ∧
      (c.tracks tref).SameEnd (c'.tracks tref) := by
  obtain ⟨⟨res', t⟩, hres, h⟩ := bind_eq_ok.mp h
  have hend := CacheTrack.cacheObject_sameEnd hres
  cases res' with
  | error e =>
    cases h
    refine ⟨⟨t, hres⟩, ?_⟩
    rw [setTrack_tracks]
    exact hend
  | ok _ =>
    obtain ⟨total, -, h⟩ := bind_eq_ok.mp h
    obtain ⟨d, hevict, h⟩ := bind_eq_ok.mp h
    cases h
    refine ⟨⟨t, hres⟩, ?_⟩
    refine CacheTrack.SameEnd.trans ?_ (evictForByteLimitIfNeeded_sameEnd hevict)
    have htracks : ∀ (d : Cache) (n : Nat), (d.setTotal n).tracks = d.tracks := fun _ _ => rfl
    rw [htracks, setTrack_tracks]
    exact ⟨hend.1, hend.2⟩

/-- What a fetch delivers at a location is refused by the cache. -/
def FetchRefused (c : Cache) (tref : TrackRef) (l : AbsoluteLocation) (w : ObjectWrite) : Prop :=
  (c.tracks tref).ObjectRefused (c.keptGroups tref l.group) l w ∨
    (c.tracks tref).LargestRefused l (w.status = .endOfTrack)

end Cache

end Moqx
