import Moqx.WorldTraces

/-! What holds in every run: names, tracks and groups are numbered apart, a track that is not
stamped as evicted is cached under its name, and writers hold numbers in use. -/
namespace Moqx

open Moxygen

variable [Moxygen] {c c' : Cache} {a : Act}

/-- Acts that change which tracks and groups there are. -/
def Act.isStructural : Act → Bool
  | .emplaceTrack _ => true
  | .markEvicted _ _ _ => true
  | .eraseTrack _ _ => true
  | .emplaceGroup _ _ => true
  | .evictGroup _ _ => true
  | _ => false

/-- Two caches with the same tracks and groups. -/
structure SameSkeleton (c c' : Cache) : Prop where
  cache : c'.cache = c.cache
  nextTrackRef : c'.nextTrackRef = c.nextTrackRef
  groups : ∀ tref, (c'.tracks tref).groups = (c.tracks tref).groups
  nextGroupRef : ∀ tref, (c'.tracks tref).nextGroupRef = (c.tracks tref).nextGroupRef
  evicted : ∀ tref, (c'.tracks tref).evicted = (c.tracks tref).evicted

theorem SameSkeleton.refl (c : Cache) : SameSkeleton c c :=
  ⟨rfl, rfl, fun _ => rfl, fun _ => rfl, fun _ => rfl⟩

/-- Changing one track elsewhere than in its groups. -/
theorem SameSkeleton.of_update {tref : TrackRef} {t : CacheTrack} (hc : c'.cache = c.cache)
    (hn : c'.nextTrackRef = c.nextTrackRef) (ht : c'.tracks = Function.update c.tracks tref t)
    (hg : t.groups = (c.tracks tref).groups) (hr : t.nextGroupRef = (c.tracks tref).nextGroupRef)
    (he : t.evicted = (c.tracks tref).evicted) : SameSkeleton c c' := by
  have hcases : ∀ tr, tr = tref ∨ tr ≠ tref := fun tr => Classical.em _
  refine ⟨hc, hn, fun tr => ?_, fun tr => ?_, fun tr => ?_⟩ <;>
    rcases hcases tr with rfl | htr <;> simp [*]

/-- All other acts keep the tracks and groups. -/
theorem Prim.sameSkeleton (h : Prim c a c') (ha : a.isStructural = false) :
    SameSkeleton c c' := by
  cases h with
  | emplaceTrack | markEvicted | eraseTrack | emplaceGroup | evictGroup =>
    simp [Act.isStructural] at ha
  | popGroup => exact ⟨rfl, rfl, fun _ => rfl, fun _ => rfl, fun _ => rfl⟩
  | addTrack ftn tref =>
    unfold Cache.addTrackToLRU
    split
    · exact .refl c
    · exact .of_update rfl rfl rfl rfl rfl rfl
  | removeTrack tref =>
    unfold Cache.takeTrackFromLRU
    split
    · exact .of_update rfl rfl rfl rfl rfl rfl
    · exact .refl c
  | addGroup ftn groupID tref ref =>
    unfold Cache.addGroupToLRU
    dsimp only
    split
    · exact .refl c
    · exact .of_update rfl rfl rfl rfl rfl rfl
  | removeGroup tref groupID ref =>
    unfold Cache.takeGroupFromLRU
    dsimp only
    split
    · exact .of_update rfl rfl rfl rfl rfl rfl
    · exact .refl c
  | _ => exact .of_update rfl rfl rfl rfl rfl rfl

namespace Cache

/-- Names, tracks and groups are numbered apart, and an unstamped track is cached. -/
structure WF (c : Cache) : Prop where
  lt : ∀ ftn tref, c.cache.lookup ftn = some tref → tref < c.nextTrackRef
  inj : ∀ ftn ftn' tref, c.cache.lookup ftn = some tref → c.cache.lookup ftn' = some tref →
    ftn = ftn'
  attached : ∀ tref < c.nextTrackRef, (c.tracks tref).evicted = false →
    ∃ ftn, c.cache.lookup ftn = some tref
  bounded : ∀ tref, (c.tracks tref).RefsBounded
  groups_inj : ∀ tref g g' ref, (c.tracks tref).groups.lookup g = some ref →
    (c.tracks tref).groups.lookup g' = some ref → g = g'

/-- A track that was once cached under a name is cached under no other. -/
structure Handle (c : Cache) (tref : TrackRef) (ftn : FullTrackName) : Prop where
  lt : tref < c.nextTrackRef
  named : ∀ f, c.cache.lookup f = some tref → f = ftn

theorem WF.of_sameSkeleton (h : SameSkeleton c c') (hc : c.WF) : c'.WF := by
  obtain ⟨h1, h2, h3, h4, h5⟩ := h
  refine ⟨?_, ?_, ?_, ?_, ?_⟩
  · rw [h1, h2]
    exact hc.lt
  · rw [h1]
    exact hc.inj
  · intro tref htref hev
    rw [h2] at htref
    rw [h5] at hev
    rw [h1]
    exact hc.attached tref htref hev
  · intro tref g ref hg
    rw [h3] at hg
    rw [h4]
    exact hc.bounded tref g ref hg
  · intro tref
    rw [h3]
    exact hc.groups_inj tref

theorem lookup_emplaceTrack {ftn f : FullTrackName} {tref : TrackRef}
    (h : (c.emplaceTrack ftn).cache.lookup f = some tref) :
    (f = ftn ∧ tref = c.nextTrackRef) ∨ (f ≠ ftn ∧ c.cache.lookup f = some tref) := by
  by_cases hf : f = ftn
  · subst hf
    rw [emplaceTrack_lookup, Option.some.injEq] at h
    exact .inl ⟨rfl, h.symm⟩
  · refine .inr ⟨hf, ?_⟩
    simpa [emplaceTrack, AList.lookup_insert_ne hf] using h

theorem emplaceTrack_tracks_eq (c : Cache) (ftn : FullTrackName) (tr : TrackRef) :
    (c.emplaceTrack ftn).tracks tr = if tr = c.nextTrackRef then {} else c.tracks tr := by
  by_cases htr : tr = c.nextTrackRef
  · subst htr
    simp [emplaceTrack_tracks]
  · simp [Cache.emplaceTrack, setTrack, htr]

theorem WF.emplaceTrack {ftn : FullTrackName} (hc : c.WF) (hl : c.cache.lookup ftn = none) :
    (c.emplaceTrack ftn).WF := by
  have htracks := emplaceTrack_tracks_eq c ftn
  refine ⟨?_, ?_, ?_, ?_, ?_⟩
  · intro f tref h
    show tref < c.nextTrackRef + 1
    rcases lookup_emplaceTrack h with ⟨-, rfl⟩ | ⟨-, h⟩
    · exact Nat.lt_succ_self _
    · exact Nat.lt_succ_of_lt (hc.lt f tref h)
  · intro f f' tref h h'
    rcases lookup_emplaceTrack h with ⟨hf, ht⟩ | ⟨-, h1⟩ <;>
      rcases lookup_emplaceTrack h' with ⟨hf', ht'⟩ | ⟨-, h2⟩
    · exact hf.trans hf'.symm
    · exact absurd (ht ▸ hc.lt f' _ h2) (Nat.lt_irrefl _)
    · exact absurd (ht' ▸ hc.lt f _ h1) (Nat.lt_irrefl _)
    · exact hc.inj f f' tref h1 h2
  · intro tref htref hev
    rcases Nat.lt_succ_iff_lt_or_eq.mp htref with hlt | rfl
    · rw [htracks, if_neg (Nat.ne_of_lt hlt)] at hev
      obtain ⟨f, hf⟩ := hc.attached tref hlt hev
      exact ⟨f, Maps.lookup_insert_of_new hl hf⟩
    · exact ⟨ftn, emplaceTrack_lookup c ftn⟩
  · intro tref
    rw [htracks]
    split
    · intro g ref hg
      simp at hg
    · exact hc.bounded tref
  · intro tref
    rw [htracks]
    split
    · intro g g' ref hg
      simp at hg
    · exact hc.groups_inj tref

theorem lookup_emplaceGroup {t : CacheTrack} {groupID g : Nat} {ref : GroupRef}
    (h : (t.emplaceGroup groupID).groups.lookup g = some ref) :
    (g = groupID ∧ ref = t.nextGroupRef) ∨ (g ≠ groupID ∧ t.groups.lookup g = some ref) := by
  by_cases hg : g = groupID
  · subst hg
    rw [emplaceGroup_lookup, Option.some.injEq] at h
    exact .inl ⟨rfl, h.symm⟩
  · refine .inr ⟨hg, ?_⟩
    simpa [CacheTrack.emplaceGroup, AList.lookup_insert_ne hg] using h

section
variable (c : Cache) (tref tr : TrackRef) (groupID : Nat) (ref : GroupRef)

theorem markEvicted_tracks : (c.markEvicted tref).tracks tr =
    if tr = tref then { c.tracks tr with evicted := true } else c.tracks tr := by
  by_cases htr : tr = tref
  · subst htr
    simp [Cache.markEvicted, setTrack]
  · simp [Cache.markEvicted, setTrack, htr]

/-- Stamping a track leaves its groups, their order and its own place alone. -/
@[simp] theorem markEvicted_groups :
    ((c.markEvicted tref).tracks tr).groups = (c.tracks tr).groups := by
  rw [markEvicted_tracks]
  split <;> rfl

@[simp] theorem markEvicted_heap :
    ((c.markEvicted tref).tracks tr).heap = (c.tracks tr).heap := by
  rw [markEvicted_tracks]
  split <;> rfl

@[simp] theorem markEvicted_groupLRU :
    ((c.markEvicted tref).tracks tr).groupLRU = (c.tracks tr).groupLRU := by
  rw [markEvicted_tracks]
  split <;> rfl

@[simp] theorem markEvicted_nextGroupRef :
    ((c.markEvicted tref).tracks tr).nextGroupRef = (c.tracks tr).nextGroupRef := by
  rw [markEvicted_tracks]
  split <;> rfl

@[simp] theorem markEvicted_lruIter :
    ((c.markEvicted tref).tracks tr).lruIter = (c.tracks tr).lruIter := by
  rw [markEvicted_tracks]
  split <;> rfl

theorem markEvicted_evicted : ((c.markEvicted tref).tracks tr).evicted = false ↔
    tr ≠ tref ∧ (c.tracks tr).evicted = false := by
  rw [markEvicted_tracks]
  split
  · next htr => simp [htr]
  · next htr => simp [htr]

theorem dropGroup_tracks_eq : (c.dropGroup tref groupID ref).tracks tr =
    if tr = tref then (c.tracks tr).eraseGroup groupID ((c.tracks tr).heap ref)
    else c.tracks tr := by
  by_cases htr : tr = tref
  · subst htr
    simp
  · simp [htr]

@[simp] theorem dropGroup_heap :
    ((c.dropGroup tref groupID ref).tracks tr).heap = (c.tracks tr).heap := by
  rw [dropGroup_tracks_eq]
  split <;> rfl

@[simp] theorem dropGroup_nextGroupRef :
    ((c.dropGroup tref groupID ref).tracks tr).nextGroupRef = (c.tracks tr).nextGroupRef := by
  rw [dropGroup_tracks_eq]
  split <;> rfl

@[simp] theorem dropGroup_evicted :
    ((c.dropGroup tref groupID ref).tracks tr).evicted = (c.tracks tr).evicted := by
  rw [dropGroup_tracks_eq]
  split <;> rfl

theorem lookup_dropGroup {g : Nat} {r : GroupRef} :
    ((c.dropGroup tref groupID ref).tracks tr).groups.lookup g = some r ↔
      (c.tracks tr).groups.lookup g = some r ∧ ¬ (tr = tref ∧ g = groupID) := by
  rw [dropGroup_tracks_eq]
  by_cases htr : tr = tref
  · by_cases hg : g = groupID
    · subst hg
      simp [htr]
    · simp [htr, hg, AList.lookup_erase_ne hg]
  · simp [htr]

theorem setTrack_emplaceGroup_tracks :
    (c.setTrack tref ((c.tracks tref).emplaceGroup groupID)).tracks tr =
    if tr = tref then (c.tracks tr).emplaceGroup groupID else c.tracks tr := by
  by_cases htr : tr = tref
  · subst htr
    simp
  · simp [htr]

@[simp] theorem setTrack_emplaceGroup_groupLRU :
    ((c.setTrack tref ((c.tracks tref).emplaceGroup groupID)).tracks tr).groupLRU =
      (c.tracks tr).groupLRU := by
  rw [setTrack_emplaceGroup_tracks]
  split <;> rfl

@[simp] theorem setTrack_emplaceGroup_evicted :
    ((c.setTrack tref ((c.tracks tref).emplaceGroup groupID)).tracks tr).evicted =
      (c.tracks tr).evicted := by
  rw [setTrack_emplaceGroup_tracks]
  split <;> rfl

theorem setTrack_emplaceGroup_nextGroupRef :
    ((c.setTrack tref ((c.tracks tref).emplaceGroup groupID)).tracks tr).nextGroupRef =
      if tr = tref then (c.tracks tr).nextGroupRef + 1 else (c.tracks tr).nextGroupRef := by
  rw [setTrack_emplaceGroup_tracks]
  split <;> rfl

/-- A group is new, with the next number, or it was there before. -/
theorem lookup_setTrack_emplaceGroup {g : Nat} {r : GroupRef}
    (h : ((c.setTrack tref ((c.tracks tref).emplaceGroup groupID)).tracks tr).groups.lookup g =
      some r) :
    (tr = tref ∧ g = groupID ∧ r = (c.tracks tr).nextGroupRef) ∨
      (c.tracks tr).groups.lookup g = some r := by
  rw [setTrack_emplaceGroup_tracks] at h
  split at h
  · next htr =>
    rcases lookup_emplaceGroup h with ⟨hg, hr⟩ | ⟨-, h⟩
    · exact .inl ⟨htr, hg, hr⟩
    · exact .inr h
  · exact .inr h

end

/-- Every act keeps the numbering. -/
theorem WF.of_prim (h : Prim c a c') (hc : c.WF) : c'.WF := by
  cases hs : a.isStructural with
  | false => exact hc.of_sameSkeleton (h.sameSkeleton hs)
  | true =>
    cases h with
    | emplaceTrack ftn hl => exact hc.emplaceTrack hl
    | markEvicted ftn tref purged hl named =>
      refine ⟨hc.lt, hc.inj, ?_, ?_, ?_⟩
      · intro tr htr hev
        exact hc.attached tr htr ((markEvicted_evicted c tref tr).mp hev).2
      · intro tr g ref
        rw [markEvicted_groups, markEvicted_nextGroupRef]
        exact hc.bounded tr g ref
      · intro tr
        rw [markEvicted_groups]
        exact hc.groups_inj tr
    | eraseTrack ftn tref hl hev hempty =>
      refine ⟨?_, ?_, ?_, hc.bounded, hc.groups_inj⟩
      · intro f tr h
        exact hc.lt f tr (Maps.lookup_erase_some h).2
      · intro f f' tr h h'
        exact hc.inj f f' tr (Maps.lookup_erase_some h).2 (Maps.lookup_erase_some h').2
      · intro tr htr hnev
        obtain ⟨f, hf⟩ := hc.attached tr htr hnev
        refine ⟨f, Maps.lookup_erase_of_ne hl ?_ hf⟩
        rintro rfl
        simp [hev] at hnev
    | emplaceGroup tref groupID hl =>
      refine ⟨hc.lt, hc.inj, ?_, ?_, ?_⟩
      · intro tr htr hev
        rw [setTrack_emplaceGroup_evicted] at hev
        exact hc.attached tr htr hev
      · intro tr g ref hg
        rw [setTrack_emplaceGroup_nextGroupRef]
        rcases lookup_setTrack_emplaceGroup c tref tr groupID hg with ⟨htr, -, rfl⟩ | hg
        · rw [if_pos htr]
          exact Nat.lt_succ_self _
        · have hlt := hc.bounded tr g ref hg
          split
          · exact Nat.lt_succ_of_lt hlt
          · exact hlt
      · intro tr g g' ref hg hg'
        rcases lookup_setTrack_emplaceGroup c tref tr groupID hg with ⟨-, h1, h2⟩ | h1 <;>
          rcases lookup_setTrack_emplaceGroup c tref tr groupID hg' with ⟨-, h3, h4⟩ | h3
        · exact h1.trans h3.symm
        · exact absurd (h2 ▸ hc.bounded tr g' _ h3) (Nat.lt_irrefl _)
        · exact absurd (h4 ▸ hc.bounded tr g _ h1) (Nat.lt_irrefl _)
        · exact hc.groups_inj tr g g' ref h1 h3
    | evictGroup tref groupID ref hl hb named =>
      refine ⟨hc.lt, hc.inj, ?_, ?_, ?_⟩
      · intro tr htr hev
        rw [dropGroup_evicted] at hev
        exact hc.attached tr htr hev
      · intro tr g r hg
        rw [dropGroup_nextGroupRef]
        exact hc.bounded tr g r ((lookup_dropGroup c tref tr groupID ref).mp hg).1
      · intro tr g g' r hg hg'
        exact hc.groups_inj tr g g' r ((lookup_dropGroup c tref tr groupID ref).mp hg).1
          ((lookup_dropGroup c tref tr groupID ref).mp hg').1
    | _ => simp [Act.isStructural] at hs

theorem WF.handle {tref : TrackRef} {ftn : FullTrackName} (hc : c.WF)
    (h : c.cache.lookup ftn = some tref) : c.Handle tref ftn :=
  ⟨hc.lt ftn tref h, fun f hf => hc.inj f ftn tref hf h⟩

end Cache

/-- Every act keeps a track's claim to its name. -/
theorem Cache.Handle.of_prim {tref : TrackRef} {ftn : FullTrackName} (h : Prim c a c')
    (hh : c.Handle tref ftn) : c'.Handle tref ftn := by
  cases hs : a.isStructural with
  | false =>
    obtain ⟨h1, h2, -⟩ := h.sameSkeleton hs
    exact ⟨by rw [h2]; exact hh.lt, by rw [h1]; exact hh.named⟩
  | true =>
    cases h with
    | emplaceTrack f hl =>
      refine ⟨Nat.lt_succ_of_lt hh.lt, fun g hg => ?_⟩
      rcases Cache.lookup_emplaceTrack hg with ⟨-, ht⟩ | ⟨-, hg⟩
      · exact absurd ht (Nat.ne_of_lt hh.lt)
      · exact hh.named g hg
    | eraseTrack f tr =>
      exact ⟨hh.lt, fun g hg => hh.named g (Maps.lookup_erase_some hg).2⟩
    | markEvicted | emplaceGroup | evictGroup => exact ⟨hh.lt, hh.named⟩
    | _ => simp [Act.isStructural] at hs

/-- No act takes a group number back. -/
theorem Prim.nextGroupRef_le {tref : TrackRef} (h : Prim c a c') (hlt : tref < c.nextTrackRef) :
    (c.tracks tref).nextGroupRef ≤ (c'.tracks tref).nextGroupRef := by
  cases hs : a.isStructural with
  | false => exact Nat.le_of_eq ((h.sameSkeleton hs).nextGroupRef tref).symm
  | true =>
    cases h with
    | emplaceTrack f hl =>
      have hne : tref ≠ c.nextTrackRef := Nat.ne_of_lt hlt
      simp [Cache.emplaceTrack, Cache.setTrack, hne]
    | eraseTrack f tr => exact Nat.le_refl _
    | markEvicted f tr => rw [Cache.markEvicted_nextGroupRef]
    | emplaceGroup tr groupID =>
      rw [Cache.setTrack_emplaceGroup_nextGroupRef]
      split
      · exact Nat.le_succ _
      · exact Nat.le_refl _
    | evictGroup tr groupID => rw [Cache.dropGroup_nextGroupRef]
    | _ => simp [Act.isStructural] at hs

/-- Only one act stamps a track. -/
theorem Prim.evicted_eq {tref : TrackRef} (h : Prim c a c') (hlt : tref < c.nextTrackRef)
    (ha : ∀ ftn cause, a ≠ .markEvicted ftn tref cause) :
    (c'.tracks tref).evicted = (c.tracks tref).evicted := by
  cases hs : a.isStructural with
  | false => exact (h.sameSkeleton hs).evicted tref
  | true =>
    cases h with
    | emplaceTrack f hl =>
      have hne : tref ≠ c.nextTrackRef := Nat.ne_of_lt hlt
      simp [Cache.emplaceTrack, Cache.setTrack, hne]
    | eraseTrack f tr => rfl
    | markEvicted f tr cause =>
      have hne : tref ≠ tr := by
        rintro rfl
        exact ha f cause rfl
      simp [Cache.markEvicted, Cache.setTrack, hne]
    | emplaceGroup tr groupID => rw [Cache.setTrack_emplaceGroup_evicted]
    | evictGroup tr groupID => rw [Cache.dropGroup_evicted]
    | _ => simp [Act.isStructural] at hs

theorem Prim.nextTrackRef_le (h : Prim c a c') : c.nextTrackRef ≤ c'.nextTrackRef := by
  cases hs : a.isStructural with
  | false => exact Nat.le_of_eq (h.sameSkeleton hs).nextTrackRef.symm
  | true =>
    cases h with
    | emplaceTrack => exact Nat.le_succ _
    | _ => first | exact Nat.le_refl _ | simp [Act.isStructural] at hs

/-- What every sequence of acts keeps. -/
structure Cache.Grows (c c' : Cache) : Prop where
  wf : c'.WF
  tracks : c.nextTrackRef ≤ c'.nextTrackRef
  handle : ∀ tref ftn, c.Handle tref ftn → c'.Handle tref ftn
  refs : ∀ tref < c.nextTrackRef,
    (c.tracks tref).nextGroupRef ≤ (c'.tracks tref).nextGroupRef

theorem Cache.Grows.refl (hc : c.WF) : c.Grows c :=
  ⟨hc, Nat.le_refl _, fun _ _ h => h, fun _ _ => Nat.le_refl _⟩

theorem Cache.Grows.of_prim {d : Cache} (hg : c.Grows d) (h : Prim d a c') : c.Grows c' := by
  obtain ⟨hwf, htracks, hhandle, hrefs⟩ := hg
  refine ⟨hwf.of_prim h, Nat.le_trans htracks h.nextTrackRef_le,
    fun tr f hh => (hhandle tr f hh).of_prim h, fun tr htr => ?_⟩
  exact Nat.le_trans (hrefs tr htr) (h.nextGroupRef_le (Nat.lt_of_lt_of_le htr htracks))

theorem Cache.Grows.of_acts {P : Cache → Act → Prop} (h : Acts P c c') (hc : c.WF) :
    c.Grows c' :=
  h.keeps (fun _ _ _ _ hprim hg => hg.of_prim hprim) (.refl hc)

theorem Cache.Grows.of_steps {P : Cache → Act → Prop} (h : Steps P c c') (hc : c.WF) :
    c.Grows c' := .of_acts h.acts hc

end Moqx
