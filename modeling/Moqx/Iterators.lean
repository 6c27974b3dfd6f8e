import Moqx.ByteLimit
import Moqx.Registration
import Moqx.Tracks

/-! The iterators that tracks and groups keep into the lists of evictable tracks and groups: a
node that is erased through such an iterator has to be in its list. -/
namespace Moqx

open Moxygen Maps Cache

section
variable [Moxygen] {c c' : Cache} {a : Act}

namespace Cache

/-- The groups of cached tracks are in both lists when they are marked, and no group that is
still in an evicted track is marked. -/
structure Linked (c : Cache) : Prop where
  iters : ∀ tref ref, ((c.tracks tref).heap ref).globalLruIter = c.mark tref ref
  bound : ∀ tref ref n, c.mark tref ref = some n → n < c.nextNode
  inj : ∀ tref ref tref' ref' n, c.mark tref ref = some n → c.mark tref' ref' = some n →
    tref = tref' ∧ ref = ref'
  listed : ∀ ftn tref groupID ref n, c.cache.lookup ftn = some tref →
    (c.tracks tref).groups.lookup groupID = some ref → c.mark tref ref = some n →
    (∃ g, (n, g) ∈ (c.tracks tref).groupLRU) ∧ ∃ g, (n, ftn, g) ∈ c.globalGroupLRU
  gone : ∀ tref groupID ref, (∀ ftn, c.cache.lookup ftn ≠ some tref) →
    (c.tracks tref).groups.lookup groupID = some ref → c.mark tref ref = none

variable {groupID : Nat} {ref : GroupRef} {tref : TrackRef} {ftn : FullTrackName}

/-- Both iterators of an attached group can be used. -/
theorem Linked.groupNodes (hc : c.Linked) (hg : (c.tracks tref).groups.lookup groupID = some ref) :
    c.GroupNodes tref ref := by
  by_cases hf : ∃ ftn, c.cache.lookup ftn = some tref
  · obtain ⟨ftn, hf⟩ := hf
    refine ⟨fun n hn => (hc.listed ftn tref groupID ref n hf hg hn).1, fun n hn => ?_⟩
    rw [hc.iters] at hn
    obtain ⟨g, hmem⟩ := (hc.listed ftn tref groupID ref n hf hg hn).2
    exact ⟨(ftn, g), hmem⟩
  · have hnone := hc.gone tref groupID ref (not_exists.mp hf) hg
    refine ⟨fun n hn => ?_, fun n hn => ?_⟩
    · rw [mark] at hnone
      rw [hnone] at hn
      cases hn
    · rw [hc.iters, hnone] at hn
      cases hn

theorem Linked.marks (hc : c.Linked) : c.MarksOk := ⟨hc.iters, hc.bound, hc.inj⟩

theorem Linked.of_sameLists (h : SameLists c c') (hc : c.Linked) : c'.Linked := by
  obtain ⟨⟨h1, h2, h3, h4, h5⟩, h6, h7, h8, h9, h10⟩ := h
  refine ⟨fun tref ref => ?_, fun tref ref n hn => ?_, fun tref ref tref' ref' n => ?_,
    fun ftn tref groupID ref n => ?_, fun tref groupID ref hf hg => ?_⟩
  · rw [h10, h9]
    exact hc.iters tref ref
  · rw [h9] at hn
    exact Nat.lt_of_lt_of_le (hc.bound tref ref n hn) h6
  · rw [h9, h9]
    exact hc.inj tref ref tref' ref' n
  · rw [h1, h3, h9, h8, h7]
    exact hc.listed ftn tref groupID ref n
  · rw [h1] at hf
    rw [h3] at hg
    rw [h9]
    exact hc.gone tref groupID ref hf hg

/-- A group may be listed under the name of its track, if it has one, and in an evicted track
only when it is out of the group map. -/
def LinkOk (c : Cache) : Act → Prop
  | .addGroup ftn _ tref ref => (∀ f, c.cache.lookup f = some tref → f = ftn) ∧
      ((∃ f, c.cache.lookup f = some tref) ∨
        ∀ groupID, (c.tracks tref).groups.lookup groupID ≠ some ref)
  | _ => True

theorem Linked.emplaceTrack (hc : c.Linked) (hl : c.cache.lookup ftn = none) :
    (c.emplaceTrack ftn).Linked := by
  obtain ⟨hiters, hbound, hinj⟩ := hc.marks.of_prim (.emplaceTrack c ftn hl)
  refine ⟨hiters, hbound, hinj, fun f tref groupID ref n hf hg hm => ?_,
    fun tref groupID ref hf hg => ?_⟩
  · rw [mark_emplaceTrack] at hm
    rw [emplaceTrack_tracks_eq] at hg ⊢
    split at hg
    · cases hg
    · next htr =>
      rw [if_neg htr] at hm ⊢
      rcases lookup_emplaceTrack hf with ⟨-, h⟩ | ⟨-, hf⟩
      · exact absurd h htr
      · exact hc.listed f tref groupID ref n hf hg hm
  · rw [mark_emplaceTrack]
    rw [emplaceTrack_tracks_eq] at hg
    split at hg
    · cases hg
    · next htr =>
      rw [if_neg htr]
      exact hc.gone tref groupID ref (fun f hf' => hf f (lookup_insert_of_new hl hf')) hg

theorem Linked.markEvicted (hc : c.Linked) : (c.markEvicted tref).Linked := by
  constructor <;>
    simp only [markEvicted_groups, markEvicted_groupLRU, markEvicted_heap, mark_markEvicted]
  · exact hc.iters
  · exact hc.bound
  · exact hc.inj
  · exact hc.listed
  · exact hc.gone

theorem Linked.eraseTrack (hc : c.Linked) (hl : c.cache.lookup ftn = some tref)
    (hempty : (c.tracks tref).groups.keys = []) :
    ({ c with cache := c.cache.erase ftn } : Cache).Linked := by
  refine ⟨hc.iters, hc.bound, hc.inj, fun f tr groupID ref n hf => ?_,
    fun tr groupID ref hf hg => ?_⟩
  · exact hc.listed f tr groupID ref n (lookup_erase_some hf).2
  · refine hc.gone tr groupID ref (fun f hf' => hf f (lookup_erase_of_ne hl ?_ hf')) hg
    rintro rfl
    rw [lookup_none_of_keys hempty] at hg
    cases hg

theorem Linked.emplaceGroup (hc : c.Linked) (hl : (c.tracks tref).groups.lookup groupID = none) :
    (c.setTrack tref ((c.tracks tref).emplaceGroup groupID)).Linked := by
  have hmark := fun tr => mark_emplaceGroup c tref tr groupID
  have hback := fun tr => @lookup_setTrack_emplaceGroup _ c tref tr groupID
  obtain ⟨hiters, hbound, hinj⟩ := hc.marks.of_prim (.emplaceGroup c tref groupID hl)
  refine ⟨hiters, hbound, hinj, fun f tr g ref n hf hg hm => ?_, fun tr g ref hf hg => ?_⟩
  · rcases hback tr hg with ⟨rfl, -, rfl⟩ | hg
    · rw [hmark, if_pos ⟨rfl, rfl⟩] at hm
      cases hm
    · rw [hmark] at hm
      split at hm
      · cases hm
      · rw [setTrack_emplaceGroup_groupLRU]
        exact hc.listed f tr g ref n hf hg hm
  · rw [hmark]
    split
    · rfl
    · next hold =>
      refine hc.gone tr g ref hf ((hback tr hg).resolve_left fun h => hold ⟨h.1, ?_⟩)
      rw [h.2.2, h.1]

theorem Linked.dropGroup (hw : c.WF) (hc : c.Linked)
    (hl : (c.tracks tref).groups.lookup groupID = some ref) :
    (c.dropGroup tref groupID ref).Linked := by
  have hlookup := fun tr => @lookup_dropGroup _ c tref tr groupID ref
  refine ⟨by simpa using hc.iters, by simpa using hc.bound, by simpa using hc.inj,
    fun f tr g r n hf hg hm => ?_, fun tr g r hf hg => ?_⟩
  · rw [mark_dropGroup] at hm
    obtain ⟨hg', hself⟩ := (hlookup tr).mp hg
    -- The dropped group's node is no other group's.
    have hne : c.mark tref ref ≠ some n := by
      intro hn
      obtain ⟨rfl, rfl⟩ := hc.inj tr r tref ref n hm hn
      exact hself ⟨rfl, hw.groups_inj tr g groupID r hg' hl⟩
    obtain ⟨⟨g₁, h1⟩, g₂, h2⟩ := hc.listed f tr g r n hf hg' hm
    refine ⟨⟨g₁, ?_⟩, g₂, ?_⟩
    · rw [dropGroup_tracks_eq]
      split
      · next htr =>
        subst htr
        exact mem_eraseNode.mpr ⟨h1, hne⟩
      · exact h1
    · rw [dropGroup_globalGroupLRU, mem_eraseNode, hc.iters]
      exact ⟨h2, hne⟩
  · rw [mark_dropGroup]
    exact hc.gone tr g r hf ((hlookup tr).mp hg).1

theorem Linked.addGroup (hc : c.Linked) (hm : c.mark tref ref = none)
    (ha : c.LinkOk (.addGroup ftn groupID tref ref)) :
    (c.addGroupToLRU ftn groupID tref ref).Linked := by
  have hskel : SameSkeleton c (c.addGroupToLRU ftn groupID tref ref) :=
    Prim.sameSkeleton (.addGroup c ftn groupID tref ref hm) rfl
  obtain ⟨hiters, hbound, hinj⟩ := hc.marks.of_prim (.addGroup c ftn groupID tref ref hm)
  obtain ⟨hglobal, -, hlists, hmark, -⟩ := addGroup_views ftn groupID hm
  refine ⟨hiters, hbound, hinj, fun f tr g r n hf hg hn => ?_, fun tr g r hf hg => ?_⟩
  · rw [hskel.cache] at hf
    rw [hskel.groups] at hg
    rw [hmark] at hn
    rw [hglobal, hlists]
    split at hn
    · next hself =>
      cases hn
      obtain ⟨rfl, rfl⟩ := hself
      rw [if_pos rfl, ha.1 f hf]
      exact ⟨⟨groupID, List.mem_cons_self⟩, groupID, List.mem_cons_self⟩
    · obtain ⟨⟨g₁, h1⟩, g₂, h2⟩ := hc.listed f tr g r n hf hg hn
      refine ⟨⟨g₁, ?_⟩, g₂, List.mem_cons_of_mem _ h2⟩
      split
      · next htr =>
        subst htr
        exact List.mem_cons_of_mem _ h1
      · exact h1
  · rw [hskel.cache] at hf
    rw [hskel.groups] at hg
    rw [hmark, if_neg]
    · exact hc.gone tr g r hf hg
    · rintro ⟨rfl, rfl⟩
      rcases ha.2 with ⟨f, hf'⟩ | hout
      · exact hf f hf'
      · exact hout g hg

theorem Linked.removeGroup (hc : c.Linked) (hl : (c.tracks tref).groups.lookup groupID = some ref) :
    (c.takeGroupFromLRU tref ref).Linked := by
  have hprim := Prim.removeGroup c tref groupID ref hl
  have hskel := hprim.sameSkeleton rfl
  obtain ⟨hiters, hbound, hinj⟩ := hc.marks.of_prim hprim
  have hmark := fun tr r => removeGroup_mark c tref tr ref r
  have hlists := fun tr => removeGroup_lists c tref tr ref (hc.iters tref ref)
  refine ⟨hiters, hbound, hinj, fun f tr g r n hf hg hm => ?_, fun tr g r hf hg => ?_⟩
  · rw [hskel.cache] at hf
    rw [hskel.groups] at hg
    rw [hmark] at hm
    split at hm
    · cases hm
    · next hold =>
      have hne : c.mark tref ref ≠ some n := fun hn => hold (hc.inj tr r tref ref n hm hn)
      obtain ⟨⟨g₁, h1⟩, g₂, h2⟩ := hc.listed f tr g r n hf hg hm
      refine ⟨⟨g₁, ?_⟩, g₂, ?_⟩
      · rw [(hlists tr).2]
        split
        · next htr =>
          subst htr
          exact mem_eraseNode.mpr ⟨h1, hne⟩
        · exact h1
      · rw [(hlists tr).1]
        exact mem_eraseNode.mpr ⟨h2, hne⟩
  · rw [hskel.cache] at hf
    rw [hskel.groups] at hg
    rw [hmark]
    split
    · rfl
    · exact hc.gone tr g r hf hg

/-- Byte-limit eviction pops entries of names that are gone. -/
theorem Linked.popGroup {n : NodeId} (hc : c.Linked)
    (hlast : c.globalGroupLRU.getLast? = some (n, ftn, groupID))
    (hgone : c.cache.lookup ftn = none) :
    ({ c with globalGroupLRU := c.globalGroupLRU.dropLast } : Cache).Linked := by
  refine ⟨hc.iters, hc.bound, hc.inj, fun f tr g r m hf hg hm => ?_, hc.gone⟩
  obtain ⟨h1, g₂, h2⟩ := hc.listed f tr g r m hf hg hm
  refine ⟨h1, g₂, ?_⟩
  obtain ⟨l, hl⟩ := List.getLast?_eq_some_iff.mp hlast
  rw [hl, List.dropLast_concat]
  rw [hl, List.mem_append, List.mem_singleton] at h2
  rcases h2 with h2 | h2
  · exact h2
  · cases h2
    rw [hgone] at hf
    cases hf

theorem Linked.of_prim (hw : c.WF) (hc : c.Linked) (h : Prim c a c') (ha : c.LinkOk a) :
    c'.Linked := by
  cases hs : a.isStructural with
  | true =>
    cases h with
    | emplaceTrack ftn hl => exact hc.emplaceTrack hl
    | markEvicted ftn tref => exact hc.markEvicted
    | eraseTrack ftn tref hl hev hempty => exact hc.eraseTrack hl hempty
    | emplaceGroup tref groupID hl => exact hc.emplaceGroup hl
    | evictGroup tref groupID ref hl => exact hc.dropGroup hw hl
    | _ => simp [Act.isStructural] at hs
  | false =>
    cases hl : a.isListing with
    | false => exact hc.of_sameLists (h.sameLists hs hl)
    | true =>
      cases h with
      | addGroup ftn groupID tref ref hm => exact hc.addGroup hm ha
      | removeGroup tref groupID ref hg => exact hc.removeGroup hg
      | popGroup n ftn groupID hlast hgone => exact hc.popGroup hlast hgone
      | _ => simp [Act.isListing] at hl

/-- The iterators of cached tracks point to nodes of their own. -/
structure TracksLinked (c : Cache) : Prop where
  bound : ∀ tref n, (c.tracks tref).lruIter = some n → n < c.nextNode
  inj : ∀ tref tref' n, (c.tracks tref).lruIter = some n → (c.tracks tref').lruIter = some n →
    tref = tref'
  listed : ∀ ftn tref n, c.cache.lookup ftn = some tref → (c.tracks tref).evicted = false →
    (c.tracks tref).lruIter = some n → ∃ f, (n, f) ∈ c.trackLRU

theorem TracksLinked.trackNode (hc : c.TracksLinked) (hl : c.cache.lookup ftn = some tref)
    (hev : (c.tracks tref).evicted = false) : c.TrackNode tref :=
  fun n hn => hc.listed ftn tref n hl hev hn

/-- Changing a track elsewhere than in its iterator. -/
theorem TracksLinked.of_same (hc : c.TracksLinked) (hn : c.nextNode ≤ c'.nextNode)
    (hl : c'.trackLRU = c.trackLRU)
    (hi : ∀ tref, (c'.tracks tref).lruIter = (c.tracks tref).lruIter)
    (hcache : ∀ ftn tref, c'.cache.lookup ftn = some tref → c.cache.lookup ftn = some tref)
    (hev : ∀ tref, (c'.tracks tref).evicted = false → (c.tracks tref).evicted = false) :
    c'.TracksLinked := by
  refine ⟨fun tref n h => ?_, fun tref tref' n h h' => ?_, fun ftn tref n hf he h => ?_⟩
  · rw [hi] at h
    exact Nat.lt_of_lt_of_le (hc.bound tref n h) hn
  · rw [hi] at h h'
    exact hc.inj tref tref' n h h'
  · rw [hi] at h
    rw [hl]
    exact hc.listed ftn tref n (hcache ftn tref hf) (hev tref he) h

theorem TracksLinked.emplaceTrack (hc : c.TracksLinked) : (c.emplaceTrack ftn).TracksLinked := by
  have hiter : ∀ tref n, ((c.emplaceTrack ftn).tracks tref).lruIter = some n →
      tref ≠ c.nextTrackRef ∧ (c.tracks tref).lruIter = some n := by
    intro tref n h
    rw [emplaceTrack_tracks_eq] at h
    split at h
    · cases h
    · next htr => exact ⟨htr, h⟩
  refine ⟨fun tref n h => hc.bound tref n (hiter tref n h).2, fun tref tref' n h h' => ?_,
    fun f tref n hf he h => ?_⟩
  · exact hc.inj tref tref' n (hiter tref n h).2 (hiter tref' n h').2
  · obtain ⟨htr, h⟩ := hiter tref n h
    rw [emplaceTrack_tracks_eq, if_neg htr] at he
    rcases lookup_emplaceTrack hf with ⟨-, heq⟩ | ⟨-, hf⟩
    · exact absurd heq htr
    · exact hc.listed f tref n hf he h

/-- A stamped track keeps its iterator, but it is the only one to point to that node. -/
theorem TracksLinked.markEvicted (hc : c.TracksLinked) : (c.markEvicted tref).TracksLinked := by
  refine ⟨fun tr n => ?_, by simpa using hc.inj, fun f tr n hf he h => ?_⟩
  · rw [markEvicted_lruIter]
    exact hc.bound tr n
  rw [markEvicted_lruIter] at h
  obtain ⟨htr, he⟩ := (markEvicted_evicted c tref tr).mp he
  obtain ⟨g, hmem⟩ := hc.listed f tr n hf he h
  exact ⟨g, mem_eraseNode.mpr ⟨hmem, fun hn => htr (hc.inj tr tref n h hn)⟩⟩

theorem TracksLinked.addTrack (hc : c.TracksLinked) : (c.addTrackToLRU ftn tref).TracksLinked := by
  unfold addTrackToLRU
  split
  · exact hc
  · have hfresh : ∀ tr, (c.tracks tr).lruIter ≠ some c.nextNode := fun tr hn =>
      Nat.lt_irrefl _ (hc.bound tr _ hn)
    have hiter : ∀ tr n, ((c.setTrack tref { c.tracks tref with
        lruIter := some c.nextNode }).tracks tr).lruIter = some n →
        (tr = tref ∧ n = c.nextNode) ∨ (tr ≠ tref ∧ (c.tracks tr).lruIter = some n) := by
      intro tr n h
      by_cases htr : tr = tref
      · subst htr
        rw [setTrack_tracks] at h
        cases h
        exact .inl ⟨rfl, rfl⟩
      · rw [setTrack_tracks_ne _ _ _ htr] at h
        exact .inr ⟨htr, h⟩
    refine ⟨fun tr n h => ?_, fun tr tr' n h h' => ?_, fun f tr n hf he h => ?_⟩
    · rcases hiter tr n h with ⟨-, rfl⟩ | ⟨-, h⟩
      · exact Nat.lt_succ_self _
      · exact Nat.lt_succ_of_lt (hc.bound tr n h)
    · rcases hiter tr n h with ⟨hself, hnew⟩ | ⟨-, hold⟩ <;>
        rcases hiter tr' n h' with ⟨hself', hnew'⟩ | ⟨-, hold'⟩
      · exact hself.trans hself'.symm
      · rw [hnew] at hold'
        exact absurd hold' (hfresh _)
      · rw [hnew'] at hold
        exact absurd hold (hfresh _)
      · exact hc.inj tr tr' n hold hold'
    · rcases hiter tr n h with ⟨-, rfl⟩ | ⟨htr, h⟩
      · exact ⟨ftn, List.mem_cons_self⟩
      · have he' : (c.tracks tr).evicted = false := by
          simpa [setTrack, htr] using he
        obtain ⟨g, hmem⟩ := hc.listed f tr n hf he' h
        exact ⟨g, List.mem_cons_of_mem _ hmem⟩

theorem TracksLinked.removeTrack (hc : c.TracksLinked) :
    (c.takeTrackFromLRU tref).TracksLinked := by
  unfold takeTrackFromLRU
  split
  · have hiter : ∀ tr n, ((c.setTrack tref { c.tracks tref with
        lruIter := none }).tracks tr).lruIter = some n →
        tr ≠ tref ∧ (c.tracks tr).lruIter = some n := by
      intro tr n h
      by_cases htr : tr = tref
      · subst htr
        rw [setTrack_tracks] at h
        cases h
      · rw [setTrack_tracks_ne _ _ _ htr] at h
        exact ⟨htr, h⟩
    refine ⟨fun tr n h => hc.bound tr n (hiter tr n h).2, fun tr tr' n h h' => ?_,
      fun f tr n hf he h => ?_⟩
    · exact hc.inj tr tr' n (hiter tr n h).2 (hiter tr' n h').2
    · obtain ⟨htr, h⟩ := hiter tr n h
      have he' : (c.tracks tr).evicted = false := by
        simpa [setTrack, htr] using he
      obtain ⟨g, hmem⟩ := hc.listed f tr n hf he' h
      exact ⟨g, mem_eraseNode.mpr ⟨hmem, fun hn => htr (hc.inj tr tref n h hn)⟩⟩
  · exact hc

theorem TracksLinked.of_prim (hc : c.TracksLinked) (h : Prim c a c') : c'.TracksLinked := by
  have hother : ∀ {tref : TrackRef} {t : CacheTrack}, t.lruIter = (c.tracks tref).lruIter →
      t.evicted = (c.tracks tref).evicted → (c.setTrack tref t).TracksLinked := by
    intro tref t hi he
    refine hc.of_same (Nat.le_refl _) rfl (fun tr => ?_) (fun _ _ h => h) fun tr => ?_ <;>
      by_cases htr : tr = tref
    · subst htr
      rw [setTrack_tracks, hi]
    · rw [setTrack_tracks_ne _ _ _ htr]
    · subst htr
      rw [setTrack_tracks, he]
      exact id
    · rw [setTrack_tracks_ne _ _ _ htr]
      exact id
  cases hs : a.isIdling with
  | false =>
    obtain ⟨h1, h2, h3, h4, -⟩ := h.sameIdle hs
    exact hc.of_same h.nextNode_le h2 h3 (fun _ _ => by rw [h1]; exact id)
      fun tref => by rw [h4]; exact id
  | true =>
    cases h with
    | emplaceTrack ftn => exact hc.emplaceTrack
    | markEvicted ftn tref => exact hc.markEvicted
    | eraseTrack ftn tref =>
      exact hc.of_same (Nat.le_refl _) rfl (fun _ => rfl) (fun _ _ hf => (lookup_erase_some hf).2)
        fun _ => id
    | addTrack ftn tref => exact hc.addTrack
    | removeTrack tref => exact hc.removeTrack
    | live tref count | register tref loc entry | progress tref key old entry
    | deregister tref key => exact hother rfl rfl
    | _ => simp [Act.isIdling] at hs

theorem TracksLinked.of_acts {P : Cache → Act → Prop} (hc : c.TracksLinked) (h : Acts P c c') :
    c'.TracksLinked := h.keeps (fun _ _ _ _ hprim hd => hd.of_prim hprim) hc

/-- A group that a writer may list again: its track is cached, or it is out of the group map. -/
structure Kept (c : Cache) (tref : TrackRef) (ref : GroupRef) : Prop where
  lt : ref < (c.tracks tref).nextGroupRef
  kept : (∃ ftn, c.cache.lookup ftn = some tref) ∨
    ∀ groupID, (c.tracks tref).groups.lookup groupID ≠ some ref

theorem Kept.of_evicted (hw : c.WF) (hlt : tref < c.nextTrackRef)
    (href : ref < (c.tracks tref).nextGroupRef) (hev : (c.tracks tref).evicted = false) :
    c.Kept tref ref := ⟨href, .inl (hw.attached tref hlt hev)⟩

theorem Kept.of_prim (h : Prim c a c') (hlt : tref < c.nextTrackRef) (hk : c.Kept tref ref) :
    c'.Kept tref ref := by
  refine ⟨Nat.lt_of_lt_of_le hk.lt (h.nextGroupRef_le hlt), ?_⟩
  cases hs : a.isStructural with
  | false =>
    obtain ⟨h1, -, h3, -⟩ := h.sameSkeleton hs
    rw [h1, h3]
    exact hk.kept
  | true =>
    cases h with
    | emplaceTrack ftn hl =>
      rw [emplaceTrack_tracks_eq, if_neg (Nat.ne_of_lt hlt)]
      exact hk.kept.imp_left fun ⟨f, hf⟩ => ⟨f, lookup_insert_of_new hl hf⟩
    | eraseTrack ftn tr hl hev hempty =>
      by_cases htr : tref = tr
      · subst htr
        exact .inr fun g => by
          rw [lookup_none_of_keys hempty]
          simp
      · exact hk.kept.imp_left fun ⟨f, hf⟩ => ⟨f, lookup_erase_of_ne hl htr hf⟩
    | markEvicted ftn tr =>
      rw [markEvicted_groups]
      exact hk.kept
    | emplaceGroup tr groupID =>
      refine hk.kept.imp_right fun hout g hg => ?_
      rcases lookup_setTrack_emplaceGroup c tr tref groupID hg with ⟨-, -, rfl⟩ | hg
      · exact Nat.lt_irrefl _ hk.lt
      · exact hout g hg
    | evictGroup tr groupID =>
      exact hk.kept.imp_right fun hout g hg =>
        hout g ((lookup_dropGroup c tr tref groupID _).mp hg).1
    | _ => simp [Act.isStructural] at hs

theorem Kept.of_acts {P : Cache → Act → Prop} (h : Acts P c c') (hlt : tref < c.nextTrackRef)
    (hk : c.Kept tref ref) : c'.Kept tref ref := by
  have hkeep : tref < c'.nextTrackRef ∧ c'.Kept tref ref := by
    refine h.keeps (I := fun d => tref < d.nextTrackRef ∧ d.Kept tref ref) ?_ ⟨hlt, hk⟩
    rintro d a d' - hprim ⟨hd, hkd⟩
    exact ⟨Nat.lt_of_lt_of_le hd hprim.nextTrackRef_le, hkd.of_prim hprim hd⟩
  exact hkeep.2

/-- Releasing a key changes no group map. -/
theorem releaseKey_skeleton (tref : TrackRef) (ftn : FullTrackName) (key : AbsoluteLocation)
    (pin : Option GroupRef) : SameSkeleton c (c.releaseKey tref ftn key pin) := by
  have hder := (deregister_sameLists c tref key).toSameSkeleton
  unfold releaseKey
  cases pin with
  | none => exact hder
  | some ref =>
    dsimp only
    by_cases hm : (c.deregister tref key).mark tref ref = none
    · obtain ⟨h1, h2, h3, h4, h5⟩ :=
        Prim.sameSkeleton (.addGroup _ ftn key.group tref ref hm) rfl
      obtain ⟨g1, g2, g3, g4, g5⟩ := hder
      exact ⟨h1.trans g1, h2.trans g2, fun tr => (h3 tr).trans (g3 tr),
        fun tr => (h4 tr).trans (g4 tr), fun tr => (h5 tr).trans (g5 tr)⟩
    · rw [addGroup_marked hm]
      exact hder

end Cache

namespace FetchWriteback

variable {w w' : FetchWriteback}

/-- The group a registered writeback pins may be listed again. -/
def PinKept (w : FetchWriteback) (c : Cache) : Prop :=
  ∀ key ref, w.fetchInProgressIt = some key → w.pinnedGroup = some ref → c.Kept w.track ref

theorem PinKept.of_acts {P : Cache → Act → Prop} (h : Acts P c c')
    (hlt : w.track < c.nextTrackRef) (hk : w.PinKept c) : w.PinKept c' :=
  fun key ref hkey hpin => (hk key ref hkey hpin).of_acts h hlt

theorem PinKept.sameKey (h : SameKey w w') (hk : w.PinKept c) : w'.PinKept c := by
  intro key ref hkey hpin
  rw [h.track]
  exact hk key ref (by rw [← h.fetchInProgressIt]; exact hkey) (by rw [← h.pinnedGroup]; exact hpin)

theorem PinKept.of_unregistered (h : w.fetchInProgressIt = none) : w.PinKept c := by
  intro key ref hkey
  rw [h] at hkey
  cases hkey

/-- A group that is pinned while its track is not evicted. -/
theorem emplaceAndPinGroup_pinKept {loc : AbsoluteLocation} {entry : FetchInProgressEntry}
    (hw : c.WF) (hlt : w.track < c.nextTrackRef) (hev : (c.tracks w.track).evicted = false)
    (h : w.emplaceAndPinGroup c loc entry = .ok (w', c')) : w'.PinKept c' := by
  have hsteps := emplaceAndPinGroup_pins.steps h
  have hg := Cache.Grows.of_steps hsteps hw
  have hev' : w.track < c'.nextTrackRef ∧ (c'.tracks w.track).evicted = false := by
    refine hsteps.keeps (I := fun d => w.track < d.nextTrackRef ∧
      (d.tracks w.track).evicted = false) ?_ ⟨hlt, hev⟩
    rintro d a d' ha hprim ⟨hl, hd⟩
    refine ⟨Nat.lt_of_lt_of_le hl hprim.nextTrackRef_le, ?_⟩
    rw [hprim.evicted_eq hl, hd]
    rintro ftn cause rfl
    cases ha
  obtain ⟨ref, rfl, hlook, -⟩ := emplaceAndPinGroup_result h
  rintro key _ - ⟨⟩
  exact .of_evicted hg.wf hev'.1 (hg.wf.bounded _ _ _ hlook) hev'.2

theorem updateInProgress_pinKept (hw : c.WF) (hlt : w.track < c.nextTrackRef)
    (hk : w.PinKept c) (hev : ∀ key loc, w.fetchInProgressIt = some key →
      w'.fetchInProgressIt = some loc → loc ≠ key → (c.tracks w.track).evicted = false)
    (h : w.updateInProgress c = .ok (w', c')) : w'.PinKept c' := by
  have htrack := (updateInProgress_sameOwner h).track
  cases updateInProgress_updated h with
  | unregistered _ hk' => exact .of_unregistered hk'
  | dropped _ hk' => exact .of_unregistered hk'
  | stays hkey hkey' hpin' =>
    next key₀ entry =>
    intro key ref hkey₁ hpin
    have hsame := register_sameLists c w.track key₀ entry
    obtain ⟨h1, h2⟩ := hk key ref (by rw [hkey, ← hkey']; exact hkey₁) (by rw [← hpin']; exact hpin)
    rw [htrack]
    refine ⟨by rw [hsame.nextGroupRef]; exact h1, ?_⟩
    rw [hsame.cache, hsame.groups]
    exact h2
  | moved hkey htr hd hmove hne =>
    next v key loc entry d =>
    obtain ⟨ref, heq, -⟩ := emplaceAndPinGroup_result hmove
    have hskel := releaseKey_skeleton (c := d) w.track w.ftn key w.pinnedGroup
    have hrec := hd.sameLists
    refine emplaceAndPinGroup_pinKept
      ((hw.of_sameSkeleton hrec.toSameSkeleton).of_sameSkeleton hskel) ?_ ?_ hmove
    · rw [htr, hskel.nextTrackRef, hrec.nextTrackRef]
      exact hlt
    · rw [htr, hskel.evicted, hrec.evicted]
      exact hev key loc hkey (by rw [heq]) hne

/-- A delivery moves a registration only while the track is not evicted. -/
theorem deliver_pinKept {now : TimePoint} {delivery : Delivery} {res : Expected Unit}
    {calls : List FetchCall} (hw : c.WF) (hlt : w.track < c.nextTrackRef) (hk : w.PinKept c)
    (hown : ∀ key, w.fetchInProgressIt = some key →
      ∃ e, (c.tracks w.track).fetchesInProgress.lookup key = some e)
    (hev : ∀ key loc, w.fetchInProgressIt = some key → w'.fetchInProgressIt = some loc →
      loc ≠ key → (c.tracks w.track).evicted = false)
    (h : w.deliver c now delivery = .ok (res, calls, w', c')) : w'.PinKept c' := by
  cases Shape.of_deliver (hw.bounded _) h with
  | quiet hd hv => exact (hk.of_acts hd.acts hlt).sameKey hv
  | updated hd hv hup hd' hw' =>
    next d d₂ w₁ w₂ =>
    have hbody := Cache.Grows.of_steps hd hw
    have hmid := Cache.Grows.of_steps (updateInProgress_steps hup) hbody.wf
    have hltd : w₁.track < d.nextTrackRef := by
      rw [hv.track]
      exact Nat.lt_of_lt_of_le hlt hbody.tracks
    have hkeep : w₂.PinKept d₂ := by
      refine updateInProgress_pinKept hbody.wf hltd ((hk.of_acts hd.acts hlt).sameKey hv) ?_ hup
      intro key loc hkey hloc hne
      rw [hv.fetchInProgressIt] at hkey
      rw [← hw'.fetchInProgressIt] at hloc
      obtain ⟨e, he⟩ := hown key hkey
      rw [hv.track]
      exact body_evicted hlt he (hev key loc hkey hloc hne) hd.acts
    refine (hkeep.of_acts hd'.acts ?_).sameKey hw'
    rw [(updateInProgress_sameOwner hup).track]
    exact Nat.lt_of_lt_of_le hltd hmid.tracks

end FetchWriteback

namespace World

variable {w w' : World} {op : Op}

/-- Upstream fetches register, and move to another key, only on tracks that are not evicted. -/
def RegistersInTime (w : World) : Op → Prop
  | .resume id _ => ∀ task ∈ w.tasks.lookup id, task.pc.nextSpan.isSome = true →
      (w.cache.tracks task.track).evicted = false
  | .deliver id delivery => ∀ wb ∈ w.writebacks.lookup id,
      ∀ r ∈ (wb.deliver w.cache w.now delivery).toOption, ∀ key ∈ wb.fetchInProgressIt,
        ∀ loc ∈ r.2.2.1.fetchInProgressIt, loc ≠ key → (w.cache.tracks wb.track).evicted = false
  | _ => True

instance (w : World) (op : Op) : Decidable (RegistersInTime w op) := by
  induction op using Op.casesOn <;> unfold RegistersInTime <;> infer_instance

/-- Every group a writer holds may be listed again. -/
structure KeptOk (w : World) : Prop where
  subgroups : All w.subgroups fun _ sub => w.cache.Kept sub.track sub.groupRef
  writebacks : All w.writebacks fun _ wb => wb.PinKept w.cache

variable {d : Cache} {tref : TrackRef}

/-- A fetch writeback is made on a track that is not evicted. -/
theorem CreatedIn.unevicted (hw : w.WF) (hc : w.cache.TrackOk) (hQ : RegistersInTime w op)
    (h : CreatedIn w op tref d) :
    d.WF ∧ tref < d.nextTrackRef ∧ (d.tracks tref).evicted = false := by
  cases h with
  | fetched hop htref hnone hroom =>
    next f d₀ =>
    subst htref
    have hwnew := hw.cache.emplaceTrack hnone
    have hfresh := emplaceTrack_tracks w.cache f.fullTrackName
    obtain ⟨hlook, hev⟩ := makeRoomForTrack_keeps hwnew (hc.emplaceTrack hw.cache hnone)
      (emplaceTrack_lookup w.cache f.fullTrackName) (by rw [hfresh]) (by rw [hfresh]) hroom
    have hspec : Spec (fun _ a => Act.MakesRoom a) (w.cache.emplaceTrack f.fullTrackName)
        (w.cache.emplaceTrack f.fullTrackName).makeRoomForTrack id :=
      makeRoomForTrack_spec fun _ _ h => h
    have hwd := (Cache.Grows.of_steps (hspec.steps hroom) hwnew).wf
    have hprim := Prim.addTrack d₀ f.fullTrackName w.cache.nextTrackRef
    have hskel := hprim.sameSkeleton rfl
    refine ⟨hwd.of_prim hprim, ?_, ?_⟩
    · rw [hskel.nextTrackRef]
      exact hwd.lt _ _ hlook
    · rw [hskel.evicted]
      exact hev
  | resumed hop ht hspan htref =>
    subst hop htref
    exact ⟨hw.cache, (hw.tasks _ _ ht).1.lt, hQ _ ht hspan⟩

theorem KeptOk.step (hw : w.WF) (hkeys : w.KeysOk) (hc : w.cache.TrackOk) (hk : w.KeptOk)
    (hQ : RegistersInTime w op) (h : w.step op = .ok w') : w'.KeptOk := by
  have hw' := hw.step h
  have hsteps := hw.steps h
  refine ⟨fun id sub' hl => ?_, fun id wb' hl => ?_⟩
  · cases step_subgroup h hl with
    | kept hsub hsame =>
      obtain ⟨-, h2, h3, -⟩ := hsame
      rw [h2, h3]
      exact (hk.subgroups id _ hsub).of_acts hsteps.acts (hw.subgroups id _ hsub).1.lt
    | opened hop hs hid hb =>
      obtain ⟨htrack, -, -, hev, d, hget, hd⟩ := SubscribeWriteback.beginSubgroup_result hb
      obtain ⟨hlook, hev', -⟩ := getOrCreateGroupWithEviction_result hget
      have hskel := Prim.sameSkeleton (.removeGroup d _ _ _ hlook) rfl
      refine .of_evicted hw'.cache (hw'.subgroups id sub' hl).1.lt (hw'.subgroups id sub' hl).2.1 ?_
      rw [htrack, hd, hskel.evicted, hev', hev]
  · cases step_writeback h hl with
    | kept hwb hop =>
      exact (hk.writebacks id _ hwb).of_acts hsteps.acts (hw.writebacks id _ hwb).1.lt
    | delivered hop hwb hd =>
      next wb delivery res calls =>
      subst hop
      have hlt := (hw.writebacks id _ hwb).1.lt
      have hpin := hk.writebacks id _ hwb
      have hown : ∀ key, wb.fetchInProgressIt = some key →
          ∃ e, (w.cache.tracks wb.track).fetchesInProgress.lookup key = some e := by
        intro key hkey
        obtain ⟨e, he, -⟩ := hkeys.own id wb hwb key hkey
        exact ⟨e, he⟩
      refine FetchWriteback.deliver_pinKept hw.cache hlt hpin hown (fun key loc hkey hloc => ?_) hd
      exact hQ wb hwb _ (by rw [hd]; rfl) key hkey loc hloc
    | created hid hd hin hcreate =>
      next d start stop proxyFin consumer it tref ftn =>
      obtain ⟨hwd, hlt, hev⟩ := hin.unevicted hw hc hQ
      obtain ⟨v, htr, hmove⟩ := FetchWriteback.create_emplaces hcreate
      have hprim := Prim.removeTrack d tref
      have hskel := hprim.sameSkeleton rfl
      refine FetchWriteback.emplaceAndPinGroup_pinKept (hwd.of_prim hprim) ?_ ?_ hmove
      · rw [htr, hskel.nextTrackRef]
        exact hlt
      · rw [htr, hskel.evicted]
        exact hev

/-- The acts of a step: iterators of tracks are used where their node is there, and groups are
listed where they may be. -/
def UsesNodes (w : World) (d : Cache) : Act → Prop
  | .removeTrack tref => d.TrackNode tref
  | .addGroup ftn groupID tref ref => Acts (fun _ _ => True) w.cache d →
      d.LinkOk (.addGroup ftn groupID tref ref)
  | _ => True

theorem linkOk_of_handle {ftn : FullTrackName} {groupID : Nat} {ref : GroupRef} (hw : w.cache.WF)
    (hh : w.cache.Handle tref ftn) (hk : w.cache.Kept tref ref)
    (hd : Acts (fun _ _ => True) w.cache d) : d.LinkOk (.addGroup ftn groupID tref ref) :=
  ⟨((Cache.Grows.of_acts hd hw).handle _ _ hh).named, (hk.of_acts hd hh.lt).kept⟩

theorem linkOk_of_unevicted {ftn : FullTrackName} {groupID : Nat} {ref : GroupRef}
    (hw : w.cache.WF) (hh : w.cache.Handle tref ftn) (hev : (d.tracks tref).evicted = false)
    (hd : Acts (fun _ _ => True) w.cache d) : d.LinkOk (.addGroup ftn groupID tref ref) := by
  have hg := Cache.Grows.of_acts hd hw
  have hh' := hg.handle _ _ hh
  exact ⟨hh'.named, .inl (hg.wf.attached tref hh'.lt hev)⟩

theorem usesNodes_of_upkeep {a : Act} (h : a.Upkeep) : UsesNodes w d a := by
  cases h <;> exact trivial

theorem opActs_usesNodes (hw : w.WF) (hk : w.KeptOk) (hc : w.cache.TracksLinked)
    (hQ : RegistersInTime w op) : OpActs (UsesNodes w) w op := by
  have hevicts : ∀ d a, Act.Evicts a → UsesNodes w d a := fun _ _ ha =>
    usesNodes_of_upkeep ha.upkeep
  have hroom : ∀ d a, Act.MakesRoom a → UsesNodes w d a := fun _ _ ha =>
    usesNodes_of_upkeep ha.upkeep
  have hpurges : ∀ d a, Act.Purges a → UsesNodes w d a := fun _ _ ha =>
    usesNodes_of_upkeep ha.upkeep
  have hmarks : ∀ tref d a, Act.Marks tref a → UsesNodes w d a := fun _ _ _ ha =>
    usesNodes_of_upkeep ha.upkeep
  have hgroup : ∀ tref ftn, w.cache.Handle tref ftn →
      GroupActs (UsesNodes w) w.cache tref ftn := fun tref ftn hh =>
    ⟨hevicts, hmarks _, fun _ => trivial,
      fun _ _ _ _ _ hev => linkOk_of_unevicted hw.cache hh hev, fun _ _ _ _ _ _ => trivial,
      fun _ _ _ _ _ => trivial⟩
  have hrelease : ∀ id wb, w.writebacks.lookup id = some wb → ∀ d key ref,
      wb.fetchInProgressIt = some key → wb.pinnedGroup = some ref →
      UsesNodes w d (.addGroup wb.ftn key.group wb.track ref) :=
    fun id wb hl _ key ref hkey hpin =>
      linkOk_of_handle hw.cache (hw.writebacks id wb hl).1
        (hk.writebacks id wb hl key ref hkey hpin)
  cases op with
  | tick => exact trivial
  | subscribe =>
    exact ⟨hroom, fun _ => trivial, fun _ _ hnode => hnode, fun _ _ _ _ => trivial⟩
  | closeSubscribe => exact fun _ _ => ⟨fun _ => trivial, fun _ _ _ _ => trivial⟩
  | beginSubgroup id =>
    exact fun s hs => ⟨hgroup _ _ (hw.subscribers id s hs).1, fun _ _ => trivial⟩
  | objectStream id | datagram id => exact fun s hs => hgroup _ _ (hw.subscribers id s hs).1
  | writeSubgroup =>
    exact fun _ _ => ⟨hevicts, hmarks _, fun _ => trivial, fun _ _ _ _ _ => trivial,
      fun _ => trivial⟩
  | closeSubgroup id =>
    exact fun sub hsub => linkOk_of_handle hw.cache (hw.subgroups id sub hsub).1
      (hk.subgroups id sub hsub)
  | setTrackExtensions => exact ⟨fun _ => trivial, fun _ _ => trivial, fun _ _ _ _ => trivial⟩
  | purgeTrack | purgeNamespace | purgeAll => exact hpurges
  | fetch f =>
    exact fun _ => ⟨fun _ => trivial, hroom, fun _ _ => trivial, fun _ _ => trivial,
      fun _ hnode => hnode, fun _ _ => trivial, fun _ _ => trivial, fun _ _ => trivial⟩
  | resume id with_ =>
    refine fun task ht => ⟨fun _ _ _ => trivial, fun _ => trivial,
      fun interval intervals after hpc =>
      ⟨⟨fun _ _ => trivial, fun _ hnode => hnode, fun _ _ => trivial, fun _ _ => trivial,
        fun _ _ => trivial⟩, ?_⟩⟩
    have hspan : task.pc.nextSpan.isSome = true := by rw [hpc]; rfl
    have hev := hQ task ht hspan
    obtain ⟨ftn, hf⟩ := hw.cache.attached _ (hw.tasks id task ht).1.lt hev
    exact hc.trackNode hf hev
  | cancel => exact trivial
  | deliver id =>
    exact fun wb hwb => ⟨hgroup _ _ (hw.writebacks id wb hwb).1, hevicts, fun _ _ => trivial,
      fun _ _ _ _ => trivial, fun _ _ _ => trivial,
      fun d key ref hkey hpin _ => hrelease id wb hwb d key ref hkey hpin, fun _ _ => trivial,
      fun _ _ _ _ _ _ _ => trivial⟩
  | closeWriteback id =>
    exact fun wb hwb => ⟨fun _ _ _ => trivial,
      fun d key ref hkey hpin _ => hrelease id wb hwb d key ref hkey hpin, fun _ _ _ _ => trivial⟩

theorem linked_of_acts (hw : w.cache.WF) (hc : w.cache.Linked) (h : Acts (UsesNodes w) w.cache d) :
    d.Linked := by
  have hkeep : Acts (fun _ _ => True) w.cache d ∧ d.WF ∧ d.Linked := by
    refine h.keeps (I := fun d => Acts (fun _ _ => True) w.cache d ∧ d.WF ∧ d.Linked) ?_
      ⟨.refl, hw, hc⟩
    rintro d a d' ha hprim ⟨hd, hwd, hcd⟩
    refine ⟨hd.trans (.single trivial hprim), hwd.of_prim hprim, hcd.of_prim hwd hprim ?_⟩
    cases a with
    | addGroup => exact ha hd
    | _ => exact trivial
  exact hkeep.2.2

/-- What the iterators of a world's cache and its writers have in common. -/
structure NodesOk (w : World) : Prop where
  linked : w.cache.Linked
  tracks : w.cache.TracksLinked
  kept : w.KeptOk

theorem NodesOk.step (hw : w.WF) (hkeys : w.KeysOk) (hc : w.cache.TrackOk) (hn : w.NodesOk)
    (hQ : RegistersInTime w op) (h : w.step op = .ok w') : w'.NodesOk := by
  have hsteps := (step_spec hw.refsKnown (opActs_usesNodes hw hn.kept hn.tracks hQ)).steps h
  exact ⟨linked_of_acts hw.cache hn.linked hsteps.acts, hn.tracks.of_acts hsteps.acts,
    hn.kept.step hw hkeys hc hQ h⟩

theorem nodesOk_reaches (h : Reaches RegistersInTime w) : w.NodesOk := by
  induction h with
  | create tracks groups bytes minBytes default_ allowed =>
    exact ⟨⟨by simp [ofCache, create, mark], by simp [ofCache, create, mark],
      by simp [ofCache, create, mark], by simp [ofCache, create],
      by simp [ofCache, create]⟩,
      ⟨by simp [ofCache, create], by simp [ofCache, create],
        by simp [ofCache, create]⟩, ⟨all_empty, all_empty⟩⟩
  | step hreach hQ hstep ih => exact ih.step hreach.wf hreach.keysOk hreach.trackOk hQ hstep

/-- While upstream fetches register on tracks that are not evicted only, the iterators of all
cached tracks and of all groups in a group map point into their lists, and no step erases
through an iterator whose node is gone. -/
theorem iterators_in_lists (h : Reaches RegistersInTime w) :
    (∀ ftn tref, w.cache.cache.lookup ftn = some tref → w.cache.TrackNode tref) ∧
    (∀ tref groupID ref, (w.cache.tracks tref).groups.lookup groupID = some ref →
      w.cache.GroupNodes tref ref) ∧
    ∀ op, RegistersInTime w op → w.step op ≠ .error .staleIterator := by
  have hw := h.wf
  have hn := nodesOk_reaches h
  refine ⟨fun ftn tref hl => hn.tracks.trackNode hl (h.whole ftn tref hl),
    fun tref groupID ref hg => hn.linked.groupNodes hg, fun op hQ he => ?_⟩
  have hspec := step_spec hw.refsKnown (opActs_usesNodes hw hn.kept hn.tracks hQ)
  rw [he] at hspec
  rcases hspec with ⟨d, hd, hfails⟩ | ⟨-, d, hd, tref, hgone, hused⟩
  · obtain ⟨tref, groupID, ref, hg, hgone⟩ := hfails.stale rfl
    exact hgone ((linked_of_acts hw.cache hn.linked hd).groupNodes hg)
  · -- Between removals a cached track is not stamped, so its node is in the list.
    rcases hused with ⟨ftn, hl⟩ | hnode
    · have hev := (h.whole.of_steps hw.cache hd) ftn tref hl
      exact hgone ((hn.tracks.of_acts hd.acts).trackNode hl hev)
    · exact hgone hnode

/-- A track is stamped as evicted iff it is under no name, and it is never under two. What is
listed for eviction is under its name and in nobody's use. -/
theorem tracks_listed_when_idle (w : Reachable) :
    (∀ tref < w.1.cache.nextTrackRef, (w.1.cache.tracks tref).evicted = false ↔
      ∃ ftn, w.1.cache.cache.lookup ftn = some tref) ∧
    (∀ ftn ftn' tref, w.1.cache.cache.lookup ftn = some tref →
      w.1.cache.cache.lookup ftn' = some tref → ftn = ftn') ∧
    ∀ n ftn, (n, ftn) ∈ w.1.cache.trackLRU → ∃ tref, w.1.cache.cache.lookup ftn = some tref ∧
      (w.1.cache.tracks tref).lruIter = some n ∧ (w.1.cache.tracks tref).canEvict = true := by
  have hw := w.2.wf.cache
  have hc := w.2.trackOk
  refine ⟨fun tref hlt => ⟨hw.attached tref hlt, fun ⟨ftn, hl⟩ => w.2.whole ftn tref hl⟩, hw.inj,
    fun n ftn hmem => ?_⟩
  obtain ⟨tref, hl, hiter, hev⟩ := hc.entries n ftn hmem
  exact ⟨tref, hl, hiter, hc.idle tref hev (by simp [hiter])⟩

end World

end

namespace World

/-- Two objects of a group come in with one missing between them, and the publisher leaves. -/
def leavesHole : List Op :=
  [.subscribe ⟨[], "track"⟩,
    .objectStream 0 ⟨0, 0, 0, .normal, noExtensions⟩ (some [1]),
    .objectStream 0 ⟨0, 0, 2, .normal, noExtensions⟩ (some [3]), .closeSubscribe 0]

/-- A fetch of the three objects whose consumer blocks on the first one. -/
def blocksOnFirst : List Op :=
  [.fetch ⟨⟨[], "track"⟩, .oldestFirst, ⟨0, 0⟩, ⟨0, 3⟩⟩, .resume 1 .run, .resume 1 .run,
    .resume 1 (.consumer (.blocked (.ok ())))]

theorem iterators_in_lists_leavesHole : ∃ w, runMeets RegistersInTime
    (ofCache (.create 100 3 1000 0 none none)) (leavesHole ++ blocksOnFirst ++ goUpstream 1) =
      some w ∧ w.step (.purgeTrack ⟨[], "track"⟩) ≠ .error .staleIterator := by
  have hsome : (runMeets RegistersInTime (ofCache (.create 100 3 1000 0 none none))
      (leavesHole ++ blocksOnFirst ++ goUpstream 1)).isSome = true := by decide +kernel
  obtain ⟨w, hw⟩ := Option.isSome_iff_exists.mp hsome
  exact ⟨w, hw, (iterators_in_lists
    (.of_runMeets (.create 100 3 1000 0 none none) hw)).2.2 _ trivial⟩

/-- The track is purged while the consumer is blocked: its node is erased, but the track keeps
its iterator, and the fetch erases through it when it goes upstream for the rest. -/
theorem purgeWhileBlocked_stale :
    ((ofCache (.create 100 3 1000 0 none none)).run (leavesHole ++ blocksOnFirst ++
      [.purgeTrack ⟨[], "track"⟩])).map (fun w =>
        (w.cache.trackLRU, (w.cache.tracks 0).lruIter.isSome)) = .ok ([], true) ∧
    ((ofCache (.create 100 3 1000 0 none none)).run (leavesHole ++ blocksOnFirst ++
      .purgeTrack ⟨[], "track"⟩ :: goUpstream 1)).map (fun w => w.nextId) =
        .error .staleIterator := by
  constructor <;> decide +kernel

end World

end Moqx
