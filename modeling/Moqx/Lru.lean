import Moqx.Reachable

/-! The lists of evictable groups: the global list and the tracks' own lists name groups that
exist and are marked with the node that names them. -/
namespace Moqx

open Moxygen Maps Cache

variable [Moxygen] {c c' : Cache} {a : Act}

/-- The list node a group is marked with. -/
def Cache.mark (c : Cache) (tref : TrackRef) (ref : GroupRef) : Option NodeId :=
  ((c.tracks tref).heap ref).lruIter

/-- Acts that change which groups are evictable. -/
def Act.isListing : Act → Bool
  | .addGroup _ _ _ _ => true
  | .removeGroup _ _ => true
  | .popGroup => true
  | _ => false

/-- Two caches with the same groups in the same lists. -/
structure SameLists (c c' : Cache) : Prop extends SameSkeleton c c' where
  nextNode : c.nextNode ≤ c'.nextNode
  globalGroupLRU : c'.globalGroupLRU = c.globalGroupLRU
  groupLRU : ∀ tref, (c'.tracks tref).groupLRU = (c.tracks tref).groupLRU
  mark : ∀ tref ref, c'.mark tref ref = c.mark tref ref
  globalMark : ∀ tref ref, ((c'.tracks tref).heap ref).globalLruIter =
    ((c.tracks tref).heap ref).globalLruIter

/-- Changing one track elsewhere than in its lists and marks. -/
theorem SameLists.of_update {tref : TrackRef} {t : CacheTrack} (hs : SameSkeleton c c')
    (hn : c.nextNode ≤ c'.nextNode) (hl : c'.globalGroupLRU = c.globalGroupLRU)
    (ht : c'.tracks = Function.update c.tracks tref t)
    (hg : t.groupLRU = (c.tracks tref).groupLRU)
    (hm : ∀ ref, (t.heap ref).lruIter = ((c.tracks tref).heap ref).lruIter)
    (hgm : ∀ ref, (t.heap ref).globalLruIter = ((c.tracks tref).heap ref).globalLruIter) :
    SameLists c c' := by
  have hcases : ∀ tr, tr = tref ∨ tr ≠ tref := fun tr => Classical.em _
  refine ⟨hs, hn, hl, fun tr => ?_, fun tr ref => ?_, fun tr ref => ?_⟩ <;>
    rcases hcases tr with rfl | htr <;> simp [Cache.mark, *]

theorem SameLists.of_tracks (hs : SameSkeleton c c') (hn : c.nextNode ≤ c'.nextNode)
    (hl : c'.globalGroupLRU = c.globalGroupLRU) (ht : c'.tracks = c.tracks) : SameLists c c' :=
  ⟨hs, hn, hl, fun tr => by rw [ht], fun tr ref => by rw [Cache.mark, Cache.mark, ht],
    fun tr ref => by rw [ht]⟩

/-- Writing an object leaves the group where it is in the lists. -/
theorem putObject_iters {g g' : CacheGroup} {objectID : Nat} {w : ObjectWrite}
    (h : g.putObject objectID w = .ok (.ok g')) :
    g'.lruIter = g.lruIter ∧ g'.globalLruIter = g.globalLruIter := by
  unfold CacheGroup.putObject at h
  split at h
  · split at h
    · cases h
    · obtain ⟨total, -, h⟩ := bind_eq_ok.mp h
      cases h
      exact ⟨rfl, rfl⟩
  · cases h
    exact ⟨rfl, rfl⟩

theorem heap_update_iter {f : CacheGroup → Option NodeId} {t : CacheTrack} {ref : GroupRef}
    {g : CacheGroup} (hg : f g = f (t.heap ref)) (r : GroupRef) :
    f (Function.update t.heap ref g r) = f (t.heap r) := by
  by_cases hr : r = ref
  · subst hr
    simpa using hg
  · simp [hr]

/-- All other acts leave every group where it is in the lists. -/
theorem Prim.sameLists (h : Prim c a c') (hs : a.isStructural = false)
    (hl : a.isListing = false) : SameLists c c' := by
  have hsame := h.sameSkeleton hs
  cases h with
  | addGroup | removeGroup | popGroup => simp [Act.isListing] at hl
  | emplaceTrack | markEvicted | eraseTrack | emplaceGroup | evictGroup =>
    simp [Act.isStructural] at hs
  | addTrack ftn tref =>
    revert hsame
    unfold Cache.addTrackToLRU
    split <;> intro hsame
    · exact .of_tracks hsame (Nat.le_refl _) rfl rfl
    · exact .of_update hsame (Nat.le_succ _) rfl rfl rfl (fun _ => rfl) fun _ => rfl
  | removeTrack tref =>
    revert hsame
    unfold Cache.takeTrackFromLRU
    split <;> intro hsame
    · exact .of_update hsame (Nat.le_refl _) rfl rfl rfl (fun _ => rfl) fun _ => rfl
    · exact .of_tracks hsame (Nat.le_refl _) rfl rfl
  | groupInfo tref ref =>
    exact .of_update hsame (Nat.le_refl _) rfl rfl rfl
      (heap_update_iter (f := CacheGroup.lruIter) rfl)
      (heap_update_iter (f := CacheGroup.globalLruIter) rfl)
  | store tref ref l w g total put =>
    obtain ⟨h1, h2⟩ := putObject_iters put
    exact .of_update hsame (Nat.le_refl _) rfl rfl rfl
      (heap_update_iter h1) (heap_update_iter h2)
  | append tref ref | expire tref ref =>
    exact .of_update hsame (Nat.le_refl _) rfl rfl rfl
      (heap_update_iter (f := CacheGroup.lruIter) rfl)
      (heap_update_iter (f := CacheGroup.globalLruIter) rfl)
  | _ => exact .of_update hsame (Nat.le_refl _) rfl rfl rfl (fun _ => rfl) fun _ => rfl

namespace Cache

omit [Moxygen] in
theorem mem_eraseNode {α : Type} {l : List (NodeId × α)} {iter : Option NodeId} {n : NodeId}
    {x : α} : (n, x) ∈ eraseNode l iter ↔ (n, x) ∈ l ∧ iter ≠ some n := by
  simp only [eraseNode, List.mem_filter, decide_eq_true_eq, ne_eq]
  exact and_congr_right fun _ => not_congr eq_comm

omit [Moxygen] in
theorem nodes_eraseNode {α : Type} {l : List (NodeId × α)} (iter : Option NodeId)
    (h : (l.map Prod.fst).Nodup) : ((eraseNode l iter).map Prod.fst).Nodup :=
  h.sublist (List.filter_sublist.map _)

theorem mark_setTrack (c : Cache) (tref tr : TrackRef) (t : CacheTrack) (ref : GroupRef) :
    (c.setTrack tref t).mark tr ref =
      if tr = tref then (t.heap ref).lruIter else c.mark tr ref := by
  by_cases htr : tr = tref
  · subst htr
    simp [mark]
  · simp [mark, htr]

section
variable (c) (tref tr : TrackRef) (ref r : GroupRef)

theorem mark_emplaceTrack (ftn : FullTrackName) : (c.emplaceTrack ftn).mark tr r =
    if tr = c.nextTrackRef then none else c.mark tr r := by
  rw [mark, emplaceTrack_tracks_eq]
  split <;> rfl

@[simp] theorem mark_markEvicted : (c.markEvicted tref).mark tr r = c.mark tr r := by
  simp [mark]

@[simp] theorem mark_dropGroup (groupID : Nat) :
    (c.dropGroup tref groupID ref).mark tr r = c.mark tr r := by
  simp [mark]

end

/-- A new group is unmarked, and the other groups keep their marks. -/
theorem mark_emplaceGroup (c : Cache) (tref tr : TrackRef) (groupID : Nat) (ref : GroupRef) :
    (c.setTrack tref ((c.tracks tref).emplaceGroup groupID)).mark tr ref =
      if tr = tref ∧ ref = (c.tracks tref).nextGroupRef then none else c.mark tr ref := by
  rw [mark_setTrack]
  by_cases htr : tr = tref
  · subst htr
    by_cases href : ref = (c.tracks tr).nextGroupRef
    · subst href
      simp [CacheTrack.emplaceGroup]
    · simp [CacheTrack.emplaceGroup, mark, href]
  · simp [htr]

section
variable (c) (tref tr : TrackRef) (ref r : GroupRef)

theorem removeGroup_mark : (c.takeGroupFromLRU tref ref).mark tr r =
    if tr = tref ∧ r = ref then none else c.mark tr r := by
  unfold takeGroupFromLRU
  dsimp only
  split
  · by_cases htr : tr = tref
    · subst htr
      by_cases hr : r = ref
      · subst hr
        simp [mark, setTrack]
      · simp [mark, setTrack, CacheTrack.setGroup, hr]
    · simp [mark, setTrack, htr]
  · next h =>
    by_cases hself : tr = tref ∧ r = ref
    · obtain ⟨rfl, rfl⟩ := hself
      simpa [mark] using h
    · simp [hself]

omit [Moxygen] in
theorem eraseNode_none {α : Type} (l : List (NodeId × α)) : eraseNode l none = l := by
  simp [eraseNode]

theorem removeGroup_lists (hiter : ((c.tracks tref).heap ref).globalLruIter = c.mark tref ref) :
    (c.takeGroupFromLRU tref ref).globalGroupLRU =
      eraseNode c.globalGroupLRU (c.mark tref ref) ∧
    ((c.takeGroupFromLRU tref ref).tracks tr).groupLRU = if tr = tref then
      eraseNode (c.tracks tref).groupLRU (c.mark tref ref) else (c.tracks tr).groupLRU := by
  unfold takeGroupFromLRU
  dsimp only
  split
  · rw [hiter]
    by_cases htr : tr = tref
    · subst htr
      simp [mark, setTrack]
    · simp [setTrack, htr]
  · next h =>
    rw [Option.not_isSome_iff_eq_none] at h
    have hnone : c.mark tref ref = none := h
    rw [hnone, eraseNode_none, eraseNode_none]
    refine ⟨rfl, ?_⟩
    split
    · next htr => rw [htr]
    · rfl

end

/-- The lists and marks after a group became evictable. -/
theorem addGroup_views {tref : TrackRef} {ref : GroupRef} (ftn : FullTrackName) (groupID : Nat)
    (h : c.mark tref ref = none) :
    (c.addGroupToLRU ftn groupID tref ref).globalGroupLRU =
        (c.nextNode, ftn, groupID) :: c.globalGroupLRU ∧
      (c.addGroupToLRU ftn groupID tref ref).nextNode = c.nextNode + 1 ∧
      (∀ tr, ((c.addGroupToLRU ftn groupID tref ref).tracks tr).groupLRU =
        if tr = tref then (c.nextNode, groupID) :: (c.tracks tref).groupLRU
        else (c.tracks tr).groupLRU) ∧
      (∀ tr r, (c.addGroupToLRU ftn groupID tref ref).mark tr r =
        if tr = tref ∧ r = ref then some c.nextNode else c.mark tr r) ∧
      ∀ tr r, (((c.addGroupToLRU ftn groupID tref ref).tracks tr).heap r).globalLruIter =
        if tr = tref ∧ r = ref then some c.nextNode
        else ((c.tracks tr).heap r).globalLruIter := by
  have hnone : ((c.tracks tref).heap ref).lruIter.isSome = false := by
    rw [mark] at h
    simp [h]
  unfold addGroupToLRU
  simp only [hnone, Bool.false_eq_true, if_false]
  refine ⟨trivial, trivial, fun tr => ?_, fun tr r => ?_, fun tr r => ?_⟩
  · by_cases htr : tr = tref
    · subst htr
      simp [setTrack, CacheTrack.setGroup]
    · simp [setTrack, htr]
  all_goals
    by_cases htr : tr = tref
    · subst htr
      by_cases hr : r = ref
      · subst hr
        simp [mark, setTrack]
      · simp [mark, setTrack, CacheTrack.setGroup, hr]
    · simp [mark, setTrack, htr]

theorem addGroup_marked {ftn : FullTrackName} {groupID : Nat} {tref : TrackRef} {ref : GroupRef}
    (h : c.mark tref ref ≠ none) : c.addGroupToLRU ftn groupID tref ref = c := by
  have hsome : ((c.tracks tref).heap ref).lruIter.isSome = true :=
    Option.isSome_iff_ne_none.mpr h
  unfold addGroupToLRU
  simp [hsome]

end Cache

theorem Prim.nextNode_le (h : Prim c a c') : c.nextNode ≤ c'.nextNode := by
  cases h with
  | addTrack ftn tref =>
    unfold Cache.addTrackToLRU
    split
    · exact Nat.le_refl _
    · exact Nat.le_succ _
  | addGroup ftn groupID tref ref h =>
    rw [(addGroup_views ftn groupID h).2.1]
    exact Nat.le_succ _
  | removeTrack tref =>
    unfold Cache.takeTrackFromLRU
    split <;> exact Nat.le_refl _
  | removeGroup tref groupID ref =>
    unfold Cache.takeGroupFromLRU
    dsimp only
    split <;> exact Nat.le_refl _
  | _ => exact Nat.le_refl _

/-- A mark is an old one or a fresh node. -/
theorem Prim.mark_cases {tref : TrackRef} {ref : GroupRef} {n : NodeId} (h : Prim c a c')
    (hm : c'.mark tref ref = some n) :
    c.mark tref ref = some n ∨
      n = c.nextNode ∧ c'.nextNode = c.nextNode + 1 ∧
        ∃ ftn groupID, a = .addGroup ftn groupID tref ref := by
  cases hs : a.isStructural with
  | false =>
    cases hl : a.isListing with
    | false => exact .inl (by rw [← (h.sameLists hs hl).mark]; exact hm)
    | true =>
      cases h with
      | addGroup ftn groupID tr r h =>
        obtain ⟨-, hnode, -, hmark, -⟩ := addGroup_views ftn groupID h
        rw [hmark] at hm
        split at hm
        · next hself =>
          cases hm
          obtain ⟨rfl, rfl⟩ := hself
          exact .inr ⟨rfl, hnode, ftn, groupID, rfl⟩
        · exact .inl hm
      | removeGroup tr groupID r h =>
        rw [removeGroup_mark] at hm
        split at hm
        · cases hm
        · exact .inl hm
      | popGroup => exact .inl hm
      | _ => simp [Act.isListing] at hl
  | true =>
    left
    cases h with
    | emplaceTrack ftn hl =>
      rw [mark_emplaceTrack] at hm
      split at hm
      · cases hm
      · exact hm
    | eraseTrack => exact hm
    | markEvicted ftn tr => rwa [mark_markEvicted] at hm
    | emplaceGroup tr groupID =>
      rw [mark_emplaceGroup] at hm
      split at hm
      · cases hm
      · exact hm
    | evictGroup tr groupID r => rwa [mark_dropGroup] at hm
    | _ => simp [Act.isStructural] at hs

/-- Both iterators of a group name one node, which is an old one and no other group's. -/
structure Cache.MarksOk (c : Cache) : Prop where
  iters : ∀ tref ref, ((c.tracks tref).heap ref).globalLruIter = c.mark tref ref
  bound : ∀ tref ref n, c.mark tref ref = some n → n < c.nextNode
  inj : ∀ tref ref tref' ref' n, c.mark tref ref = some n → c.mark tref' ref' = some n →
    tref = tref' ∧ ref = ref'

theorem Cache.MarksOk.fresh (hc : c.MarksOk) (tref : TrackRef) (ref : GroupRef) :
    c.mark tref ref ≠ some c.nextNode := fun hn => Nat.lt_irrefl _ (hc.bound tref ref _ hn)

/-- The two iterators of a group are set and cleared together. -/
theorem Prim.iters (h : Prim c a c')
    (hc : ∀ tref ref, ((c.tracks tref).heap ref).globalLruIter = c.mark tref ref)
    (tref : TrackRef) (ref : GroupRef) :
    ((c'.tracks tref).heap ref).globalLruIter = c'.mark tref ref := by
  have hiter := hc tref ref
  cases hs : a.isStructural with
  | true =>
    cases h with
    | emplaceTrack ftn =>
      rw [mark_emplaceTrack, emplaceTrack_tracks_eq]
      split
      · rfl
      · exact hiter
    | eraseTrack => exact hiter
    | markEvicted ftn tr => simpa using hiter
    | emplaceGroup tr groupID =>
      rw [mark_emplaceGroup]
      by_cases htr : tref = tr
      · subst htr
        by_cases href : ref = (c.tracks tref).nextGroupRef
        · subst href
          simp [CacheTrack.emplaceGroup]
        · simpa [CacheTrack.emplaceGroup, href] using hiter
      · simpa [htr] using hiter
    | evictGroup tr groupID r => simpa using hiter
    | _ => simp [Act.isStructural] at hs
  | false =>
    cases hl : a.isListing with
    | false =>
      have hsame := h.sameLists hs hl
      rw [hsame.globalMark, hsame.mark]
      exact hiter
    | true =>
      cases h with
      | addGroup ftn groupID tr r hm =>
        obtain ⟨-, -, -, hmark, hiters⟩ := addGroup_views ftn groupID hm
        rw [hiters, hmark, hiter]
      | removeGroup tr groupID r =>
        rw [removeGroup_mark]
        unfold Cache.takeGroupFromLRU
        dsimp only
        by_cases htr : tref = tr
        · subst htr
          by_cases hr : ref = r
          · subst hr
            split
            · simp [Cache.setTrack]
            · next h =>
              rw [Option.not_isSome_iff_eq_none] at h
              rw [if_pos ⟨rfl, rfl⟩, hiter]
              exact h
          · split <;> simpa [Cache.setTrack, CacheTrack.setGroup, hr] using hiter
        · split <;> simpa [Cache.setTrack, htr] using hiter
      | popGroup => exact hiter
      | _ => simp [Act.isListing] at hl

/-- Every act keeps the marks apart. -/
theorem Cache.MarksOk.of_prim (hc : c.MarksOk) (h : Prim c a c') : c'.MarksOk := by
  refine ⟨h.iters hc.iters, fun tref ref n hn => ?_, fun tref ref tref' ref' n hn hn' => ?_⟩
  · rcases h.mark_cases hn with hn | ⟨rfl, hnext, -⟩
    · exact Nat.lt_of_lt_of_le (hc.bound tref ref n hn) h.nextNode_le
    · rw [hnext]
      exact Nat.lt_succ_self _
  · rcases h.mark_cases hn with hn | ⟨rfl, -, ftn, groupID, rfl⟩ <;>
      rcases h.mark_cases hn' with hn' | ⟨heq, -, ftn', groupID', ha⟩
    · exact hc.inj tref ref tref' ref' n hn hn'
    · rw [heq] at hn
      exact absurd hn (hc.fresh _ _)
    · exact absurd hn' (hc.fresh _ _)
    · cases ha
      exact ⟨rfl, rfl⟩

namespace Cache

/-- The lists and the marks on the groups belong to each other. -/
structure LruOk (c : Cache) : Prop where
  nodes : (c.globalGroupLRU.map Prod.fst).Nodup
  entries : ∀ n ftn groupID, (n, ftn, groupID) ∈ c.globalGroupLRU → ∃ tref ref,
    c.cache.lookup ftn = some tref ∧ (c.tracks tref).groups.lookup groupID = some ref ∧
      c.mark tref ref = some n
  marked : ∀ ftn tref groupID ref n, c.cache.lookup ftn = some tref →
    (c.tracks tref).groups.lookup groupID = some ref → c.mark tref ref = some n →
    (n, ftn, groupID) ∈ c.globalGroupLRU
  lists : ∀ tref n groupID, (n, groupID) ∈ (c.tracks tref).groupLRU → ∃ ref,
    (c.tracks tref).groups.lookup groupID = some ref ∧ c.mark tref ref = some n
  iters : ∀ tref ref, ((c.tracks tref).heap ref).globalLruIter = c.mark tref ref
  bound : ∀ tref ref n, c.mark tref ref = some n → n < c.nextNode
  inj : ∀ tref ref tref' ref' n, c.mark tref ref = some n → c.mark tref' ref' = some n →
    tref = tref' ∧ ref = ref'
  /-- A group that left an unstamped track left a list. -/
  detached : ∀ tref < c.nextTrackRef, (c.tracks tref).evicted = false →
    ∀ ref < (c.tracks tref).nextGroupRef,
      (∃ groupID, (c.tracks tref).groups.lookup groupID = some ref) ∨ c.mark tref ref ≠ none

theorem LruOk.marks (hc : c.LruOk) : c.MarksOk := ⟨hc.iters, hc.bound, hc.inj⟩

theorem LruOk.of_sameLists (h : SameLists c c') (hc : c.LruOk) : c'.LruOk := by
  obtain ⟨⟨h1, h2, h3, h4, h5⟩, h6, h7, h8, h9, h10⟩ := h
  refine ⟨?_, ?_, ?_, ?_, ?_, ?_, ?_, ?_⟩
  · rw [h7]
    exact hc.nodes
  · intro n ftn groupID hmem
    rw [h7] at hmem
    simpa only [h1, h3, h9] using hc.entries n ftn groupID hmem
  · intro ftn tref groupID ref n
    rw [h1, h3, h7, h9]
    exact hc.marked ftn tref groupID ref n
  · intro tref n groupID hmem
    rw [h8] at hmem
    simpa only [h3, h9] using hc.lists tref n groupID hmem
  · intro tref ref
    rw [h10, h9]
    exact hc.iters tref ref
  · intro tref ref n hn
    rw [h9] at hn
    exact Nat.lt_of_lt_of_le (hc.bound tref ref n hn) h6
  · intro tref ref tref' ref' n
    rw [h9, h9]
    exact hc.inj tref ref tref' ref' n
  · intro tref hlt hev ref href
    rw [h2] at hlt
    rw [h5] at hev
    rw [h4] at href
    rw [h3, h9]
    exact hc.detached tref hlt hev ref href

variable {ftn : FullTrackName} {groupID : Nat}

theorem LruOk.emplaceTrack (hw : c.WF) (hc : c.LruOk) (hl : c.cache.lookup ftn = none) :
    (c.emplaceTrack ftn).LruOk := by
  obtain ⟨hiters, hbound, hinj⟩ := hc.marks.of_prim (.emplaceTrack c ftn hl)
  have htracks := emplaceTrack_tracks_eq c ftn
  refine ⟨hc.nodes, ?_, ?_, ?_, hiters, hbound, hinj, ?_⟩
  · intro n f groupID hmem
    obtain ⟨tref, ref, hf, hg, hm⟩ := hc.entries n f groupID hmem
    have htr : tref ≠ c.nextTrackRef := Nat.ne_of_lt (hw.lt f tref hf)
    rw [← if_neg htr (c := tref = c.nextTrackRef) (t := {}) (e := c.tracks tref), ← htracks] at hg
    exact ⟨tref, ref, lookup_insert_of_new hl hf, hg,
      by rw [mark_emplaceTrack, if_neg htr]; exact hm⟩
  · intro f tref groupID ref n hf hg hm
    rw [mark_emplaceTrack] at hm
    split at hm
    · cases hm
    · next htr =>
      rw [htracks, if_neg htr] at hg
      rcases lookup_emplaceTrack hf with ⟨-, h⟩ | ⟨-, hf⟩
      · exact absurd h htr
      · exact hc.marked f tref groupID ref n hf hg hm
  · intro tref n groupID hmem
    simp only [mark_emplaceTrack]
    rw [htracks] at hmem ⊢
    split at hmem
    · cases hmem
    · next htr =>
      simp only [if_neg htr]
      exact hc.lists tref n groupID hmem
  · intro tref hlt hev ref href
    rw [mark_emplaceTrack]
    rw [htracks] at href hev ⊢
    split at href
    · cases href
    · next htr =>
      rw [if_neg htr] at hev
      rw [if_neg htr, if_neg htr]
      exact hc.detached tref (Nat.lt_of_le_of_ne (Nat.le_of_lt_succ hlt) htr) hev ref href

variable {tref : TrackRef} {ref : GroupRef}

theorem LruOk.markEvicted {cause : EvictCause} (hc : c.LruOk)
    (h : Prim c (.markEvicted ftn tref cause) (c.markEvicted tref)) :
    (c.markEvicted tref).LruOk := by
  obtain ⟨hiters, hbound, hinj⟩ := hc.marks.of_prim h
  refine ⟨hc.nodes, ?_, ?_, ?_, hiters, hbound, hinj, ?_⟩
  · simp only [markEvicted_groups, mark_markEvicted]
    exact hc.entries
  · simp only [markEvicted_groups, mark_markEvicted]
    exact hc.marked
  · simpa using hc.lists
  · intro tr hlt hev ref
    rw [markEvicted_nextGroupRef, markEvicted_groups, mark_markEvicted]
    exact hc.detached tr hlt ((markEvicted_evicted c tref tr).mp hev).2 ref

theorem LruOk.eraseTrack (hc : c.LruOk) (hl : c.cache.lookup ftn = some tref)
    (hempty : (c.tracks tref).groups.keys = []) : { c with cache := c.cache.erase ftn }.LruOk := by
  refine ⟨hc.nodes, ?_, ?_, hc.lists, hc.iters, hc.bound, hc.inj, hc.detached⟩
  · intro n f groupID hmem
    obtain ⟨tr, ref, hf, hg, hm⟩ := hc.entries n f groupID hmem
    have hne : f ≠ ftn := by
      rintro rfl
      rw [hl, Option.some.injEq] at hf
      subst hf
      rw [lookup_none_of_keys hempty] at hg
      cases hg
    exact ⟨tr, ref, by rw [AList.lookup_erase_ne hne]; exact hf, hg, hm⟩
  · intro f tr groupID ref n hf hg hm
    exact hc.marked f tr groupID ref n (lookup_erase_some hf).2 hg hm

theorem LruOk.emplaceGroup (hw : c.WF) (hc : c.LruOk)
    (hl : (c.tracks tref).groups.lookup groupID = none) :
    (c.setTrack tref ((c.tracks tref).emplaceGroup groupID)).LruOk := by
  obtain ⟨hiters, hbound, hinj⟩ := hc.marks.of_prim (.emplaceGroup c tref groupID hl)
  have hmark := fun tr => mark_emplaceGroup c tref tr groupID
  -- A group that is there keeps its place and its mark.
  have hkeep : ∀ tr g ref, (c.tracks tr).groups.lookup g = some ref →
      ((c.setTrack tref ((c.tracks tref).emplaceGroup groupID)).tracks tr).groups.lookup g =
        some ref ∧
      (c.setTrack tref ((c.tracks tref).emplaceGroup groupID)).mark tr ref = c.mark tr ref := by
    intro tr g ref hg
    constructor
    · rw [setTrack_emplaceGroup_tracks]
      split
      · next htr =>
        subst htr
        exact lookup_insert_of_new hl hg
      · exact hg
    · rw [hmark, if_neg]
      rintro ⟨rfl, rfl⟩
      exact Nat.lt_irrefl _ (hw.bounded tr g _ hg)
  refine ⟨hc.nodes, ?_, ?_, ?_, hiters, hbound, hinj, ?_⟩
  · intro n ftn g hmem
    obtain ⟨tr, ref, hf, hg, hm⟩ := hc.entries n ftn g hmem
    obtain ⟨hg', hm'⟩ := hkeep tr g ref hg
    exact ⟨tr, ref, hf, hg', hm'.trans hm⟩
  · intro ftn tr g ref n hf hg hm
    rcases lookup_setTrack_emplaceGroup c tref tr groupID hg with ⟨rfl, -, rfl⟩ | hg
    · rw [hmark, if_pos ⟨rfl, rfl⟩] at hm
      cases hm
    · exact hc.marked ftn tr g ref n hf hg ((hkeep tr g ref hg).2.symm.trans hm)
  · intro tr n g hmem
    rw [setTrack_emplaceGroup_groupLRU] at hmem
    obtain ⟨ref, hg, hm⟩ := hc.lists tr n g hmem
    exact ⟨ref, (hkeep tr g ref hg).1, (hkeep tr g ref hg).2.trans hm⟩
  · intro tr hlt hev ref href
    rw [setTrack_emplaceGroup_evicted] at hev
    rw [hmark]
    by_cases hnew : tr = tref ∧ ref = (c.tracks tref).nextGroupRef
    · obtain ⟨rfl, rfl⟩ := hnew
      rw [setTrack_tracks]
      exact .inl ⟨groupID, emplaceGroup_lookup _ _⟩
    · rw [if_neg hnew]
      have hold : ref < (c.tracks tr).nextGroupRef := by
        rw [setTrack_emplaceGroup_nextGroupRef] at href
        split at href
        · next htr =>
          subst htr
          exact Nat.lt_of_le_of_ne (Nat.le_of_lt_succ href) fun h => hnew ⟨rfl, h⟩
        · exact href
      exact (hc.detached tr hlt hev ref hold).imp_left fun ⟨g, hg⟩ => ⟨g, (hkeep tr g ref hg).1⟩

/-- A list names marked groups only. -/
theorem LruOk.marked_of_named (hc : c.LruOk)
    (hl : (c.tracks tref).groups.lookup groupID = some ref) (h : c.GroupNamed tref groupID) :
    (c.tracks tref).evicted = true ∨ c.mark tref ref ≠ none := by
  rcases h with hev | ⟨n, hmem⟩ | ⟨n, ftn, hmem, hf⟩
  · exact .inl hev
  · obtain ⟨r, hr, hm⟩ := hc.lists tref n groupID hmem
    rw [hl, Option.some.injEq] at hr
    subst hr
    simp [hm]
  · obtain ⟨tr, r, hf', hr, hm⟩ := hc.entries n ftn groupID hmem
    rw [hf, Option.some.injEq] at hf'
    subst hf'
    rw [hl, Option.some.injEq] at hr
    subst hr
    simp [hm]

theorem LruOk.dropGroup (hw : c.WF) (hc : c.LruOk)
    (h : Prim c (.evictGroup tref groupID) (c.dropGroup tref groupID ref))
    (hl : (c.tracks tref).groups.lookup groupID = some ref)
    (hnamed : (c.tracks tref).evicted = true ∨ c.mark tref ref ≠ none) :
    (c.dropGroup tref groupID ref).LruOk := by
  obtain ⟨hiters, hbound, hinj⟩ := hc.marks.of_prim h
  have hlookup := fun tr => @lookup_dropGroup _ c tref tr groupID ref
  have hglobal : ∀ n x, (n, x) ∈ (c.dropGroup tref groupID ref).globalGroupLRU ↔
      (n, x) ∈ c.globalGroupLRU ∧ c.mark tref ref ≠ some n := by
    intro n x
    rw [dropGroup_globalGroupLRU, mem_eraseNode, hc.iters]
  -- The other groups keep their places.
  have hkeep : ∀ tr g r, (c.tracks tr).groups.lookup g = some r → ¬ (tr = tref ∧ r = ref) →
      ((c.dropGroup tref groupID ref).tracks tr).groups.lookup g = some r := by
    intro tr g r hg hne
    refine (hlookup tr).mpr ⟨hg, ?_⟩
    rintro ⟨rfl, rfl⟩
    exact hne ⟨rfl, Option.some.inj (hg.symm.trans hl)⟩
  refine ⟨nodes_eraseNode _ hc.nodes, ?_, ?_, ?_, hiters, hbound, hinj, ?_⟩
  · intro n ftn g hmem
    obtain ⟨hmem, hne⟩ := (hglobal n _).mp hmem
    obtain ⟨tr, r, hf, hg, hm⟩ := hc.entries n ftn g hmem
    refine ⟨tr, r, hf, hkeep tr g r hg ?_, by rw [mark_dropGroup]; exact hm⟩
    rintro ⟨rfl, rfl⟩
    exact hne hm
  · intro ftn tr g r n hf hg hm
    obtain ⟨hg', hne⟩ := (hlookup tr).mp hg
    rw [mark_dropGroup] at hm
    refine (hglobal n _).mpr ⟨hc.marked ftn tr g r n hf hg' hm, fun hn => ?_⟩
    obtain ⟨rfl, rfl⟩ := hc.inj tr r tref ref n hm hn
    exact hne ⟨rfl, hw.groups_inj tr g groupID r hg' hl⟩
  · intro tr n g hmem
    have hlists : (n, g) ∈ (c.tracks tr).groupLRU ∧ (tr = tref → c.mark tref ref ≠ some n) := by
      rw [dropGroup_tracks_eq] at hmem
      split at hmem
      · next htr =>
        subst htr
        obtain ⟨hmem, hne⟩ := mem_eraseNode.mp hmem
        exact ⟨hmem, fun _ => hne⟩
      · next htr => exact ⟨hmem, fun h => absurd h htr⟩
    obtain ⟨r, hg, hm⟩ := hc.lists tr n g hlists.1
    refine ⟨r, hkeep tr g r hg ?_, by rw [mark_dropGroup]; exact hm⟩
    rintro ⟨rfl, rfl⟩
    exact hlists.2 rfl hm
  · intro tr hlt hev r hr
    rw [dropGroup_evicted] at hev
    rw [dropGroup_nextGroupRef] at hr
    rw [mark_dropGroup]
    by_cases hself : tr = tref ∧ r = ref
    · obtain ⟨rfl, rfl⟩ := hself
      rcases hnamed with h | h
      · rw [hev] at h
        cases h
      · exact .inr h
    · exact (hc.detached tr hlt hev r hr).imp_left fun ⟨g, hg⟩ => ⟨g, hkeep tr g r hg hself⟩

theorem LruOk.removeGroup (hc : c.LruOk) (hl : (c.tracks tref).groups.lookup groupID = some ref) :
    (c.takeGroupFromLRU tref ref).LruOk := by
  have hprim := Prim.removeGroup c tref groupID ref hl
  have hskel := hprim.sameSkeleton rfl
  obtain ⟨hiters, hbound, hinj⟩ := hc.marks.of_prim hprim
  have hmark := fun tr r => removeGroup_mark c tref tr ref r
  have hlists := fun tr => removeGroup_lists c tref tr ref (hc.iters tref ref)
  have hglobal := (hlists tref).1
  -- The node that is erased is the group's own, so no other mark loses its node.
  have hother : ∀ tr r n, c.mark tr r = some n → (tr = tref → c.mark tref ref ≠ some n) →
      (c.takeGroupFromLRU tref ref).mark tr r = some n := by
    intro tr r n hm hne
    rw [hmark, if_neg]
    · exact hm
    · rintro ⟨rfl, rfl⟩
      exact hne rfl hm
  refine ⟨?_, ?_, ?_, ?_, hiters, hbound, hinj, ?_⟩
  · rw [hglobal]
    exact nodes_eraseNode _ hc.nodes
  · intro n ftn g hmem
    rw [hglobal, mem_eraseNode] at hmem
    obtain ⟨tr, r, hf, hg, hm⟩ := hc.entries n ftn g hmem.1
    exact ⟨tr, r, by rw [hskel.cache]; exact hf, by rw [hskel.groups]; exact hg,
      hother tr r n hm fun _ => hmem.2⟩
  · intro ftn tr g r n hf hg hm
    rw [hskel.cache] at hf
    rw [hskel.groups] at hg
    rw [hmark] at hm
    rw [hglobal, mem_eraseNode]
    split at hm
    · cases hm
    · next hne =>
      exact ⟨hc.marked ftn tr g r n hf hg hm, fun hn => hne (hc.inj tr r tref ref n hm hn)⟩
  · intro tr n g hmem
    rw [hskel.groups]
    rw [(hlists tr).2] at hmem
    split at hmem
    · next htr =>
      subst htr
      obtain ⟨hmem, hne⟩ := mem_eraseNode.mp hmem
      obtain ⟨r, hg, hm⟩ := hc.lists tr n g hmem
      exact ⟨r, hg, hother tr r n hm fun _ => hne⟩
    · next htr =>
      obtain ⟨r, hg, hm⟩ := hc.lists tr n g hmem
      exact ⟨r, hg, hother tr r n hm fun h => absurd h htr⟩
  · intro tr hlt hev r hr
    rw [hskel.nextTrackRef] at hlt
    rw [hskel.evicted] at hev
    rw [hskel.nextGroupRef] at hr
    rw [hskel.groups, hmark]
    by_cases hself : tr = tref ∧ r = ref
    · obtain ⟨rfl, rfl⟩ := hself
      exact .inl ⟨groupID, hl⟩
    · rw [if_neg hself]
      exact hc.detached tr hlt hev r hr

theorem LruOk.addGroup (hw : c.WF) (hc : c.LruOk) (hf : c.cache.lookup ftn = some tref)
    (hl : (c.tracks tref).groups.lookup groupID = some ref) (hm : c.mark tref ref = none) :
    (c.addGroupToLRU ftn groupID tref ref).LruOk := by
  have hskel : SameSkeleton c (c.addGroupToLRU ftn groupID tref ref) :=
    Prim.sameSkeleton (.addGroup c ftn groupID tref ref hm) rfl
  obtain ⟨hiters, hbound, hinj⟩ := hc.marks.of_prim (.addGroup c ftn groupID tref ref hm)
  obtain ⟨hglobal, -, hlists, hmark, -⟩ := addGroup_views ftn groupID hm
  have hkeep : ∀ tr r n, c.mark tr r = some n →
      (c.addGroupToLRU ftn groupID tref ref).mark tr r = some n := by
    intro tr r n hn
    rw [hmark, if_neg]
    · exact hn
    · rintro ⟨rfl, rfl⟩
      rw [hm] at hn
      cases hn
  have hnew : (c.addGroupToLRU ftn groupID tref ref).mark tref ref = some c.nextNode := by
    rw [hmark, if_pos ⟨rfl, rfl⟩]
  refine ⟨?_, ?_, ?_, ?_, hiters, hbound, hinj, ?_⟩
  · rw [hglobal, List.map_cons, List.nodup_cons]
    refine ⟨fun hmem => ?_, hc.nodes⟩
    obtain ⟨⟨n, f, g⟩, he, rfl⟩ := List.mem_map.mp hmem
    obtain ⟨tr, r, -, -, hn⟩ := hc.entries _ f g he
    exact hc.marks.fresh tr r hn
  · intro n f g hmem
    rw [hskel.cache]
    rw [hglobal, List.mem_cons] at hmem
    rcases hmem with heq | hmem
    · cases heq
      exact ⟨tref, ref, hf, by rw [hskel.groups]; exact hl, hnew⟩
    · obtain ⟨tr, r, hf', hg, hn⟩ := hc.entries n f g hmem
      exact ⟨tr, r, hf', by rw [hskel.groups]; exact hg, hkeep tr r n hn⟩
  · intro f tr g r n hf' hg hn
    rw [hskel.cache] at hf'
    rw [hskel.groups] at hg
    rw [hglobal, List.mem_cons]
    rw [hmark] at hn
    split at hn
    · next hself =>
      cases hn
      obtain ⟨rfl, rfl⟩ := hself
      left
      rw [hw.inj f ftn tr hf' hf, hw.groups_inj tr g groupID r hg hl]
    · exact .inr (hc.marked f tr g r n hf' hg hn)
  · intro tr n g hmem
    rw [hskel.groups]
    rw [hlists] at hmem
    split at hmem
    · next htr =>
      subst htr
      rcases List.mem_cons.mp hmem with heq | hmem
      · cases heq
        exact ⟨ref, hl, hnew⟩
      · obtain ⟨r, hg, hn⟩ := hc.lists tr n g hmem
        exact ⟨r, hg, hkeep tr r n hn⟩
    · obtain ⟨r, hg, hn⟩ := hc.lists tr n g hmem
      exact ⟨r, hg, hkeep tr r n hn⟩
  · intro tr hlt hev r hr
    rw [hskel.nextTrackRef] at hlt
    rw [hskel.evicted] at hev
    rw [hskel.nextGroupRef] at hr
    rw [hskel.groups]
    rcases hc.detached tr hlt hev r hr with h | h
    · exact .inl h
    · right
      rw [hmark]
      split
      · simp
      · exact h

/-- Only a group of a cached track may become evictable. -/
def AddOk (c : Cache) : Act → Prop
  | .addGroup ftn groupID tref ref => c.mark tref ref = none →
      c.cache.lookup ftn = some tref ∧ (c.tracks tref).groups.lookup groupID = some ref
  | _ => True

theorem addOk_of_upkeep (h : a.Upkeep) : c.AddOk a := by
  cases h <;> exact trivial

/-- Every such act keeps lists and marks together. -/
theorem LruOk.of_prim (hw : c.WF) (hc : c.LruOk) (h : Prim c a c') (ha : c.AddOk a) :
    c'.LruOk := by
  cases hs : a.isStructural with
  | true =>
    cases h with
    | emplaceTrack ftn hl => exact hc.emplaceTrack hw hl
    | markEvicted ftn tref cause hl named =>
      exact hc.markEvicted (.markEvicted c ftn tref cause hl named)
    | eraseTrack ftn tref hl hev hempty => exact hc.eraseTrack hl hempty
    | emplaceGroup tref groupID hl => exact hc.emplaceGroup hw hl
    | evictGroup tref groupID ref hl hb named =>
      exact hc.dropGroup hw (.evictGroup c tref groupID ref hl hb named) hl
        (hc.marked_of_named hl named)
    | _ => simp [Act.isStructural] at hs
  | false =>
    cases hl : a.isListing with
    | false => exact hc.of_sameLists (h.sameLists hs hl)
    | true =>
      cases h with
      | addGroup ftn groupID tref ref hm =>
        obtain ⟨hf, hg⟩ := ha hm
        exact hc.addGroup hw hf hg hm
      | removeGroup tref groupID ref hg => exact hc.removeGroup hg
      | popGroup n ftn groupID hlast hgone =>
        -- The last entry names a cached track.
        obtain ⟨tref, ref, hf, -⟩ := hc.entries n ftn groupID (List.mem_of_getLast? hlast)
        rw [hgone] at hf
        cases hf
      | _ => simp [Act.isListing] at hl

theorem LruOk.of_acts {P : Cache → Act → Prop} (hw : c.WF) (hc : c.LruOk)
    (hP : ∀ d a, c.Grows d → P d a → d.AddOk a) (h : Acts P c c') : c'.LruOk := by
  have hkeep : c.Grows c' ∧ c'.LruOk := by
    refine h.keeps (I := fun d => c.Grows d ∧ d.LruOk) ?_ ⟨.refl hw, hc⟩
    rintro d a d' ha hprim ⟨hg, hd⟩
    exact ⟨hg.of_prim hprim, hd.of_prim hg.wf hprim (hP d a hg ha)⟩
  exact hkeep.2

theorem LruOk.of_steps {P : Cache → Act → Prop} (hw : c.WF) (hc : c.LruOk)
    (hP : ∀ d a, c.Grows d → P d a → d.AddOk a) (h : Steps P c c') : c'.LruOk :=
  hc.of_acts hw hP h.acts

theorem lruOk_create (tracks groups bytes minBytes : Nat)
    (default_ allowed : Option Milliseconds) :
    (Cache.create tracks groups bytes minBytes default_ allowed).LruOk := by
  have hmark : ∀ tref ref,
      (Cache.create tracks groups bytes minBytes default_ allowed).mark tref ref = none :=
    fun _ _ => rfl
  refine ⟨List.nodup_nil, by simp [create], by simp [hmark], by simp [create], fun _ _ => rfl,
    by simp [hmark], by simp [hmark], by simp [create]⟩

end Cache

end Moqx
