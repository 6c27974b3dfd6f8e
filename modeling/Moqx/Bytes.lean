import Moqx.Reachable
import Moqx.Moxygen.Ranked

/-! Byte accounting: the counter of a group is the size of what it holds, and the cache's
total is the sum over the groups of all cached tracks. -/
namespace Moqx

open Moxygen Maps CacheTrack

section
variable [Moxygen] {c c' : Cache}

def CacheEntry.bytes (e : CacheEntry) : Nat := e.payload.elim 0 List.length

/-- The counter of a group and the sizes of its entries are right. -/
structure CacheGroup.Counted (g : CacheGroup) : Prop where
  sizes : All g.objects fun _ e => e.payloadSize = e.bytes
  counter : g.totalBytes = total g.objects fun _ e => e.bytes

def CacheTrack.groupBytes (t : CacheTrack) : Nat :=
  total t.groups fun _ ref => (t.heap ref).totalBytes

def Cache.trackBytes (c : Cache) : Nat :=
  total c.cache fun _ tref => (c.tracks tref).groupBytes

/-- The byte counters are right; a track that is not cached has only empty groups. -/
structure Cache.BytesInv (c : Cache) : Prop where
  sum : c.totalCachedBytes = c.trackBytes
  groups : ∀ tref ref, ((c.tracks tref).heap ref).Counted
  orphans : ∀ tref, (∀ ftn, c.cache.lookup ftn ≠ some tref) → ∀ groupID ref,
    (c.tracks tref).groups.lookup groupID = some ref → ((c.tracks tref).heap ref).objects = ∅

namespace CacheGroup

variable {g g' : CacheGroup}

theorem counted_empty : ({} : CacheGroup).Counted := ⟨all_empty, rfl⟩

theorem Counted.of_eq (h : g.Counted) (ho : g'.objects = g.objects)
    (hb : g'.totalBytes = g.totalBytes) : g'.Counted :=
  ⟨by rw [ho]; exact h.sizes, by rw [ho, hb]; exact h.counter⟩

theorem Counted.size_le {objectID : Nat} {e : CacheEntry} (h : g.Counted)
    (hl : g.objects.lookup objectID = some e) : e.payloadSize ≤ g.totalBytes := by
  rw [h.sizes objectID e hl, h.counter]
  exact le_total (f := fun _ e => e.bytes) hl

theorem Counted.eq_zero (h : g.Counted) (ho : g.objects = ∅) : g.totalBytes = 0 := by
  rw [h.counter, ho]
  rfl

/-- A write counts the bytes it puts in place of the old ones. -/
theorem Counted.putObject {objectID : Nat} {w : ObjectWrite} (h : g.Counted)
    (hput : g.putObject objectID w = .ok (.ok g')) : g'.Counted := by
  cases hl : g.objects.lookup objectID with
  | none =>
    simp only [CacheGroup.putObject, hl, Except.ok.injEq] at hput
    subst hput
    refine ⟨h.sizes.insert rfl, ?_⟩
    rw [total_insert_new hl, h.counter, Nat.add_comm]
    rfl
  | some cached =>
    simp only [CacheGroup.putObject, hl] at hput
    split at hput
    · cases hput
    · obtain ⟨totalBytes, hsub, hput⟩ := bind_eq_ok.mp hput
      cases hput
      refine ⟨h.sizes.insert rfl, ?_⟩
      have hle := h.size_le hl
      rcases Cache.subSize_cases g.totalBytes cached.payloadSize with ⟨-, hs⟩ | ⟨hlt, -⟩
      · rw [hs, Except.ok.injEq] at hsub
        have htotal := total_insert (f := fun _ e => e.bytes) (overwriteEntry cached w) hl
        have hsize := h.sizes _ _ hl
        have hnew : (overwriteEntry cached w).bytes = w.payloadSize := rfl
        have hcount := h.counter
        dsimp only at htotal hcount ⊢
        omega
      · omega

theorem Counted.append {objectID : Nat} {e : CacheEntry} {chunk : Payload} {completes : Bool}
    (h : g.Counted) (hl : g.objects.lookup objectID = some e) :
    CacheGroup.Counted { g with
      objects := g.objects.insert objectID (e.append chunk completes)
      totalBytes := g.totalBytes + chunk.length } := by
  have hbytes : (e.append chunk completes).bytes = e.bytes + chunk.length := by
    cases hp : e.payload <;> simp [CacheEntry.append, CacheEntry.bytes, hp]
  refine ⟨h.sizes.insert ?_, ?_⟩
  · rw [hbytes, ← h.sizes objectID e hl]
    rfl
  · have htotal := total_insert (f := fun _ e => e.bytes) (e.append chunk completes) hl
    have hcount := h.counter
    dsimp only at htotal hcount ⊢
    omega

theorem Counted.erase {objectID : Nat} {e : CacheEntry} (h : g.Counted)
    (hl : g.objects.lookup objectID = some e) : CacheGroup.Counted { g with
      totalBytes := g.totalBytes - e.payloadSize, objects := g.objects.erase objectID } := by
  refine ⟨h.sizes.erase, ?_⟩
  have htotal := total_erase (f := fun _ e => e.bytes) hl
  have hcount := h.counter
  have hsize := h.sizes _ _ hl
  dsimp only at htotal hcount ⊢
  omega

end CacheGroup

section
variable {t t' : CacheTrack} {tref : TrackRef} {groupID : Nat} {ref : GroupRef}

theorem CacheTrack.groupBytes_congr (hg : t'.groups = t.groups)
    (hb : ∀ ref, (t'.heap ref).totalBytes = (t.heap ref).totalBytes) :
    t'.groupBytes = t.groupBytes := by
  simp only [groupBytes, hg, hb]

/-- Replacing the content of one group. -/
theorem CacheTrack.groupBytes_setGroup {g : CacheGroup}
    (hinj : ∀ a b r, t.groups.lookup a = some r → t.groups.lookup b = some r → a = b)
    (hl : t.groups.lookup groupID = some ref) :
    (t.setGroup ref g).groupBytes + (t.heap ref).totalBytes = t.groupBytes + g.totalBytes := by
  have hupd := total_update (f := fun _ r => (t.heap r).totalBytes)
    (g := fun _ r => ((t.setGroup ref g).heap r).totalBytes) hl fun k r hk hne => by
      have hr : r ≠ ref := by
        rintro rfl
        exact hne (hinj _ _ _ hk hl)
      simp [hr]
  simpa [groupBytes] using hupd

theorem CacheTrack.groupBytes_emplaceGroup (hb : t.RefsBounded)
    (hl : t.groups.lookup groupID = none) : (t.emplaceGroup groupID).groupBytes = t.groupBytes := by
  simp only [groupBytes, emplaceGroup, total_insert_new hl]
  rw [setGroup_heap, Nat.zero_add]
  refine total_congr fun a r ha => ?_
  have hr : r ≠ t.nextGroupRef := Nat.ne_of_lt (hb a r ha)
  simp [hr]

theorem CacheTrack.groupBytes_eraseGroup {g : CacheGroup}
    (hl : t.groups.lookup groupID = some ref) :
    (t.eraseGroup groupID g).groupBytes + (t.heap ref).totalBytes = t.groupBytes :=
  total_erase hl

theorem CacheTrack.totalBytes_le (hl : t.groups.lookup groupID = some ref) :
    (t.heap ref).totalBytes ≤ t.groupBytes :=
  le_total (f := fun _ r => (t.heap r).totalBytes) hl

namespace Cache

/-- Changing a cached track moves the sum by the difference of its bytes. -/
theorem trackBytes_setTrack {ftn : FullTrackName} (hwf : c.WF)
    (hl : c.cache.lookup ftn = some tref) (t : CacheTrack) :
    (c.setTrack tref t).trackBytes + (c.tracks tref).groupBytes = c.trackBytes + t.groupBytes := by
  have hupd := total_update (f := fun _ r => (c.tracks r).groupBytes)
    (g := fun _ r => ((c.setTrack tref t).tracks r).groupBytes) hl fun k r hk hne => by
      have hr : r ≠ tref := by
        rintro rfl
        exact hne (hwf.inj _ _ _ hk hl)
      simp [hr]
  simpa [trackBytes] using hupd

/-- Changing an uncached track, or one to as many bytes, keeps the sum. -/
theorem trackBytes_setTrack_eq (t : CacheTrack)
    (h : (∃ ftn, c.cache.lookup ftn = some tref) → t.groupBytes = (c.tracks tref).groupBytes) :
    (c.setTrack tref t).trackBytes = c.trackBytes := by
  refine total_congr fun ftn tr hl => ?_
  by_cases htr : tr = tref
  · subst htr
    rw [setTrack_tracks]
    exact h ⟨ftn, hl⟩
  · rw [setTrack_tracks_ne _ _ _ htr]

end Cache

end

/-- Acts that change what there is to count. -/
def Act.movesBytes : Act → Bool
  | .emplaceTrack _ => true
  | .eraseTrack _ _ => true
  | .emplaceGroup _ _ => true
  | .store _ _ _ _ => true
  | .append _ _ _ => true
  | .expire _ _ _ => true
  | .evictGroup _ _ => true
  | _ => false

/-- Two caches with the same bytes in the same places. -/
structure SameBytes (c c' : Cache) : Prop where
  cache : c'.cache = c.cache
  total : c'.totalCachedBytes = c.totalCachedBytes
  groups : ∀ tref, (c'.tracks tref).groups = (c.tracks tref).groups
  objects : ∀ tref ref, ((c'.tracks tref).heap ref).objects = ((c.tracks tref).heap ref).objects
  bytes : ∀ tref ref,
    ((c'.tracks tref).heap ref).totalBytes = ((c.tracks tref).heap ref).totalBytes

theorem SameBytes.refl (c : Cache) : SameBytes c c :=
  ⟨rfl, rfl, fun _ => rfl, fun _ _ => rfl, fun _ _ => rfl⟩

theorem SameBytes.of_update {tref : TrackRef} {t : CacheTrack} (hc : c'.cache = c.cache)
    (hn : c'.totalCachedBytes = c.totalCachedBytes)
    (ht : c'.tracks = Function.update c.tracks tref t)
    (hg : t.groups = (c.tracks tref).groups)
    (ho : ∀ ref, (t.heap ref).objects = ((c.tracks tref).heap ref).objects)
    (hb : ∀ ref, (t.heap ref).totalBytes = ((c.tracks tref).heap ref).totalBytes) :
    SameBytes c c' := by
  have hcases : ∀ tr, tr = tref ∨ tr ≠ tref := fun tr => Classical.em _
  refine ⟨hc, hn, fun tr => ?_, fun tr ref => ?_, fun tr ref => ?_⟩ <;>
    rcases hcases tr with rfl | htr <;> simp [*]

/-- Changing a group elsewhere than in its objects. -/
theorem SameBytes.of_group {tref : TrackRef} {ref : GroupRef} {t : CacheTrack} {g : CacheGroup}
    (hc : c'.cache = c.cache) (hn : c'.totalCachedBytes = c.totalCachedBytes)
    (ht : c'.tracks = Function.update c.tracks tref t) (hg : t.groups = (c.tracks tref).groups)
    (hh : t.heap = Function.update (c.tracks tref).heap ref g)
    (ho : g.objects = ((c.tracks tref).heap ref).objects)
    (hb : g.totalBytes = ((c.tracks tref).heap ref).totalBytes) : SameBytes c c' := by
  have hcases : ∀ r, r = ref ∨ r ≠ ref := fun r => Classical.em _
  refine .of_update hc hn ht hg (fun r => ?_) fun r => ?_ <;>
    rcases hcases r with rfl | hr <;> simp [*]

theorem Prim.sameBytes {a : Act} (h : Prim c a c') (ha : a.movesBytes = false) :
    SameBytes c c' := by
  cases h with
  | emplaceTrack | eraseTrack | emplaceGroup | store | append | expire | evictGroup =>
    simp [Act.movesBytes] at ha
  | popGroup => exact ⟨rfl, rfl, fun _ => rfl, fun _ _ => rfl, fun _ _ => rfl⟩
  | groupInfo => exact .of_group rfl rfl rfl rfl rfl rfl rfl
  | addTrack ftn tref =>
    unfold Cache.addTrackToLRU
    split
    · exact .refl c
    · exact .of_update rfl rfl rfl rfl (fun _ => rfl) fun _ => rfl
  | removeTrack tref =>
    unfold Cache.takeTrackFromLRU
    split
    · exact .of_update rfl rfl rfl rfl (fun _ => rfl) fun _ => rfl
    · exact .refl c
  | addGroup ftn groupID tref ref =>
    unfold Cache.addGroupToLRU
    dsimp only
    split
    · exact .refl c
    · exact .of_group rfl rfl rfl rfl rfl rfl rfl
  | removeGroup tref groupID ref =>
    unfold Cache.takeGroupFromLRU
    dsimp only
    split
    · exact .of_group rfl rfl rfl rfl rfl rfl rfl
    · exact .refl c
  | _ => exact .of_update rfl rfl rfl rfl (fun _ => rfl) fun _ => rfl

namespace Cache.BytesInv

theorem of_sameBytes (h : SameBytes c c') (hb : c.BytesInv) : c'.BytesInv := by
  obtain ⟨hcache, htotal, hgroups, hobjects, hbytes⟩ := h
  refine ⟨?_, fun tref ref => (hb.groups tref ref).of_eq (hobjects _ _) (hbytes _ _), ?_⟩
  · have htracks : ∀ tref, (c'.tracks tref).groupBytes = (c.tracks tref).groupBytes :=
      fun tref => groupBytes_congr (hgroups tref) (hbytes tref)
    simp only [htotal, hb.sum, trackBytes, hcache, htracks]
  · intro tref hno groupID ref hl
    rw [hcache] at hno
    rw [hgroups] at hl
    rw [hobjects]
    exact hb.orphans tref hno groupID ref hl

theorem emplaceTrack {ftn : FullTrackName} (hwf : c.WF) (hb : c.BytesInv)
    (hl : c.cache.lookup ftn = none) : (c.emplaceTrack ftn).BytesInv := by
  have htracks : ∀ tr, (c.emplaceTrack ftn).tracks tr =
      if tr = c.nextTrackRef then {} else c.tracks tr := by
    intro tr
    by_cases htr : tr = c.nextTrackRef
    · subst htr
      simp [emplaceTrack_tracks]
    · simp [Cache.emplaceTrack, setTrack, htr]
  refine ⟨?_, ?_, ?_⟩
  · show c.totalCachedBytes = total (c.cache.insert ftn c.nextTrackRef) _
    rw [total_insert_new hl, emplaceTrack_tracks, hb.sum]
    refine (Nat.zero_add _).symm.trans (congrArg _ (total_congr fun f tr hf => ?_))
    rw [htracks, if_neg (Nat.ne_of_lt (hwf.lt f tr hf))]
  · intro tref ref
    rw [htracks]
    split
    · exact CacheGroup.counted_empty
    · exact hb.groups tref ref
  · intro tref hno groupID ref hg
    rw [htracks] at hg ⊢
    split at hg
    · simp at hg
    · next hne =>
      rw [if_neg hne]
      exact hb.orphans tref (fun f hf => hno f (lookup_insert_of_new hl hf)) groupID ref hg

theorem eraseTrack {ftn : FullTrackName} {tref : TrackRef} (hb : c.BytesInv)
    (hl : c.cache.lookup ftn = some tref) (hempty : (c.tracks tref).groups.keys = []) :
    BytesInv { c with cache := c.cache.erase ftn } := by
  have hzero : (c.tracks tref).groupBytes = 0 := by
    have hnone : (c.tracks tref).groups.entries = [] := by
      simpa [AList.keys, List.keys] using hempty
    simp [CacheTrack.groupBytes, total, hnone]
  refine ⟨?_, hb.groups, ?_⟩
  · have herase := total_erase (f := fun _ tr => (c.tracks tr).groupBytes) hl
    show c.totalCachedBytes = total (c.cache.erase ftn) fun _ tr => (c.tracks tr).groupBytes
    have hsum := hb.sum
    simp only [trackBytes] at hsum
    omega
  · intro tr hno groupID ref hg
    by_cases htr : tr = tref
    · subst htr
      simp [lookup_none_of_keys hempty] at hg
    · exact hb.orphans tr (fun f hf => hno f (lookup_erase_of_ne hl htr hf)) groupID ref hg

section
variable {tref : TrackRef} {groupID : Nat} {ref : GroupRef}

/-- A change of one track and of the total, checked on that track alone. -/
theorem setTrack {t : CacheTrack} {n : Nat} (hwf : c.WF) (hb : c.BytesInv)
    (hcount : ∀ ref, (t.heap ref).Counted)
    (hin : (∃ ftn, c.cache.lookup ftn = some tref) →
      n + (c.tracks tref).groupBytes = c.totalCachedBytes + t.groupBytes)
    (hout : (∀ ftn, c.cache.lookup ftn ≠ some tref) → n = c.totalCachedBytes ∧
      ∀ groupID ref, t.groups.lookup groupID = some ref → (t.heap ref).objects = ∅) :
    ((c.setTrack tref t).setTotal n).BytesInv := by
  refine ⟨?_, ?_, ?_⟩
  · show n = (c.setTrack tref t).trackBytes
    by_cases hl : ∃ ftn, c.cache.lookup ftn = some tref
    · obtain ⟨ftn, hftn⟩ := hl
      have hupd := trackBytes_setTrack hwf hftn t
      have hn := hin ⟨ftn, hftn⟩
      have hsum := hb.sum
      omega
    · rw [trackBytes_setTrack_eq t fun h => absurd h hl, ← hb.sum]
      exact (hout fun ftn hftn => hl ⟨ftn, hftn⟩).1
  · intro tr r
    by_cases htr : tr = tref
    · subst htr
      simpa using hcount r
    · simpa [htr] using hb.groups tr r
  · intro tr hno g r hg
    by_cases htr : tr = tref
    · subst htr
      simp only [setTotal_tracks, setTrack_tracks] at hg ⊢
      exact (hout hno).2 g r hg
    · simp only [setTotal_tracks, setTrack_tracks_ne _ _ _ htr] at hg ⊢
      exact hb.orphans tr hno g r hg

theorem counted_setGroup {t : CacheTrack} {g : CacheGroup} (hb : ∀ r, (t.heap r).Counted)
    (hg : g.Counted) (r : GroupRef) : ((t.setGroup ref g).heap r).Counted := by
  by_cases hr : r = ref
  · subst hr
    simpa using hg
  · simpa [hr] using hb r

theorem emplaceGroup (hwf : c.WF) (hb : c.BytesInv)
    (hl : (c.tracks tref).groups.lookup groupID = none) :
    (c.setTrack tref ((c.tracks tref).emplaceGroup groupID)).BytesInv := by
  have hbound := hwf.bounded tref
  refine setTrack (n := c.totalCachedBytes) hwf hb
    (counted_setGroup (hb.groups tref) CacheGroup.counted_empty) (fun _ => ?_) fun hno => ⟨rfl, ?_⟩
  · rw [groupBytes_emplaceGroup hbound hl]
  · intro g r hg
    rcases lookup_emplaceGroup hg with ⟨-, rfl⟩ | ⟨-, hg⟩
    · simp
    · have hne : r ≠ (c.tracks tref).nextGroupRef := Nat.ne_of_lt (hbound g r hg)
      simpa [CacheTrack.emplaceGroup, hne] using hb.orphans tref hno g r hg

/-- Writing to a group that its cached track still has. -/
theorem setGroup {g : CacheGroup} {n : Nat} {ftn : FullTrackName} {l : AbsoluteLocation}
    {complete : Bool} (hwf : c.WF) (hb : c.BytesInv) (hftn : c.cache.lookup ftn = some tref)
    (hl : (c.tracks tref).groups.lookup groupID = some ref) (hg : g.Counted)
    (hn : n + ((c.tracks tref).heap ref).totalBytes = c.totalCachedBytes + g.totalBytes) :
    ((c.setTrack tref ((c.tracks tref).storeObject ref g l complete)).setTotal n).BytesInv := by
  refine setTrack hwf hb (counted_setGroup (hb.groups tref) hg) (fun _ => ?_)
    fun hno => absurd hftn (hno ftn)
  have hset := groupBytes_setGroup (g := g) (hwf.groups_inj tref) hl
  have hsame : ((c.tracks tref).storeObject ref g l complete).groupBytes =
      ((c.tracks tref).setGroup ref g).groupBytes := rfl
  omega

/-- An attached group with objects belongs to a cached track. -/
theorem cached_of_object {objectID : Nat} {e : CacheEntry} (hb : c.BytesInv)
    (hl : (c.tracks tref).groups.lookup groupID = some ref)
    (ho : ((c.tracks tref).heap ref).objects.lookup objectID = some e) :
    ∃ ftn, c.cache.lookup ftn = some tref := by
  by_contra hno
  rw [hb.orphans tref (fun ftn h => hno ⟨ftn, h⟩) groupID ref hl] at ho
  simp at ho

theorem expire {l : AbsoluteLocation} {e : CacheEntry} (hwf : c.WF) (hb : c.BytesInv)
    (hl : (c.tracks tref).groups.lookup l.group = some ref)
    (ho : ((c.tracks tref).heap ref).objects.lookup l.object = some e)
    (hbytes : e.payloadSize ≤ c.totalCachedBytes) :
    ((c.setTrack tref ((c.tracks tref).eraseObject ref l
      (((c.tracks tref).heap ref).totalBytes - e.payloadSize))).setTotal
      (c.totalCachedBytes - e.payloadSize)).BytesInv := by
  have hcount := (hb.groups tref ref).erase ho
  obtain ⟨ftn, hftn⟩ := cached_of_object hb hl ho
  refine setTrack hwf hb (counted_setGroup (hb.groups tref) hcount) (fun _ => ?_)
    fun hno => absurd hftn (hno ftn)
  have hset : ((c.tracks tref).eraseObject ref l
      (((c.tracks tref).heap ref).totalBytes - e.payloadSize)).groupBytes +
        ((c.tracks tref).heap ref).totalBytes = (c.tracks tref).groupBytes +
          (((c.tracks tref).heap ref).totalBytes - e.payloadSize) :=
    groupBytes_setGroup (hwf.groups_inj tref) hl
  have hsize := (hb.groups tref ref).size_le ho
  omega

theorem dropGroup (hwf : c.WF) (hb : c.BytesInv)
    (hl : (c.tracks tref).groups.lookup groupID = some ref)
    (hbytes : ((c.tracks tref).heap ref).totalBytes ≤ c.totalCachedBytes) :
    (c.dropGroup tref groupID ref).BytesInv := by
  have hset : ((c.setTrack tref ((c.tracks tref).eraseGroup groupID
      ((c.tracks tref).heap ref))).setTotal
      (c.totalCachedBytes - ((c.tracks tref).heap ref).totalBytes)).BytesInv := by
    refine setTrack hwf hb (hb.groups tref) (fun _ => ?_) fun hno => ⟨?_, ?_⟩
    · have herase := groupBytes_eraseGroup (g := (c.tracks tref).heap ref) hl
      omega
    · rw [(hb.groups tref ref).eq_zero (hb.orphans tref hno groupID ref hl), Nat.sub_zero]
    · intro g r hg
      exact hb.orphans tref hno g r (lookup_erase_some hg).2
  refine of_sameBytes ?_ hset
  exact ⟨rfl, rfl, fun _ => rfl, fun _ _ => rfl, fun _ _ => rfl⟩

end

/-- Every act keeps the counters right if objects are written to groups that a track not
stamped as evicted still has. -/
theorem of_prim {a : Act} (hwf : c.WF) (h : Prim c a c')
    (hstore : ∀ tref ref l w, a = .store tref ref l w → ∃ ftn, c.cache.lookup ftn = some tref ∧
      (c.tracks tref).groups.lookup l.group = some ref)
    (happend : ∀ tref ref l, a = .append tref ref l → ∃ ftn, c.cache.lookup ftn = some tref ∧
      (c.tracks tref).groups.lookup l.group = some ref)
    (hb : c.BytesInv) : c'.BytesInv := by
  cases hs : a.movesBytes with
  | false => exact hb.of_sameBytes (h.sameBytes hs)
  | true =>
    cases h with
    | emplaceTrack ftn hl => exact hb.emplaceTrack hwf hl
    | eraseTrack ftn tref hl _ hempty => exact hb.eraseTrack hl hempty
    | emplaceGroup tref groupID hl => exact hb.emplaceGroup hwf hl
    | store tref ref l w g n put bytes =>
      obtain ⟨ftn, hftn, hl⟩ := hstore _ _ _ _ rfl
      exact hb.setGroup hwf hftn hl ((hb.groups tref ref).putObject put) bytes
    | append tref ref l e chunk completes ho =>
      obtain ⟨ftn, hftn, hl⟩ := happend _ _ _ rfl
      refine hb.setGroup hwf hftn hl ((hb.groups tref ref).append ho) ?_
      dsimp only
      omega
    | expire tref ref l e hl ho _ hbytes => exact hb.expire hwf hl ho hbytes
    | evictGroup tref groupID ref hl hbytes => exact hb.dropGroup hwf hl hbytes
    | _ => simp [Act.movesBytes] at hs

end Cache.BytesInv

/-- Objects are written to groups that a track not stamped as evicted still has. -/
def AttachedWrites (next : TrackRef) (d : Cache) : Act → Prop
  | .store tref ref l _ => tref < next ∧ (d.tracks tref).evicted = false ∧
    (d.tracks tref).groups.lookup l.group = some ref
  | .append tref ref l => tref < next ∧ (d.tracks tref).evicted = false ∧
    (d.tracks tref).groups.lookup l.group = some ref
  | _ => True

theorem Cache.BytesInv.no_byteFailure {next : TrackRef} {e : Abort} (hb : c.BytesInv)
    (h : Fails (AttachedWrites next) c e) : ¬ e.ByteFailure := by
  have hle : ∀ tref groupID ref, (c.tracks tref).groups.lookup groupID = some ref →
      ((c.tracks tref).heap ref).totalBytes ≤ c.totalCachedBytes := by
    intro tref groupID ref hl
    by_cases hc : ∃ ftn, c.cache.lookup ftn = some tref
    · obtain ⟨ftn, hftn⟩ := hc
      rw [hb.sum]
      exact Nat.le_trans (totalBytes_le hl)
        (le_total (f := fun _ tr => (c.tracks tr).groupBytes) hftn)
    · rw [(hb.groups tref ref).eq_zero
        (hb.orphans tref (fun ftn h => hc ⟨ftn, h⟩) groupID ref hl)]
      exact Nat.zero_le _
  intro hbyte
  rcases h.bytes hbyte with ⟨tref, ref, object, entry, ho, hlt⟩ | ⟨tref, groupID, ref, hl, hlt⟩ |
    ⟨tref, ref, l, w, ⟨-, -, hl⟩, hlt⟩
  · exact absurd ((hb.groups tref ref).size_le ho) (Nat.not_le_of_lt hlt)
  · exact absurd (hle tref groupID ref hl) (Nat.not_le_of_lt hlt)
  · exact absurd (hle tref l.group ref hl) (Nat.not_le_of_lt hlt)

namespace World

variable {w w' : World} {op : Op}

/-- A subgroup writeback that does not skip caching still holds the group its track has. -/
def WritesHeldGroup (w : World) : Op → Prop
  | .writeSubgroup id _ => ∀ sub ∈ w.subgroups.lookup id,
    (w.cache.tracks sub.track).shouldSkipCaching = true ∨
      (w.cache.tracks sub.track).groups.lookup sub.group = some sub.groupRef
  | _ => True

instance (w : World) (op : Op) : Decidable (WritesHeldGroup w op) := by
  induction op using Op.casesOn <;> unfold WritesHeldGroup <;> infer_instance

theorem opActs_attachedWrites (hw : w.WF) (hQ : WritesHeldGroup w op) :
    OpActs (AttachedWrites w.cache.nextTrackRef) w op := by
  have hevicts : ∀ d a, Act.Evicts a → AttachedWrites w.cache.nextTrackRef d a := by
    intro d a ha
    cases a <;> first | exact trivial | exact absurd ha (by simp [Act.Evicts])
  have hmarks : ∀ tref d a, Act.Marks tref a → AttachedWrites w.cache.nextTrackRef d a := by
    intro tref d a ha
    cases a <;> first | exact trivial | exact absurd ha (by simp [Act.Marks])
  have hroom : ∀ d a, Act.MakesRoom a → AttachedWrites w.cache.nextTrackRef d a := by
    intro d a ha
    cases a <;> first | exact trivial | exact absurd ha (by simp [Act.MakesRoom])
  have hpurges : ∀ d a, Act.Purges a → AttachedWrites w.cache.nextTrackRef d a := by
    intro d a ha
    cases a <;> first | exact trivial | exact absurd ha (by simp [Act.Purges])
  have hgroup : ∀ tref ftn, w.cache.Handle tref ftn →
      GroupActs (AttachedWrites w.cache.nextTrackRef) w.cache tref ftn := fun tref ftn hh =>
    ⟨hevicts, hmarks tref, fun _ => trivial, fun _ _ _ _ _ _ => trivial,
      fun d ref l ow hl hev => ⟨hh.lt, hev, hl⟩, fun d ref l hl hev => ⟨hh.lt, hev, hl⟩⟩
  have hcreate : ∀ tref start, CreateActs (AttachedWrites w.cache.nextTrackRef) tref start :=
    fun _ _ => ⟨fun _ _ => trivial, fun _ _ => trivial, fun _ _ => trivial, fun _ _ => trivial,
      fun _ _ => trivial⟩
  cases op with
  | subscribe ftn => exact ⟨hroom, fun _ => trivial, fun _ _ _ => trivial, fun _ _ _ _ => trivial⟩
  | beginSubgroup id =>
    exact fun s hs => ⟨hgroup _ _ (hw.subscribers id s hs).1, fun _ _ => trivial⟩
  | objectStream id | datagram id => exact fun s hs => hgroup _ _ (hw.subscribers id s hs).1
  | writeSubgroup id write =>
    intro sub hsub
    have hlt := (hw.subgroups id sub hsub).1.lt
    have hheld : ¬ (w.cache.tracks sub.track).shouldSkipCaching = true →
        (w.cache.tracks sub.track).groups.lookup sub.group = some sub.groupRef :=
      (hQ sub hsub).resolve_left
    refine ⟨hevicts, hmarks _, fun _ => trivial, fun d object ow hskip hf => ?_, fun hskip => ?_⟩
    · refine ⟨hlt, ?_, hf.lookup _ _ (hheld hskip)⟩
      rw [hf.evicted]
      exact SubgroupWriteback.not_evicted_of_caches hskip
    · exact ⟨hlt, SubgroupWriteback.not_evicted_of_caches hskip, hheld hskip⟩
  | purgeTrack | purgeNamespace | purgeAll => exact hpurges
  | fetch f => exact fun _ => ⟨fun _ => trivial, hroom, fun _ _ => trivial, hcreate _ _⟩
  | resume =>
    exact fun _ _ => ⟨fun _ _ _ => trivial, fun _ => trivial,
      fun _ _ _ _ => ⟨hcreate _ _, trivial⟩⟩
  | deliver id =>
    intro wb hwb
    exact ⟨hgroup _ _ (hw.writebacks id wb hwb).1, ⟨hevicts, fun _ _ => trivial,
      fun _ _ _ _ => trivial, fun _ _ _ => trivial, fun _ _ _ _ _ _ => trivial,
      fun _ _ => trivial, fun _ _ _ _ _ _ _ => trivial⟩⟩
  | _ => simp [OpActs, IdleActs, AttachedWrites]

/-- Acts that write to attached groups only keep the counters right. -/
theorem bytesInv_acts (hw : w.WF) {d : Cache}
    (h : Acts (AttachedWrites w.cache.nextTrackRef) w.cache d) (hb : w.cache.BytesInv) :
    d.BytesInv := by
  have hkeep : w.cache.Grows d ∧ d.BytesInv := by
    refine h.keeps (I := fun d => w.cache.Grows d ∧ d.BytesInv) ?_ ⟨.refl hw.cache, hb⟩
    rintro d a d' hP hprim ⟨hg, hb⟩
    have hcached : ∀ tref, tref < w.cache.nextTrackRef → (d.tracks tref).evicted = false →
        ∃ ftn, d.cache.lookup ftn = some tref := fun tref hlt hev =>
      hg.wf.attached tref (Nat.lt_of_lt_of_le hlt hg.tracks) hev
    refine ⟨hg.of_prim hprim, hb.of_prim hg.wf hprim ?_ ?_⟩
    · rintro tref ref l ow rfl
      obtain ⟨hlt, hev, hl⟩ := hP
      obtain ⟨ftn, hftn⟩ := hcached tref hlt hev
      exact ⟨ftn, hftn, hl⟩
    · rintro tref ref l rfl
      obtain ⟨hlt, hev, hl⟩ := hP
      obtain ⟨ftn, hftn⟩ := hcached tref hlt hev
      exact ⟨ftn, hftn, hl⟩
  exact hkeep.2

theorem bytesInv_reaches (h : Reaches WritesHeldGroup w) : w.cache.BytesInv := by
  refine h.keeps (I := fun w => w.cache.BytesInv) ?_ ?_
  · intro tracks groups bytes minBytes default_ allowed
    refine ⟨rfl, fun _ _ => CacheGroup.counted_empty, fun tref _ groupID ref hl => ?_⟩
    simp [ofCache, Cache.create] at hl
  · intro w op w' hw hQ hstep hb
    exact bytesInv_acts hw
      ((step_spec hw.refsKnown (opActs_attachedWrites hw hQ)).steps hstep).acts hb

/-- As long as subgroup writebacks write to groups they still hold, the counters are right
and no step subtracts more bytes than there are. -/
theorem bytes_accounted (h : Reaches WritesHeldGroup w) :
    w.cache.totalCachedBytes = w.cache.trackBytes ∧
      (∀ tref ref, ((w.cache.tracks tref).heap ref).totalBytes =
        total ((w.cache.tracks tref).heap ref).objects fun _ e => e.bytes) ∧
      ∀ op e, WritesHeldGroup w op → w.step op = .error e → ¬ e.ByteFailure := by
  have hb := bytesInv_reaches h
  refine ⟨hb.sum, fun tref ref => (hb.groups tref ref).counter, fun op e hQ he => ?_⟩
  intro hbyte
  obtain ⟨d, hacts, hfails⟩ :=
    (step_spec h.wf.refsKnown (opActs_attachedWrites h.wf hQ)).fails he (by
      rintro rfl
      simp [Abort.ByteFailure] at hbyte)
  exact (bytesInv_acts h.wf hacts hb).no_byteFailure hfails hbyte

end World

end

namespace World

/-- One writer of a group writes an object and stays. -/
def oneWriter : List Op :=
  [.subscribe ⟨[], "track"⟩, .beginSubgroup 0 0 0 (.ok ()),
    .writeSubgroup 1 (.beginObject 0 5 (some [1, 2, 3]) noExtensions),
    .writeSubgroup 1 (.objectPayload [4, 5])]

theorem bytes_accounted_oneWriter : ∃ w, runMeets WritesHeldGroup
    (ofCache (.create 100 1 1000 0 none none)) oneWriter = some w ∧
      w.cache.totalCachedBytes = w.cache.trackBytes := by
  have hsome : (runMeets WritesHeldGroup (ofCache (.create 100 1 1000 0 none none))
      oneWriter).isSome = true := by decide +kernel
  obtain ⟨w, hw⟩ := Option.isSome_iff_exists.mp hsome
  exact ⟨w, hw, (bytes_accounted (.of_runMeets (.create 100 1 1000 0 none none) hw)).1⟩

/-- Two writers of one group: the first to close makes the group evictable under the second,
and two later groups push it out. -/
def twoWriters (write : SubgroupWrite) : List Op :=
  [.subscribe ⟨[], "track"⟩, .beginSubgroup 0 0 0 (.ok ()), .beginSubgroup 0 0 1 (.ok ()),
    .writeSubgroup 2 write, .closeSubgroup 1, .beginSubgroup 0 1 0 (.ok ()),
    .beginSubgroup 0 2 0 (.ok ()), .writeSubgroup 2 (.object 1 (some [7]) noExtensions)]

/-- What the second writer adds to the group it lost is counted but belongs to no track, and
what it takes away there can stop the relay. -/
theorem twoWriters_miscount :
    ((ofCache (.create 100 1 1000 0 none none)).run
      (twoWriters (.object 0 (some [1, 2, 3]) noExtensions))).map
        (fun w => (w.cache.totalCachedBytes, w.cache.trackBytes)) = .ok (1, 0) ∧
    ((ofCache (.create 100 1 1000 0 none none)).run
      (twoWriters (.beginObject 1 9 (some [1, 2, 3]) noExtensions))).map
        (fun w => (w.cache.totalCachedBytes, w.cache.trackBytes)) =
      .error (.xcheck "totalCachedBytes_ >= oldGroupBytes - group.totalBytes") := by
  constructor <;> decide +kernel

end World

end Moqx
