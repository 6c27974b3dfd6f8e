import Moqx.Cache.Traces
import Moqx.World

/-! The operations of the writers, of the fetches and of the whole world as sequences of
primitive acts. -/
namespace Moqx

open Moxygen Cache CacheTrack

variable [Moxygen] {P : Cache → Act → Prop} {c c' : Cache}

namespace Cache

section
variable {tref : TrackRef} {ref : GroupRef} {l : AbsoluteLocation}

theorem appendPayload_spec {chunk : Payload} {currentLength : Nat}
    (hA : P c (.append tref ref l)) (hE : ∀ c a, Act.Evicts a → P c a) :
    Spec P c (c.appendPayload tref ref l chunk currentLength) Prod.snd := by
  cases hl : ((c.tracks tref).heap ref).objects.lookup l.object with
  | none =>
    simp only [appendPayload, hl]
    exact .error (.of_other (by decide))
  | some e =>
    simp only [appendPayload, hl]
    refine (Untracked.xcheck (by decide)).spec fun _ _ => .after
      (.single hA (.append c tref ref l e chunk (decide (currentLength - chunk.length = 0)) hl)) ?_
    exact (evictForByteLimitIfNeeded_spec hE).bind fun d _ => .ok .refl

theorem getCachedObjectMaybe_spec {now : TimePoint}
    (hP : ∀ ref, (c.tracks tref).groups.lookup l.group = some ref → P c (.expire tref ref l)) :
    Spec P c (c.getCachedObjectMaybe tref l now) Prod.snd := by
  cases hg : (c.tracks tref).groups.lookup l.group with
  | none =>
    simp only [getCachedObjectMaybe, hg]
    exact .ok .refl
  | some ref =>
    cases ho : ((c.tracks tref).heap ref).objects.lookup l.object with
    | none =>
      simp only [getCachedObjectMaybe, hg, ho]
      exact .ok .refl
    | some e =>
      simp only [getCachedObjectMaybe, hg, ho]
      split
      · rcases subSize_cases ((c.tracks tref).heap ref).totalBytes e.payloadSize with
          ⟨hge, h⟩ | ⟨hlt, h⟩
        · rcases subSize_cases c.totalCachedBytes e.payloadSize with ⟨hge', h'⟩ | ⟨hlt', h'⟩
          · simp only [h, h', bind, Except.bind]
            exact .ok (.single (hP ref hg) (.expire c tref ref l e hg ho hge hge'))
          · simp only [h, h', bind, Except.bind]
            refine .error
              ⟨fun _ => .inr (.inl ⟨tref, l.group, ref, hg, ?_⟩), by simp, by simp, by simp⟩
            omega
        · simp only [h, bind, Except.bind]
          exact .error
            ⟨fun _ => .inl ⟨tref, ref, l.object, e, ho, hlt⟩, by simp, by simp, by simp⟩
      · split <;> exact .ok .refl

end

variable {tref : TrackRef} {ftn : FullTrackName} {ref : GroupRef}

/-- A group-count eviction keeps what dropping a group keeps. -/
theorem evictOldestGroupsIfNeeded_keeps {I : Cache → Prop}
    (hI : ∀ c groupID ref, I c → I (c.dropGroup tref groupID ref))
    (h : c.evictOldestGroupsIfNeeded tref = .ok c') (hc : I c) : I c' := by
  have hspec : Spec (fun _ a => ∃ g, a = .evictGroup tref g) c
      (c.evictOldestGroupsIfNeeded tref) id :=
    evictOldestGroupsIfNeeded_spec fun _ g => ⟨g, rfl⟩
  refine (hspec.steps h).keeps ?_ hc
  rintro d a d' ⟨g, rfl⟩ hprim hd
  cases hprim
  exact hI d g _ hd

variable {groupID : Nat}

/-- What making room for a group leaves of the track. -/
theorem evictOldestGroupsIfNeeded_frame (h : c.evictOldestGroupsIfNeeded tref = .ok c')
    (hg : (c.tracks tref).groups.lookup groupID = none) :
    c'.cache = c.cache ∧ (c'.tracks tref).evicted = (c.tracks tref).evicted ∧
      (c'.tracks tref).groups.lookup groupID = none := by
  refine evictOldestGroupsIfNeeded_keeps (I := fun d => d.cache = c.cache ∧
    (d.tracks tref).evicted = (c.tracks tref).evicted ∧
    (d.tracks tref).groups.lookup groupID = none) ?_ h ⟨rfl, rfl, hg⟩
  rintro d g ref ⟨h1, h2, h3⟩
  refine ⟨by simpa using h1, by simpa using h2, ?_⟩
  by_cases hgr : groupID = g
  · subst hgr
    simp
  · simpa [AList.lookup_erase_ne hgr] using h3

@[simp] theorem emplaceGroup_lookup (t : CacheTrack) (groupID : Nat) :
    (t.emplaceGroup groupID).groups.lookup groupID = some t.nextGroupRef := by
  simp [emplaceGroup]

@[simp] theorem emplaceGroup_heap (t : CacheTrack) (groupID : Nat) :
    (t.emplaceGroup groupID).heap t.nextGroupRef = {} := by
  simp [emplaceGroup]

/-- Creating a group on demand finds it, or makes room and adds it. -/
theorem getOrCreateGroupWithEviction_cases
    (h : c.getOrCreateGroupWithEviction tref groupID ftn = .ok (ref, c')) :
    (c' = c ∧ (c.tracks tref).groups.lookup groupID = some ref) ∨
      ∃ d, c.evictOldestGroupsIfNeeded tref = .ok d ∧
        (c.tracks tref).groups.lookup groupID = none ∧ ref = (d.tracks tref).nextGroupRef ∧
        c' = (d.setTrack tref ((d.tracks tref).emplaceGroup groupID)).addGroupToLRU ftn groupID
          tref ref := by
  cases hl : (c.tracks tref).groups.lookup groupID with
  | some r =>
    simp only [getOrCreateGroupWithEviction, hl, Except.ok.injEq, Prod.mk.injEq] at h
    obtain ⟨rfl, rfl⟩ := h
    exact .inl ⟨rfl, rfl⟩
  | none =>
    simp only [getOrCreateGroupWithEviction, hl] at h
    obtain ⟨d, hd, h⟩ := bind_eq_ok.mp h
    cases h
    exact .inr ⟨d, hd, rfl, rfl, rfl⟩

/-- What creating a group on demand answers. -/
theorem getOrCreateGroupWithEviction_result
    (h : c.getOrCreateGroupWithEviction tref groupID ftn = .ok (ref, c')) :
    (c'.tracks tref).groups.lookup groupID = some ref ∧
      (c'.tracks tref).evicted = (c.tracks tref).evicted ∧
      ((c'.tracks tref).nextGroupRef = ref + 1 ∨ c' = c) := by
  rcases getOrCreateGroupWithEviction_cases h with ⟨rfl, hl⟩ | ⟨d, hd, hl, rfl, rfl⟩
  · exact ⟨hl, rfl, .inr rfl⟩
  · obtain ⟨-, hev, -⟩ := evictOldestGroupsIfNeeded_frame hd hl
    have hnew : (((d.setTrack tref ((d.tracks tref).emplaceGroup groupID)).tracks tref).heap
        (d.tracks tref).nextGroupRef).lruIter = none := by
      simp
    simp only [addGroupToLRU, hnew]
    refine ⟨?_, ?_, .inl ?_⟩
    · simp [setTrack]
    · simpa [setTrack] using hev
    · simp [setTrack]

theorem getOrCreateGroupWithEviction_spec (hG : ∀ c g, P c (.evictGroup tref g))
    (hN : ∀ c, P c (.emplaceGroup tref groupID))
    (hA : ∀ d ref, (d.tracks tref).groups.lookup groupID = some ref →
      (c.tracks tref).groups.lookup groupID = none → d.cache = c.cache →
      (d.tracks tref).evicted = (c.tracks tref).evicted →
      P d (.addGroup ftn groupID tref ref)) :
    Spec P c (c.getOrCreateGroupWithEviction tref groupID ftn) Prod.snd := by
  cases hl : (c.tracks tref).groups.lookup groupID with
  | some ref =>
    simp only [getOrCreateGroupWithEviction, hl]
    exact .ok .refl
  | none =>
    simp only [getOrCreateGroupWithEviction, hl]
    refine (evictOldestGroupsIfNeeded_spec hG).bind fun d hd => .ok ?_
    obtain ⟨hcache, hev, hlook⟩ := evictOldestGroupsIfNeeded_frame hd hl
    refine .trans (.single (hN d) (.emplaceGroup d tref groupID hlook)) ?_
    refine .single (hA _ _ ?_ hl ?_ ?_) (.addGroup _ ftn groupID tref _ ?_)
    · simp
    · simpa using hcache
    · simpa using hev
    · simp

section
variable {tref : TrackRef} {loc : AbsoluteLocation} {entry : FetchInProgressEntry}

theorem register_tracks (c : Cache) : (c.register tref loc entry).tracks tref =
    { c.tracks tref with
      fetchesInProgress := (c.tracks tref).fetchesInProgress.insert loc entry } := by
  simp [register]

/-- Making room looks at groups only, so a registration before it may as well come after. -/
theorem evictGroup_register (c : Cache) (groupID : Nat) :
    (c.register tref loc entry).evictGroup tref groupID =
      (c.evictGroup tref groupID).map (·.register tref loc entry) := by
  have hcomm : ∀ ref, (c.register tref loc entry).dropGroup tref groupID ref =
      (c.dropGroup tref groupID ref).register tref loc entry := by
    simp [dropGroup, register, setTrack, eraseGroup]
  cases hl : (c.tracks tref).groups.lookup groupID with
  | none => simp [evictGroup, register_tracks, hl, Except.map]
  | some ref =>
    simp only [evictGroup, register_tracks, hl, hcomm ref,
      show (c.register tref loc entry).totalCachedBytes = c.totalCachedBytes from rfl,
      show (c.register tref loc entry).globalGroupLRU = c.globalGroupLRU from rfl]
    cases useNode (c.tracks tref).groupLRU ((c.tracks tref).heap ref).lruIter with
    | error e => rfl
    | ok _ =>
      cases useNode c.globalGroupLRU ((c.tracks tref).heap ref).globalLruIter with
      | error e => rfl
      | ok _ =>
        cases xcheck (decide (((c.tracks tref).heap ref).totalBytes ≤ c.totalCachedBytes))
          "totalCachedBytes_ >= group.totalBytes" with
        | error e => rfl
        | ok _ => rfl

theorem evictOldestGroupsLoop_register (fuel : Nat) (c : Cache) :
    evictOldestGroupsLoop tref fuel (c.register tref loc entry) =
      (evictOldestGroupsLoop tref fuel c).map (·.register tref loc entry) := by
  induction fuel generalizing c with
  | zero => rfl
  | succ fuel ih =>
    simp only [evictOldestGroupsLoop, register_tracks,
      show (c.register tref loc entry).maxCachedGroupsPerTrack = c.maxCachedGroupsPerTrack
        from rfl]
    split
    · split
      · rw [evictGroup_register]
        cases c.evictGroup tref _ with
        | error e => rfl
        | ok d => exact ih d
      · rfl
    · rfl

theorem findOrEmplaceGroup_register (c : Cache) (groupID : Nat) :
    (c.register tref loc entry).findOrEmplaceGroup tref groupID =
      (c.findOrEmplaceGroup tref groupID).map fun r => (r.1, r.2.register tref loc entry) := by
  cases hl : (c.tracks tref).groups.lookup groupID with
  | some ref => simp [findOrEmplaceGroup, register_tracks, hl, Except.map]
  | none =>
    have hevict : (c.register tref loc entry).evictOldestGroupsIfNeeded tref =
        (c.evictOldestGroupsIfNeeded tref).map (·.register tref loc entry) := by
      simp only [evictOldestGroupsIfNeeded, register_tracks,
        show (c.register tref loc entry).maxCachedGroupsPerTrack = c.maxCachedGroupsPerTrack
          from rfl]
      split
      · rfl
      · exact evictOldestGroupsLoop_register _ c
    simp only [findOrEmplaceGroup, register_tracks, hl, hevict]
    cases c.evictOldestGroupsIfNeeded tref with
    | error e => rfl
    | ok d =>
      simp [Except.map, bind, Except.bind, register, emplaceGroup, setGroup]

theorem removeGroupFromLRU_register (c : Cache) (ref : GroupRef) :
    (c.register tref loc entry).removeGroupFromLRU tref ref =
      (c.removeGroupFromLRU tref ref).map (·.register tref loc entry) := by
  have htake : (c.register tref loc entry).takeGroupFromLRU tref ref =
      (c.takeGroupFromLRU tref ref).register tref loc entry := by
    simp only [takeGroupFromLRU, register_tracks]
    split
    · simp [register, setTrack, setGroup]
    · rfl
  simp only [removeGroupFromLRU, register_tracks, htake,
    show (c.register tref loc entry).globalGroupLRU = c.globalGroupLRU from rfl]
  split
  · cases useNode (c.tracks tref).groupLRU ((c.tracks tref).heap ref).lruIter with
    | error e => rfl
    | ok _ =>
      cases useNode c.globalGroupLRU ((c.tracks tref).heap ref).globalLruIter with
      | error e => rfl
      | ok _ => rfl
  · rfl

end

theorem findOrEmplaceGroup_spec (hG : ∀ c g, P c (.evictGroup tref g))
    (hN : ∀ c, P c (.emplaceGroup tref groupID)) :
    Spec P c (c.findOrEmplaceGroup tref groupID) Prod.snd := by
  cases hl : (c.tracks tref).groups.lookup groupID with
  | some ref =>
    simp only [findOrEmplaceGroup, hl]
    exact .ok .refl
  | none =>
    simp only [findOrEmplaceGroup, hl]
    refine (evictOldestGroupsIfNeeded_spec hG).bind fun d hd => .ok ?_
    obtain ⟨-, -, hlook⟩ := evictOldestGroupsIfNeeded_frame hd hl
    exact .single (hN d) (.emplaceGroup d tref groupID hlook)

theorem findOrEmplaceGroup_cases (h : c.findOrEmplaceGroup tref groupID = .ok (ref, c')) :
    (c' = c ∧ (c.tracks tref).groups.lookup groupID = some ref) ∨
      ∃ d, c.evictOldestGroupsIfNeeded tref = .ok d ∧ ref = (d.tracks tref).nextGroupRef ∧
        c' = d.setTrack tref ((d.tracks tref).emplaceGroup groupID) := by
  cases hl : (c.tracks tref).groups.lookup groupID with
  | some r =>
    simp only [findOrEmplaceGroup, hl, Except.ok.injEq, Prod.mk.injEq] at h
    obtain ⟨rfl, rfl⟩ := h
    exact .inl ⟨rfl, rfl⟩
  | none =>
    simp only [findOrEmplaceGroup, hl] at h
    obtain ⟨d, hd, h⟩ := bind_eq_ok.mp h
    cases h
    exact .inr ⟨d, hd, rfl, rfl⟩

theorem findOrEmplaceGroup_lookup (h : c.findOrEmplaceGroup tref groupID = .ok (ref, c')) :
    (c'.tracks tref).groups.lookup groupID = some ref := by
  rcases findOrEmplaceGroup_cases h with ⟨rfl, hl⟩ | ⟨d, -, rfl, rfl⟩
  · exact hl
  · simp

theorem takeGroupFromLRU_lruIter (c : Cache) (tref : TrackRef) (ref : GroupRef) :
    (((c.takeGroupFromLRU tref ref).tracks tref).heap ref).lruIter = none := by
  simp only [takeGroupFromLRU]
  split
  · simp [setTrack]
  · next h => simpa using h

/-- Taking a group out of the lists leaves the maps of the tracks alone. -/
theorem takeGroupFromLRU_maps (c : Cache) (tref tr : TrackRef) (ref : GroupRef) :
    ((c.takeGroupFromLRU tref ref).tracks tr).groups = (c.tracks tr).groups ∧
      ((c.takeGroupFromLRU tref ref).tracks tr).fetchesInProgress =
        (c.tracks tr).fetchesInProgress := by
  simp only [takeGroupFromLRU]
  split
  · by_cases htr : tr = tref
    · subst htr
      simp [setTrack]
    · simp [setTrack, htr]
  · exact ⟨rfl, rfl⟩

theorem findOrEmplaceGroup_fetches (h : c.findOrEmplaceGroup tref groupID = .ok (ref, c'))
    (tr : TrackRef) : (c'.tracks tr).fetchesInProgress = (c.tracks tr).fetchesInProgress := by
  rcases findOrEmplaceGroup_cases h with ⟨rfl, -⟩ | ⟨d, hd, -, rfl⟩
  · rfl
  · have hkeep : (d.tracks tr).fetchesInProgress = (c.tracks tr).fetchesInProgress := by
      refine evictOldestGroupsIfNeeded_keeps (I := fun d => (d.tracks tr).fetchesInProgress =
        (c.tracks tr).fetchesInProgress) (fun e g ref he => ?_) hd rfl
      by_cases htr : tr = tref
      · subst htr
        simpa using he
      · simpa [htr] using he
    rw [← hkeep]
    by_cases htr : tr = tref
    · subst htr
      simp [emplaceGroup]
    · simp [htr]

end Cache

theorem Cache.onTrackBecameEvictable_steps {ftn : FullTrackName}
    (hA : ∀ tref, c.cache.lookup ftn = some tref → (c.tracks tref).canEvict = true →
      P c (.addTrack ftn tref)) : Steps P c (c.onTrackBecameEvictable ftn) := by
  cases hl : c.cache.lookup ftn with
  | none =>
    simp only [Cache.onTrackBecameEvictable, hl]
    exact .refl
  | some tref =>
    simp only [Cache.onTrackBecameEvictable, hl]
    split
    · next hcan => exact .single (hA tref hl hcan) (.addTrack c ftn tref)
    · exact .refl

/-- Group numbers in use are below the next fresh one. -/
def CacheTrack.RefsBounded (t : CacheTrack) : Prop :=
  ∀ groupID ref, t.groups.lookup groupID = some ref → ref < t.nextGroupRef

/-- Recording the largest location is at most one act. -/
theorem Cache.updateLargest_steps {tref : TrackRef} {current : AbsoluteLocation} {eot : Bool}
    (hI : ∀ d, P d (.info tref)) : Steps P c (c.updateLargest tref current eot).2 := by
  have hself : Steps P c (c.setTrack tref (c.tracks tref)) := by
    rw [setTrack_self]
    exact .refl
  simp only [Cache.updateLargest, CacheTrack.updateLargest]
  split
  · split
    · exact hself
    · exact .single (hI c) (.info c tref _ _ _ _ _)
  · split <;> exact hself

/-- The acts by which a group of the track is written to. -/
structure GroupActs (P : Cache → Act → Prop) (c : Cache) (tref : TrackRef) (ftn : FullTrackName) :
    Prop where
  evicts : ∀ d a, Act.Evicts a → P d a
  marks : ∀ d a, Act.Marks tref a → P d a
  info : ∀ d, P d (.info tref)
  addGroup : ∀ d groupID ref, (d.tracks tref).groups.lookup groupID = some ref →
    (c.tracks tref).groups.lookup groupID = none → (d.tracks tref).evicted = false →
    P d (.addGroup ftn groupID tref ref)
  store : ∀ d ref l w, (d.tracks tref).groups.lookup l.group = some ref →
    (d.tracks tref).evicted = false → P d (.store tref ref l w)
  append : ∀ d ref l, (d.tracks tref).groups.lookup l.group = some ref →
    (d.tracks tref).evicted = false → P d (.append tref ref l)

namespace GroupActs

variable {tref : TrackRef} {ftn : FullTrackName} (h : GroupActs P c tref ftn)
  (hev : (c.tracks tref).evicted = false)
include h hev

theorem getOrCreate (groupID : Nat) :
    Spec P c (c.getOrCreateGroupWithEviction tref groupID ftn) Prod.snd :=
  getOrCreateGroupWithEviction_spec (fun d _ => h.evicts d _ trivial)
    (fun d => h.marks d _ rfl)
    fun d ref hl hfree _ hevd => h.addGroup d groupID ref hl hfree (hevd.trans hev)

/-- Writing an object into a group created on demand. -/
theorem cacheObject {groupID objectID : Nat} {ref : GroupRef} {d : Cache} {ow : ObjectWrite}
    (href : (c.tracks tref).RefsBounded)
    (hr : c.getOrCreateGroupWithEviction tref groupID ftn = .ok (ref, d)) :
    Spec P d (d.cacheObjectAndUpdateBytes tref ref groupID objectID ow) Prod.snd := by
  obtain ⟨hlook, hevd, hnext⟩ := getOrCreateGroupWithEviction_result hr
  have hlt : ref < (d.tracks tref).nextGroupRef := by
    rcases hnext with hnext | rfl
    · rw [hnext]
      exact Nat.lt_succ_self ref
    · exact href groupID ref hlook
  exact cacheObjectAndUpdateBytes_spec hlt h.marks
    (fun e he => h.store e ref _ ow (he.lookup groupID ref hlook)
      (he.evicted.trans (hevd.trans hev))) h.info h.evicts

end GroupActs

/-- The acts by which a writeback moves or drops its registration. -/
structure KeyActs (P : Cache → Act → Prop) (w : FetchWriteback) : Prop where
  evicts : ∀ d a, Act.Evicts a → P d a
  emplaceGroup : ∀ d groupID, P d (.emplaceGroup w.track groupID)
  progress : ∀ d key entry, w.fetchInProgressIt = some key → P d (.progress w.track key entry)
  deregister : ∀ d key, w.fetchInProgressIt = some key → P d (.deregister w.track key)
  release : ∀ d key ref, w.fetchInProgressIt = some key → w.pinnedGroup = some ref →
    (d.tracks w.track).fetchesInProgress.lookup key = none →
    P d (.addGroup w.ftn key.group w.track ref)
  pin : ∀ d ref, P d (.removeGroup w.track ref)
  register : ∀ d key loc entry, w.fetchInProgressIt = some key → key.group < loc.group →
    loc < w.fetchRangeIt.maxLocation → P d (.register w.track loc entry)

namespace FetchWriteback

variable {w : FetchWriteback}

/-- Registering and pinning, with the registration as the last act. -/
theorem emplaceAndPinGroup_spec {loc : AbsoluteLocation} {entry : FetchInProgressEntry}
    (hG : ∀ d g, P d (.evictGroup w.track g)) (hN : ∀ d, P d (.emplaceGroup w.track loc.group))
    (hpin : ∀ d ref, P d (.removeGroup w.track ref))
    (hreg : ∀ d, P d (.register w.track loc entry)) :
    Spec P c (w.emplaceAndPinGroup c loc entry) Prod.snd := by
  unfold emplaceAndPinGroup
  cases hfree : (c.tracks w.track).fetchesInProgress.lookup loc with
  | some old =>
    refine .error ⟨by simp [Abort.ByteFailure], by simp, fun _ => ?_, by simp⟩
    exact ⟨w.track, loc, entry, hreg c, by simp [hfree]⟩
  | none =>
    simp only [xcheck, Option.isNone_none, if_true, bind, Except.bind,
      findOrEmplaceGroup_register]
    have hfind : Spec P c (c.findOrEmplaceGroup w.track loc.group) Prod.snd :=
      findOrEmplaceGroup_spec hG hN
    cases hd : c.findOrEmplaceGroup w.track loc.group with
    | error e =>
      rw [hd] at hfind
      exact hfind
    | ok r =>
      obtain ⟨ref, d⟩ := r
      rw [hd] at hfind
      have hlook := findOrEmplaceGroup_lookup hd
      have hkeys : (d.tracks w.track).fetchesInProgress =
          (c.tracks w.track).fetchesInProgress := findOrEmplaceGroup_fetches hd _
      simp only [Except.map, removeGroupFromLRU_register]
      rcases d.removeGroupFromLRU_cases w.track ref with hrem | ⟨hgone, hrem⟩
      swap
      · rw [hrem]
        refine .after hfind (.error ⟨by simp [Abort.ByteFailure], by simp, by simp, fun _ => ?_⟩)
        exact ⟨w.track, loc.group, ref, hlook, hgone⟩
      rw [hrem]
      refine .ok (.trans (.trans hfind
        (.single (hpin d ref) (.removeGroup d w.track loc.group ref hlook))) ?_)
      refine .single (hreg _) (.register _ w.track loc entry ref ?_ ?_ ?_)
      · rw [(takeGroupFromLRU_maps _ _ _ _).2, hkeys, hfree]
      · rw [(takeGroupFromLRU_maps _ _ _ _).1, hlook]
      · exact takeGroupFromLRU_lruIter d w.track ref

theorem eraseAndMakeGroupEvictable_steps {key : AbsoluteLocation}
    (hD : ∀ d, P d (.deregister w.track key)) (hR : ∀ d ref, w.pinnedGroup = some ref →
      (d.tracks w.track).fetchesInProgress.lookup key = none →
      P d (.addGroup w.ftn key.group w.track ref)) :
    Steps P c (w.eraseAndMakeGroupEvictable c key).2 := by
  have hdereg : Steps P c (c.deregister w.track key) := .single (hD c) (.deregister c w.track key)
  cases hpin : w.pinnedGroup with
  | none =>
    simp only [eraseAndMakeGroupEvictable, Cache.releaseKey, hpin]
    exact hdereg
  | some ref =>
    simp only [eraseAndMakeGroupEvictable, Cache.releaseKey, hpin]
    refine hdereg.trans ?_
    cases hl : (((c.deregister w.track key).tracks w.track).heap ref).lruIter with
    | some n =>
      simp only [Cache.addGroupToLRU, hl, Option.isSome_some, if_true]
      exact .refl
    | none =>
      refine .single (hR _ ref hpin ?_) (.addGroup _ w.ftn key.group w.track ref hl)
      simp [Cache.deregister]

theorem updateInProgress_spec (hK : KeyActs P w) : Spec P c (w.updateInProgress c) Prod.snd := by
  unfold updateInProgress
  cases hkey : w.fetchInProgressIt with
  | none => exact .ok .refl
  | some key =>
    have herase : ∀ (w' : FetchWriteback) (d : Cache), w'.track = w.track → w'.ftn = w.ftn →
        w'.pinnedGroup = w.pinnedGroup → Steps P d (w'.eraseAndMakeGroupEvictable d key).2 := by
      intro w' d htrack hftn hpin
      refine eraseAndMakeGroupEvictable_steps (fun d => ?_) fun d ref href hfree => ?_
      · rw [htrack]
        exact hK.deregister d key hkey
      · rw [htrack, hftn]
        rw [hpin] at href
        rw [htrack] at hfree
        exact hK.release d key ref hkey href hfree
    cases hvalid : w.fetchRangeIt.isValid with
    | false => exact .ok (herase { w with inProgress := true } c rfl rfl rfl)
    | true =>
      cases hl : (c.tracks w.track).fetchesInProgress.lookup key with
      | none =>
        simp only [hl]
        exact .error (.of_other (by decide))
      | some entry =>
        simp only [hl]
        refine .after (.single (hK.progress c key { entry with progress := w.fetchRangeIt.current }
          hkey) (.progress c w.track key entry _ hl)) ?_
        split
        · next hgroup =>
          refine .after (herase { w with inProgress := false } _ rfl rfl rfl) ?_
          split
          · next hmax =>
            exact emplaceAndPinGroup_spec (fun d g => hK.evicts d _ trivial)
              (fun d => hK.emplaceGroup d _) (fun d ref => hK.pin d ref)
              fun d => hK.register d key _ _ hkey hgroup hmax
          · exact .ok .refl
        · exact .ok .refl

variable {w' : FetchWriteback}

/-- Two states of one fetch writeback. -/
structure SameOwner (w w' : FetchWriteback) : Prop where
  id : w'.id = w.id
  consumer : w'.consumer = w.consumer
  track : w'.track = w.track
  ftn : w'.ftn = w.ftn
  proxyFin : w'.proxyFin = w.proxyFin
  end_ : w'.end_ = w.end_
  range : FetchRangeIterator.SameRange w.fetchRangeIt w'.fetchRangeIt

omit [Moxygen] in
theorem SameOwner.trans {a b d : FetchWriteback} (h : SameOwner a b) (h' : SameOwner b d) :
    SameOwner a d :=
  ⟨h'.id.trans h.id, h'.consumer.trans h.consumer, h'.track.trans h.track, h'.ftn.trans h.ftn,
    h'.proxyFin.trans h.proxyFin, h'.end_.trans h.end_, h.range.trans h'.range⟩

/-- Of the writeback only the registration moves. -/
theorem updateInProgress_eq (h : w.updateInProgress c = .ok (w', c')) :
    ∃ inProgress key pin, w' = { w with
      inProgress := inProgress, fetchInProgressIt := key, pinnedGroup := pin } := by
  unfold updateInProgress at h
  dsimp only at h
  split at h
  · cases h
    exact ⟨_, _, _, rfl⟩
  · cases h
    exact ⟨_, _, _, rfl⟩
  · split at h
    · cases h
    · split_ifs at h
      · unfold emplaceAndPinGroup at h
        obtain ⟨_, -, h⟩ := bind_eq_ok.mp h
        obtain ⟨_, -, h⟩ := bind_eq_ok.mp h
        obtain ⟨_, -, h⟩ := bind_eq_ok.mp h
        cases h
        exact ⟨_, _, _, rfl⟩
      · cases h
        exact ⟨_, _, _, rfl⟩
      · cases h
        exact ⟨_, _, _, rfl⟩

theorem updateInProgress_sameOwner (h : w.updateInProgress c = .ok (w', c')) :
    SameOwner w w' := by
  obtain ⟨_, _, _, rfl⟩ := updateInProgress_eq h
  exact ⟨rfl, rfl, rfl, rfl, rfl, rfl, .refl _⟩

theorem updateInProgress_steps (h : w.updateInProgress c = .ok (w', c')) :
    Steps (fun _ _ => True) c c' := by
  have hspec : Spec (fun _ _ => True) c (w.updateInProgress c) Prod.snd :=
    updateInProgress_spec ⟨by simp, by simp, by simp, by simp, by simp, by simp, by simp⟩
  exact hspec.steps h

theorem getGapRanges_untracked (start stop fetchStart fetchEnd : AbsoluteLocation)
    (order : GroupOrder) : Untracked (getGapRanges start stop order fetchStart fetchEnd) := by
  unfold getGapRanges
  split_ifs
  · exact .ok
  · split
    · exact .ok
    · exact .ok
  · split
    · exact .ok
    · exact .error (by decide)
  · unfold getDescendingGapRanges
    dsimp only
    generalize (if stop.group = fetchStart.group then fetchStart else ⟨stop.group, 0⟩) = l
    split
    · exact .nullDeref
    · split
      · split
        · exact .ok
        · exact .nullDeref
      · exact .ok
    · exact .error (by decide)

theorem steps_insertGaps {tref : TrackRef} (hM : ∀ d a, Act.Marks tref a → P d a)
    (ranges : List Interval) (t : CacheTrack) :
    Steps P (c.setTrack tref t) (c.setTrack tref (insertGaps t ranges)) := by
  induction ranges generalizing t with
  | nil => exact .refl
  | cons r rest ih => exact (steps_insertGap fun _ => hM _ _ rfl).trans (ih _)

/-- Two states of one writeback between which its registration and its pin stay. -/
structure SameKey (w w' : FetchWriteback) : Prop extends SameOwner w w' where
  fetchInProgressIt : w'.fetchInProgressIt = w.fetchInProgressIt
  pinnedGroup : w'.pinnedGroup = w.pinnedGroup

omit [Moxygen] in
theorem SameKey.trans {a b d : FetchWriteback} (h : SameKey a b) (h' : SameKey b d) :
    SameKey a d :=
  ⟨h.toSameOwner.trans h'.toSameOwner, h'.fetchInProgressIt.trans h.fetchInProgressIt,
    h'.pinnedGroup.trans h.pinnedGroup⟩

omit [Moxygen] in
theorem SameKey.of_it {it : FetchRangeIterator}
    (h : FetchRangeIterator.SameRange w.fetchRangeIt it) :
    SameKey w { w with fetchRangeIt := it } := ⟨⟨rfl, rfl, rfl, rfl, rfl, rfl, h⟩, rfl, rfl⟩

omit [Moxygen] in
theorem SameKey.refl (w : FetchWriteback) : SameKey w w := .of_it (.refl _)

theorem keyActs_of_sameKey (hK : KeyActs P w) (h : SameKey w w') : KeyActs P w' := by
  refine ⟨hK.evicts, ?_, ?_, ?_, ?_, ?_, ?_⟩
  all_goals rw [h.track]
  · exact hK.emplaceGroup
  · rw [h.fetchInProgressIt]
    exact hK.progress
  · rw [h.fetchInProgressIt]
    exact hK.deregister
  · rw [h.fetchInProgressIt, h.pinnedGroup, h.ftn]
    exact hK.release
  · exact hK.pin
  · rw [h.fetchInProgressIt, h.range.maxLocation]
    exact hK.register

theorem markNonExistentTo_spec {target : AbsoluteLocation}
    (hM : ∀ d a, Act.Marks w.track a → P d a) :
    Spec P c (w.markNonExistentTo c target) Prod.snd := by
  unfold markNonExistentTo
  split
  · exact .ok .refl
  · dsimp only
    refine (getGapRanges_untracked _ _ _ _ _).spec fun ranges _ => .ok ?_
    have hsteps : Steps P (c.setTrack w.track (c.tracks w.track)) _ :=
      steps_insertGaps hM ranges (c.tracks w.track)
    rw [setTrack_self] at hsteps
    exact hsteps

theorem markNonExistentTo_sameKey {target : AbsoluteLocation}
    (h : w.markNonExistentTo c target = .ok (w', c')) : SameKey w w' := by
  unfold markNonExistentTo at h
  split at h
  · cases h
    exact .refl _
  · dsimp only at h
    obtain ⟨ranges, -, h⟩ := bind_eq_ok.mp h
    cases h
    exact .of_it (FetchRangeIterator.advanceTo_sameRange _ _ _)

theorem markNonExistentToEnd_spec (hM : ∀ d a, Act.Marks w.track a → P d a) :
    Spec P c (w.markNonExistentToEnd c) Prod.snd := markNonExistentTo_spec hM

theorem markNonExistentToEnd_sameKey (h : w.markNonExistentToEnd c = .ok (w', c')) : SameKey w w' :=
  (SameKey.of_it (FetchRangeIterator.refreshEnd_sameRange w.fetchRangeIt (c.tracks w.track))).trans
    (markNonExistentTo_sameKey h)

theorem not_evicted_of_caches (h : ¬ w.skipsCaching c = true) :
    (c.tracks w.track).evicted = false := by
  simp only [skipsCaching, shouldSkipCaching, Bool.or_eq_true, not_or] at h
  simpa using h.1

theorem create_spec {id : WritebackId} {start stop : AbsoluteLocation} {proxyFin : Bool}
    {consumer : ConsumerId} {it : FetchRangeIterator} {tref : TrackRef} {ftn : FullTrackName}
    (hT : P c (.removeTrack tref)) (hG : ∀ d g, P d (.evictGroup tref g))
    (hN : ∀ d, P d (.emplaceGroup tref start.group))
    (hpin : ∀ d ref, P d (.removeGroup tref ref))
    (hreg : ∀ d, P d (.register tref start ⟨stop, start, id⟩)) :
    Spec P c (create c id start stop proxyFin consumer it tref ftn) Prod.snd := by
  simp only [create]
  rcases c.removeTrackFromLRU_cases tref with ⟨-, h⟩ | ⟨hgone, h⟩
  · rw [h]
    exact .after (.single hT (.removeTrack c tref)) (emplaceAndPinGroup_spec hG hN hpin hreg)
  · rw [h]
    exact .stale ⟨tref, hgone, .inr hT⟩

theorem close_steps (hD : ∀ d key, w.fetchInProgressIt = some key → P d (.deregister w.track key))
    (hR : ∀ d key ref, w.fetchInProgressIt = some key → w.pinnedGroup = some ref →
      (d.tracks w.track).fetchesInProgress.lookup key = none →
      P d (.addGroup w.ftn key.group w.track ref))
    (hA : ∀ d tref, d.cache.lookup w.ftn = some tref → (d.tracks tref).canEvict = true →
      P d (.addTrack w.ftn tref)) : Steps P c (w.close c) := by
  have hback : ∀ d, Steps P d (d.onTrackBecameEvictable w.ftn) := fun d =>
    onTrackBecameEvictable_steps (hA d)
  unfold close
  cases hkey : w.fetchInProgressIt with
  | none => exact hback c
  | some key =>
    refine Steps.trans ?_ (hback _)
    exact eraseAndMakeGroupEvictable_steps (fun d => hD d key hkey)
      fun d ref href hfree => hR d key ref hkey href hfree

end FetchWriteback

namespace Cache

theorem MarksFrame.of_info {tref : TrackRef} {d : Cache} (h : Prim c (.info tref) d)
    (hf : MarksFrame tref d c') : MarksFrame tref c c' := by
  cases h
  refine ⟨by simpa using hf.cache, by simpa using hf.total, ?_, ?_, ?_, ?_, ?_⟩
  · simpa [setInfo] using hf.evicted
  · simpa [setInfo] using hf.refs
  · simpa [setInfo] using hf.lookup
  · simpa [setInfo] using hf.objects
  · simpa [setInfo] using hf.bytes

theorem updateLargest_cases (c : Cache) (tref : TrackRef) (current : AbsoluteLocation)
    (eot : Bool) : (c.updateLargest tref current eot).2 = c ∨
      Prim c (.info tref) (c.updateLargest tref current eot).2 := by
  simp only [Cache.updateLargest, CacheTrack.updateLargest]
  split
  · split
    · exact .inl (setTrack_self c tref)
    · exact .inr (.info c tref _ _ _ _ _)
  · split <;> exact .inl (setTrack_self c tref)

/-- A write after recording the largest location. -/
theorem write_spec {tref : TrackRef} {ref : GroupRef} {groupID objectID : Nat}
    {ow : ObjectWrite} (href : ref < (c.tracks tref).nextGroupRef)
    (hM : ∀ d a, Act.Marks tref a → P d a) (hI : ∀ d, P d (.info tref))
    (hE : ∀ d a, Act.Evicts a → P d a)
    (hS : ∀ d, MarksFrame tref c d → P d (.store tref ref ⟨groupID, objectID⟩ ow)) :
    Spec P c (match c.updateLargest tref ⟨groupID, objectID⟩ (ow.status = .endOfTrack) with
      | (.error e, c) => .ok (.error e, c)
      | (.ok _, c) => c.cacheObjectAndUpdateBytes tref ref groupID objectID ow) Prod.snd := by
  have hcases := c.updateLargest_cases tref ⟨groupID, objectID⟩ (ow.status = .endOfTrack)
  generalize c.updateLargest tref ⟨groupID, objectID⟩ (ow.status = .endOfTrack) = r at hcases
  obtain ⟨res, d⟩ := r
  have hsteps : Steps P c d := by
    rcases hcases with rfl | hprim
    · exact .refl
    · exact .single (hI c) hprim
  refine .after hsteps ?_
  cases res with
  | error e => exact .ok .refl
  | ok _ =>
    refine cacheObjectAndUpdateBytes_spec ?_ hM (fun e he => hS e ?_) hI hE
    · rcases hcases with rfl | hprim
      · exact href
      · cases hprim
        simpa [setInfo] using href
    · rcases hcases with rfl | hprim
      · exact he
      · exact he.of_info hprim

end Cache

/-- The acts by which a subgroup writeback writes into its group. -/
structure SubgroupActs (P : Cache → Act → Prop) (c : Cache) (w : SubgroupWriteback) : Prop where
  evicts : ∀ d a, Act.Evicts a → P d a
  marks : ∀ d a, Act.Marks w.track a → P d a
  info : ∀ d, P d (.info w.track)
  store : ∀ d object ow, ¬ (c.tracks w.track).shouldSkipCaching = true →
    Cache.MarksFrame w.track c d → P d (.store w.track w.groupRef ⟨w.group, object⟩ ow)
  append : ¬ (c.tracks w.track).shouldSkipCaching = true →
    P c (.append w.track w.groupRef ⟨w.group, w.currentObject⟩)

namespace SubgroupWriteback

theorem not_evicted_of_caches {tref : TrackRef}
    (h : ¬ (c.tracks tref).shouldSkipCaching = true) : (c.tracks tref).evicted = false := by
  simp only [shouldSkipCaching, Bool.or_eq_true, not_or] at h
  simpa using h.1

section
variable {w : SubgroupWriteback} (hW : SubgroupActs P c w)
  (href : w.groupRef < (c.tracks w.track).nextGroupRef)
include hW href

theorem write_spec {objectID : Nat} {ow : ObjectWrite}
    (hskip : ¬ (c.tracks w.track).shouldSkipCaching = true) :
    Spec P c (w.write c objectID ow) Prod.snd :=
  Cache.write_spec href hW.marks hW.info hW.evicts fun d hd =>
    hW.store d objectID ow hskip hd

theorem beginObject_spec {objectID length : Nat} {initialPayload : Option Payload}
    {ext : Extensions} {now : TimePoint} :
    Spec P c (w.beginObject c objectID length initialPayload ext now) fun r => r.2.2 := by
  unfold beginObject
  split
  · exact .ok .refl
  · next h =>
    refine (write_spec hW href h).bind fun r _ => ?_
    obtain ⟨res, d⟩ := r
    cases res with
    | error e => exact .ok .refl
    | ok _ =>
      exact (Untracked.xcheck (by decide)).spec fun _ _ => .ok .refl

theorem perform_spec {now : TimePoint} (write : SubgroupWrite) :
    Spec P c (w.perform c now write) Prod.snd := by
  cases write with
  | object objID payload ext =>
    simp only [perform, object]
    split
    · exact .ok .refl
    · next h => exact (write_spec hW href h).bind fun _ _ => .ok .refl
  | beginObject objectID length initialPayload ext =>
    exact (beginObject_spec hW href).bind fun _ _ => .ok .refl
  | objectPayload payload =>
    simp only [perform, objectPayload]
    split
    · exact .ok .refl
    · next h =>
      exact (appendPayload_spec (hW.append h) hW.evicts).bind
        fun _ _ => .ok .refl
  | endOfGroup objID =>
    simp only [perform, endOfGroup]
    split
    · exact .ok .refl
    · next h => exact (write_spec hW href h).bind fun _ _ => .ok .refl
  | endOfTrackAndGroup objID =>
    simp only [perform, endOfTrackAndGroup]
    split
    · exact .ok .refl
    · next h => exact (write_spec hW href h).bind fun _ _ => .ok .refl

end

theorem close_steps {w : SubgroupWriteback}
    (hA : P c (.addGroup w.ftn w.group w.track w.groupRef)) : Steps P c (w.close c) := by
  cases hl : ((c.tracks w.track).heap w.groupRef).lruIter with
  | some n =>
    simp only [close, Cache.addGroupToLRU, hl, Option.isSome_some, if_true]
    exact .refl
  | none => exact .single hA (.addGroup c w.ftn w.group w.track w.groupRef hl)

end SubgroupWriteback

namespace SubscribeWriteback

variable {w : SubscribeWriteback}

theorem beginSubgroup_spec {groupID subgroupID : Nat} {downstream : Expected Unit}
    (hG : GroupActs P c w.track w.ftn) (hpin : ∀ d ref, P d (.removeGroup w.track ref)) :
    Spec P c (w.beginSubgroup c groupID subgroupID downstream) Prod.snd := by
  unfold beginSubgroup
  split
  · exact .ok .refl
  · split
    · exact .ok .refl
    · split
      · exact .ok .refl
      · next hskip =>
        have hev := SubgroupWriteback.not_evicted_of_caches hskip
        refine (hG.getOrCreate hev groupID).bind fun r hr => ?_
        obtain ⟨hlook, -, -⟩ := getOrCreateGroupWithEviction_result hr
        exact (removeGroupFromLRU_spec hlook (hpin _ _)).bind fun _ _ => .ok .refl

theorem wholeObject_spec {header : ObjectHeader} {payload : Option Payload} {isDatagram : Bool}
    {now : TimePoint} (hG : GroupActs P c w.track w.ftn) (href : (c.tracks w.track).RefsBounded) :
    Spec P c (w.wholeObject c header payload isDatagram now) Prod.snd := by
  unfold wholeObject
  split
  · exact .ok .refl
  · next hskip =>
    have hev := SubgroupWriteback.not_evicted_of_caches hskip
    have hcases := c.updateLargest_cases w.track ⟨header.group, header.id⟩
      (header.status = .endOfTrack)
    generalize c.updateLargest w.track ⟨header.group, header.id⟩
      (header.status = .endOfTrack) = r at hcases
    obtain ⟨res, d⟩ := r
    have hsteps : Steps P c d ∧ (d.tracks w.track).evicted = false ∧
        (d.tracks w.track).RefsBounded ∧ (d.tracks w.track).groups = (c.tracks w.track).groups := by
      rcases hcases with rfl | hprim
      · exact ⟨.refl, hev, href, rfl⟩
      · refine ⟨.single (hG.info c) hprim, ?_⟩
        cases hprim
        refine ⟨?_, ?_, ?_⟩
        · simpa [setInfo] using hev
        · simpa [setInfo, CacheTrack.RefsBounded] using href
        · simp [setInfo]
    obtain ⟨hsteps, hevd, hrefd, hgroups⟩ := hsteps
    refine .after hsteps ?_
    cases res with
    | error e => exact .ok .refl
    | ok _ =>
      have hGd : GroupActs P d w.track w.ftn := { hG with
        addGroup := fun e g ref hl hfree => hG.addGroup e g ref hl (hgroups ▸ hfree) }
      refine (hGd.getOrCreate hevd header.group).bind fun r hr => ?_
      exact hGd.cacheObject hevd hrefd hr

theorem close_spec (hL : 0 < (c.tracks w.track).liveWritebackCount →
      P c (.live w.track ((c.tracks w.track).liveWritebackCount - 1)))
    (hA : ∀ d tref, d.cache.lookup w.ftn = some tref → (d.tracks tref).canEvict = true →
      P d (.addTrack w.ftn tref)) : Spec P c (w.close c) id := by
  refine (Untracked.xcheck (by decide)).spec fun _ hlive => .ok ?_
  have hlive : 0 < (c.tracks w.track).liveWritebackCount :=
    of_decide_eq_true (xcheck_eq_ok.mp hlive)
  exact (Steps.single (hL hlive) (.live c w.track _)).trans
    (onTrackBecameEvictable_steps (hA _))

end SubscribeWriteback

namespace Cache

theorem takeTrackFromLRU_lruIter (c : Cache) (tref : TrackRef) :
    ((c.takeTrackFromLRU tref).tracks tref).lruIter = none := by
  unfold takeTrackFromLRU
  split
  · simp [setTrack]
  · next h => simpa using h

theorem takeTrackFromLRU_cache (c : Cache) (tref : TrackRef) :
    (c.takeTrackFromLRU tref).cache = c.cache := by
  unfold takeTrackFromLRU
  split <;> rfl

theorem emplaceTrack_lookup (c : Cache) (ftn : FullTrackName) :
    (c.emplaceTrack ftn).cache.lookup ftn = some c.nextTrackRef := by
  simp [emplaceTrack]

theorem emplaceTrack_tracks (c : Cache) (ftn : FullTrackName) :
    (c.emplaceTrack ftn).tracks c.nextTrackRef = {} := by
  simp [emplaceTrack, setTrack]

theorem makeRoomForTrack_spec (hE : ∀ d a, Act.MakesRoom a → P d a) :
    Spec P c c.makeRoomForTrack id := by
  unfold makeRoomForTrack
  split
  · exact evictOldestTrackIfNeeded_spec hE
  · exact .ok .refl

variable {ftn : FullTrackName}

/-- An eviction brings no name back. -/
theorem makeRoomForTrack_lookup (h : c.makeRoomForTrack = .ok c') (hl : c.cache.lookup ftn = none) :
    c'.cache.lookup ftn = none := by
  have hspec : Spec (fun _ a => Act.MakesRoom a) c c.makeRoomForTrack id :=
    makeRoomForTrack_spec fun _ _ h => h
  refine (hspec.steps h).keeps (I := fun d => d.cache.lookup ftn = none) ?_ hl
  intro d a d' ha hprim hd
  cases hprim with
  | eraseTrack f tref _ _ _ =>
    by_cases hf : ftn = f
    · subst hf
      simp
    · simpa [AList.lookup_erase_ne hf] using hd
  | evictGroup => simpa using hd
  | markEvicted => exact hd
  | _ => exact absurd ha (by simp [Act.MakesRoom])

/-- Evicting a track leaves alone who holds on to a track and its iterator. -/
theorem makeRoomForTrack_canEvict {tref : TrackRef} (h : c.makeRoomForTrack = .ok c') :
    (c'.tracks tref).canEvict = (c.tracks tref).canEvict ∧
      (c'.tracks tref).lruIter = (c.tracks tref).lruIter := by
  have hspec : Spec (fun _ a => Act.MakesRoom a) c c.makeRoomForTrack id :=
    makeRoomForTrack_spec fun _ _ h => h
  refine (hspec.steps h).keeps
    (I := fun d => (d.tracks tref).canEvict = (c.tracks tref).canEvict ∧
      (d.tracks tref).lruIter = (c.tracks tref).lruIter) ?_ ⟨rfl, rfl⟩
  intro d a d' ha hprim hd
  cases hprim with
  | eraseTrack => exact hd
  | evictGroup tr =>
    by_cases htr : tref = tr
    · subst htr
      simpa [canEvict] using hd
    · simpa [htr] using hd
  | markEvicted ftn tr =>
    by_cases htr : tref = tr
    · subst htr
      simpa [markEvicted, setTrack, canEvict] using hd
    · simpa [markEvicted, setTrack, htr] using hd
  | _ => exact absurd ha (by simp [Act.MakesRoom])

theorem getOrCreateTrack_spec (hE : ∀ d a, Act.MakesRoom a → P d a)
    (hN : ∀ d, P d (.emplaceTrack ftn)) : Spec P c (c.getOrCreateTrack ftn) Prod.snd := by
  cases hl : c.cache.lookup ftn with
  | some tref =>
    simp only [getOrCreateTrack, hl]
    exact .ok .refl
  | none =>
    simp only [getOrCreateTrack, hl]
    refine (makeRoomForTrack_spec hE).bind fun d hd => .ok ?_
    exact .single (hN d) (.emplaceTrack d ftn (makeRoomForTrack_lookup hd hl))

theorem getOrCreateTrack_lookup {tref : TrackRef} (h : c.getOrCreateTrack ftn = .ok (tref, c')) :
    c'.cache.lookup ftn = some tref := by
  cases hl : c.cache.lookup ftn with
  | some tr =>
    simp only [getOrCreateTrack, hl, Except.ok.injEq, Prod.mk.injEq] at h
    obtain ⟨rfl, rfl⟩ := h
    exact hl
  | none =>
    simp only [getOrCreateTrack, hl] at h
    obtain ⟨d, -, h⟩ := bind_eq_ok.mp h
    cases h
    exact emplaceTrack_lookup d ftn

theorem getSubscribeWriteback_spec (hE : ∀ d a, Act.MakesRoom a → P d a)
    (hN : ∀ d, P d (.emplaceTrack ftn))
    (hT : ∀ d tref, d.TrackNode tref → P d (.removeTrack tref))
    (hL : ∀ d tref, d.cache.lookup ftn = some tref → (d.tracks tref).lruIter = none →
      P d (.live tref ((d.tracks tref).liveWritebackCount + 1))) :
    Spec P c (c.getSubscribeWriteback ftn) Prod.snd := by
  refine (getOrCreateTrack_spec hE hN).bind fun r hr => ?_
  obtain ⟨tref, d⟩ := r
  have hl := getOrCreateTrack_lookup hr
  simp only
  rcases d.removeTrackFromLRU_cases tref with ⟨hnode, hrem⟩ | ⟨hgone, hrem⟩
  swap
  · rw [hrem]
    exact .stale ⟨tref, hgone, .inl ⟨ftn, hl⟩⟩
  rw [hrem]
  refine .ok (Steps.trans (.single (hT d tref hnode) (.removeTrack d tref)) ?_)
  refine .single (hL _ tref ?_ (takeTrackFromLRU_lruIter d tref)) (.live _ tref _)
  rw [takeTrackFromLRU_cache]
  exact hl

section
variable {ftn : FullTrackName} (hN : ∀ d, P d (.emplaceTrack ftn)) (hI : ∀ d tref, P d (.info tref))
  (hA : ∀ d tref, d.cache.lookup ftn = some tref → (d.tracks tref).canEvict = true →
    P d (.addTrack ftn tref))
include hN hI hA

omit hI in
theorem getOrCreateIdleTrack_steps : Steps P c (c.getOrCreateIdleTrack ftn).2 := by
  cases hl : c.cache.lookup ftn with
  | some tref =>
    simp only [getOrCreateIdleTrack, hl]
    exact .refl
  | none =>
    simp only [getOrCreateIdleTrack, hl]
    refine Steps.trans (.single (hN c) (.emplaceTrack c ftn hl)) ?_
    refine .single (hA _ _ (emplaceTrack_lookup c ftn) ?_) (.addTrack _ ftn _)
    simp [emplaceTrack_tracks, canEvict]

theorem setMaxCacheDuration_steps (duration : Milliseconds) :
    Steps P c (c.setMaxCacheDuration ftn duration) :=
  (getOrCreateIdleTrack_steps hN hA).trans (.single (hI _ _) (.info _ _ _ _ _ _ _))

theorem setTrackExtensions_steps (ext : Extensions) : Steps P c (c.setTrackExtensions ftn ext) := by
  refine Steps.trans ?_ ((getOrCreateIdleTrack_steps hN hA).trans
    (.single (hI _ _) (.info _ _ _ _ _ _ _)))
  split
  · exact setMaxCacheDuration_steps hN hI hA _
  · unfold clearMaxCacheDuration
    split
    · exact .single (hI _ _) (.info _ _ _ _ _ _ _)
    · exact .refl

end

end Cache

theorem FetchRangeIterator.findPrevGroupCachedPosition_untracked (it : FetchRangeIterator)
    (t : CacheTrack) : Untracked (it.findPrevGroupCachedPosition t) := by
  unfold findPrevGroupCachedPosition
  split
  · exact .ok
  · split
    · exact .ok
    · split
      · exact .ok
      · dsimp only
        split
        · exact .ok
        · split
          · split
            · exact .ok
            · exact .error (by decide)
          · exact .error (by decide)

theorem FetchRangeIterator.skipUncached_untracked (it : FetchRangeIterator) (t : CacheTrack) :
    Untracked (it.skipUncached t) := by
  unfold skipUncached
  dsimp only
  split
  · exact .ok
  · split
    · split
      · split <;> exact .ok
      · exact .ok
    · split
      · exact .ok
      · refine (it.findPrevGroupCachedPosition_untracked t).bind fun r _ => ?_
        split <;> exact .ok

namespace FetchTask

section
variable (task : FetchTask) (t : CacheTrack)

theorem okEnd_untracked : Untracked task.okEnd := by
  unfold okEnd
  split
  · split
    · exact .ok
    · exact .error (by decide)
  · exact .ok

theorem cacheResult_untracked : Untracked (task.cacheResult t) := by
  unfold cacheResult
  split
  · refine task.okEnd_untracked.bind fun stop _ => ?_
    split
    · exact .nullDeref
    · split <;> exact .ok
    · exact .ok
  · exact .ok

theorem exitLoop_untracked : Untracked (task.exitLoop t) := by
  unfold exitLoop
  split
  · exact .ok
  · refine Untracked.bind ?_ fun _ _ => .ok
    unfold result
    split
    · exact .ok
    · exact task.cacheResult_untracked t

theorem nextInterval_untracked (intervals : List Interval) (after : AfterUpstream) (ok : FetchOk) :
    Untracked (task.nextInterval t intervals after ok) := by
  unfold nextInterval afterIntervals
  split
  · split
    · exact .ok
    · split
      · exact .ok
      · split
        · exact .ok
        · split
          · exact .nullDeref
          · exact .ok
          · exact .ok
  · exact .ok

theorem afterComplete_untracked (c : Cache) (w : FetchWriteback) (intervals : List Interval)
    (after : AfterUpstream) (now : TimePoint) :
    Untracked (task.afterComplete c w intervals after now) := by
  unfold afterComplete
  dsimp only
  split
  · exact .ok
  · exact nextInterval_untracked _ _ _ _ _

theorem publish_untracked (c : Cache) (current : AbsoluteLocation) (pin : GroupRef)
    (answer : ConsumerAnswer) : Untracked (task.publish c current pin answer) := by
  unfold publish
  dsimp only
  split
  · exact .nullDeref
  · refine Untracked.bind ?_ fun call _ => ?_
    · unfold publishObject
      split
      · split
        · exact .ok
        · exact .nullDeref
      · exact .ok
      · exact .ok
    · split <;> exact .ok

end

variable {task : FetchTask}

theorem lookup_spec {tref : TrackRef} (htrack : task.track = tref)
    (hX : ∀ d ref l, P d (.expire tref ref l)) : Spec P c (task.lookup c) Prod.snd := by
  subst htrack
  refine (getCachedObjectMaybe_spec fun ref _ => hX c ref _).bind fun r _ => ?_
  dsimp only
  split
  · exact (task.it.skipUncached_untracked _).spec fun _ _ => .ok .refl
  · split <;> exact .ok .refl

theorem head_spec (hX : ∀ d ref l, P d (.expire task.track ref l)) :
    Spec P c (task.head c) fun r => r.2.2 := by
  have hexit : ∀ task' : FetchTask, Spec P c (task'.exitHead c) fun r => r.2.2 := by
    intro task'
    unfold exitHead
    cases h : task'.exitLoop (c.tracks task'.track) with
    | ok r => exact .ok .refl
    | error e => exact .error (.of_other (task'.exitLoop_untracked _ e h))
  unfold head
  dsimp only
  split
  · exact hexit task
  · split
    · exact hexit _
    · split
      · exact .ok .refl
      · exact Spec.bind (lookup_spec rfl hX) fun _ _ => .ok .refl

theorem afterWait_spec {current : AbsoluteLocation} {now : TimePoint}
    (hX : ∀ d ref l, P d (.expire task.track ref l)) :
    Spec P c (task.afterWait c current now) Prod.snd := by
  unfold afterWait
  dsimp only
  split
  · exact .ok .refl
  · exact lookup_spec rfl hX

theorem afterUpstreamFetch_spec {wb : WritebackId} {lastObject : Bool} {intervals : List Interval}
    {after : AfterUpstream} {answer : Option FetchOk} (hI : P c (.info task.track)) :
    Spec P c (task.afterUpstreamFetch c wb lastObject intervals after answer)
      fun r => r.2.2 := by
  cases answer with
  | none => exact .ok .refl
  | some ok =>
    have hinfo : Steps P c _ := .single hI (.info c task.track (c.tracks task.track).endOfTrack
      (c.tracks task.track).largestGroupAndObject (c.tracks task.track).maxCacheDuration
      ok.extensions (c.tracks task.track).lastWrite)
    refine .after hinfo ?_
    simp only [afterUpstreamFetch]
    split
    · exact (task.nextInterval_untracked _ _ _ _).spec fun _ _ => .ok .refl
    · exact .ok .refl

theorem fetchUpstream_spec {id : WritebackId} {interval : Interval} {intervals : List Interval}
    {after : AfterUpstream} (hT : P c (.removeTrack task.track))
    (hG : ∀ d g, P d (.evictGroup task.track g))
    (hN : ∀ d, P d (.emplaceGroup task.track interval.1.group))
    (hpin : ∀ d ref, P d (.removeGroup task.track ref))
    (hreg : ∀ d entry, P d (.register task.track interval.1 entry)) :
    Spec P c (task.fetchUpstream c id interval intervals after) fun r => r.2.2 := by
  refine Untracked.spec ?_ fun stop _ =>
    (FetchWriteback.create_spec hT hG hN hpin fun d => hreg d _).bind fun _ _ => .ok .refl
  unfold adjFetchEnd
  split
  · split
    · exact .ok
    · exact .error (by decide)
  · exact .ok

end FetchTask

theorem Cache.fetchCachedTrack_untracked (c : Cache) (f : Fetch) (consumer : ConsumerId)
    (tref : TrackRef) : Untracked (c.fetchCachedTrack f consumer tref) := by
  unfold Cache.fetchCachedTrack
  dsimp only
  split
  · exact .ok
  · split
    · split
      · split
        · exact .error (by decide)
        · exact .ok
      · split
        · split
          · exact .error (by decide)
          · exact .ok
        · exact .ok
    · exact .ok

end Moqx
