import Moqx.Holders
import Moqx.Whole

/-! The list of evictable tracks: it names cached tracks that nothing is writing to, and a track
counts its live subscriptions. -/
namespace Moqx

open Moxygen Maps Cache

variable [Moxygen] {c c' : Cache} {a : Act}

namespace World

variable {w w' : World} {op : Op}

/-- Between steps no cached track is stamped as evicted. -/
theorem Reaches.whole {Q : World → Op → Prop} (h : Reaches Q w) : w.cache.Whole := by
  refine h.keeps (I := fun w => w.cache.Whole) ?_ fun w op w' hw _ hstep hc =>
    hc.of_steps hw.cache (hw.steps hstep)
  intro tracks groups bytes minBytes default_ allowed ftn tref hl
  simp [ofCache, Cache.create] at hl

end World

/-- Acts that change which tracks are evictable. -/
def Act.isIdling : Act → Bool
  | .emplaceTrack _ => true
  | .markEvicted _ _ _ => true
  | .eraseTrack _ _ => true
  | .addTrack _ _ => true
  | .removeTrack _ => true
  | .live _ _ => true
  | .register _ _ _ => true
  | .progress _ _ _ => true
  | .deregister _ _ => true
  | _ => false

/-- Two caches with the same evictable tracks. -/
structure SameIdle (c c' : Cache) : Prop where
  cache : c'.cache = c.cache
  trackLRU : c'.trackLRU = c.trackLRU
  lruIter : ∀ tref, (c'.tracks tref).lruIter = (c.tracks tref).lruIter
  evicted : ∀ tref, (c'.tracks tref).evicted = (c.tracks tref).evicted
  canEvict : ∀ tref, (c'.tracks tref).canEvict = (c.tracks tref).canEvict

theorem SameIdle.of_update {tref : TrackRef} {t : CacheTrack} (hc : c'.cache = c.cache)
    (hl : c'.trackLRU = c.trackLRU) (ht : c'.tracks = Function.update c.tracks tref t)
    (hi : t.lruIter = (c.tracks tref).lruIter) (he : t.evicted = (c.tracks tref).evicted)
    (hb : t.canEvict = (c.tracks tref).canEvict) : SameIdle c c' := by
  have hcases : ∀ tr, tr = tref ∨ tr ≠ tref := fun tr => Classical.em _
  refine ⟨hc, hl, fun tr => ?_, fun tr => ?_, fun tr => ?_⟩ <;>
    rcases hcases tr with rfl | htr <;> simp [*]

theorem SameIdle.refl (c : Cache) : SameIdle c c :=
  ⟨rfl, rfl, fun _ => rfl, fun _ => rfl, fun _ => rfl⟩

/-- All other acts keep them. -/
theorem Prim.sameIdle (h : Prim c a c') (ha : a.isIdling = false) : SameIdle c c' := by
  cases h with
  | popGroup => exact ⟨rfl, rfl, fun _ => rfl, fun _ => rfl, fun _ => rfl⟩
  | addGroup ftn groupID tref ref =>
    unfold Cache.addGroupToLRU
    dsimp only
    split
    · exact .refl c
    · exact .of_update rfl rfl rfl rfl rfl rfl
  | removeGroup tref groupID ref =>
    unfold Cache.takeGroupFromLRU
    dsimp only
    split
    · exact .of_update rfl rfl rfl rfl rfl rfl
    · exact .refl c
  | _ => first | exact .of_update rfl rfl rfl rfl rfl rfl | simp [Act.isIdling] at ha

namespace Cache

/-- The list names cached tracks, and a track in it has no writer and no fetch in progress. -/
structure TrackOk (c : Cache) : Prop where
  entries : ∀ n ftn, (n, ftn) ∈ c.trackLRU → ∃ tref, c.cache.lookup ftn = some tref ∧
    (c.tracks tref).lruIter = some n ∧ (c.tracks tref).evicted = false
  idle : ∀ tref, (c.tracks tref).evicted = false → (c.tracks tref).lruIter ≠ none →
    (c.tracks tref).canEvict = true

/-- What has to hold for an act to keep that. -/
def IdleOk (c : Cache) : Act → Prop
  | .addTrack ftn tref => c.cache.lookup ftn = some tref ∧ (c.tracks tref).canEvict = true ∧
      (c.tracks tref).evicted = false
  | .live tref _ => (c.tracks tref).lruIter = none ∨ (c.tracks tref).evicted = true
  | .register tref _ _ => (c.tracks tref).lruIter = none ∨ (c.tracks tref).evicted = true
  | _ => True

theorem idleOk_of_upkeep {a : Act} (h : a.Upkeep) : c.IdleOk a := by
  cases h <;> exact trivial

theorem TrackOk.of_sameIdle (h : SameIdle c c') (hc : c.TrackOk) : c'.TrackOk := by
  refine ⟨fun n ftn hmem => ?_, fun tref hev hiter => ?_⟩
  · rw [h.trackLRU] at hmem
    rw [h.cache]
    obtain ⟨tref, hl, hi, he⟩ := hc.entries n ftn hmem
    exact ⟨tref, hl, (h.lruIter tref).trans hi, (h.evicted tref).trans he⟩
  · rw [h.evicted] at hev
    rw [h.lruIter] at hiter
    rw [h.canEvict]
    exact hc.idle tref hev hiter

variable {tref : TrackRef} {ftn : FullTrackName}

/-- Changing one track that is not in the list. -/
theorem TrackOk.setTrack {t : CacheTrack} (hc : c.TrackOk)
    (hi : t.lruIter = (c.tracks tref).lruIter) (he : t.evicted = (c.tracks tref).evicted)
    (hidle : t.evicted = false → t.lruIter ≠ none → t.canEvict = true) :
    (c.setTrack tref t).TrackOk := by
  refine ⟨fun n ftn hmem => ?_, fun tr hev hiter => ?_⟩
  · obtain ⟨tr, hl, hn, hev⟩ := hc.entries n ftn hmem
    refine ⟨tr, hl, ?_⟩
    by_cases htr : tr = tref
    · subst htr
      rw [setTrack_tracks, hi, he]
      exact ⟨hn, hev⟩
    · rw [setTrack_tracks_ne _ _ _ htr]
      exact ⟨hn, hev⟩
  · by_cases htr : tr = tref
    · subst htr
      rw [setTrack_tracks] at hev hiter ⊢
      exact hidle hev hiter
    · rw [setTrack_tracks_ne _ _ _ htr] at hev hiter ⊢
      exact hc.idle tr hev hiter

theorem TrackOk.emplaceTrack (hw : c.WF) (hc : c.TrackOk) (hl : c.cache.lookup ftn = none) :
    (c.emplaceTrack ftn).TrackOk := by
  refine ⟨fun n f hmem => ?_, fun tr hev hiter => ?_⟩
  · obtain ⟨tr, hf, hn, hev⟩ := hc.entries n f hmem
    refine ⟨tr, lookup_insert_of_new hl hf, ?_⟩
    rw [emplaceTrack_tracks_eq, if_neg (Nat.ne_of_lt (hw.lt f tr hf))]
    exact ⟨hn, hev⟩
  · rw [emplaceTrack_tracks_eq] at hev hiter ⊢
    split at hiter
    · exact absurd rfl hiter
    · next hne =>
      rw [if_neg hne] at hev ⊢
      exact hc.idle tr hev hiter

theorem TrackOk.markEvicted (tref : TrackRef) (hc : c.TrackOk) : (c.markEvicted tref).TrackOk := by
  have hother : ∀ tr, tr ≠ tref → (c.markEvicted tref).tracks tr = c.tracks tr := fun tr htr => by
    rw [markEvicted_tracks, if_neg htr]
  refine ⟨fun n ftn hmem => ?_, fun tr hev hiter => ?_⟩
  · obtain ⟨hmem, hne⟩ := mem_eraseNode.mp hmem
    obtain ⟨tr, hl, hn, hev⟩ := hc.entries n ftn hmem
    have htr : tr ≠ tref := by
      rintro rfl
      exact hne hn
    exact ⟨tr, hl, by rw [hother tr htr]; exact ⟨hn, hev⟩⟩
  · by_cases htr : tr = tref
    · subst htr
      simp [Cache.markEvicted, Cache.setTrack] at hev
    · rw [hother tr htr] at hev hiter ⊢
      exact hc.idle tr hev hiter

theorem TrackOk.eraseTrack (hc : c.TrackOk) (hl : c.cache.lookup ftn = some tref)
    (hev : (c.tracks tref).evicted = true) :
    ({ c with cache := c.cache.erase ftn } : Cache).TrackOk := by
  refine ⟨fun n f hmem => ?_, hc.idle⟩
  obtain ⟨tr, hf, hn, he⟩ := hc.entries n f hmem
  refine ⟨tr, lookup_erase_of_ne hl ?_ hf, hn, he⟩
  rintro rfl
  rw [hev] at he
  cases he

theorem TrackOk.addTrack (hc : c.TrackOk) (hl : c.cache.lookup ftn = some tref)
    (hb : (c.tracks tref).canEvict = true) (hev : (c.tracks tref).evicted = false) :
    (c.addTrackToLRU ftn tref).TrackOk := by
  unfold addTrackToLRU
  split
  · exact hc
  · next hnone =>
    refine ⟨fun n f hmem => ?_, fun tr hev' hiter => ?_⟩
    · rcases List.mem_cons.mp hmem with heq | hmem
      · cases heq
        exact ⟨tref, hl, by simp [Cache.setTrack], by simp [Cache.setTrack, hev]⟩
      · obtain ⟨tr, hf, hn, he⟩ := hc.entries n f hmem
        have htr : tr ≠ tref := by
          rintro rfl
          simp [hn] at hnone
        exact ⟨tr, hf, by simp [Cache.setTrack, htr, hn], by simp [Cache.setTrack, htr, he]⟩
    · by_cases htr : tr = tref
      · subst htr
        simpa [Cache.setTrack, CacheTrack.canEvict] using hb
      · simp only [Cache.setTrack, Function.update_of_ne htr] at hev' hiter ⊢
        exact hc.idle tr hev' hiter

theorem TrackOk.removeTrack (tref : TrackRef) (hc : c.TrackOk) :
    (c.takeTrackFromLRU tref).TrackOk := by
  unfold takeTrackFromLRU
  split
  · refine ⟨fun n f hmem => ?_, fun tr hev hiter => ?_⟩
    · obtain ⟨hmem, hne⟩ := mem_eraseNode.mp hmem
      obtain ⟨tr, hf, hn, he⟩ := hc.entries n f hmem
      have htr : tr ≠ tref := by
        rintro rfl
        exact hne hn
      exact ⟨tr, hf, by simp [Cache.setTrack, htr, hn], by simp [Cache.setTrack, htr, he]⟩
    · by_cases htr : tr = tref
      · subst htr
        simp [Cache.setTrack] at hiter
      · simp only [Cache.setTrack, Function.update_of_ne htr] at hev hiter ⊢
        exact hc.idle tr hev hiter
  · exact hc

/-- A track with a fetch in progress is out of the list. -/
theorem TrackOk.out_of_busy {key : AbsoluteLocation} {e : FetchInProgressEntry} (hc : c.TrackOk)
    (hl : (c.tracks tref).fetchesInProgress.lookup key = some e) :
    (c.tracks tref).lruIter = none ∨ (c.tracks tref).evicted = true := by
  by_contra hnot
  rw [not_or, Bool.not_eq_true] at hnot
  have hidle := hc.idle tref hnot.2 hnot.1
  rw [FetchWriteback.canEvict_of_lookup hl] at hidle
  cases hidle

/-- Every such act keeps the list of evictable tracks. -/
theorem TrackOk.of_prim (hw : c.WF) (hc : c.TrackOk) (h : Prim c a c') (ha : c.IdleOk a) :
    c'.TrackOk := by
  -- A track the act writes to is out of the list, or stamped.
  have hout : ∀ {t : CacheTrack} {tref : TrackRef},
      (c.tracks tref).lruIter = none ∨ (c.tracks tref).evicted = true →
      t.lruIter = (c.tracks tref).lruIter → t.evicted = (c.tracks tref).evicted →
      (c.setTrack tref t).TrackOk := by
    intro t tref hor hi he
    refine hc.setTrack hi he fun hev hiter => ?_
    rw [he] at hev
    rw [hi] at hiter
    rcases hor with hnone | htrue
    · exact absurd hnone hiter
    · rw [htrue] at hev
      cases hev
  cases hs : a.isIdling with
  | false => exact hc.of_sameIdle (h.sameIdle hs)
  | true =>
    cases h with
    | emplaceTrack ftn hl => exact hc.emplaceTrack hw hl
    | markEvicted ftn tref => exact hc.markEvicted tref
    | eraseTrack ftn tref hl hev => exact hc.eraseTrack hl hev
    | addTrack ftn tref => exact hc.addTrack ha.1 ha.2.1 ha.2.2
    | removeTrack tref => exact hc.removeTrack tref
    | live tref count => exact hout ha rfl rfl
    | register tref loc entry => exact hout ha rfl rfl
    | progress tref key old entry hl => exact hout (hc.out_of_busy hl) rfl rfl
    | deregister tref key =>
      refine hc.setTrack rfl rfl fun hev hiter => ?_
      have hidle := hc.idle tref hev hiter
      simp only [CacheTrack.canEvict, Bool.and_eq_true] at hidle ⊢
      refine ⟨hidle.1, ?_⟩
      have hnil : (c.tracks tref).fetchesInProgress.entries = [] := by
        simpa using hidle.2
      simp [AList.erase, hnil]
    | _ => simp [Act.isIdling] at hs

theorem TrackOk.of_acts {P : Cache → Act → Prop} (hw : c.WF) (hc : c.TrackOk)
    (hP : ∀ d a, P d a → d.IdleOk a) (h : Acts P c c') : c'.TrackOk := by
  have hkeep : c'.WF ∧ c'.TrackOk := by
    refine h.keeps (I := fun d => d.WF ∧ d.TrackOk) ?_ ⟨hw, hc⟩
    rintro d a d' ha hprim ⟨hwd, hd⟩
    exact ⟨hwd.of_prim hprim, hd.of_prim hwd hprim (hP d a ha)⟩
  exact hkeep.2

theorem TrackOk.of_steps {P : Cache → Act → Prop} (hw : c.WF) (hc : c.TrackOk)
    (hP : ∀ d a, P d a → d.IdleOk a) (h : Steps P c c') : c'.TrackOk := hc.of_acts hw hP h.acts

/-- Making room for a track leaves a cached track that is out of the list alone. -/
theorem makeRoomForTrack_keeps (hw : c.WF) (hc : c.TrackOk) (hl : c.cache.lookup ftn = some tref)
    (hev : (c.tracks tref).evicted = false) (hout : (c.tracks tref).lruIter = none)
    (h : c.makeRoomForTrack = .ok c') :
    c'.cache.lookup ftn = some tref ∧ (c'.tracks tref).evicted = false := by
  have hspec : Spec (fun _ a => Act.MakesRoom a) c c.makeRoomForTrack id :=
    makeRoomForTrack_spec fun _ _ h => h
  have hkeep : c'.WF ∧ c'.TrackOk ∧ c'.cache.lookup ftn = some tref ∧
      (c'.tracks tref).evicted = false ∧ (c'.tracks tref).lruIter = none := by
    refine (hspec.steps h).keeps (I := fun d => d.WF ∧ d.TrackOk ∧ d.cache.lookup ftn = some tref ∧
      (d.tracks tref).evicted = false ∧ (d.tracks tref).lruIter = none) ?_ ⟨hw, hc, hl, hev, hout⟩
    rintro d a d' ha hprim ⟨hwd, hd, hf, he, hi⟩
    refine ⟨hwd.of_prim hprim, hd.of_prim hwd hprim (idleOk_of_upkeep ha.upkeep), ?_⟩
    · cases hprim with
      | evictGroup tr groupID ref hg hb named =>
        obtain ⟨h1, -, h3, h4, -⟩ := Prim.sameIdle (.evictGroup d tr groupID ref hg hb named) rfl
        rw [h1, h3, h4]
        exact ⟨hf, he, hi⟩
      | markEvicted f tr cause hf' named =>
        cases ha
        obtain ⟨n, hmem⟩ := named
        obtain ⟨tr', hf'', hn, -⟩ := hd.entries n f hmem
        rw [hf', Option.some.injEq] at hf''
        subst hf''
        have htr : tref ≠ tr := by
          rintro rfl
          rw [hi] at hn
          cases hn
        simp only [markEvicted, Cache.setTrack, Function.update_of_ne htr]
        exact ⟨hf, he, hi⟩
      | eraseTrack f tr hf' hev' =>
        have hne : ftn ≠ f := by
          rintro rfl
          rw [hf, Option.some.injEq] at hf'
          subst hf'
          rw [he] at hev'
          cases hev'
        exact ⟨by simpa [AList.lookup_erase_ne hne] using hf, he, hi⟩
      | _ => exact False.elim ha
  exact ⟨hkeep.2.2.1, hkeep.2.2.2.1⟩

end Cache

namespace FetchWriteback

variable {w w' : FetchWriteback}

theorem emplaceAndPinGroup_trackOk {loc : AbsoluteLocation} {entry : FetchInProgressEntry}
    (hw : c.WF) (hc : c.TrackOk)
    (hout : (c.tracks w.track).lruIter = none ∨ (c.tracks w.track).evicted = true)
    (h : w.emplaceAndPinGroup c loc entry = .ok (w', c')) : c'.TrackOk := by
  have hkeep : c'.WF ∧ c'.TrackOk ∧
      ((c'.tracks w.track).lruIter = none ∨ (c'.tracks w.track).evicted = true) := by
    refine (emplaceAndPinGroup_pins.steps h).keeps (I := fun d => d.WF ∧ d.TrackOk ∧
      ((d.tracks w.track).lruIter = none ∨ (d.tracks w.track).evicted = true)) ?_ ⟨hw, hc, hout⟩
    rintro d a d' ha hprim ⟨hwd, hd, ho⟩
    refine ⟨hwd.of_prim hprim, hd.of_prim hwd hprim ?_, ?_⟩
    · cases ha <;> first | exact ho | exact trivial
    · cases hi : a.isIdling with
      | false =>
        obtain ⟨-, -, h3, h4, -⟩ := hprim.sameIdle hi
        rw [h3, h4]
        exact ho
      | true =>
        cases ha with
        | register loc entry =>
          cases hprim
          simpa [Cache.register] using ho
        | _ => cases hi
  exact hkeep.2.1

variable {tref : TrackRef} {d : Cache}

theorem create_trackOk {id : WritebackId} {start stop : AbsoluteLocation} {proxyFin : Bool}
    {consumer : ConsumerId} {it : FetchRangeIterator} {ftn : FullTrackName} (hw : c.WF)
    (hc : c.TrackOk) (h : create c id start stop proxyFin consumer it tref ftn = .ok (w, c')) :
    c'.TrackOk := by
  obtain ⟨v, rfl, hmove⟩ := create_emplaces h
  exact emplaceAndPinGroup_trackOk (hw.of_prim (.removeTrack c v.track)) (hc.removeTrack v.track)
    (.inl (takeTrackFromLRU_lruIter c v.track)) hmove

theorem releaseKey_trackOk {key : AbsoluteLocation} {e : FetchInProgressEntry} (hw : c.WF)
    (hc : c.TrackOk) (hl : (c.tracks w.track).fetchesInProgress.lookup key = some e)
    (hd : Recorded c w.track key d) :
    (d.releaseKey w.track w.ftn key w.pinnedGroup).WF ∧
      (d.releaseKey w.track w.ftn key w.pinnedGroup).TrackOk ∧
      (((d.releaseKey w.track w.ftn key w.pinnedGroup).tracks w.track).lruIter = none ∨
        ((d.releaseKey w.track w.ftn key w.pinnedGroup).tracks w.track).evicted = true) := by
  have hout := hc.out_of_busy hl
  have hrec : d.WF ∧ d.TrackOk ∧
      ((d.tracks w.track).lruIter = none ∨ (d.tracks w.track).evicted = true) := by
    rcases hd with rfl | ⟨entry, rfl⟩
    · exact ⟨hw, hc, hout⟩
    · have hprim : Prim c (.progress w.track key entry) (c.register w.track key entry) :=
        .progress c w.track key e entry hl
      exact ⟨hw.of_prim hprim, hc.of_prim hw hprim trivial, by simpa [Cache.register] using hout⟩
  obtain ⟨hwd, hcd, ho⟩ := hrec
  have hderef : Prim d (.deregister w.track key) (d.deregister w.track key) :=
    .deregister d w.track key
  have hmid : (d.deregister w.track key).WF ∧ (d.deregister w.track key).TrackOk ∧
      (((d.deregister w.track key).tracks w.track).lruIter = none ∨
        ((d.deregister w.track key).tracks w.track).evicted = true) :=
    ⟨hwd.of_prim hderef, hcd.of_prim hwd hderef trivial, by simpa [Cache.deregister] using ho⟩
  unfold Cache.releaseKey
  cases w.pinnedGroup with
  | none => exact hmid
  | some ref =>
    dsimp only
    by_cases hm : (d.deregister w.track key).mark w.track ref = none
    · have hprim := Prim.addGroup (d.deregister w.track key) w.ftn key.group w.track ref hm
      obtain ⟨-, -, h3, h4, -⟩ := hprim.sameIdle rfl
      refine ⟨hmid.1.of_prim hprim, hmid.2.1.of_prim hmid.1 hprim trivial, ?_⟩
      rw [h3, h4]
      exact hmid.2.2
    · rw [addGroup_marked hm]
      exact hmid

theorem updateInProgress_trackOk (hw : c.WF) (hc : c.TrackOk)
    (hown : ∀ key, w.fetchInProgressIt = some key →
      ∃ e, (c.tracks w.track).fetchesInProgress.lookup key = some e)
    (h : w.updateInProgress c = .ok (w', c')) : c'.TrackOk := by
  cases updateInProgress_updated h with
  | unregistered => exact hc
  | stays hk =>
    obtain ⟨e, he⟩ := hown _ hk
    exact hc.of_prim hw (.progress c w.track _ e _ he) trivial
  | dropped hk hk' hd =>
    obtain ⟨e, he⟩ := hown _ hk
    exact (releaseKey_trackOk hw hc he hd).2.1
  | moved hk htr hd hmove =>
    obtain ⟨e, he⟩ := hown _ hk
    obtain ⟨hwr, hcr, hout⟩ := releaseKey_trackOk hw hc he hd
    exact emplaceAndPinGroup_trackOk hwr hcr (by rw [htr]; exact hout) hmove

theorem body_idleOk {b : Cache} {ftn : FullTrackName} (h : BodyAct b tref ftn d a) :
    d.IdleOk a := by
  cases h with
  | evicts h | marks h => exact idleOk_of_upkeep h.upkeep
  | _ => exact trivial

/-- What is registered before the registration moves. -/
theorem own_of_body {v : FetchWriteback} (hown : ∀ key, w.fetchInProgressIt = some key →
      ∃ e, (c.tracks w.track).fetchesInProgress.lookup key = some e)
    (hd : Steps (BodyAct c w.track w.ftn) c d) (hv : SameKey w v) (key : AbsoluteLocation)
    (hkey : v.fetchInProgressIt = some key) :
    ∃ e, (d.tracks v.track).fetchesInProgress.lookup key = some e := by
  rw [hv.fetchInProgressIt] at hkey
  obtain ⟨e, he⟩ := hown key hkey
  exact ⟨e, by rw [hv.track, fetches_of_body hd.acts]; exact he⟩

theorem deliver_trackOk {now : TimePoint} {delivery : Delivery} {res : Expected Unit}
    {calls : List FetchCall} (hw : c.WF) (hc : c.TrackOk)
    (hown : ∀ key, w.fetchInProgressIt = some key →
      ∃ e, (c.tracks w.track).fetchesInProgress.lookup key = some e)
    (h : w.deliver c now delivery = .ok (res, calls, w', c')) : c'.TrackOk := by
  cases Shape.of_deliver (hw.bounded _) h with
  | quiet hd hv => exact hc.of_steps hw (fun _ _ => body_idleOk) hd
  | updated hd hv hup hd' hw' =>
    next d d₂ w₁ w₂ =>
    have hwd := (Cache.Grows.of_steps hd hw).wf
    have hcd := hc.of_steps hw (fun _ _ => body_idleOk) hd
    have hup' := updateInProgress_trackOk hwd hcd (own_of_body hown hd hv) hup
    exact hup'.of_steps (Cache.Grows.of_steps (updateInProgress_steps hup) hwd).wf
      (fun _ _ ha => idleOk_of_upkeep ha.upkeep) hd'

end FetchWriteback

namespace World

variable {w w' : World} {op : Op}

/-- The acts that keep the list of evictable tracks wherever no cached track is stamped. -/
def ClosingAct (d : Cache) (a : Act) : Prop := d.Whole → d.IdleOk a

theorem trackOk_closing (hw : w.WF) (hh : w.cache.Whole) (hc : w.cache.TrackOk)
    (hacts : OpActs ClosingAct w op) (h : w.step op = .ok w') : w'.cache.TrackOk := by
  have hsteps := (step_spec hw.refsKnown hacts).steps h
  refine (hsteps.between (I := fun d => d.WF ∧ d.Whole ∧ d.TrackOk) ?_ ?_
    ⟨hw.cache, hh, hc⟩).2.2
  · rintro d a d' ha hP hprim ⟨hwd, hhd, hd⟩
    exact ⟨hwd.of_prim hprim, hhd.of_prim hprim ha, hd.of_prim hwd hprim (hP hhd)⟩
  · rintro d d' hrem ⟨hwd, hhd, hd⟩
    refine ⟨(Cache.Grows.of_acts hrem.acts hwd).wf, hhd.of_removal hwd hrem, ?_⟩
    refine hd.of_acts hwd (fun e a ha => ?_) hrem.acts
    cases a <;> first | exact trivial | cases ha.2

theorem idleActs_closing (ftn : FullTrackName) : IdleActs ClosingAct ftn :=
  fun _ tref hl hb hwhole => ⟨hl, hb, hwhole ftn tref hl⟩

theorem subgroupActs_idleOk (c : Cache) (sub : SubgroupWriteback) :
    SubgroupActs Cache.IdleOk c sub :=
  ⟨fun _ _ ha => idleOk_of_upkeep ha.upkeep,
    fun _ _ ha => idleOk_of_upkeep ha.upkeep, fun _ => trivial,
    fun _ _ _ _ _ => trivial, fun _ => trivial⟩

theorem groupActs_idleOk (c : Cache) (tref : TrackRef) (ftn : FullTrackName) :
    GroupActs Cache.IdleOk c tref ftn :=
  ⟨fun _ _ ha => idleOk_of_upkeep ha.upkeep,
    fun _ _ ha => idleOk_of_upkeep ha.upkeep, fun _ => trivial,
    fun _ _ _ _ _ _ => trivial, fun _ _ _ _ _ _ => trivial, fun _ _ _ _ _ => trivial⟩

/-- Every step keeps the list of evictable tracks. -/
theorem trackOk_step (hw : w.WF) (hk : w.KeysOk) (hh : w.cache.Whole) (hc : w.cache.TrackOk)
    (h : w.step op = .ok w') : w'.cache.TrackOk := by
  have hown : ∀ id wb, w.writebacks.lookup id = some wb → ∀ key,
      wb.fetchInProgressIt = some key →
        ∃ e, (w.cache.tracks wb.track).fetchesInProgress.lookup key = some e := by
    intro id wb hl key hkey
    obtain ⟨e, he, -⟩ := hk.own id wb hl key hkey
    exact ⟨e, he⟩
  have hacts : OpActs Cache.IdleOk w op → w'.cache.TrackOk := fun hacts =>
    hc.of_steps hw.cache (fun _ _ h => h) ((step_spec hw.refsKnown hacts).steps h)
  have hclosing : OpActs ClosingAct w op → w'.cache.TrackOk := fun hacts =>
    trackOk_closing hw hh hc hacts h
  have hroom : ∀ (d : Cache) a, Act.MakesRoom a → d.IdleOk a := fun _ _ ha =>
    idleOk_of_upkeep ha.upkeep
  have hpurges : ∀ (d : Cache) a, Act.Purges a → d.IdleOk a := fun _ _ ha =>
    idleOk_of_upkeep ha.upkeep
  cases op with
  | tick => exact hacts trivial
  | cancel => exact hacts trivial
  | subscribe =>
    exact hacts ⟨hroom, fun _ => trivial, fun _ _ _ => trivial, fun _ _ _ hnone => .inl hnone⟩
  | closeSubscribe id =>
    refine hclosing fun s hs => ⟨fun hlive _ => ?_, idleActs_closing _⟩
    by_contra hnot
    rw [Cache.IdleOk, not_or, Bool.not_eq_true] at hnot
    have hidle := hc.idle _ hnot.2 hnot.1
    simp only [CacheTrack.canEvict, Bool.and_eq_true, decide_eq_true_eq] at hidle
    omega
  | beginSubgroup => exact hacts fun s _ => ⟨groupActs_idleOk _ _ _, fun _ _ => trivial⟩
  | objectStream | datagram => exact hacts fun s _ => groupActs_idleOk _ _ _
  | writeSubgroup => exact hacts fun sub _ => subgroupActs_idleOk _ _
  | closeSubgroup => exact hacts fun _ _ => trivial
  | setTrackExtensions =>
    exact hclosing ⟨fun _ _ => trivial, fun _ _ _ => trivial, idleActs_closing _⟩
  | purgeTrack | purgeNamespace | purgeAll => exact hacts hpurges
  | fetch f =>
    rcases fetch_cases h with ⟨heq, -⟩ | ⟨d, wb, hl, hmake, hcreate, -⟩
    · rw [heq]
      exact hc
    · have hnew := hc.emplaceTrack hw.cache hl
      have hwnew := hw.cache.emplaceTrack hl
      have hspec : Spec (fun _ a => Act.MakesRoom a) (w.cache.emplaceTrack f.fullTrackName)
          (w.cache.emplaceTrack f.fullTrackName).makeRoomForTrack id :=
        makeRoomForTrack_spec fun _ _ h => h
      have hsteps := hspec.steps hmake
      have hwd := (Cache.Grows.of_steps hsteps hwnew).wf
      have hfresh := emplaceTrack_tracks w.cache f.fullTrackName
      obtain ⟨hlook, hev⟩ := makeRoomForTrack_keeps hwnew hnew
        (emplaceTrack_lookup w.cache f.fullTrackName) (by rw [hfresh]) (by rw [hfresh]) hmake
      have hidle : (d.tracks w.cache.nextTrackRef).canEvict = true := by
        rw [(makeRoomForTrack_canEvict hmake).1, hfresh]
        rfl
      have hadd := (hnew.of_steps hwnew hroom hsteps).addTrack hlook hidle hev
      exact FetchWriteback.create_trackOk
        (hwd.of_prim (.addTrack d f.fullTrackName w.cache.nextTrackRef)) hadd hcreate
  | resume id with_ =>
    obtain ⟨task, ht, -⟩ := bind_eq_ok.mp h
    have ht := orNoCaller_eq_ok.mp ht
    cases hspan : task.pc.nextSpan with
    | some span =>
      obtain ⟨stop, lastObject, wb, -, hcreate, -⟩ := resume_creates ht hspan h
      exact FetchWriteback.create_trackOk hw.cache hc hcreate
    | none =>
      refine hacts fun task' ht' => ⟨fun _ _ _ => trivial, fun _ => trivial,
        fun interval intervals after hpc => ?_⟩
      rw [ht, Option.some.injEq] at ht'
      subst ht'
      simp [FetchPc.nextSpan, hpc] at hspan
  | deliver id delivery =>
    obtain ⟨wb, res, calls, wb', d, hwb, hd, rfl⟩ := step_deliver h
    exact FetchWriteback.deliver_trackOk hw.cache hc (hown id wb hwb) hd
  | closeWriteback id =>
    exact hclosing fun wb _ => ⟨fun _ _ _ _ => trivial, fun _ _ _ _ _ _ _ => trivial,
      idleActs_closing _⟩

theorem Reaches.trackOk {Q : World → Op → Prop} (h : Reaches Q w) : w.cache.TrackOk := by
  have hkeep : w.KeysOk ∧ w.cache.Whole ∧ w.cache.TrackOk := by
    refine h.keeps (I := fun w => w.KeysOk ∧ w.cache.Whole ∧ w.cache.TrackOk) ?_ ?_
    · intro tracks groups bytes minBytes default_ allowed
      have hnew : Reaches Q (ofCache (.create tracks groups bytes minBytes default_ allowed)) :=
        .create _ _ _ _ _ _
      refine ⟨hnew.keysOk, hnew.whole, fun n ftn hmem => ?_, fun tref _ hiter => ?_⟩
      · simp [ofCache, Cache.create] at hmem
      · simp [ofCache, Cache.create] at hiter
    · rintro w op w' hw _ hstep ⟨hk, hh, hc⟩
      exact ⟨hk.step hw hstep, hh.of_steps hw.cache (hw.steps hstep),
        trackOk_step hw hk hh hc hstep⟩
  exact hkeep.2.2

end World

end Moqx
