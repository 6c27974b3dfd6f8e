import Moqx.Holders
import Moqx.Moxygen.Ranked

/-! Byte-limit eviction ends and does its work as long as the list of evictable groups names
groups of cached tracks, which it does as long as no group is released after its track was
evicted. -/
namespace Moqx

open Moxygen Maps

section
variable [Moxygen] {c c' : Cache}

namespace Cache

omit [Moxygen] in
theorem length_eraseNode_lt {α : Type} {l : List (NodeId × α)} {n : NodeId} {x : α}
    (h : (n, x) ∈ l) : (eraseNode l (some n)).length < l.length := by
  rw [eraseNode, List.length_filter_lt_length_iff_exists]
  exact ⟨(n, x), h, by simp⟩

variable {tref : TrackRef} {ftn : FullTrackName}

/-- Each round of group-count eviction takes a group out of the track. -/
theorem evictOldestGroupsLoop_terminates (fuel : Nat) (c : Cache) (hw : c.WF) (hc : c.LruOk)
    (hfuel : (c.tracks tref).groups.keys.length < fuel) :
    evictOldestGroupsLoop tref fuel c ≠ .error .diverges := by
  induction fuel generalizing c with
  | zero => exact absurd hfuel (Nat.not_lt_zero _)
  | succ fuel ih =>
    unfold evictOldestGroupsLoop
    split
    · cases hlast : (c.tracks tref).groupLRU.getLast? with
      | none => simp
      | some oldest =>
        dsimp only
        have hmem := List.mem_of_getLast? hlast
        obtain ⟨ref, hl, hm⟩ := hc.lists tref oldest.1 oldest.2 hmem
        rcases c.evictGroup_cases tref oldest.2 with ⟨hn, -⟩ | ⟨r, hr, hb, h⟩ | ⟨r, e, -, he, h⟩
        · rw [hl] at hn
          cases hn
        · have hprim := Prim.evictGroup c tref oldest.2 r hr hb (.inr (.inl ⟨oldest.1, hmem⟩))
          rw [h]
          refine ih _ (hw.of_prim hprim) (hc.of_prim hw hprim trivial) ?_
          have hkey : oldest.2 ∈ (c.tracks tref).groups.keys :=
            AList.mem_keys.mp (AList.lookup_isSome.mp (by simp [hr]))
          rw [dropGroup_tracks, CacheTrack.eraseGroup_groups, AList.keys_erase,
            List.length_erase_of_mem hkey]
          omega
        · rw [h]
          rcases he with ⟨rfl, -⟩ | ⟨rfl, -⟩ <;> simp [bind, Except.bind]
    · simp

theorem evictOldestGroupsIfNeeded_terminates (hw : c.WF) (hc : c.LruOk) :
    c.evictOldestGroupsIfNeeded tref ≠ .error .diverges := by
  unfold evictOldestGroupsIfNeeded
  split
  · simp
  · exact evictOldestGroupsLoop_terminates _ c hw hc (Nat.lt_succ_self _)

theorem evictTrack_empty (hl : c.cache.lookup ftn = some tref)
    (hempty : (c.tracks tref).groups.keys = []) :
    c.evictTrack ftn = .ok { c.markEvicted tref with cache := c.cache.erase ftn } ∨
      c.evictTrack ftn = .error .staleIterator := by
  simp only [evictTrack, hl, hempty, evictGroups]
  rcases useNode_cases c.trackLRU (c.tracks tref).lruIter with ⟨-, hu⟩ | ⟨-, hu⟩
  · rw [hu]
    exact .inl rfl
  · rw [hu]
    exact .inr rfl

/-- A round of byte-limit eviction takes an entry off the global list, or fails a check. -/
theorem evictByteRound_shrinks {n : NodeId} {groupID : Nat} (hc : c.LruOk)
    (hlast : c.globalGroupLRU.getLast? = some (n, ftn, groupID)) :
    (∃ c', c.evictByteRound ftn groupID = .ok c' ∧
      c'.globalGroupLRU.length < c.globalGroupLRU.length) ∨
    ∃ e, e ≠ .diverges ∧ c.evictByteRound ftn groupID = .error e := by
  have hmem := List.mem_of_getLast? hlast
  obtain ⟨tref, ref, hf, hl, hm⟩ := hc.entries n ftn groupID hmem
  simp only [evictByteRound, hf]
  rcases c.evictGroup_cases tref groupID with ⟨hn, -⟩ | ⟨r, hr, hb, h⟩ | ⟨r, e, -, he, h⟩
  · rw [hl] at hn
    cases hn
  · rw [hl, Option.some.injEq] at hr
    subst hr
    have hlen : (c.dropGroup tref groupID ref).globalGroupLRU.length <
        c.globalGroupLRU.length := by
      rw [dropGroup_globalGroupLRU, hc.iters, hm]
      exact length_eraseNode_lt hmem
    simp only [h, bind, Except.bind]
    split
    · next hempty =>
      -- The track has no group left, so removing it evicts no further group.
      rw [Bool.and_eq_true, List.isEmpty_iff] at hempty
      rcases evictTrack_empty (c := c.dropGroup tref groupID ref) hf hempty.1 with hok | hstale
      · exact .inl ⟨_, hok, hlen⟩
      · exact .inr ⟨_, by simp, hstale⟩
    · exact .inl ⟨_, rfl, hlen⟩
  · right
    rw [h]
    rcases he with ⟨rfl, -⟩ | ⟨rfl, -⟩ <;> exact ⟨_, by simp, rfl⟩

theorem evictBytesLoop_terminates {target : Nat} (fuel : Nat) (c : Cache) (hw : c.WF)
    (hc : c.LruOk) (hfuel : c.globalGroupLRU.length < fuel) :
    evictBytesLoop target fuel c ≠ .error .diverges := by
  induction fuel generalizing c with
  | zero => exact absurd hfuel (Nat.not_lt_zero _)
  | succ fuel ih =>
    unfold evictBytesLoop
    split
    · cases hlast : c.globalGroupLRU.getLast? with
      | none => simp
      | some back =>
        obtain ⟨n, ftn, groupID⟩ := back
        dsimp only
        have hspec : Spec (fun _ a => Act.Evicts a) c (c.evictByteRound ftn groupID) id :=
          evictByteRound_spec (fun _ _ h => h) hlast
        rcases evictByteRound_shrinks hc hlast with ⟨d, hd, hlen⟩ | ⟨e, he, h⟩
        · have hsteps := hspec.steps hd
          rw [hd]
          have hlen : d.globalGroupLRU.length < c.globalGroupLRU.length := hlen
          exact ih d (Grows.of_steps hsteps hw).wf
            (hc.of_steps hw (fun _ _ _ ha => addOk_of_upkeep ha.upkeep) hsteps) (by omega)
        · rw [h]
          simpa [bind, Except.bind] using he
    · simp

theorem evictForByteLimitIfNeeded_terminates (hw : c.WF) (hc : c.LruOk) :
    c.evictForByteLimitIfNeeded ≠ .error .diverges := by
  unfold evictForByteLimitIfNeeded
  split
  · simp
  · refine evictBytesLoop_terminates _ c hw hc ?_
    omega

/-- Nothing diverges while lists and marks belong to each other. -/
theorem LruOk.no_divergence {P : Cache → Act → Prop} {e : Abort} (hw : c.WF) (hc : c.LruOk)
    (h : Fails P c e) : e ≠ .diverges := by
  intro he
  rcases h.diverges he with hd | ⟨tref, hd⟩
  · exact evictForByteLimitIfNeeded_terminates hw hc hd
  · exact evictOldestGroupsIfNeeded_terminates hw hc hd

theorem evictBytesLoop_effective {target fuel : Nat} (h : evictBytesLoop target fuel c = .ok c') :
    c'.totalCachedBytes ≤ target ∨ c'.globalGroupLRU = [] := by
  induction fuel generalizing c with
  | zero => cases h
  | succ fuel ih =>
    unfold evictBytesLoop at h
    split at h
    · cases hlast : c.globalGroupLRU.getLast? with
      | none =>
        simp only [hlast] at h
        cases h
        exact .inr (List.getLast?_eq_none_iff.mp hlast)
      | some back =>
        simp only [hlast] at h
        obtain ⟨d, -, h⟩ := bind_eq_ok.mp h
        exact ih h
    · next hb =>
      cases h
      exact .inl (Nat.not_lt.mp hb)

/-- After byte-limit eviction the limit holds or nothing evictable is left. -/
theorem evictForByteLimitIfNeeded_effective (hlimit : c.maxCachedBytes ≠ 0)
    (h : c.evictForByteLimitIfNeeded = .ok c') :
    c'.totalCachedBytes ≤ c.maxCachedBytes ∨ c'.globalGroupLRU = [] := by
  unfold evictForByteLimitIfNeeded at h
  split at h
  · next hok =>
    cases h
    exact .inl (hok.resolve_left hlimit)
  · rcases evictBytesLoop_effective h with hb | hl
    · left
      unfold targetBytes at hb
      split at hb <;> omega
    · exact .inr hl

/-- A holder may release its group while its track is not evicted. -/
theorem LruOk.release {groupID : Nat} {ref : GroupRef} (hw : c.WF) (hc : c.LruOk)
    (hh : c.Handle tref ftn) (hev : (c.tracks tref).evicted = false)
    (hn : c.Named tref groupID ref) : (c.addGroupToLRU ftn groupID tref ref).LruOk := by
  by_cases hm : c.mark tref ref = none
  · obtain ⟨f, hf⟩ := hw.attached tref hh.lt hev
    obtain ⟨g, hg⟩ := (hc.detached tref hh.lt hev ref hn.lt).resolve_right fun h => h hm
    rw [hh.named f hf] at hf
    rw [hn.named g hg] at hg
    exact hc.addGroup hw hf hg hm
  · rw [addGroup_marked hm]
    exact hc

theorem deregister_sameLists (c : Cache) (tref : TrackRef) (key : AbsoluteLocation) :
    SameLists c (c.deregister tref key) :=
  .of_update (.of_update rfl rfl rfl rfl rfl rfl) (Nat.le_refl _) rfl rfl rfl (fun _ => rfl)
    fun _ => rfl

theorem LruOk.releaseKey {key : AbsoluteLocation} {ref : GroupRef} (hw : c.WF) (hc : c.LruOk)
    (hh : c.Handle tref ftn) (hev : (c.tracks tref).evicted = false)
    (hn : c.Named tref key.group ref) : (c.releaseKey tref ftn key (some ref)).LruOk := by
  have hsame := deregister_sameLists c tref key
  refine LruOk.release (hw.of_sameSkeleton hsame.toSameSkeleton) (hc.of_sameLists hsame)
    ⟨hh.lt, hh.named⟩ ?_ ⟨?_, fun g hg => hn.named g ?_⟩
  · rw [hsame.evicted]
    exact hev
  · rw [hsame.nextGroupRef]
    exact hn.lt
  · rwa [hsame.groups] at hg

end Cache

namespace FetchWriteback

variable {w w' : FetchWriteback}

/-- What has to hold for a writeback to move or drop its registration. -/
structure MayRelease (w : FetchWriteback) (c : Cache) : Prop where
  wf : c.WF
  lru : c.LruOk
  handle : c.Handle w.track w.ftn
  pin : w.PinNamed c
  evicted : w.fetchInProgressIt ≠ none → (c.tracks w.track).evicted = false

theorem MayRelease.releaseKey {d : Cache} {key : AbsoluteLocation} (hr : w.MayRelease c)
    (hkey : w.fetchInProgressIt = some key) (hd : SameLists c d) :
    (d.releaseKey w.track w.ftn key w.pinnedGroup).WF ∧
      (d.releaseKey w.track w.ftn key w.pinnedGroup).LruOk := by
  obtain ⟨ref, hpin, hn⟩ := hr.pin key hkey
  have hdw := hr.wf.of_sameSkeleton hd.toSameSkeleton
  have hev : (d.tracks w.track).evicted = false := by
    rw [hd.evicted]
    exact hr.evicted (by simp [hkey])
  have hh : d.Handle w.track w.ftn := by
    refine ⟨?_, ?_⟩
    · rw [hd.nextTrackRef]
      exact hr.handle.lt
    · rw [hd.cache]
      exact hr.handle.named
  have hnd : d.Named w.track key.group ref := by
    refine ⟨?_, fun g hg => hn.named g ?_⟩
    · rw [hd.nextGroupRef]
      exact hn.lt
    · rwa [hd.groups] at hg
  rw [hpin]
  refine ⟨?_, Cache.LruOk.releaseKey hdw (hr.lru.of_sameLists hd) hh hev hnd⟩
  have hsame := Cache.deregister_sameLists d w.track key
  have hmid := hdw.of_sameSkeleton hsame.toSameSkeleton
  unfold Cache.releaseKey
  dsimp only
  by_cases hm : (d.deregister w.track key).mark w.track ref = none
  · exact hmid.of_prim (.addGroup _ w.ftn key.group w.track ref hm)
  · rw [Cache.addGroup_marked hm]
    exact hmid

variable {tref : TrackRef}

theorem pinAct_addOk {a : Act} (h : PinAct tref a) : c.AddOk a := by
  cases h <;> exact trivial

theorem updateInProgress_lruOk (hr : w.MayRelease c) (h : w.updateInProgress c = .ok (w', c')) :
    c'.LruOk := by
  cases updateInProgress_updated h with
  | unregistered => exact hr.lru
  | stays => exact hr.lru.of_sameLists (register_sameLists _ _ _ _)
  | dropped hk hk' hd => exact (hr.releaseKey hk hd.sameLists).2
  | moved hk htr hd hmove =>
    obtain ⟨hw, hc⟩ := hr.releaseKey hk hd.sameLists
    exact hc.of_steps hw (fun _ _ _ ha => pinAct_addOk ha) (emplaceAndPinGroup_pins.steps hmove)

theorem updateInProgress_terminates (hr : w.MayRelease c) :
    w.updateInProgress c ≠ .error .diverges := by
  intro h
  unfold updateInProgress eraseAndMakeGroupEvictable at h
  split at h
  · cases h
  · cases h
  · next key hkey hvalid =>
    cases hl : (c.tracks w.track).fetchesInProgress.lookup key with
    | none => simp [hl] at h
    | some old =>
      simp only [hl] at h
      split_ifs at h
      generalize hentry : ({ old with progress := w.fetchRangeIt.current } : FetchInProgressEntry)
        = entry at h
      obtain ⟨hw, hc⟩ := hr.releaseKey hkey (register_sameLists c w.track key entry)
      generalize ({ w with
        inProgress := false, fetchInProgressIt := none, pinnedGroup := none } : FetchWriteback) = v
        at h
      have hspec : Spec (fun _ a => PinAct v.track a) _ (v.emplaceAndPinGroup ((c.register w.track
          key entry).releaseKey w.track w.ftn key w.pinnedGroup) w.fetchRangeIt.current entry)
          Prod.snd := emplaceAndPinGroup_pins
      obtain ⟨d, hd, hfails⟩ := hspec.fails h (by simp)
      exact (hc.of_acts hw (fun _ _ _ ha => pinAct_addOk ha) hd).no_divergence
        (Cache.Grows.of_acts hd hw).wf hfails rfl

theorem body_addOk {ftn : FullTrackName} {d : Cache} {a : Act} (hh : c.Handle tref ftn)
    (hg : c.Grows d) (ha : BodyAct c tref ftn d a) : d.AddOk a := by
  cases ha with
  | evicts h | marks h => exact Cache.addOk_of_upkeep h.upkeep
  | addGroup hl hnew hev =>
    intro _
    obtain ⟨f, hf⟩ := hg.wf.attached tref (hg.handle tref ftn hh).lt hev
    rw [(hg.handle tref ftn hh).named f hf] at hf
    exact ⟨hf, hl⟩
  | _ => exact trivial

/-- A track with an upstream fetch in progress is not evicted on the way. -/
theorem body_evicted {tr : TrackRef} {ftn : FullTrackName} {key : AbsoluteLocation}
    {e : FetchInProgressEntry} (htr : tr < c.nextTrackRef)
    (hkey : (c.tracks tr).fetchesInProgress.lookup key = some e)
    (hev : (c.tracks tr).evicted = false) (h : Acts (BodyAct c tref ftn) c c') :
    (c'.tracks tr).evicted = false := by
  have hkeep : tr < c'.nextTrackRef ∧ (c'.tracks tr).fetchesInProgress.lookup key = some e ∧
      (c'.tracks tr).evicted = false := by
    refine h.keeps (I := fun d => tr < d.nextTrackRef ∧
      (d.tracks tr).fetchesInProgress.lookup key = some e ∧ (d.tracks tr).evicted = false) ?_
      ⟨htr, hkey, hev⟩
    rintro d a d' ha hprim ⟨hlt, hl, hd⟩
    have hsame : SameKeys d d' := fetches_of_body (.single ha hprim)
    refine ⟨Nat.lt_of_lt_of_le hlt hprim.nextTrackRef_le, by rw [hsame]; exact hl, ?_⟩
    rw [hprim.evicted_eq hlt, hd]
    rintro f cause rfl
    -- Only an idle track is removed for being empty.
    cases ha with
    | marks hm => exact hm
    | evicts hcause =>
      cases hcause
      cases hprim with
      | markEvicted _ _ _ _ named =>
        have hidle := named.2
        rw [canEvict_of_lookup hl] at hidle
        cases hidle
  exact hkeep.2.2

end FetchWriteback

/-- The deliveries that a writeback handles even when its track was evicted. -/
def Delivery.ignoresEviction : Delivery → Bool
  | .endOfFetch => true
  | .endOfUnknownRange _ _ _ => true
  | .reset _ => true
  | _ => false

namespace FetchWriteback

variable {w w' : FetchWriteback}

variable {delivery : Delivery} {now : TimePoint}

/-- Everything else is only forwarded once the track was evicted. -/
theorem deliver_evicted (hev : (c.tracks w.track).evicted = true)
    (hd : delivery.ignoresEviction = false) :
    ∃ calls, w.deliver c now delivery = .ok (.ok (), calls, w, c) := by
  have hskip : w.skipsCaching c = true := by simp [skipsCaching, CacheTrack.shouldSkipCaching, hev]
  cases delivery with
  | object | beginObject | objectPayload | endOfGroup | endOfTrackAndGroup =>
    exact ⟨_, if_pos hskip⟩
  | awaitReadyToConsume => exact ⟨_, rfl⟩
  | _ => simp [Delivery.ignoresEviction] at hd

/-- What happens before the registration moves keeps the right to move it. -/
theorem MayRelease.body {d : Cache} {v : FetchWriteback} (hr : w.MayRelease c)
    (hown : ∀ key, w.fetchInProgressIt = some key →
      ∃ e, (c.tracks w.track).fetchesInProgress.lookup key = some e)
    (hd : Acts (BodyAct c w.track w.ftn) c d) (hv : SameKey w v) : v.MayRelease d := by
  have hg := Cache.Grows.of_acts hd hr.wf
  refine ⟨hg.wf, hr.lru.of_acts hr.wf (fun _ _ hg ha => body_addOk hr.handle hg ha) hd, ?_,
    (hr.pin.of_acts hd hr.handle.lt).sameKey hv, fun hreg => ?_⟩
  · rw [hv.track, hv.ftn]
    exact hg.handle _ _ hr.handle
  · rw [hv.fetchInProgressIt] at hreg
    obtain ⟨key, hkey⟩ := Option.ne_none_iff_exists'.mp hreg
    obtain ⟨e, he⟩ := hown key hkey
    rw [hv.track]
    exact body_evicted hr.handle.lt he (hr.evicted hreg) hd

theorem marks_lruOk {tref : TrackRef} (hw : c.WF) (hc : c.LruOk)
    (h : Steps (fun _ a => a.Marks tref) c c') : c'.LruOk :=
  hc.of_steps hw (fun _ _ _ ha => Cache.addOk_of_upkeep ha.upkeep) h

theorem deliver_lruOk {res : Expected Unit} {calls : List FetchCall} (hr : w.MayRelease c)
    (hown : ∀ key, w.fetchInProgressIt = some key →
      ∃ e, (c.tracks w.track).fetchesInProgress.lookup key = some e)
    (h : w.deliver c now delivery = .ok (res, calls, w', c')) : c'.LruOk := by
  cases Shape.of_deliver (hr.wf.bounded _) h with
  | quiet hd hw => exact (hr.body hown hd.acts hw).lru
  | updated hd hw hup hd' hw' =>
    next d d₂ w₁ w₂ =>
    have hmid := hr.body hown hd.acts hw
    exact marks_lruOk (Cache.Grows.of_steps (updateInProgress_steps hup) hmid.wf).wf
      (updateInProgress_lruOk hmid hup) hd'

theorem deliver_terminates (hr : w.MayRelease c) (hown : ∀ key, w.fetchInProgressIt = some key →
      ∃ e, (c.tracks w.track).fetchesInProgress.lookup key = some e) :
    w.deliver c now delivery ≠ .error .diverges := by
  intro h
  cases Shape.of_deliver_error (hr.wf.bounded _) h with
  | fails hd he =>
    have hmid := hr.body hown hd (.refl w)
    exact hmid.lru.no_divergence hmid.wf he rfl
  | updateFails hd hw hup => exact updateInProgress_terminates (hr.body hown hd.acts hw) hup
  | updatedFails hd hw hup he => exact hr.lru.no_divergence hr.wf (he (fun _ _ => True) c) rfl

end FetchWriteback

/-- The destructor of a writeback that may release its group. -/
theorem FetchWriteback.close_lruOk {w : FetchWriteback} (hr : w.MayRelease c) :
    (w.close c).LruOk := by
  have hidle : ∀ d : Cache, d.WF → d.LruOk → (d.onTrackBecameEvictable w.ftn).LruOk := by
    intro d hw hd
    refine hd.of_steps hw (P := fun _ a => a.isListing = false) (fun e a _ ha => ?_)
      (Cache.onTrackBecameEvictable_steps fun _ _ _ => rfl)
    cases a <;> first | exact trivial | cases ha
  unfold close
  cases hkey : w.fetchInProgressIt with
  | none => exact hidle c hr.wf hr.lru
  | some key =>
    obtain ⟨hw, hc⟩ := hr.releaseKey hkey (sameLists_refl c)
    exact hidle _ hw hc

namespace World

variable {w w' : World} {op : Op}

/-- Groups are released only while their track is not evicted. -/
def ReleasesInTime (w : World) : Op → Prop
  | .closeSubgroup id => ∀ sub ∈ w.subgroups.lookup id, (w.cache.tracks sub.track).evicted = false
  | .deliver id delivery => ∀ wb ∈ w.writebacks.lookup id, delivery.ignoresEviction = true →
      wb.fetchInProgressIt.isSome = true → (w.cache.tracks wb.track).evicted = false
  | .closeWriteback id => ∀ wb ∈ w.writebacks.lookup id, wb.fetchInProgressIt.isSome = true →
      (w.cache.tracks wb.track).evicted = false
  | _ => True

instance (w : World) (op : Op) : Decidable (ReleasesInTime w op) := by
  induction op using Op.casesOn <;> unfold ReleasesInTime <;> infer_instance

/-- Groups become evictable in cached tracks only. -/
def CachedAdds (w : World) (d : Cache) : Act → Prop
  | .addGroup ftn groupID tref ref => w.cache.Handle tref ftn ∧
      (d.tracks tref).evicted = false ∧ (d.tracks tref).groups.lookup groupID = some ref
  | _ => True

theorem cachedAdds_addOk {d : Cache} {a : Act} (hg : w.cache.Grows d) (ha : CachedAdds w d a) :
    d.AddOk a := by
  cases a with
  | addGroup ftn groupID tref ref =>
    intro _
    obtain ⟨hh, hev, hl⟩ := ha
    have hh := hg.handle tref ftn hh
    obtain ⟨f, hf⟩ := hg.wf.attached tref hh.lt hev
    rw [hh.named f hf] at hf
    exact ⟨hf, hl⟩
  | _ => exact trivial

/-- Steps that release a group. -/
def Op.releases : Op → Bool
  | .closeSubgroup _ => true
  | .deliver _ _ => true
  | .closeWriteback _ => true
  | _ => false

theorem cachedAdds_of_upkeep {d : Cache} {a : Act} (h : a.Upkeep) : CachedAdds w d a := by
  cases h <;> exact trivial

theorem opActs_cachedAdds (hw : w.WF) (hop : Op.releases op = false) :
    OpActs (CachedAdds w) w op := by
  have hevicts : ∀ d a, Act.Evicts a → CachedAdds w d a := fun _ _ ha =>
    cachedAdds_of_upkeep ha.upkeep
  have hroom : ∀ d a, Act.MakesRoom a → CachedAdds w d a := fun _ _ ha =>
    cachedAdds_of_upkeep ha.upkeep
  have hpurges : ∀ d a, Act.Purges a → CachedAdds w d a := fun _ _ ha =>
    cachedAdds_of_upkeep ha.upkeep
  have hmarks : ∀ tref d a, Act.Marks tref a → CachedAdds w d a := fun _ _ _ ha =>
    cachedAdds_of_upkeep ha.upkeep
  have hgroup : ∀ id s, w.subscribers.lookup id = some s →
      GroupActs (CachedAdds w) w.cache s.track s.ftn := fun id s hs =>
    ⟨hevicts, hmarks _, fun _ => trivial,
      fun _ _ _ hl _ hev => ⟨(hw.subscribers id s hs).1, hev, hl⟩, fun _ _ _ _ _ _ => trivial,
      fun _ _ _ _ _ => trivial⟩
  have hcreate : ∀ tref start, CreateActs (CachedAdds w) tref start := fun tref start =>
    ⟨fun _ _ => trivial, fun _ _ => trivial, fun _ _ => trivial, fun _ _ => trivial,
      fun _ _ => trivial⟩
  cases op with
  | tick => exact trivial
  | subscribe => exact ⟨hroom, fun _ => trivial, fun _ _ _ => trivial, fun _ _ _ _ => trivial⟩
  | closeSubscribe => exact fun _ _ => ⟨fun _ => trivial, fun _ _ _ _ => trivial⟩
  | beginSubgroup => exact fun s hs => ⟨hgroup _ s hs, fun _ _ => trivial⟩
  | objectStream | datagram => exact fun s hs => hgroup _ s hs
  | writeSubgroup =>
    exact fun _ _ => ⟨hevicts, hmarks _, fun _ => trivial, fun _ _ _ _ _ => trivial,
      fun _ => trivial⟩
  | setTrackExtensions => exact ⟨fun _ => trivial, fun _ _ => trivial, fun _ _ _ _ => trivial⟩
  | purgeTrack | purgeNamespace | purgeAll => exact hpurges
  | fetch => exact fun _ => ⟨fun _ => trivial, hroom, fun _ _ => trivial, hcreate _ _⟩
  | resume =>
    exact fun _ _ => ⟨fun _ _ _ => trivial, fun _ => trivial,
      fun _ _ _ _ => ⟨hcreate _ _, trivial⟩⟩
  | cancel => exact trivial
  | _ => cases hop

/-- What is known of a writeback about to receive something. -/
theorem mayRelease_of {id : WritebackId} {wb : FetchWriteback} (hw : w.WF) (hn : w.NamesOk)
    (hc : w.cache.LruOk) (hl : w.writebacks.lookup id = some wb)
    (hev : wb.fetchInProgressIt ≠ none → (w.cache.tracks wb.track).evicted = false) :
    wb.MayRelease w.cache :=
  ⟨hw.cache, hc, (hw.writebacks id wb hl).1, hn.writebacks id wb hl, hev⟩

/-- A delivery is only forwarded, or its writeback may release its group. -/
theorem deliver_cases {id : WritebackId} {wb : FetchWriteback} {delivery : Delivery} (hw : w.WF)
    (hn : w.NamesOk) (hc : w.cache.LruOk) (hl : w.writebacks.lookup id = some wb)
    (hQ : ReleasesInTime w (.deliver id delivery)) :
    (∃ calls, wb.deliver w.cache w.now delivery = .ok (.ok (), calls, wb, w.cache)) ∨
      wb.MayRelease w.cache := by
  cases hev : (w.cache.tracks wb.track).evicted with
  | false => exact .inr (mayRelease_of hw hn hc hl fun _ => hev)
  | true =>
    cases hd : delivery.ignoresEviction with
    | false => exact .inl (FetchWriteback.deliver_evicted hev hd)
    | true =>
      refine .inr (mayRelease_of hw hn hc hl fun hreg => ?_)
      exact hQ wb hl hd (Option.isSome_iff_ne_none.mpr hreg)

theorem lruOk_step (hw : w.WF) (hn : w.NamesOk) (hk : w.KeysOk) (hc : w.cache.LruOk)
    (hQ : ReleasesInTime w op) (h : w.step op = .ok w') : w'.cache.LruOk := by
  have hown : ∀ id wb, w.writebacks.lookup id = some wb → ∀ key,
      wb.fetchInProgressIt = some key →
        ∃ e, (w.cache.tracks wb.track).fetchesInProgress.lookup key = some e := by
    intro id wb hl key hkey
    obtain ⟨e, he, -⟩ := hk.own id wb hl key hkey
    exact ⟨e, he⟩
  cases hop : Op.releases op with
  | false =>
    exact hc.of_steps hw.cache (fun _ _ hg ha => cachedAdds_addOk hg ha)
      ((step_spec hw.refsKnown (opActs_cachedAdds hw hop)).steps h)
  | true =>
    cases op with
    | closeSubgroup id =>
      obtain ⟨sub, hs, h⟩ := bind_eq_ok.mp h
      have hs := orNoCaller_eq_ok.mp hs
      cases h
      exact hc.release hw.cache (hw.subgroups id sub hs).1 (hQ sub hs) (hn.subgroups id sub hs)
    | deliver id delivery =>
      obtain ⟨wb, res, calls, wb', d, hwb, hd, rfl⟩ := step_deliver h
      rcases deliver_cases hw hn hc hwb hQ with ⟨calls', hsame⟩ | hr
      · rw [hsame] at hd
        cases hd
        exact hc
      · exact FetchWriteback.deliver_lruOk hr (hown id wb hwb) hd
    | closeWriteback id =>
      obtain ⟨wb, hwb, rfl⟩ := step_closeWriteback h
      exact FetchWriteback.close_lruOk (mayRelease_of hw hn hc hwb fun hreg =>
        hQ wb hwb (Option.isSome_iff_ne_none.mpr hreg))
    | _ => cases hop

theorem step_terminates (hw : w.WF) (hn : w.NamesOk) (hk : w.KeysOk) (hc : w.cache.LruOk)
    (hQ : ReleasesInTime w op) : w.step op ≠ .error .diverges := by
  intro he
  cases hop : Op.releases op with
  | false =>
    obtain ⟨d, hd, hfails⟩ :=
      (step_spec hw.refsKnown (opActs_cachedAdds hw hop)).fails he (by simp)
    have hlru := hc.of_acts hw.cache (fun _ _ hg ha => cachedAdds_addOk hg ha) hd
    exact hlru.no_divergence (Cache.Grows.of_acts hd hw.cache).wf hfails rfl
  | true =>
    cases op with
    | closeSubgroup id =>
      rcases bind_eq_error.mp he with hno | ⟨sub, -, he⟩
      · cases hl : w.subgroups.lookup id <;> simp [hl, orNoCaller] at hno
      · cases he
    | deliver id delivery =>
      rcases bind_eq_error.mp he with hno | ⟨wb, hwb, he⟩
      · cases hl : w.writebacks.lookup id <;> simp [hl, orNoCaller] at hno
      · have hwb := orNoCaller_eq_ok.mp hwb
        rcases bind_eq_error.mp he with hd | ⟨r, -, he⟩
        · rcases deliver_cases hw hn hc hwb hQ with ⟨calls, hsame⟩ | hr
          · rw [hsame] at hd
            cases hd
          · refine FetchWriteback.deliver_terminates hr (fun key hkey => ?_) hd
            obtain ⟨e, he, -⟩ := hk.own id wb hwb key hkey
            exact ⟨e, he⟩
        · cases he
    | closeWriteback id =>
      rcases bind_eq_error.mp he with hno | ⟨wb, -, he⟩
      · cases hl : w.writebacks.lookup id <;> simp [hl, orNoCaller] at hno
      · split at he <;> simp at he
    | _ => cases hop

theorem lruOk_reaches (h : Reaches ReleasesInTime w) : w.cache.LruOk := by
  have hkeep : w.NamesOk ∧ w.KeysOk ∧ w.cache.LruOk := by
    refine h.keeps (I := fun w => w.NamesOk ∧ w.KeysOk ∧ w.cache.LruOk) ?_ ?_
    · intro tracks groups bytes minBytes default_ allowed
      have hnew : Reaches ReleasesInTime
          (ofCache (.create tracks groups bytes minBytes default_ allowed)) := .create _ _ _ _ _ _
      exact ⟨hnew.namesOk, hnew.keysOk, Cache.lruOk_create _ _ _ _ _ _⟩
    · rintro w op w' hw hQ hstep ⟨hn, hk, hc⟩
      exact ⟨hn.step hw hstep, hk.step hw hstep, lruOk_step hw hn hk hc hQ hstep⟩
  exact hkeep.2.2

/-- As long as groups are released while their track is not evicted, the global list names each
evictable group of the cached tracks once and nothing else, no eviction runs forever, and
byte-limit eviction reaches the limit or runs out of evictable groups. -/
theorem byteLimit_eviction (h : Reaches ReleasesInTime w) :
    w.cache.globalGroupLRU.Nodup ∧
    (∀ n ftn groupID, (n, ftn, groupID) ∈ w.cache.globalGroupLRU → ∃ tref ref,
      w.cache.cache.lookup ftn = some tref ∧
        (w.cache.tracks tref).groups.lookup groupID = some ref ∧
        ((w.cache.tracks tref).heap ref).lruIter = some n ∧
        ((w.cache.tracks tref).heap ref).globalLruIter = some n) ∧
    (∀ ftn tref groupID ref, w.cache.cache.lookup ftn = some tref →
      (w.cache.tracks tref).groups.lookup groupID = some ref →
      ((w.cache.tracks tref).heap ref).lruIter ≠ none →
        ∃! n, (n, ftn, groupID) ∈ w.cache.globalGroupLRU) ∧
    (∀ op, ReleasesInTime w op → w.step op ≠ .error .diverges) ∧
    w.cache.evictForByteLimitIfNeeded ≠ .error .diverges ∧
    ∀ c c' : Cache, c.maxCachedBytes ≠ 0 → c.evictForByteLimitIfNeeded = .ok c' →
      c'.totalCachedBytes ≤ c.maxCachedBytes ∨ c'.globalGroupLRU = [] := by
  have hw := h.wf
  have hc := lruOk_reaches h
  refine ⟨.of_map _ hc.nodes, fun n ftn groupID hmem => ?_, fun ftn tref groupID ref hf hl hm => ?_,
    fun op hQ => step_terminates hw h.namesOk h.keysOk hc hQ,
    Cache.evictForByteLimitIfNeeded_terminates hw.cache hc,
    fun c c' => Cache.evictForByteLimitIfNeeded_effective⟩
  · obtain ⟨tref, ref, hf, hl, hm⟩ := hc.entries n ftn groupID hmem
    exact ⟨tref, ref, hf, hl, hm, (hc.iters tref ref).trans hm⟩
  · obtain ⟨n, hn⟩ := Option.ne_none_iff_exists'.mp hm
    refine ⟨n, hc.marked ftn tref groupID ref n hf hl hn, fun m hmem => ?_⟩
    obtain ⟨tref', ref', hf', hl', hm'⟩ := hc.entries m ftn groupID hmem
    rw [hf, Option.some.injEq] at hf'
    subst hf'
    rw [hl, Option.some.injEq] at hl'
    subst hl'
    rw [Cache.mark, hn, Option.some.injEq] at hm'
    exact hm'.symm

end World

end

namespace World

/-- Three groups of three bytes under a limit of four: the object of group 1 evicts group 0, and
the writers of groups 1 and 2 close when both groups are full. -/
def closesInTime : List Op :=
  [.subscribe ⟨[], "track"⟩, .beginSubgroup 0 0 0 (.ok ()),
    .writeSubgroup 1 (.object 0 (some [1, 2, 3]) noExtensions), .closeSubgroup 1,
    .beginSubgroup 0 1 0 (.ok ()), .writeSubgroup 2 (.object 0 (some [1, 2, 3]) noExtensions),
    .beginSubgroup 0 2 0 (.ok ()), .writeSubgroup 3 (.object 0 (some [1, 2, 3]) noExtensions),
    .closeSubgroup 2, .closeSubgroup 3]

/-- The groups in the global list, from the newest to the oldest. -/
def evictable (c : Cache) : List Nat := c.globalGroupLRU.map fun e => e.2.2

theorem byteLimit_eviction_closesInTime : ∃ w c, runMeets ReleasesInTime
    (ofCache (.create 100 3 4 0 none none)) closesInTime = some w ∧
      w.cache.totalCachedBytes = 6 ∧ evictable w.cache = [2, 1] ∧
      (∀ n ftn groupID, (n, ftn, groupID) ∈ w.cache.globalGroupLRU → ∃ tref ref,
        w.cache.cache.lookup ftn = some tref ∧
          (w.cache.tracks tref).groups.lookup groupID = some ref) ∧
      w.cache.evictForByteLimitIfNeeded = .ok c ∧ evictable c = [2] ∧
      c.totalCachedBytes ≤ w.cache.maxCachedBytes := by
  have hstart : Reaches ReleasesInTime (ofCache (.create 100 3 4 0 none none)) :=
    .create _ _ _ _ _ _
  obtain ⟨w, hw, hrun, hend⟩ := hstart.of_elim closesInTime (fun w =>
    decide (w.cache.totalCachedBytes = 6 ∧ evictable w.cache = [2, 1] ∧ w.cache.maxCachedBytes ≠ 0 ∧
      w.cache.evictForByteLimitIfNeeded.toOption.map evictable = some [2])) (by decide +kernel)
  obtain ⟨hbytes, hlisted, hlimit, hevicts⟩ := of_decide_eq_true hend
  obtain ⟨-, hnamed, -, -, -, heffective⟩ := byteLimit_eviction hw
  cases hc : w.cache.evictForByteLimitIfNeeded with
  | error e =>
    rw [hc] at hevicts
    cases hevicts
  | ok c =>
    rw [hc] at hevicts
    have hleft : evictable c = [2] := Option.some.inj hevicts
    refine ⟨w, c, hrun, hbytes, hlisted, fun n ftn groupID hmem => ?_, hc, hleft, ?_⟩
    · obtain ⟨tref, ref, hf, hl, -⟩ := hnamed n ftn groupID hmem
      exact ⟨tref, ref, hf, hl⟩
    · refine (heffective w.cache c hlimit hc).resolve_right fun hempty => ?_
      rw [evictable, hempty] at hleft
      cases hleft

/-- A subgroup writeback outlives its track and the name is subscribed to again. -/
def closesLate : List Op :=
  [.subscribe ⟨[], "track"⟩, .beginSubgroup 0 0 0 (.ok ()), .purgeTrack ⟨[], "track"⟩,
    .subscribe ⟨[], "track"⟩, .closeSubgroup 1, .beginSubgroup 2 1 0 (.ok ()),
    .writeSubgroup 3 (.object 0 (some [1, 2, 3]) noExtensions)]

/-- The closed writeback leaves an entry for a group the new track does not have, and at the
byte limit the eviction loop takes this entry up for ever. -/
theorem closesLate_diverges :
    ((ofCache (.create 100 3 2 0 none none)).run (closesLate.take 6)).map (fun w =>
      (w.cache.globalGroupLRU.map fun e => e.2.2,
        ((w.cache.cache.lookup ⟨[], "track"⟩).map fun tref =>
          (w.cache.tracks tref).groups.keys))) = .ok ([0], some [1]) ∧
    ((ofCache (.create 100 3 2 0 none none)).run closesLate).map (fun w => w.nextId) =
      .error .diverges := by
  constructor <;> decide +kernel

end World

end Moqx
