import Moqx.Wellformed

/-! What the holders of a cache never change about themselves. -/
namespace Moqx

open Moxygen FetchWriteback

variable [Moxygen] {c c' : Cache}

namespace SubgroupWriteback

/-- Two states of one subgroup writeback. -/
structure SameGroup (w w' : SubgroupWriteback) : Prop where
  group : w'.group = w.group
  track : w'.track = w.track
  groupRef : w'.groupRef = w.groupRef
  ftn : w'.ftn = w.ftn

omit [Moxygen] in
theorem SameGroup.refl (w : SubgroupWriteback) : SameGroup w w := ⟨rfl, rfl, rfl, rfl⟩

theorem perform_sameGroup {w w' : SubgroupWriteback} {now : TimePoint} {write : SubgroupWrite}
    (h : w.perform c now write = .ok (w', c')) : SameGroup w w' := by
  cases write with
  | object objID payload ext =>
    obtain ⟨r, -, hr⟩ := bind_eq_ok.mp h
    cases hr
    exact .refl w
  | beginObject objectID length initialPayload ext =>
    obtain ⟨r, hb, hr⟩ := bind_eq_ok.mp h
    cases hr
    unfold beginObject at hb
    split at hb
    · cases hb
      exact .refl w
    · obtain ⟨⟨res, d⟩, -, hb⟩ := bind_eq_ok.mp hb
      cases res with
      | error e =>
        cases hb
        exact .refl w
      | ok _ =>
        obtain ⟨_, -, hb⟩ := bind_eq_ok.mp hb
        cases hb
        exact ⟨rfl, rfl, rfl, rfl⟩
  | objectPayload payload =>
    simp only [perform, objectPayload] at h
    split at h
    · cases h
      exact .refl w
    · obtain ⟨r, -, hr⟩ := bind_eq_ok.mp h
      cases hr
      exact ⟨rfl, rfl, rfl, rfl⟩
  | endOfGroup objID | endOfTrackAndGroup objID =>
    obtain ⟨r, -, hr⟩ := bind_eq_ok.mp h
    cases hr
    exact .refl w

end SubgroupWriteback

/-- The group a new subgroup writeback holds. -/
theorem SubscribeWriteback.beginSubgroup_result {s : SubscribeWriteback} {groupID subgroupID : Nat}
    {downstream : Expected Unit} {sub : SubgroupWriteback}
    (h : s.beginSubgroup c groupID subgroupID downstream = .ok (.ok (some sub), c')) :
    sub.track = s.track ∧ sub.ftn = s.ftn ∧ sub.group = groupID ∧
      (c.tracks s.track).evicted = false ∧
      ∃ d, c.getOrCreateGroupWithEviction s.track groupID s.ftn = .ok (sub.groupRef, d) ∧
        c' = d.takeGroupFromLRU s.track sub.groupRef := by
  unfold beginSubgroup at h
  split at h
  · cases h
  · cases downstream with
    | error e => cases h
    | ok _ =>
      dsimp only at h
      split at h
      · cases h
      · next hskip =>
        obtain ⟨⟨ref, d⟩, hget, h⟩ := bind_eq_ok.mp h
        obtain ⟨d', hrem, h⟩ := bind_eq_ok.mp h
        cases h
        exact ⟨rfl, rfl, rfl, SubgroupWriteback.not_evicted_of_caches hskip, d, hget,
          Cache.removeGroupFromLRU_ok hrem⟩

namespace FetchWriteback

variable {w w' : FetchWriteback}

/-- What registering leaves behind. -/
theorem emplaceAndPinGroup_result {loc : AbsoluteLocation} {entry : FetchInProgressEntry}
    (h : w.emplaceAndPinGroup c loc entry = .ok (w', c')) :
    ∃ ref, w' = { w with fetchInProgressIt := some loc, pinnedGroup := some ref } ∧
      (c'.tracks w.track).groups.lookup loc.group = some ref ∧
      (c.tracks w.track).fetchesInProgress.lookup loc = none ∧
      ∀ tr, (c'.tracks tr).fetchesInProgress =
        ((c.register w.track loc entry).tracks tr).fetchesInProgress := by
  obtain ⟨_, hfree, h⟩ := bind_eq_ok.mp h
  obtain ⟨⟨ref, d⟩, hfind, h⟩ := bind_eq_ok.mp h
  obtain ⟨d', hrem, h⟩ := bind_eq_ok.mp h
  cases h
  cases Cache.removeGroupFromLRU_ok hrem
  refine ⟨ref, rfl, ?_, ?_, ?_⟩
  · rw [(Cache.takeGroupFromLRU_maps _ _ _ _).1]
    exact Cache.findOrEmplaceGroup_lookup hfind
  · simpa using xcheck_eq_ok.mp hfree
  · intro tr
    rw [(Cache.takeGroupFromLRU_maps _ _ _ _).2, Cache.findOrEmplaceGroup_fetches hfind]

end FetchWriteback

variable {consumer : ConsumerId} {ftn : FullTrackName} {tref : TrackRef}

/-- Who a new fetch writeback belongs to. -/
theorem FetchWriteback.create_result {id : WritebackId} {start stop : AbsoluteLocation}
    {proxyFin : Bool} {it : FetchRangeIterator} {w : FetchWriteback}
    (h : create c id start stop proxyFin consumer it tref ftn = .ok (w, c')) :
    w.id = id ∧ w.track = tref ∧ w.ftn = ftn ∧ w.fetchRangeIt = it ∧
      w.fetchInProgressIt = some start := by
  obtain ⟨d, -, h⟩ := bind_eq_ok.mp h
  obtain ⟨ref, rfl, -⟩ := emplaceAndPinGroup_result h
  exact ⟨rfl, rfl, rfl, rfl, rfl⟩

theorem FetchWriteback.create_end {id : WritebackId} {start stop : AbsoluteLocation}
    {proxyFin : Bool} {it : FetchRangeIterator} {w : FetchWriteback}
    (h : create c id start stop proxyFin consumer it tref ftn = .ok (w, c')) : w.end_ = stop := by
  obtain ⟨d, -, h⟩ := bind_eq_ok.mp h
  obtain ⟨ref, rfl, -⟩ := emplaceAndPinGroup_result h
  rfl

/-- A new fetch writeback takes its track off the list and registers. -/
theorem FetchWriteback.create_emplaces {id : WritebackId} {start stop : AbsoluteLocation}
    {proxyFin : Bool} {it : FetchRangeIterator} {w : FetchWriteback}
    (h : create c id start stop proxyFin consumer it tref ftn = .ok (w, c')) :
    ∃ v : FetchWriteback, v.track = tref ∧
      v.emplaceAndPinGroup (c.takeTrackFromLRU tref) start ⟨stop, start, id⟩ = .ok (w, c') := by
  obtain ⟨d, hrem, h⟩ := bind_eq_ok.mp h
  cases Cache.removeTrackFromLRU_ok hrem
  exact ⟨_, rfl, h⟩

namespace FetchTask

/-- Two states of one fetch task. -/
structure SameFetch (t t' : FetchTask) : Prop where
  consumer : t'.consumer = t.consumer
  fetch : t'.fetch = t.fetch
  track : t'.track = t.track
  fetchHandle : t'.fetchHandle = t.fetchHandle

variable {task task' : FetchTask} {t : CacheTrack}

theorem SameFetch.refl (task : FetchTask) : SameFetch task task := ⟨rfl, rfl, rfl, rfl⟩

/-- The coroutine keeps no writeback alive. -/
def Free (task : FetchTask) : Prop := task.pc.heldWriteback = none

/-- A step of the coroutine behind which it keeps no writeback alive. -/
structure Goes (t t' : FetchTask) : Prop extends SameFetch t t' where
  free : t'.Free

theorem Goes.after {t₀ t t' : FetchTask} (h : Goes t t') (h₀ : SameFetch t₀ t) : Goes t₀ t' :=
  ⟨⟨h.consumer.trans h₀.consumer, h.fetch.trans h₀.fetch, h.track.trans h₀.track,
    h.fetchHandle.trans h₀.fetchHandle⟩, h.free⟩

theorem afterBoundary_goes (task : FetchTask) (t : CacheTrack) (current : AbsoluteLocation)
    (pin : Option GroupRef) : Goes task (task.afterBoundary t current pin) := by
  unfold afterBoundary
  split <;> exact ⟨⟨rfl, rfl, rfl, rfl⟩, rfl⟩

theorem lookup_goes (h : task.lookup c = .ok (task', c')) : Goes task task' := by
  obtain ⟨⟨cachedObject, d⟩, -, h⟩ := bind_eq_ok.mp h
  dsimp only at h
  split at h
  · obtain ⟨it, -, h⟩ := bind_eq_ok.mp h
    cases h
    exact ⟨⟨rfl, rfl, rfl, rfl⟩, rfl⟩
  · split at h
    · cases h
      exact ⟨⟨rfl, rfl, rfl, rfl⟩, rfl⟩
    · cases h
      exact afterBoundary_goes _ _ _ _

variable {calls : List FetchCall} {after : AfterUpstream} {intervals : List Interval}

theorem exitHead_goes (h : task.exitHead c = .ok (task', calls, c')) : Goes task task' := by
  obtain ⟨r, hexit, h⟩ := map_eq_ok.mp h
  cases h
  unfold exitLoop at hexit
  split at hexit
  · cases hexit
    exact ⟨⟨rfl, rfl, rfl, rfl⟩, rfl⟩
  · obtain ⟨result, -, h⟩ := bind_eq_ok.mp hexit
    cases h
    exact ⟨⟨rfl, rfl, rfl, rfl⟩, rfl⟩

theorem head_goes (h : task.head c = .ok (task', calls, c')) : Goes task task' := by
  unfold head at h
  dsimp only at h
  split at h
  · exact exitHead_goes h
  · split at h
    · exact (exitHead_goes h).after ⟨rfl, rfl, rfl, rfl⟩
    · split at h
      · cases h
        exact ⟨⟨rfl, rfl, rfl, rfl⟩, rfl⟩
      · obtain ⟨⟨t₁, d⟩, hlook, h⟩ := bind_eq_ok.mp h
        cases h
        exact (lookup_goes hlook).after ⟨rfl, rfl, rfl, rfl⟩

theorem afterWait_goes {current : AbsoluteLocation} {now : TimePoint}
    (h : task.afterWait c current now = .ok (task', c')) : Goes task task' := by
  unfold afterWait at h
  dsimp only at h
  split at h
  · cases h
    exact ⟨⟨rfl, rfl, rfl, rfl⟩, rfl⟩
  · exact (lookup_goes h).after ⟨rfl, rfl, rfl, rfl⟩

theorem publish_goes {current : AbsoluteLocation} {pin : GroupRef} {answer : ConsumerAnswer}
    (h : task.publish c current pin answer = .ok (task', calls)) : Goes task task' := by
  unfold publish at h
  dsimp only at h
  split at h
  · cases h
  · obtain ⟨call, -, h⟩ := bind_eq_ok.mp h
    split at h <;> cases h <;> exact ⟨⟨rfl, rfl, rfl, rfl⟩, rfl⟩

theorem fetchUpstream_result {id : WritebackId} {interval : Interval} {wb : FetchWriteback}
    (h : task.fetchUpstream c id interval intervals after = .ok (wb, task', c')) :
    SameFetch task task' ∧ wb.id = id ∧ wb.track = task.track ∧
      wb.ftn = task.fetch.fullTrackName := by
  obtain ⟨stop, -, h⟩ := bind_eq_ok.mp h
  obtain ⟨⟨w, d⟩, hcreate, h⟩ := bind_eq_ok.mp h
  cases h
  obtain ⟨hid, htrack, hftn, -⟩ := create_result hcreate
  exact ⟨⟨rfl, rfl, rfl, rfl⟩, hid, htrack, hftn⟩

theorem nextInterval_goes {ok : FetchOk} (h : task.nextInterval t intervals after ok = .ok task') :
    Goes task task' := by
  unfold nextInterval at h
  split at h
  · unfold afterIntervals at h
    split at h
    · cases h
      exact (afterBoundary_goes _ _ _ _).after ⟨rfl, rfl, rfl, rfl⟩
    · split_ifs at h
      · cases h
        exact ⟨⟨rfl, rfl, rfl, rfl⟩, rfl⟩
      · cases h
        exact ⟨⟨rfl, rfl, rfl, rfl⟩, rfl⟩
      · split at h <;> cases h <;> exact ⟨⟨rfl, rfl, rfl, rfl⟩, rfl⟩
  · cases h
    exact ⟨⟨rfl, rfl, rfl, rfl⟩, rfl⟩

/-- After the answer of the upstream the fetch is free, or it waits for the writeback. -/
theorem afterUpstreamFetch_goes {wb : WritebackId} {lastObject : Bool} {answer : Option FetchOk}
    (h : task.afterUpstreamFetch c wb lastObject intervals after answer = .ok (task', calls, c')) :
    SameFetch task task' ∧
      (task'.Free ∨ (lastObject = false ∧ task'.pc = .writebackComplete wb intervals after)) := by
  unfold afterUpstreamFetch at h
  split at h
  · cases h
    exact ⟨⟨rfl, rfl, rfl, rfl⟩, .inl rfl⟩
  · dsimp only at h
    split at h
    · obtain ⟨t₁, hnext, h⟩ := bind_eq_ok.mp h
      cases h
      have hgoes := nextInterval_goes hnext
      exact ⟨hgoes.toSameFetch, .inl hgoes.free⟩
    · next hlast =>
      cases h
      exact ⟨⟨rfl, rfl, rfl, rfl⟩, .inr ⟨by simpa using hlast, rfl⟩⟩

theorem afterComplete_goes {w : FetchWriteback} {now : TimePoint}
    (h : task.afterComplete c w intervals after now = .ok task') : Goes task task' := by
  unfold afterComplete at h
  dsimp only at h
  split at h
  · cases h
    refine ⟨?_, rfl⟩
    split <;> exact ⟨rfl, rfl, rfl, rfl⟩
  · refine (nextInterval_goes h).after ?_
    split <;> exact ⟨rfl, rfl, rfl, rfl⟩

end FetchTask

theorem Cache.fetchNewTrack_result {f : Fetch} {id : WritebackId} {wb : FetchWriteback}
    (h : c.fetchNewTrack f consumer id = .ok (wb, c')) :
    wb.id = id ∧ wb.track = c.nextTrackRef ∧ wb.ftn = f.fullTrackName := by
  obtain ⟨d, -, h⟩ := bind_eq_ok.mp h
  obtain ⟨hid, htrack, hftn, -⟩ := create_result h
  exact ⟨hid, htrack, hftn⟩

theorem Cache.getSubscribeWriteback_result {s : SubscribeWriteback}
    (h : c.getSubscribeWriteback ftn = .ok (s, c')) :
    c'.cache.lookup ftn = some s.track ∧ s.ftn = ftn := by
  obtain ⟨⟨tref, d⟩, hget, h⟩ := bind_eq_ok.mp h
  obtain ⟨d', hrem, h⟩ := bind_eq_ok.mp h
  cases h
  cases removeTrackFromLRU_ok hrem
  refine ⟨?_, rfl⟩
  rw [setTrack_cache, takeTrackFromLRU_cache]
  exact getOrCreateTrack_lookup hget

theorem Cache.fetchCachedTrack_result {f : Fetch} {task : FetchTask}
    (h : c.fetchCachedTrack f consumer tref = .ok task) :
    task.consumer = consumer ∧ task.track = tref ∧
      task.fetch.fullTrackName = f.fullTrackName ∧ task.pc = .start := by
  have hname : f.normalizeEnd.fullTrackName = f.fullTrackName := by
    unfold Fetch.normalizeEnd
    split <;> rfl
  unfold fetchCachedTrack at h
  dsimp only at h
  split at h
  · cases h
    exact ⟨rfl, rfl, hname, rfl⟩
  · split_ifs at h
    · split at h <;> cases h
      exact ⟨rfl, rfl, hname, rfl⟩
    · split at h <;> cases h
      exact ⟨rfl, rfl, hname, rfl⟩
    · cases h
      exact ⟨rfl, rfl, hname, rfl⟩
    · cases h
      exact ⟨rfl, rfl, hname, rfl⟩

end Moqx
