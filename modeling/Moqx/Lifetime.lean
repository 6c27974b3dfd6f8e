import Moqx.Moxygen.Ranked
import Moqx.Reachable

/-! How long a cached object is served: the publisher's duration under the cap of the relay,
compared with the age of the object as signed 64-bit nanosecond counts. -/
namespace Moqx

open Moxygen

/-- The duration can be written as a signed 64-bit nanosecond count. -/
def Fits (d : Int) : Prop := -2 ^ 63 ≤ d * 1000000 ∧ d * 1000000 < 2 ^ 63

instance (d : Int) : Decidable (Fits d) := inferInstanceAs (Decidable (_ ∧ _))

theorem toNanoseconds_lower (d : Int) : -2 ^ 63 ≤ toNanoseconds d := by
  unfold toNanoseconds
  have := Int.le_bmod (x := d * 1000000) (m := 2 ^ 64) (by decide)
  omega

theorem toNanoseconds_upper (d : Int) : toNanoseconds d < 2 ^ 63 := by
  unfold toNanoseconds
  have := Int.bmod_lt (x := d * 1000000) (m := 2 ^ 64) (by decide)
  omega

theorem toNanoseconds_eq_iff {d : Int} : toNanoseconds d = d * 1000000 ↔ Fits d := by
  constructor
  · intro h
    have hlower := toNanoseconds_lower d
    have hupper := toNanoseconds_upper d
    rw [h] at hlower hupper
    exact ⟨hlower, hupper⟩
  · rintro ⟨hlower, hupper⟩
    exact Int.bmod_eq_of_le (by omega) (by omega)

/-- A duration that does not fit is compared wrongly with some age: its count is even, so that it is
never the largest one. -/
theorem fits_of_compares {d : Int} (h : ∀ age : Int, -2 ^ 63 ≤ age → age < 2 ^ 63 →
    (age ≤ toNanoseconds d ↔ age ≤ d * 1000000)) : Fits d := by
  have hlower := toNanoseconds_lower d
  have hupper := toNanoseconds_upper d
  have heven : toNanoseconds d % 2 = 0 := by
    unfold toNanoseconds
    have hcongr := Int.bmod_emod (x := d * 1000000) (m := 2 ^ 64)
    omega
  constructor
  · have hfirst := (h (-2 ^ 63) (by omega) (by omega)).mp hlower
    exact hfirst
  · by_contra hlarge
    have hlast := (h (2 ^ 63 - 1) (by omega) (by omega)).mpr (by omega)
    omega

section
variable [Moxygen] {c : Cache} {tref : TrackRef}

namespace Cache

/-- The lifetime in exact arithmetic: the smaller of the publisher's duration and the cap, or the
default when no duration was supplied. -/
def lifetime (c : Cache) (ext : Extensions) : Option Milliseconds :=
  match getIntExtension ext kMaxCacheDurationExtensionType with
  | some ms => some (c.maxAllowedCacheDuration.elim (ms : Int) (min (ms : Int)))
  | none => c.defaultMaxCacheDuration

theorem getEffectiveCacheDuration_eq_lifetime {ext : Extensions}
    (hvarint : ∀ d, getIntExtension ext kMaxCacheDurationExtensionType = some d → d < 2 ^ 62) :
    c.getEffectiveCacheDuration ext = c.lifetime ext := by
  unfold getEffectiveCacheDuration lifetime
  cases hd : getIntExtension ext kMaxCacheDurationExtensionType with
  | none => rfl
  | some d =>
    have hlt := hvarint d hd
    have hcast : (d : Int).bmod (2 ^ 64) = d := Int.bmod_eq_of_le (by omega) (by omega)
    dsimp only
    rw [hcast]

/-- The duration stored with the track of a name. -/
def durationOf (c : Cache) (ftn : FullTrackName) : Option Milliseconds :=
  (c.cache.lookup ftn).bind fun tref => (c.tracks tref).maxCacheDuration

/-- Looking a track up creates it at most, without a duration. -/
theorem getOrCreateIdleTrack_frame (c : Cache) (ftn : FullTrackName) :
    (c.getOrCreateIdleTrack ftn).2.cache.lookup ftn = some (c.getOrCreateIdleTrack ftn).1 ∧
      (c.getOrCreateIdleTrack ftn).2.defaultMaxCacheDuration = c.defaultMaxCacheDuration ∧
      (c.getOrCreateIdleTrack ftn).2.durationOf ftn = c.durationOf ftn := by
  cases hl : c.cache.lookup ftn with
  | some tref =>
    simp only [getOrCreateIdleTrack, durationOf, hl]
    exact ⟨trivial, trivial, trivial⟩
  | none =>
    have hnew : ((c.emplaceTrack ftn).tracks c.nextTrackRef).lruIter.isSome = false := by
      simp [emplaceTrack, setTrack]
    simp only [getOrCreateIdleTrack, durationOf, hl, addTrackToLRU, hnew]
    refine ⟨?_, rfl, ?_⟩
    · simp [emplaceTrack, setTrack]
    · simp [emplaceTrack, setTrack]

/-- Writing the duration of a track that is looked up. -/
theorem durationOf_setInfo {ftn : FullTrackName} {t : CacheTrack}
    (h : c.cache.lookup ftn = some tref) :
    (c.setTrack tref t).durationOf ftn = t.maxCacheDuration := by
  unfold durationOf
  rw [setTrack_cache, h]
  simp

theorem durationOf_setMaxCacheDuration (c : Cache) (ftn : FullTrackName) (duration : Milliseconds) :
    (c.setMaxCacheDuration ftn duration).durationOf ftn = some duration :=
  durationOf_setInfo (c.getOrCreateIdleTrack_frame ftn).1

theorem durationOf_clearMaxCacheDuration (c : Cache) (ftn : FullTrackName) :
    (c.clearMaxCacheDuration ftn).durationOf ftn = none ∧
      (c.clearMaxCacheDuration ftn).defaultMaxCacheDuration = c.defaultMaxCacheDuration := by
  unfold clearMaxCacheDuration
  cases hl : c.cache.lookup ftn with
  | none =>
    dsimp only
    exact ⟨by rw [durationOf, hl, Option.bind_none], rfl⟩
  | some tref => exact ⟨durationOf_setInfo hl, rfl⟩

/-- The duration that counts for a track whose extensions were set. -/
theorem duration_setTrackExtensions (c : Cache) (ftn : FullTrackName) (ext : Extensions) :
    ((c.setTrackExtensions ftn ext).durationOf ftn).or
        (c.setTrackExtensions ftn ext).defaultMaxCacheDuration =
      c.getEffectiveCacheDuration ext := by
  have hlast : ∀ (d : Cache) eot largest last, let r := d.getOrCreateIdleTrack ftn
      ((r.2.setTrack r.1 ((r.2.tracks r.1).setInfo eot largest (r.2.tracks r.1).maxCacheDuration ext
        last)).durationOf ftn).or r.2.defaultMaxCacheDuration =
          (d.durationOf ftn).or d.defaultMaxCacheDuration := by
    intro d eot largest last r
    obtain ⟨hlookup, hdefault, hduration⟩ := d.getOrCreateIdleTrack_frame ftn
    rw [← hduration, ← hdefault, durationOf_setInfo hlookup, durationOf, hlookup]
    rfl
  unfold setTrackExtensions
  cases hdur : c.getEffectiveCacheDuration ext with
  | some dur =>
    refine (hlast (c.setMaxCacheDuration ftn dur) _ _ _).trans ?_
    rw [c.durationOf_setMaxCacheDuration ftn dur, Option.some_or]
  | none =>
    refine (hlast (c.clearMaxCacheDuration ftn) _ _ _).trans ?_
    rw [(c.durationOf_clearMaxCacheDuration ftn).1, (c.durationOf_clearMaxCacheDuration ftn).2]
    -- no duration at all: none was supplied and there is no default
    unfold getEffectiveCacheDuration at hdur
    split at hdur
    · cases hdur
    · exact hdur

theorem getCachedObjectMaybe_isSome_iff {l : AbsoluteLocation} {ref : GroupRef} {e : CacheEntry}
    {now : TimePoint} (hgroup : (c.tracks tref).groups.lookup l.group = some ref)
    (hobject : ((c.tracks tref).heap ref).objects.lookup l.object = some e)
    (hcomplete : e.complete = true) :
    (∃ c', c.getCachedObjectMaybe tref l now = .ok (some e, c')) ↔
      c.expired (c.tracks tref) e now = false := by
  simp only [getCachedObjectMaybe, hgroup, hobject, hcomplete]
  cases hexpired : c.expired (c.tracks tref) e now with
  | false =>
    refine ⟨fun _ => rfl, fun _ => ⟨c, ?_⟩⟩
    simp
  | true =>
    constructor
    · rintro ⟨c', h⟩
      rw [if_pos rfl] at h
      obtain ⟨groupBytes, -, h⟩ := bind_eq_ok.mp h
      obtain ⟨total, -, h⟩ := bind_eq_ok.mp h
      cases h
    · intro h
      cases h

/-- A complete object of a track whose extensions were set is served exactly while its age is within
the lifetime if and only if the lifetime fits a nanosecond count; and then alone nothing wraps. -/
theorem served_within_lifetime_iff_fits (c : Cache) (ftn : FullTrackName) (ext : Extensions)
    (hvarint : ∀ d, getIntExtension ext kMaxCacheDurationExtensionType = some d → d < 2 ^ 62)
    (tref : TrackRef) (htrack : (c.setTrackExtensions ftn ext).cache.lookup ftn = some tref)
    (l : AbsoluteLocation) (ref : GroupRef) (e : CacheEntry)
    (hgroup : ((c.setTrackExtensions ftn ext).tracks tref).groups.lookup l.group = some ref)
    (hobject : (((c.setTrackExtensions ftn ext).tracks tref).heap ref).objects.lookup l.object =
      some e) (hcomplete : e.complete = true) :
    ((∀ now, -2 ^ 63 ≤ now - e.cachedAt → now - e.cachedAt < 2 ^ 63 →
        ((∃ c', (c.setTrackExtensions ftn ext).getCachedObjectMaybe tref l now = .ok (some e, c')) ↔
          ∀ d ∈ c.lifetime ext, now - e.cachedAt ≤ d * 1000000)) ↔
      ∀ d ∈ c.lifetime ext, Fits d) ∧
    ((c.getEffectiveCacheDuration ext = c.lifetime ext ∧
        ∀ d ∈ c.lifetime ext, toNanoseconds d = d * 1000000) ↔
      ∀ d ∈ c.lifetime ext, Fits d) := by
  have heffective := getEffectiveCacheDuration_eq_lifetime (c := c) hvarint
  have hduration := c.duration_setTrackExtensions ftn ext
  rw [durationOf, htrack, Option.bind_some, heffective] at hduration
  have hserved : ∀ now, (∃ c', (c.setTrackExtensions ftn ext).getCachedObjectMaybe tref l now =
      .ok (some e, c')) ↔ ∀ d ∈ c.lifetime ext, now - e.cachedAt ≤ toNanoseconds d := by
    intro now
    rw [getCachedObjectMaybe_isSome_iff hgroup hobject hcomplete, expired, hduration,
      Option.any_eq_false]
    simp
  simp only [hserved]
  refine ⟨⟨fun h d hd => ?_, fun hfits now _ _ => forall₂_congr fun d hd => ?_⟩, ?_⟩
  · refine fits_of_compares fun age hlower hupper => ?_
    have hnow := h (age + e.cachedAt)
    rw [add_sub_cancel_right] at hnow
    have hiff := hnow hlower hupper
    rw [Option.mem_def] at hd
    simpa [hd] using hiff
  · rw [toNanoseconds_eq_iff.mpr (hfits d hd)]
  · constructor
    · rintro ⟨-, hexact⟩ d hd
      exact toNanoseconds_eq_iff.mp (hexact d hd)
    · exact fun hfits => ⟨heffective, fun d hd => toNanoseconds_eq_iff.mpr (hfits d hd)⟩

end Cache

end

namespace World

/-- A track with one object, written at time 0. -/
def oneObject : Except Abort Cache :=
  ((ofCache (.create 100 1 1000 0 none none)).run
    [.subscribe ⟨[], "track"⟩, .beginSubgroup 0 0 0 (.ok ()),
      .writeSubgroup 1 (.object 0 (some [1, 2, 3]) noExtensions)]).map World.cache

theorem served_within_lifetime_iff_fits_fiveSeconds : ∃ (c : Cache) (e : CacheEntry),
    oneObject = .ok c ∧ ∀ now, -2 ^ 63 ≤ now - e.cachedAt → now - e.cachedAt < 2 ^ 63 →
      ((∃ c', (c.setTrackExtensions ⟨[], "track"⟩ [(4, 5000)]).getCachedObjectMaybe 0 ⟨0, 0⟩ now =
        .ok (some e, c')) ↔ now - e.cachedAt ≤ 5000 * 1000000) := by
  have hobject : (oneObject.toOption.any fun c =>
      decide (c.lifetime [(4, 5000)] = some 5000 ∧
        (c.setTrackExtensions ⟨[], "track"⟩ [(4, 5000)]).cache.lookup ⟨[], "track"⟩ = some 0 ∧
        ((c.setTrackExtensions ⟨[], "track"⟩ [(4, 5000)]).tracks 0).groups.lookup 0 = some 0 ∧
        ((((c.setTrackExtensions ⟨[], "track"⟩ [(4, 5000)]).tracks 0).heap 0).objects.lookup
          0).any (fun e => e.complete) = true)) = true := by decide +kernel
  cases hc : oneObject with
  | error e =>
    rw [hc] at hobject
    cases hobject
  | ok c =>
    rw [hc] at hobject
    obtain ⟨hlifetime, htrack, hgroup, hentry⟩ := of_decide_eq_true hobject
    obtain ⟨e, he, hcomplete⟩ := (Option.any_eq_true _ _).mp hentry
    have hserved := (Cache.served_within_lifetime_iff_fits c ⟨[], "track"⟩ [(4, 5000)] (by
      intro d hd
      cases hd
      decide) 0 htrack ⟨0, 0⟩ 0 e hgroup he hcomplete).1.mpr (by
      rw [hlifetime]
      rintro d ⟨⟩
      decide)
    simp only [hlifetime, Option.mem_def, Option.some.injEq, forall_eq'] at hserved
    exact ⟨c, e, rfl, hserved⟩

/-- A duration of 9223372036855 milliseconds, some 292 years, is compared as a negative count: the
object is gone at age 0. One millisecond less and it is served. -/
theorem expired_at_once :
    ((oneObject.bind fun c => (c.setTrackExtensions ⟨[], "track"⟩
      [(4, 9223372036855)]).getCachedObjectMaybe 0 ⟨0, 0⟩ 0).map fun r => r.1.isSome) =
        .ok false ∧
    ((oneObject.bind fun c => (c.setTrackExtensions ⟨[], "track"⟩
      [(4, 9223372036854)]).getCachedObjectMaybe 0 ⟨0, 0⟩ 0).map fun r => r.1.isSome) =
        .ok true := by
  constructor
  · decide +kernel
  · decide +kernel

end World

end Moqx
