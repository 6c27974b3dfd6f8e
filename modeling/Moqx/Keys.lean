import Moqx.Owners
import Moqx.Reachable

/-! Registrations of upstream fetches: every registered writeback owns exactly one entry of
its track's map, and every entry has an owner. -/
namespace Moqx

open Moxygen Maps FetchWriteback

section
variable [Moxygen] {c c' : Cache} {a : Act}

/-- Acts that change the map of upstream fetches in progress of a track. -/
def Act.isKey : Act → Bool
  | .register _ _ _ => true
  | .progress _ _ _ => true
  | .deregister _ _ => true
  | _ => false

theorem Act.Upkeep.isKey {a : Act} (h : a.Upkeep) : a.isKey = false := by
  cases h <;> rfl

/-- Every track has the registrations it had. -/
def SameKeys (c c' : Cache) : Prop :=
  ∀ tref, (c'.tracks tref).fetchesInProgress = (c.tracks tref).fetchesInProgress

variable {tref : TrackRef}

theorem SameKeys.of_update {t : CacheTrack} (ht : c'.tracks = Function.update c.tracks tref t)
    (hf : t.fetchesInProgress = (c.tracks tref).fetchesInProgress) : SameKeys c c' := by
  intro tr
  by_cases htr : tr = tref
  · subst htr
    simp [ht, hf]
  · simp [ht, htr]

theorem Prim.sameKeys (h : Prim c a c') (ha : a.isKey = false)
    (hn : ∀ ftn, a ≠ .emplaceTrack ftn) : SameKeys c c' := by
  cases h with
  | register | progress | deregister => simp [Act.isKey] at ha
  | emplaceTrack ftn => exact absurd rfl (hn ftn)
  | popGroup => exact fun _ => rfl
  | eraseTrack => exact fun _ => rfl
  | addTrack ftn tref =>
    unfold Cache.addTrackToLRU
    split
    · exact fun _ => rfl
    · exact .of_update rfl rfl
  | removeTrack tref =>
    unfold Cache.takeTrackFromLRU
    split
    · exact .of_update rfl rfl
    · exact fun _ => rfl
  | addGroup ftn groupID tref ref =>
    unfold Cache.addGroupToLRU
    dsimp only
    split
    · exact fun _ => rfl
    · exact .of_update rfl rfl
  | removeGroup tref groupID ref =>
    unfold Cache.takeGroupFromLRU
    dsimp only
    split
    · exact .of_update rfl rfl
    · exact fun _ => rfl
  | _ => exact .of_update rfl rfl

theorem SameKeys.of_acts {P : Cache → Act → Prop}
    (hP : ∀ d a, P d a → a.isKey = false ∧ ∀ ftn, a ≠ .emplaceTrack ftn) (h : Acts P c c') :
    SameKeys c c' := by
  refine h.keeps (I := fun d => SameKeys c d) ?_ fun _ => rfl
  intro d a d' ha hprim hsame tref
  rw [hprim.sameKeys (hP d a ha).1 (hP d a ha).2 tref, hsame tref]

/-- A new track may come in as well. -/
def KeepsKeys (c c' : Cache) : Prop :=
  ∀ tref, (c'.tracks tref).fetchesInProgress = (c.tracks tref).fetchesInProgress ∨
    (c.nextTrackRef ≤ tref ∧ (c'.tracks tref).fetchesInProgress = ∅)

theorem KeepsKeys.of_steps {P : Cache → Act → Prop} (hP : ∀ d a, P d a → a.isKey = false)
    (h : Steps P c c') : KeepsKeys c c' := by
  have hkeep : KeepsKeys c c' ∧ c.nextTrackRef ≤ c'.nextTrackRef := by
    refine h.keeps (I := fun d => KeepsKeys c d ∧ c.nextTrackRef ≤ d.nextTrackRef) ?_
      ⟨fun _ => .inl rfl, Nat.le_refl _⟩
    rintro d a d' ha hprim ⟨hsame, hle⟩
    refine ⟨fun tref => ?_, Nat.le_trans hle hprim.nextTrackRef_le⟩
    by_cases hnew : ∃ ftn, a = .emplaceTrack ftn
    · obtain ⟨ftn, rfl⟩ := hnew
      cases hprim
      by_cases htr : tref = d.nextTrackRef
      · subst htr
        refine .inr ⟨hle, ?_⟩
        rw [Cache.emplaceTrack_tracks]
      · have hold : ((d.emplaceTrack ftn).tracks tref) = d.tracks tref := by
          simp [Cache.emplaceTrack, Cache.setTrack, htr]
        rw [hold]
        exact hsame tref
    · rw [hprim.sameKeys (hP d a ha) (fun ftn h => hnew ⟨ftn, h⟩) tref]
      exact hsame tref
  exact hkeep.1

theorem fetches_of_body {b : Cache} {ftn : FullTrackName} (h : Acts (BodyAct b tref ftn) c c') :
    SameKeys c c' := by
  refine .of_acts (fun d a ha => ?_) h
  cases ha with
  | evicts h | marks h => cases h.upkeep <;> exact ⟨rfl, by simp⟩
  | _ => exact ⟨rfl, by simp⟩

theorem fetches_of_marks (h : Steps (fun _ a => a.Marks tref) c c') : SameKeys c c' := by
  refine .of_acts (fun d a ha => ?_) h.acts
  cases ha.upkeep <;> exact ⟨rfl, by simp⟩

namespace FetchWriteback

variable {w w' : FetchWriteback}

/-- The owner of a registration is the only one to change it. -/
structure Moved (w w' : FetchWriteback) (c c' : Cache) : Prop where
  others : ∀ tr ≠ w.track,
    (c'.tracks tr).fetchesInProgress = (c.tracks tr).fetchesInProgress
  kept : ∀ k e, w.fetchInProgressIt ≠ some k → w'.fetchInProgressIt ≠ some k →
    ((c'.tracks w.track).fetchesInProgress.lookup k = some e ↔
      (c.tracks w.track).fetchesInProgress.lookup k = some e)
  gone : ∀ k, w.fetchInProgressIt = some k → w'.fetchInProgressIt ≠ some k →
    (c'.tracks w.track).fetchesInProgress.lookup k = none
  owned : ∀ k, w'.fetchInProgressIt = some k →
    ∃ key old e, w.fetchInProgressIt = some key ∧
      (c.tracks w.track).fetchesInProgress.lookup key = some old ∧
      (c'.tracks w.track).fetchesInProgress.lookup k = some e ∧ e.writeback = old.writeback ∧
      (k = key ∨ ((c.tracks w.track).fetchesInProgress.lookup k = none ∧
        key.group < k.group ∧ k < w.fetchRangeIt.maxLocation))

theorem deregister_fetches (c : Cache) (tref tr : TrackRef) (key : AbsoluteLocation) :
    ((c.deregister tref key).tracks tr).fetchesInProgress = if tr = tref then
      (c.tracks tref).fetchesInProgress.erase key else (c.tracks tr).fetchesInProgress := by
  by_cases htr : tr = tref
  · subst htr
    simp [Cache.deregister]
  · simp [Cache.deregister, htr]

theorem addGroupToLRU_fetches (c : Cache) (tref tr : TrackRef) (ftn : FullTrackName)
    (groupID : Nat) (ref : GroupRef) : ((c.addGroupToLRU ftn groupID tref ref).tracks tr
      ).fetchesInProgress = (c.tracks tr).fetchesInProgress := by
  unfold Cache.addGroupToLRU
  dsimp only
  split
  · rfl
  · by_cases htr : tr = tref
    · subst htr
      simp [Cache.setTrack]
    · simp [Cache.setTrack, htr]

theorem releaseKey_fetches (c : Cache) (tref tr : TrackRef) (ftn : FullTrackName)
    (key : AbsoluteLocation) (pin : Option GroupRef) :
    ((c.releaseKey tref ftn key pin).tracks tr).fetchesInProgress =
      if tr = tref then (c.tracks tref).fetchesInProgress.erase key
      else (c.tracks tr).fetchesInProgress := by
  unfold Cache.releaseKey
  cases pin with
  | none => exact deregister_fetches c tref tr key
  | some ref =>
    rw [addGroupToLRU_fetches, deregister_fetches]

/-- Without a registration nothing moves. -/
theorem Moved.refl_of_none (h : w.fetchInProgressIt = none) (h' : w'.fetchInProgressIt = none) :
    Moved w w' c c :=
  ⟨fun _ _ => rfl, fun _ _ _ _ => Iff.rfl, fun k hk => by simp [h] at hk,
    fun k hk => by simp [h'] at hk⟩

theorem Moved.of_erase {key : AbsoluteLocation} (h : w.fetchInProgressIt = some key)
    (h' : w'.fetchInProgressIt = none)
    (ho : ∀ tr ≠ w.track, (c'.tracks tr).fetchesInProgress = (c.tracks tr).fetchesInProgress)
    (hf : ∀ k, (c'.tracks w.track).fetchesInProgress.lookup k =
      if k = key then none else (c.tracks w.track).fetchesInProgress.lookup k) :
    Moved w w' c c' := by
  refine ⟨ho, fun k e hk _ => ?_, fun k hk _ => ?_, fun k hk => by simp [h'] at hk⟩
  · have hne : k ≠ key := by
      rintro rfl
      exact hk h
    rw [hf, if_neg hne]
  · rw [h, Option.some.injEq] at hk
    rw [hf, if_pos hk.symm]

omit [Moxygen] in
theorem erase_lookup {m : AList fun _ : AbsoluteLocation => FetchInProgressEntry}
    (key k : AbsoluteLocation) : (m.erase key).lookup k = if k = key then none else m.lookup k := by
  by_cases hk : k = key
  · subst hk
    simp
  · rw [AList.lookup_erase_ne hk, if_neg hk]

omit [Moxygen] in
theorem insert_lookup {m : AList fun _ : AbsoluteLocation => FetchInProgressEntry}
    (key k : AbsoluteLocation) (e : FetchInProgressEntry) :
    (m.insert key e).lookup k = if k = key then some e else m.lookup k := by
  by_cases hk : k = key
  · subst hk
    simp
  · rw [AList.lookup_insert_ne hk, if_neg hk]

theorem register_fetches (c : Cache) (tref tr : TrackRef) (loc : AbsoluteLocation)
    (e : FetchInProgressEntry) : ((c.register tref loc e).tracks tr).fetchesInProgress =
      if tr = tref then (c.tracks tref).fetchesInProgress.insert loc e
      else (c.tracks tr).fetchesInProgress := by
  by_cases htr : tr = tref
  · subst htr
    simp [Cache.register]
  · simp [Cache.register, htr]

theorem updateInProgress_moved (h : w.updateInProgress c = .ok (w', c')) : Moved w w' c c' := by
  unfold updateInProgress eraseAndMakeGroupEvictable at h
  split at h
  · next hkey =>
    cases h
    exact .refl_of_none hkey hkey
  · next key hkey hvalid =>
    cases h
    refine .of_erase hkey rfl (fun tr htr => ?_) fun k => ?_
    · rw [releaseKey_fetches, if_neg htr]
    · rw [releaseKey_fetches, if_pos rfl, erase_lookup]
  · next key hkey hvalid =>
    cases hl : (c.tracks w.track).fetchesInProgress.lookup key with
    | none => simp [hl] at h
    | some old =>
      simp only [hl] at h
      generalize hentry : ({ old with progress := w.fetchRangeIt.current } : FetchInProgressEntry)
        = entry at h
      have howner : entry.writeback = old.writeback := by rw [← hentry]
      have hrelease : ∀ k, (((c.register w.track key entry).releaseKey w.track w.ftn key
          w.pinnedGroup).tracks w.track).fetchesInProgress.lookup k =
          if k = key then none else (c.tracks w.track).fetchesInProgress.lookup k := by
        intro k
        rw [releaseKey_fetches, if_pos rfl, erase_lookup, register_fetches, if_pos rfl,
          insert_lookup]
        split_ifs <;> rfl
      have hother : ∀ tr ≠ w.track, (((c.register w.track key entry).releaseKey w.track w.ftn key
          w.pinnedGroup).tracks tr).fetchesInProgress = (c.tracks tr).fetchesInProgress := by
        intro tr htr
        rw [releaseKey_fetches, if_neg htr, register_fetches, if_neg htr]
      split_ifs at h with hgroup hmax
      · -- The registration moves to the iterator's position.
        obtain ⟨ref, rfl, -, hfree, hf⟩ := emplaceAndPinGroup_result h
        have hne : w.fetchRangeIt.current ≠ key := by
          intro heq
          rw [heq] at hgroup
          exact Nat.lt_irrefl _ hgroup
        have hnew : ∀ k, (c'.tracks w.track).fetchesInProgress.lookup k =
            if k = w.fetchRangeIt.current then some entry
            else if k = key then none else (c.tracks w.track).fetchesInProgress.lookup k := by
          intro k
          rw [hf, register_fetches, if_pos rfl, insert_lookup, hrelease]
        refine ⟨fun tr htr => ?_, fun k e hk hk' => ?_, fun k hk hk' => ?_, fun k hk => ?_⟩
        · rw [hf, register_fetches, if_neg htr]
          exact hother tr htr
        · rw [hnew, if_neg, if_neg]
          · rintro rfl
            exact hk hkey
          · rintro rfl
            exact hk' rfl
        · rw [hkey, Option.some.injEq] at hk
          rw [hnew, if_neg, if_pos hk.symm]
          rintro rfl
          exact hk' rfl
        · have hkk : w.fetchRangeIt.current = k := by simpa using hk
          subst hkk
          refine ⟨key, old, entry, hkey, hl, by rw [hnew, if_pos rfl], howner,
            .inr ⟨?_, hgroup, hmax⟩⟩
          rw [hrelease, if_neg hne] at hfree
          exact hfree
      · cases h
        exact .of_erase hkey rfl hother hrelease
      · cases h
        have hreg : ∀ k,
            ((c.register w.track key entry).tracks w.track).fetchesInProgress.lookup k =
            if k = key then some entry else (c.tracks w.track).fetchesInProgress.lookup k := by
          intro k
          rw [register_fetches, if_pos rfl, insert_lookup]
        refine ⟨fun tr htr => by rw [register_fetches, if_neg htr], fun k e hk _ => ?_,
          fun k hk hk' => absurd hk hk', fun k hk => ?_⟩
        · rw [hreg, if_neg]
          rintro rfl
          exact hk hkey
        · have hkk : k = key := by
            have : some k = some key := hk.symm.trans hkey
            simpa using this
          exact ⟨key, old, entry, hkey, hl, by rw [hreg, if_pos hkk], howner, .inl hkk⟩

/-- A delivery moves at most the writeback's own registration. -/
theorem deliver_moved {now : TimePoint} {delivery : Delivery} {res : Expected Unit}
    {calls : List FetchCall} (href : (c.tracks w.track).RefsBounded)
    (hown : ∀ key, w.fetchInProgressIt = some key →
      ∃ e, (c.tracks w.track).fetchesInProgress.lookup key = some e)
    (h : w.deliver c now delivery = .ok (res, calls, w', c')) : Moved w w' c c' := by
  cases Shape.of_deliver href h with
  | quiet hd hw =>
    have hsame := fetches_of_body hd.acts
    refine ⟨fun tr _ => hsame tr, fun k e _ _ => by rw [hsame], fun k hk hk' => ?_, fun k hk => ?_⟩
    · rw [hw.fetchInProgressIt] at hk'
      exact absurd hk hk'
    · rw [hw.fetchInProgressIt] at hk
      obtain ⟨e, he⟩ := hown k hk
      exact ⟨k, e, e, hk, he, by rw [hsame]; exact he, rfl, .inl rfl⟩
  | updated hd hw hup hd' hw' =>
    have hbody := fetches_of_body hd.acts
    have hmarks := fetches_of_marks hd'
    have hmoved := updateInProgress_moved hup
    have htrack := hw.track
    have hkey := hw.fetchInProgressIt
    refine ⟨fun tr htr => ?_, fun k e hk hk' => ?_, fun k hk hk' => ?_, fun k hk => ?_⟩
    · rw [hmarks, hmoved.others tr (by rw [htrack]; exact htr), hbody]
    · rw [hmarks, ← hbody, ← htrack]
      exact hmoved.kept k e (by rw [hkey]; exact hk) (by rw [← hw'.fetchInProgressIt]; exact hk')
    · rw [hmarks, ← htrack]
      exact hmoved.gone k (by rw [hkey]; exact hk) (by rw [← hw'.fetchInProgressIt]; exact hk')
    · obtain ⟨key, old, e, h1, h2, h3, h4, h5⟩ :=
        hmoved.owned k (by rw [← hw'.fetchInProgressIt]; exact hk)
      rw [hbody, htrack] at h2 h5
      rw [htrack] at h3
      rw [hw.range.maxLocation] at h5
      exact ⟨key, old, e, hkey.symm.trans h1, h2, by rw [hmarks]; exact h3, h4, h5⟩

end FetchWriteback

theorem Cache.onTrackBecameEvictable_fetches (c : Cache) (ftn : FullTrackName) :
    SameKeys c (c.onTrackBecameEvictable ftn) :=
  .of_acts (fun _ _ h => h) (P := fun _ a => a.isKey = false ∧ ∀ ftn, a ≠ .emplaceTrack ftn)
    (onTrackBecameEvictable_steps fun _ _ _ => ⟨rfl, by simp⟩).acts

/-- The destructor drops the registration. -/
theorem FetchWriteback.close_moved (w : FetchWriteback) (c : Cache) :
    Moved w { w with fetchInProgressIt := none } c (w.close c) := by
  have hback := fun d => Cache.onTrackBecameEvictable_fetches d w.ftn
  unfold close
  cases hkey : w.fetchInProgressIt with
  | none =>
    refine ⟨fun tr _ => hback c tr, fun k e hk hk' => ?_, fun k hk => ?_, fun k hk => by cases hk⟩
    · rw [hback]
    · rw [hkey] at hk
      cases hk
  | some key =>
    refine .of_erase hkey rfl (fun tr htr => ?_) fun k => ?_
    · rw [hback]
      unfold eraseAndMakeGroupEvictable
      rw [releaseKey_fetches, if_neg htr]
    · rw [hback]
      unfold eraseAndMakeGroupEvictable
      rw [releaseKey_fetches, if_pos rfl, erase_lookup]

/-- The interval a fetch is about to send upstream. -/
def FetchPc.nextSpan : FetchPc → Option Interval
  | .fetchUpstream (interval :: _) _ => some interval
  | _ => none

/-- Steps that may make, move or drop a registration. -/
def Op.usesKeys : Op → Bool
  | .fetch _ => true
  | .resume _ _ => true
  | .deliver _ _ => true
  | .closeWriteback _ => true
  | _ => false

namespace World

variable {w w' : World} {op : Op}

/-- Registrations and registered writebacks belong to each other. -/
structure KeysOk (w : World) : Prop where
  own : All w.writebacks fun id wb => ∀ key, wb.fetchInProgressIt = some key →
    ∃ e, (w.cache.tracks wb.track).fetchesInProgress.lookup key = some e ∧ e.writeback = id
  entries : ∀ tref key e, (w.cache.tracks tref).fetchesInProgress.lookup key = some e →
    ∃ wb, w.writebacks.lookup e.writeback = some wb ∧ wb.track = tref ∧
      wb.fetchInProgressIt = some key

/-- Steps that neither register nor make or drop a writeback. -/
theorem KeysOk.of_keepsKeys (hw : w.WF) (hk : w.KeysOk) (hc : KeepsKeys w.cache w'.cache)
    (hwb : w'.writebacks = w.writebacks) : w'.KeysOk := by
  refine ⟨?_, ?_⟩
  · rw [hwb]
    intro id wb hl key hkey
    obtain ⟨e, he, hid⟩ := hk.own id wb hl key hkey
    rcases hc wb.track with heq | ⟨hle, -⟩
    · exact ⟨e, by rw [heq]; exact he, hid⟩
    · exact absurd (hw.writebacks id wb hl).1.lt (Nat.not_lt_of_le hle)
  · intro tref key e he
    rw [hwb]
    rcases hc tref with heq | ⟨-, hempty⟩
    · rw [heq] at he
      exact hk.entries tref key e he
    · simp [hempty] at he

variable {wb : FetchWriteback} {task : FetchTask} {with_ : Resume}

/-- A new writeback registers under a free key. -/
theorem KeysOk.insert {start : AbsoluteLocation} {e : FetchInProgressEntry} {c' : Cache}
    (hw : w.WF) (hk : w.KeysOk) (hkey : wb.fetchInProgressIt = some start)
    (hid : e.writeback = w.nextId)
    (hfree : (w.cache.tracks wb.track).fetchesInProgress.lookup start = none)
    (hf : ∀ tr k, (c'.tracks tr).fetchesInProgress.lookup k =
      if tr = wb.track ∧ k = start then some e
      else (w.cache.tracks tr).fetchesInProgress.lookup k) :
    { w with
      cache := c', writebacks := w.writebacks.insert w.nextId wb
      nextId := w.nextId + 1 }.KeysOk := by
  have hnew : w.writebacks.lookup w.nextId = none := by
    by_contra hne
    obtain ⟨old, hold⟩ := Option.ne_none_iff_exists'.mp hne
    exact Nat.lt_irrefl _ (hw.writebacks _ old hold).2.2
  refine ⟨?_, ?_⟩
  · intro id v hl key hv
    rcases lookup_insert_some hl with ⟨rfl, rfl⟩ | ⟨hne, hl⟩
    · rw [hkey, Option.some.injEq] at hv
      exact ⟨e, by rw [hf, if_pos ⟨rfl, hv.symm⟩], hid⟩
    · obtain ⟨e', he', hid'⟩ := hk.own id v hl key hv
      refine ⟨e', ?_, hid'⟩
      rw [hf, if_neg]
      · exact he'
      · rintro ⟨htr, rfl⟩
        rw [htr, hfree] at he'
        cases he'
  · intro tref key e' he'
    rw [hf] at he'
    split at he'
    · next hk =>
      cases he'
      refine ⟨wb, ?_, hk.1.symm, by rw [hkey, hk.2]⟩
      rw [hid]
      simp
    · obtain ⟨v, hv, htr, hvk⟩ := hk.entries tref key e' he'
      refine ⟨v, ?_, htr, hvk⟩
      have hne : e'.writeback ≠ w.nextId := by
        intro heq
        rw [heq, hnew] at hv
        cases hv
      rw [AList.lookup_insert_ne hne]
      exact hv

/-- Keeping the keys means keeping every entry, since a new track has none. -/
theorem KeysOk.lookup_eq {c' : Cache} (hw : w.WF) (hk : w.KeysOk) (hc : KeepsKeys w.cache c')
    (tr : TrackRef) (k : AbsoluteLocation) : (c'.tracks tr).fetchesInProgress.lookup k =
      (w.cache.tracks tr).fetchesInProgress.lookup k := by
  rcases hc tr with heq | ⟨hle, hempty⟩
  · rw [heq]
  · cases hl : (w.cache.tracks tr).fetchesInProgress.lookup k with
    | none => simp [hempty]
    | some e =>
      obtain ⟨wb, hwb, htr, -⟩ := hk.entries tr k e hl
      have hlt := (hw.writebacks _ wb hwb).1.lt
      rw [htr] at hlt
      exact absurd hlt (Nat.not_lt_of_le hle)

/-- A writeback moves or drops its own registration. -/
theorem KeysOk.moved {id : WritebackId} {wb' : FetchWriteback} {c' : Cache} (hk : w.KeysOk)
    (hl : w.writebacks.lookup id = some wb) (hm : FetchWriteback.Moved wb wb' w.cache c')
    (htrack : wb'.track = wb.track) {wbs : AList fun _ : WritebackId => FetchWriteback}
    (hwbs : ∀ i v, wbs.lookup i = some v ↔
      (i = id ∧ wbs.lookup id = some v ∧ v = wb') ∨ (i ≠ id ∧ w.writebacks.lookup i = some v))
    (hpresent : wb'.fetchInProgressIt ≠ none → wbs.lookup id = some wb') :
    { w with cache := c', writebacks := wbs }.KeysOk := by
  -- Another writeback's key on the same track is not the one that moved.
  have hother : ∀ i v key, w.writebacks.lookup i = some v → i ≠ id → v.track = wb.track →
      v.fetchInProgressIt = some key →
      wb.fetchInProgressIt ≠ some key ∧ wb'.fetchInProgressIt ≠ some key := by
    intro i v key hv hne htr hkey
    obtain ⟨e, he, hid⟩ := hk.own i v hv key hkey
    rw [htr] at he
    constructor
    · intro hwk
      obtain ⟨e', he', hid'⟩ := hk.own id wb hl key hwk
      rw [he, Option.some.injEq] at he'
      rw [← he', hid] at hid'
      exact hne hid'
    · intro hwk
      obtain ⟨old, oe, ne, h1, h2, -, -, h5⟩ := hm.owned key hwk
      rcases h5 with rfl | ⟨hfree, -⟩
      · obtain ⟨e', he', hid'⟩ := hk.own id wb hl key h1
        rw [he, Option.some.injEq] at he'
        rw [← he', hid] at hid'
        exact hne hid'
      · rw [he] at hfree
        cases hfree
  refine ⟨?_, ?_⟩
  · intro i v hv key hkey
    rcases (hwbs i v).mp hv with ⟨rfl, -, rfl⟩ | ⟨hne, hv⟩
    · obtain ⟨old, oe, ne, h1, h2, h3, h4, -⟩ := hm.owned key hkey
      obtain ⟨e', he', hid'⟩ := hk.own i wb hl old h1
      rw [h2, Option.some.injEq] at he'
      refine ⟨ne, by rw [htrack]; exact h3, ?_⟩
      rw [h4, he', hid']
    · obtain ⟨e, he, hid⟩ := hk.own i v hv key hkey
      refine ⟨e, ?_, hid⟩
      by_cases htr : v.track = wb.track
      · obtain ⟨h1, h2⟩ := hother i v key hv hne htr hkey
        rw [htr] at he ⊢
        exact (hm.kept key e h1 h2).mpr he
      · dsimp only
        rw [hm.others v.track htr]
        exact he
  · intro tref key e he
    by_cases htr : tref = wb.track
    · subst htr
      by_cases hnew : wb'.fetchInProgressIt = some key
      · obtain ⟨old, oe, ne, h1, h2, h3, h4, -⟩ := hm.owned key hnew
        obtain ⟨e', he', hid'⟩ := hk.own id wb hl old h1
        rw [h2, Option.some.injEq] at he'
        rw [he, Option.some.injEq] at h3
        have hid : e.writeback = id := by rw [h3, h4, he', hid']
        exact ⟨wb', by rw [hid]; exact hpresent (by simp [hnew]), htrack, hnew⟩
      · by_cases hold : wb.fetchInProgressIt = some key
        · rw [hm.gone key hold hnew] at he
          cases he
        · have he' := (hm.kept key e hold hnew).mp he
          obtain ⟨v, hv, hvt, hvk⟩ := hk.entries _ key e he'
          refine ⟨v, (hwbs _ v).mpr (.inr ⟨?_, hv⟩), hvt, hvk⟩
          intro hid
          rw [hid, hl, Option.some.injEq] at hv
          rw [hv] at hold
          exact hold hvk
    · rw [hm.others tref htr] at he
      obtain ⟨v, hv, hvt, hvk⟩ := hk.entries tref key e he
      refine ⟨v, (hwbs _ v).mpr (.inr ⟨?_, hv⟩), hvt, hvk⟩
      intro hid
      rw [hid, hl, Option.some.injEq] at hv
      rw [hv] at htr
      exact htr hvt.symm

theorem KeysOk.deliver {id : WritebackId} {wb' : FetchWriteback} {c' : Cache} (hk : w.KeysOk)
    (hl : w.writebacks.lookup id = some wb) (hm : FetchWriteback.Moved wb wb' w.cache c')
    (htrack : wb'.track = wb.track) :
    { w with cache := c', writebacks := w.writebacks.insert id wb' }.KeysOk := by
  refine hk.moved hl hm htrack (fun i v => ?_) fun _ => by simp
  constructor
  · intro hv
    rcases lookup_insert_some hv with ⟨rfl, rfl⟩ | ⟨hne, hv⟩
    · exact .inl ⟨rfl, by simp, rfl⟩
    · exact .inr ⟨hne, hv⟩
  · rintro (⟨rfl, hv, -⟩ | ⟨hne, hv⟩)
    · exact hv
    · rw [AList.lookup_insert_ne hne]
      exact hv

theorem KeysOk.close {id : WritebackId} (hk : w.KeysOk) (hl : w.writebacks.lookup id = some wb) :
    { w with cache := wb.close w.cache, writebacks := w.writebacks.erase id }.KeysOk := by
  refine hk.moved hl (wb.close_moved w.cache) rfl (fun i v => ?_) fun h => absurd rfl h
  constructor
  · intro hv
    exact .inr (lookup_erase_some hv)
  · rintro (⟨rfl, hv, -⟩ | ⟨hne, hv⟩)
    · exact hv
    · rw [AList.lookup_erase_ne hne]
      exact hv

theorem opActs_noKeys (h : op.usesKeys = false) : OpActs (fun _ a => a.isKey = false) w op := by
  have hpurges : ∀ a, Act.Purges a → a.isKey = false := fun _ ha => ha.upkeep.isKey
  have hgroup : ∀ tref ftn, GroupActs (fun _ a => a.isKey = false) w.cache tref ftn :=
    fun tref ftn => ⟨fun _ _ ha => ha.upkeep.isKey, fun _ _ ha => ha.upkeep.isKey, fun _ => rfl,
      fun _ _ _ _ _ _ => rfl, fun _ _ _ _ _ _ => rfl, fun _ _ _ _ _ => rfl⟩
  cases op with
  | subscribe =>
    exact ⟨fun _ _ ha => ha.upkeep.isKey, fun _ => rfl, fun _ _ _ => rfl, fun _ _ _ _ => rfl⟩
  | closeSubscribe => exact fun _ _ => ⟨fun _ => rfl, fun _ _ _ _ => rfl⟩
  | beginSubgroup => exact fun _ _ => ⟨hgroup _ _, fun _ _ => rfl⟩
  | objectStream => exact fun _ _ => hgroup _ _
  | datagram => exact fun _ _ => hgroup _ _
  | writeSubgroup =>
    exact fun _ _ => ⟨fun _ _ ha => ha.upkeep.isKey, fun _ _ ha => ha.upkeep.isKey, fun _ => rfl,
      fun _ _ _ _ _ => rfl, fun _ => rfl⟩
  | closeSubgroup => exact fun _ _ => rfl
  | setTrackExtensions => exact ⟨fun _ => rfl, fun _ _ => rfl, fun _ _ _ _ => rfl⟩
  | purgeTrack | purgeNamespace | purgeAll => exact fun _ => hpurges
  | tick => exact trivial
  | cancel => exact trivial
  | _ => simp [Op.usesKeys] at h

theorem step_writebacks (hop : op.usesKeys = false) (h : w.step op = .ok w') :
    w'.writebacks = w.writebacks := by
  cases op with
  | tick =>
    cases h
    rfl
  | subscribe =>
    obtain ⟨r, -, h⟩ := bind_eq_ok.mp h
    cases h
    rfl
  | closeSubscribe =>
    obtain ⟨s, -, h⟩ := bind_eq_ok.mp h
    obtain ⟨d, -, h⟩ := bind_eq_ok.mp h
    cases h
    rfl
  | beginSubgroup =>
    obtain ⟨s, -, h⟩ := bind_eq_ok.mp h
    obtain ⟨r, -, h⟩ := bind_eq_ok.mp h
    split at h <;> cases h <;> rfl
  | objectStream | datagram | writeSubgroup =>
    obtain ⟨s, -, h⟩ := bind_eq_ok.mp h
    obtain ⟨r, -, h⟩ := bind_eq_ok.mp h
    cases h
    rfl
  | closeSubgroup =>
    obtain ⟨s, -, h⟩ := bind_eq_ok.mp h
    cases h
    rfl
  | setTrackExtensions =>
    cases h
    rfl
  | purgeTrack | purgeNamespace | purgeAll =>
    obtain ⟨d, -, h⟩ := bind_eq_ok.mp h
    cases h
    rfl
  | cancel =>
    obtain ⟨task, -, h⟩ := bind_eq_ok.mp h
    cases h
    unfold cancelTask
    split <;> rfl
  | _ => simp [Op.usesKeys] at hop

/-- The registrations after a writeback is made. -/
theorem create_lookup {id : WritebackId} {start stop : AbsoluteLocation} {proxyFin : Bool}
    {consumer : ConsumerId} {it : FetchRangeIterator} {tref : TrackRef} {ftn : FullTrackName}
    {c c' : Cache}
    (h : FetchWriteback.create c id start stop proxyFin consumer it tref ftn = .ok (wb, c')) :
    (c.tracks tref).fetchesInProgress.lookup start = none ∧
      ∀ tr k, (c'.tracks tr).fetchesInProgress.lookup k = if tr = tref ∧ k = start then
        some ⟨stop, start, id⟩ else (c.tracks tr).fetchesInProgress.lookup k := by
  obtain ⟨v, rfl, h⟩ := create_emplaces h
  obtain ⟨ref, -, -, hfree, hf⟩ := emplaceAndPinGroup_result h
  have hoff : SameKeys c (c.takeTrackFromLRU v.track) :=
    Prim.sameKeys (.removeTrack c v.track) rfl (by simp)
  rw [hoff] at hfree
  refine ⟨hfree, fun tr k => ?_⟩
  rw [hf, register_fetches, hoff]
  by_cases htr : tr = v.track
  · subst htr
    rw [if_pos rfl, insert_lookup]
    simp
  · rw [if_neg htr, hoff, if_neg (fun hn => htr hn.1)]

theorem resume_writebacks {id : ConsumerId} (ht : w.tasks.lookup id = some task)
    (hspan : task.pc.nextSpan = none) (h : w.step (.resume id with_) = .ok w') :
    w'.writebacks = w.writebacks := by
  obtain ⟨task', ht', h⟩ := bind_eq_ok.mp h
  have ht' := orNoCaller_eq_ok.mp ht'
  rw [ht, Option.some.injEq] at ht'
  subst ht'
  unfold resumeTask at h
  split at h
  · cases h
    rfl
  · obtain ⟨r, -, h⟩ := bind_eq_ok.mp h
    cases h
    rfl
  · split at h
    · obtain ⟨r, -, h⟩ := bind_eq_ok.mp h
      cases h
      rfl
    · cases h
  · next hpc _ => simp [hpc, FetchPc.nextSpan] at hspan
  · obtain ⟨r, -, h⟩ := bind_eq_ok.mp h
    cases h
    rfl
  · obtain ⟨wb, -, h⟩ := bind_eq_ok.mp h
    obtain ⟨r, -, h⟩ := bind_eq_ok.mp h
    cases h
    rfl
  · obtain ⟨r, -, h⟩ := bind_eq_ok.mp h
    cases h
    rfl
  · cases h
    rfl
  · cases h

theorem opActs_resume_noKeys {id : ConsumerId} (ht : w.tasks.lookup id = some task)
    (hspan : task.pc.nextSpan = none) :
    OpActs (fun _ a => a.isKey = false) w (.resume id with_) := by
  intro task' ht'
  rw [ht, Option.some.injEq] at ht'
  subst ht'
  refine ⟨fun _ _ _ => rfl, fun _ => rfl, fun interval intervals after hpc => ?_⟩
  simp [hpc, FetchPc.nextSpan] at hspan

theorem nextSpan_eq_some {pc : FetchPc} {span : Interval} (h : pc.nextSpan = some span) :
    ∃ intervals after, pc = .fetchUpstream (span :: intervals) after := by
  unfold FetchPc.nextSpan at h
  split at h
  · next intervals after =>
    cases h
    exact ⟨intervals, after, rfl⟩
  · cases h

/-- A fetch that goes upstream makes a writeback for its next span, if it makes progress. -/
theorem resume_creates {id : ConsumerId} {span : Interval} (ht : w.tasks.lookup id = some task)
    (hspan : task.pc.nextSpan = some span) (h : w.step (.resume id with_) = .ok w') :
    ∃ stop lastObject wb, FetchTask.adjFetchEnd span.2 = .ok stop ∧
      FetchWriteback.create w.cache w.nextId span.1 stop lastObject task.consumer
        (.create span.1 span.2 task.fetch.groupOrder (w.cache.tracks task.track)) task.track
        task.fetch.fullTrackName = .ok (wb, w'.cache) ∧
      w'.writebacks = w.writebacks.insert w.nextId wb := by
  obtain ⟨task', ht', h⟩ := bind_eq_ok.mp h
  have ht' := orNoCaller_eq_ok.mp ht'
  rw [ht, Option.some.injEq] at ht'
  subst ht'
  obtain ⟨intervals, after, hpc⟩ := nextSpan_eq_some hspan
  unfold resumeTask at h
  rw [hpc] at h
  cases with_ with
  | consumer => cases h
  | upstream => cases h
  | run =>
    obtain ⟨⟨wb, task', d⟩, hfetch, h⟩ := bind_eq_ok.mp h
    cases h
    obtain ⟨stop, hstop, hfetch⟩ := bind_eq_ok.mp hfetch
    obtain ⟨⟨v, d'⟩, hcreate, hfetch⟩ := bind_eq_ok.mp hfetch
    cases hfetch
    exact ⟨stop, _, wb, hstop, hcreate, rfl⟩

theorem KeysOk.resume {id : ConsumerId} (hw : w.WF) (hk : w.KeysOk)
    (h : w.step (.resume id with_) = .ok w') : w'.KeysOk := by
  obtain ⟨task, ht, -⟩ := bind_eq_ok.mp h
  have ht := orNoCaller_eq_ok.mp ht
  cases hspan : task.pc.nextSpan with
  | some span =>
    obtain ⟨stop, lastObject, wb, -, hcreate, hwbs⟩ := resume_creates ht hspan h
    obtain ⟨hfree, hf⟩ := create_lookup hcreate
    obtain ⟨-, htrack, -, -, hkey⟩ := create_result hcreate
    rw [← htrack] at hfree hf
    have hins := KeysOk.insert hw hk hkey rfl hfree hf
    refine ⟨?_, fun tref key e he => ?_⟩
    · rw [hwbs]
      exact hins.own
    · rw [hwbs]
      exact hins.entries tref key e he
  | none =>
    have hacts : OpActs (fun _ a => a.isKey = false) w (.resume id with_) :=
      opActs_resume_noKeys ht hspan
    have hspec := step_spec hw.refsKnown hacts
    exact hk.of_keepsKeys hw (.of_steps (fun _ _ h => h) (hspec.steps h))
      (resume_writebacks ht hspan h)

/-- Making a new track changes no registration. -/
theorem KeysOk.newTrack_lookup {ftn : FullTrackName} {d : Cache} (hw : w.WF) (hk : w.KeysOk)
    (hl : w.cache.cache.lookup ftn = none)
    (hroom : (w.cache.emplaceTrack ftn).makeRoomForTrack = .ok d) (tr : TrackRef)
    (k : AbsoluteLocation) :
    ((d.addTrackToLRU ftn w.cache.nextTrackRef).tracks tr).fetchesInProgress.lookup k =
      (w.cache.tracks tr).fetchesInProgress.lookup k := by
  have hspec : Spec (fun _ a => a.isKey = false) (w.cache.emplaceTrack ftn)
      (w.cache.emplaceTrack ftn).makeRoomForTrack id :=
    Cache.makeRoomForTrack_spec fun _ _ ha => ha.upkeep.isKey
  have hbefore : Steps (fun _ a => a.isKey = false) w.cache
      (d.addTrackToLRU ftn w.cache.nextTrackRef) := by
    refine Steps.trans (.single rfl (.emplaceTrack w.cache ftn hl)) ?_
    exact (hspec.steps hroom).trans (.single rfl (.addTrack d _ _))
  exact hk.lookup_eq hw (KeepsKeys.of_steps (fun _ _ h => h) hbefore) tr k

/-- A fetch of a cached name starts a task, one of a new name makes a writeback. -/
theorem fetch_cases {f : Fetch} (h : w.step (.fetch f) = .ok w') :
    (w'.cache = w.cache ∧ w'.writebacks = w.writebacks) ∨
    ∃ d wb, w.cache.cache.lookup f.fullTrackName = none ∧
      (w.cache.emplaceTrack f.fullTrackName).makeRoomForTrack = .ok d ∧
      FetchWriteback.create (d.addTrackToLRU f.fullTrackName w.cache.nextTrackRef) w.nextId f.start
        f.end_ true w.nextId (.create f.start f.end_ f.groupOrder
          ((d.addTrackToLRU f.fullTrackName w.cache.nextTrackRef).tracks w.cache.nextTrackRef))
        w.cache.nextTrackRef f.fullTrackName = .ok (wb, w'.cache) ∧
      w'.writebacks = w.writebacks.insert w.nextId wb := by
  obtain ⟨⟨started, d⟩, hf, h⟩ := bind_eq_ok.mp h
  unfold Cache.fetch at hf
  cases hl : w.cache.cache.lookup f.fullTrackName with
  | some tref =>
    simp only [hl] at hf
    obtain ⟨task, -, hf⟩ := bind_eq_ok.mp hf
    cases hf
    cases h
    exact .inl ⟨rfl, rfl⟩
  | none =>
    simp only [hl] at hf
    obtain ⟨⟨wb, e⟩, hnew, hf⟩ := bind_eq_ok.mp hf
    cases hf
    cases h
    obtain ⟨d₁, hroom, hcreate⟩ := bind_eq_ok.mp hnew
    exact .inr ⟨d₁, wb, rfl, hroom, hcreate, rfl⟩

theorem KeysOk.fetch {f : Fetch} (hw : w.WF) (hk : w.KeysOk)
    (h : w.step (.fetch f) = .ok w') : w'.KeysOk := by
  rcases fetch_cases h with ⟨hc, hwbs⟩ | ⟨d, wb, hl, hroom, hcreate, hwbs⟩
  · exact hk.of_keepsKeys hw (fun tref => .inl (by rw [hc])) hwbs
  · have hkeep := hk.newTrack_lookup hw hl hroom
    obtain ⟨hfree, hf⟩ := create_lookup hcreate
    obtain ⟨-, htrack, -, -, hkey⟩ := create_result hcreate
    rw [hkeep, ← htrack] at hfree
    have hins := KeysOk.insert (e := ⟨f.end_, f.start, w.nextId⟩) hw hk hkey rfl hfree
      fun tr k => by
      rw [hf tr k, hkeep, htrack]
    refine ⟨?_, fun tref key e he => ?_⟩
    · rw [hwbs]
      exact hins.own
    · rw [hwbs]
      exact hins.entries tref key e he

/-- Every step keeps registrations and writebacks together. -/
theorem KeysOk.step (hw : w.WF) (hk : w.KeysOk) (h : w.step op = .ok w') : w'.KeysOk := by
  cases hop : op.usesKeys with
  | false =>
    have hkeys : KeepsKeys w.cache w'.cache :=
      .of_steps (fun _ _ h => h) ((step_spec hw.refsKnown (opActs_noKeys hop)).steps h)
    exact hk.of_keepsKeys hw hkeys (step_writebacks hop h)
  | true =>
    cases op with
    | fetch f => exact hk.fetch hw h
    | resume id with_ => exact hk.resume hw h
    | deliver id delivery =>
      obtain ⟨wb, res, calls, wb', d, hwb, hd, rfl⟩ := step_deliver h
      have hmoved := deliver_moved (hw.cache.bounded _) (fun key hkey => by
        obtain ⟨e, he, -⟩ := hk.own id wb hwb key hkey
        exact ⟨e, he⟩) hd
      have hins := hk.deliver hwb hmoved 
        (FetchWriteback.Shape.of_deliver (hw.cache.bounded _) hd).sameOwner.track
      exact ⟨hins.own, hins.entries⟩
    | closeWriteback id =>
      obtain ⟨wb, hwb, rfl⟩ := step_closeWriteback h
      exact hk.close hwb
    | _ => simp [Op.usesKeys] at hop

theorem Reaches.keysOk {Q : World → Op → Prop} (h : Reaches Q w) : w.KeysOk := by
  refine h.keeps (I := KeysOk) ?_ fun w op w' hw _ hstep hk => hk.step hw hstep
  intro tracks groups bytes minBytes default_ allowed
  refine ⟨all_empty, fun tref key e he => ?_⟩
  simp [ofCache, Cache.create] at he

end World

end

end Moqx
