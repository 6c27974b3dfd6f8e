import Moqx.Keys
import Moqx.Moxygen.Ranked

/-! When an upstream fetch finds its key free: writebacks of one track that cover disjoint
spans never meet, however their registrations move. -/
namespace Moqx

open Moxygen Maps

section
variable [Moxygen] {c c' : Cache}

namespace FetchWriteback

variable {w w' : FetchWriteback}

/-- The locations a registered writeback may still register under. -/
def Covers (w : FetchWriteback) (l : AbsoluteLocation) : Prop :=
  ∃ key ∈ w.fetchInProgressIt, l = key ∨ (key ≤ l ∧ l < w.fetchRangeIt.maxLocation)

/-- A registration fails only on a key that is taken. -/
theorem emplaceAndPinGroup_inserted {loc : AbsoluteLocation} {entry : FetchInProgressEntry}
    (h : w.emplaceAndPinGroup c loc entry = .error (.xcheck "inserted")) :
    (c.tracks w.track).fetchesInProgress.lookup loc ≠ none := by
  intro hfree
  have hfind : Spec (fun _ a => a.isKey = false) (c.register w.track loc entry)
      ((c.register w.track loc entry).findOrEmplaceGroup w.track loc.group) Prod.snd :=
    Cache.findOrEmplaceGroup_spec (fun _ _ => rfl) fun _ => rfl
  simp only [emplaceAndPinGroup, hfree, xcheck, Option.isNone_none, if_true] at h
  rcases bind_eq_error.mp h with h | ⟨_, -, h⟩
  · cases h
  rcases bind_eq_error.mp h with h | ⟨r, -, h⟩
  · obtain ⟨d, -, hfails⟩ := hfind.fails h (by simp)
    obtain ⟨tref, l, entry, hkey, -⟩ := hfails.inserted rfl
    cases hkey
  · rcases bind_eq_error.mp h with h | ⟨d, -, h⟩
    · rcases r.2.removeGroupFromLRU_cases w.track r.1 with hr | ⟨-, hr⟩ <;> rw [hr] at h <;> cases h
    · cases h

theorem create_inserted {id : WritebackId} {start stop : AbsoluteLocation} {proxyFin : Bool}
    {consumer : ConsumerId} {it : FetchRangeIterator} {tref : TrackRef} {ftn : FullTrackName}
    (h : create c id start stop proxyFin consumer it tref ftn = .error (.xcheck "inserted")) :
    (c.tracks tref).fetchesInProgress.lookup start ≠ none := by
  have hoff : SameKeys c (c.takeTrackFromLRU tref) :=
    Prim.sameKeys (.removeTrack c tref) rfl (by simp)
  rcases bind_eq_error.mp h with h | ⟨d, hrem, h⟩
  · rcases c.removeTrackFromLRU_cases tref with ⟨-, hr⟩ | ⟨-, hr⟩ <;> rw [hr] at h <;> cases h
  · cases Cache.removeTrackFromLRU_ok hrem
    have htaken := emplaceAndPinGroup_inserted h
    rw [hoff] at htaken
    exact htaken

/-- Moving a registration fails only on a later key inside the writeback's own range that is
already taken. -/
theorem updateInProgress_inserted (h : w.updateInProgress c = .error (.xcheck "inserted")) :
    ∃ key loc, w.fetchInProgressIt = some key ∧ key.group < loc.group ∧
      loc < w.fetchRangeIt.maxLocation ∧
      (c.tracks w.track).fetchesInProgress.lookup loc ≠ none := by
  unfold updateInProgress eraseAndMakeGroupEvictable at h
  dsimp only at h
  split at h
  · cases h
  · cases h
  · next key hkey hvalid =>
    cases hl : (c.tracks w.track).fetchesInProgress.lookup key with
    | none => simp [hl] at h
    | some old =>
      simp only [hl] at h
      split_ifs at h with hgroup hmax
      refine ⟨key, w.fetchRangeIt.current, hkey, hgroup, hmax, ?_⟩
      have htaken := emplaceAndPinGroup_inserted h
      have hne : w.fetchRangeIt.current ≠ key := by
        intro heq
        rw [heq] at hgroup
        exact Nat.lt_irrefl _ hgroup
      dsimp only at htaken
      rw [releaseKey_fetches, if_pos rfl, erase_lookup, if_neg hne, register_fetches, if_pos rfl,
        insert_lookup, if_neg hne] at htaken
      exact htaken

theorem deliver_inserted {now : TimePoint} {delivery : Delivery}
    (href : (c.tracks w.track).RefsBounded)
    (h : w.deliver c now delivery = .error (.xcheck "inserted")) :
    ∃ key loc, w.fetchInProgressIt = some key ∧ key.group < loc.group ∧
      loc < w.fetchRangeIt.maxLocation ∧
      (c.tracks w.track).fetchesInProgress.lookup loc ≠ none := by
  cases Shape.of_deliver_error href h with
  | fails hd he =>
    obtain ⟨tref, loc, entry, hact, -⟩ := he.inserted rfl
    cases hact with
    | evicts h => exact False.elim h
    | marks h => exact False.elim h
  | updateFails hd hw hup =>
    obtain ⟨key, loc, hkey, hgroup, hmax, htaken⟩ := updateInProgress_inserted hup
    rw [hw.track, fetches_of_body hd.acts] at htaken
    rw [hw.fetchInProgressIt] at hkey
    rw [hw.range.maxLocation] at hmax
    exact ⟨key, loc, hkey, hgroup, hmax, htaken⟩
  | updatedFails hd hw hup he =>
    obtain ⟨tref, loc, entry, hact, -⟩ := (he (fun _ _ => False) c).inserted rfl
    exact False.elim hact

end FetchWriteback

end

/-- No two writebacks of a track cover each other's key. -/
def Apart (wbs : AList fun _ : WritebackId => FetchWriteback) : Prop :=
  ∀ i v j u, wbs.lookup i = some v → wbs.lookup j = some u → i ≠ j → v.track = u.track →
    ∀ key, v.fetchInProgressIt = some key → ¬ u.Covers key

namespace Apart

variable {wbs : AList fun _ : WritebackId => FetchWriteback} {id : WritebackId}
  {wb wb' : FetchWriteback}

theorem insert (h : Apart wbs) (hnew : ∀ i v, wbs.lookup i = some v → i ≠ id →
    v.track = wb.track → (∀ key, v.fetchInProgressIt = some key → ¬ wb.Covers key) ∧
      ∀ key, wb.fetchInProgressIt = some key → ¬ v.Covers key) : Apart (wbs.insert id wb) := by
  intro i v j u hi hj hne htrack key hkey
  rcases lookup_insert_some hi with ⟨rfl, rfl⟩ | ⟨hni, hi'⟩ <;>
    rcases lookup_insert_some hj with ⟨rfl, rfl⟩ | ⟨hnj, hj'⟩
  · exact absurd rfl hne
  · exact (hnew j u hj' hnj htrack.symm).2 key hkey
  · exact (hnew i v hi' hni htrack).1 key hkey
  · exact h i v j u hi' hj' hne htrack key hkey

theorem erase (h : Apart wbs) : Apart (wbs.erase id) := by
  intro i v j u hi hj
  exact h i v j u (lookup_erase_some hi).2 (lookup_erase_some hj).2

/-- A key that moves up inside its own span stays apart from the others. -/
theorem moved (h : Apart wbs) (hl : wbs.lookup id = some wb) (htrack : wb'.track = wb.track)
    (hmax : wb'.fetchRangeIt.maxLocation = wb.fetchRangeIt.maxLocation)
    (hkey : ∀ k, wb'.fetchInProgressIt = some k → ∃ key, wb.fetchInProgressIt = some key ∧
      (k = key ∨ (key.group < k.group ∧ k < wb.fetchRangeIt.maxLocation))) :
    Apart (wbs.insert id wb') := by
  refine h.insert fun i v hv hne htr => ?_
  rw [htrack] at htr
  have hup : ∀ k key : AbsoluteLocation, key.group < k.group → key < k := by
    intro k key hg
    exact .inl hg
  constructor
  · rintro key hvkey ⟨k, hk, hcov⟩
    obtain ⟨old, hold, hmove⟩ := hkey k hk
    refine h i v id wb hv hl hne htr key hvkey ⟨old, hold, ?_⟩
    rw [hmax] at hcov
    rcases hmove with rfl | ⟨hg, hlt⟩
    · exact hcov
    · rcases hcov with rfl | ⟨hle, hlt'⟩
      · exact .inr ⟨(hup _ _ hg).le, hlt⟩
      · exact .inr ⟨(hup _ _ hg).le.trans hle, hlt'⟩
  · rintro k hk ⟨key, hvkey, hcov⟩
    obtain ⟨old, hold, hmove⟩ := hkey k hk
    have hvu := h i v id wb hv hl hne htr key hvkey
    have huv := h id wb i v hl hv (Ne.symm hne) htr.symm old hold
    rcases hmove with rfl | ⟨hg, hlt⟩
    · exact huv ⟨key, hvkey, hcov⟩
    · have hok := hup _ _ hg
      rcases hcov with rfl | ⟨hle, hlt'⟩
      · exact hvu ⟨old, hold, .inr ⟨hok.le, hlt⟩⟩
      · by_cases hko : key ≤ old
        · exact huv ⟨key, hvkey, .inr ⟨hko, hok.trans hlt'⟩⟩
        · have hle' : old ≤ key := (not_le.mp hko).le
          exact hvu ⟨old, hold, .inr ⟨hle', hle.trans_lt hlt⟩⟩

end Apart

/-- The end of a range as a FETCH writes it: object 0 stands for the whole group. -/
def wireEnd (stop : AbsoluteLocation) : AbsoluteLocation :=
  if stop.object = 0 then ⟨stop.group + 1, 0⟩ else stop

theorem le_wireEnd (stop : AbsoluteLocation) : stop ≤ wireEnd stop := by
  unfold wireEnd
  split
  · exact le_of_lt (.inl (Nat.lt_succ_self _))
  · exact le_rfl

/-- A registered writeback stays before its end. -/
def FetchWriteback.InRange (w : FetchWriteback) : Prop :=
  ∀ key, w.fetchInProgressIt = some key →
    key < wireEnd w.end_ ∧ w.fetchRangeIt.maxLocation ≤ wireEnd w.end_

/-- A span that no registered writeback of the track covers or is registered in. -/
def SpanFree (wbs : AList fun _ : WritebackId => FetchWriteback) (tref : TrackRef)
    (span : Interval) : Prop :=
  ∀ id wb, wbs.lookup id = some wb → wb.track = tref → ¬ wb.Covers span.1 ∧
    ∀ key, wb.fetchInProgressIt = some key → ¬ (key = span.1 ∨ (span.1 ≤ key ∧ key < span.2))

/-- The interval has a location, and none in common with what is left of an upstream fetch in
progress on the track: from the key of its writeback to the end stored there. -/
def RangeFree (wbs : AList fun _ : WritebackId => FetchWriteback) (tref : TrackRef)
    (span : Interval) : Prop :=
  span.1 < span.2 ∧ ∀ e ∈ wbs.entries, e.2.track = tref → ∀ key ∈ e.2.fetchInProgressIt,
    wireEnd e.2.end_ ≤ span.1 ∨ span.2 ≤ key

instance (wbs : AList fun _ : WritebackId => FetchWriteback) (tref : TrackRef)
    (span : Interval) : Decidable (RangeFree wbs tref span) := by
  unfold RangeFree
  infer_instance

theorem RangeFree.spanFree {wbs : AList fun _ : WritebackId => FetchWriteback} {tref : TrackRef}
    {span : Interval} (h : RangeFree wbs tref span) (hin : All wbs fun _ wb => wb.InRange) :
    SpanFree wbs tref span := by
  intro id wb hl htrack
  have hapart : ∀ key, wb.fetchInProgressIt = some key →
      wireEnd wb.end_ ≤ span.1 ∨ span.2 ≤ key :=
    h.2 ⟨id, wb⟩ (AList.mem_lookup_iff.mp hl) htrack
  constructor
  · rintro ⟨key, hkey, hcov⟩
    obtain ⟨hlt, hmax⟩ := hin id wb hl key hkey
    have hle : key ≤ span.1 := hcov.elim (fun heq => heq.ge) And.left
    rcases hapart key hkey with hpast | hbefore
    · rcases hcov with heq | ⟨-, hlt'⟩
      · exact absurd (hlt.trans_le hpast) (not_lt_of_ge heq.le)
      · exact absurd (hlt'.trans_le (hmax.trans hpast)) (lt_irrefl _)
    · exact absurd (h.1.trans_le (hbefore.trans hle)) (lt_irrefl _)
  · rintro key hkey hmem
    have hle : span.1 ≤ key := hmem.elim (fun heq => heq.ge) And.left
    rcases hapart key hkey with hpast | hbefore
    · exact absurd (((hin id wb hl key hkey).1.trans_le hpast).trans_le hle) (lt_irrefl _)
    · rcases hmem with heq | ⟨-, hlt⟩
      · exact absurd (h.1.trans_le (hbefore.trans heq.le)) (lt_irrefl _)
      · exact absurd (hlt.trans_le hbefore) (lt_irrefl _)

/-- Upstream fetches on one track stay apart, each before its end. -/
structure Separate (wbs : AList fun _ : WritebackId => FetchWriteback) : Prop where
  apart : Apart wbs
  inRange : All wbs fun _ wb => wb.InRange

section
variable [Moxygen]

theorem FetchTask.fetchUpstream_inserted {task : FetchTask} {c : Cache} {id : WritebackId}
    {interval : Interval} {intervals : List Interval} {after : AfterUpstream}
    (h : task.fetchUpstream c id interval intervals after = .error (.xcheck "inserted")) :
    (c.tracks task.track).fetchesInProgress.lookup interval.1 ≠ none := by
  rcases bind_eq_error.mp h with hend | ⟨stop, -, h⟩
  · -- The adjusted end fails with a message of its own.
    unfold adjFetchEnd at hend
    split_ifs at hend
    split at hend <;> simp at hend
  · rcases bind_eq_error.mp h with hcreate | ⟨r, -, h⟩
    · exact FetchWriteback.create_inserted hcreate
    · cases h

theorem wireEnd_adjFetchEnd {b stop : AbsoluteLocation} (h : FetchTask.adjFetchEnd b = .ok stop) :
    wireEnd stop = b := by
  unfold FetchTask.adjFetchEnd at h
  rw [prevGroup_eq] at h
  split_ifs at h with hobject hgroup
  · cases h
    have hb : b = ⟨b.group - 1 + 1, 0⟩ := by
      rw [Nat.sub_add_cancel hgroup, ← hobject]
    exact hb.symm
  · cases h
    exact if_neg hobject

namespace World

variable {w w' : World} {op : Op}

/-- Every FETCH asks for a location, and a fetch goes upstream only for an interval that no
upstream fetch in progress on its track overlaps. -/
def StartsApart (w : World) : Op → Prop
  | .fetch f => f.start < wireEnd f.end_
  | .resume id _ => ∀ task ∈ w.tasks.lookup id, ∀ span ∈ task.pc.nextSpan,
      RangeFree w.writebacks task.track span
  | _ => True

instance (w : World) (op : Op) : Decidable (StartsApart w op) := by
  induction op using Op.casesOn <;> unfold StartsApart <;> infer_instance

/-- What a new writeback covers is the span of its iterator. -/
theorem Separate.create {wb : FetchWriteback} {span : Interval} {order : GroupOrder}
    {t : CacheTrack} (hs : Separate w.writebacks)
    (hit : wb.fetchRangeIt = .create span.1 span.2 order t)
    (hkey : wb.fetchInProgressIt = some span.1) (hstart : span.1 < wireEnd wb.end_)
    (hstop : span.2 ≤ wireEnd wb.end_) (hfree : SpanFree w.writebacks wb.track span) :
    Separate (w.writebacks.insert w.nextId wb) := by
  have hmax : wb.fetchRangeIt.maxLocation = span.2 := by
    rw [hit, FetchRangeIterator.create_maxLocation]
  refine ⟨hs.apart.insert fun i v hv hne htr => ?_, hs.inRange.insert fun key hk => ?_⟩
  · obtain ⟨hcov, hkeys⟩ := hfree i v hv htr
    constructor
    · rintro key hvk ⟨k, hk, hspan⟩
      rw [hkey, Option.mem_some_iff] at hk
      subst hk
      rw [hmax] at hspan
      exact hkeys key hvk hspan
    · intro key hk
      rw [hkey, Option.some.injEq] at hk
      subst hk
      exact hcov
  · rw [hkey, Option.some.injEq] at hk
    rw [← hk, hmax]
    exact ⟨hstart, hstop⟩

theorem Separate.deliver {id : WritebackId} {delivery : Delivery} (hw : w.WF) (hk : w.KeysOk)
    (hs : Separate w.writebacks) (h : w.step (.deliver id delivery) = .ok w') :
    Separate w'.writebacks := by
  obtain ⟨wb, res, calls, wb', d, hwb, hd, rfl⟩ := step_deliver h
  have hsame := (FetchWriteback.Shape.of_deliver (hw.cache.bounded _) hd).sameOwner
  have hmoved := FetchWriteback.deliver_moved (hw.cache.bounded _) (fun key hkey => by
    obtain ⟨e, he, -⟩ := hk.own id wb hwb key hkey
    exact ⟨e, he⟩) hd
  have hkeys : ∀ k, wb'.fetchInProgressIt = some k → ∃ key, wb.fetchInProgressIt = some key ∧
      (k = key ∨ (key.group < k.group ∧ k < wb.fetchRangeIt.maxLocation)) := fun k hk' => by
    obtain ⟨key, -, -, hkey, -, -, -, hmove⟩ := hmoved.owned k hk'
    exact ⟨key, hkey, hmove.imp_right And.right⟩
  refine ⟨hs.apart.moved hwb hsame.track hsame.range.maxLocation hkeys,
    hs.inRange.insert fun k hk' => ?_⟩
  rw [hsame.end_, hsame.range.maxLocation]
  obtain ⟨key, hkey, hmove⟩ := hkeys k hk'
  obtain ⟨hlt, hmax⟩ := hs.inRange id wb hwb key hkey
  exact ⟨hmove.elim (fun heq => heq ▸ hlt) fun hm => hm.2.trans_le hmax, hmax⟩

/-- A step without registering acts does not fail on a taken key. -/
theorem noKeys_inserted (hw : w.WF) (hacts : OpActs (fun _ a => a.isKey = false) w op) :
    w.step op ≠ .error (.xcheck "inserted") := by
  intro he
  obtain ⟨d, -, hfails⟩ := (step_spec hw.refsKnown hacts).fails he (by simp)
  obtain ⟨tref, l, entry, hkey, -⟩ := hfails.inserted rfl
  cases hkey

/-- Steps that start upstream fetches apart keep all writebacks apart. -/
theorem Separate.step (hw : w.WF) (hk : w.KeysOk) (hs : Separate w.writebacks)
    (hQ : StartsApart w op) (h : w.step op = .ok w') : Separate w'.writebacks := by
  cases hop : op.usesKeys with
  | false =>
    rw [step_writebacks hop h]
    exact hs
  | true =>
    cases op with
    | fetch f =>
      rcases fetch_cases h with ⟨-, hwbs⟩ | ⟨d, wb, -, -, hcreate, hwbs⟩
      · rw [hwbs]
        exact hs
      · obtain ⟨-, htrack, -, hit, hkey⟩ := FetchWriteback.create_result hcreate
        have hend := FetchWriteback.create_end hcreate
        rw [hwbs]
        -- Nothing holds a track that was not there.
        have hfree : SpanFree w.writebacks wb.track (f.start, f.end_) := by
          intro id v hv heq
          have hlt := (hw.writebacks id v hv).1.lt
          rw [heq, htrack] at hlt
          exact absurd hlt (Nat.lt_irrefl _)
        refine Separate.create hs hit hkey ?_ ?_ hfree
        · rw [hend]
          exact hQ
        · rw [hend]
          exact le_wireEnd _
    | resume id with_ =>
      obtain ⟨task, ht, -⟩ := bind_eq_ok.mp h
      have ht := orNoCaller_eq_ok.mp ht
      cases hspan : task.pc.nextSpan with
      | none =>
        rw [resume_writebacks ht hspan h]
        exact hs
      | some span =>
        obtain ⟨stop, lastObject, wb, hstop, hcreate, hwbs⟩ := resume_creates ht hspan h
        obtain ⟨-, htrack, -, hit, hkey⟩ := FetchWriteback.create_result hcreate
        have hfree := hQ task ht span hspan
        have hend : wireEnd wb.end_ = span.2 := by
          rw [FetchWriteback.create_end hcreate, wireEnd_adjFetchEnd hstop]
        rw [hwbs]
        exact Separate.create hs hit hkey (hend ▸ hfree.1) hend.ge
          (htrack ▸ hfree.spanFree hs.inRange)
    | deliver id delivery => exact Separate.deliver hw hk hs h
    | closeWriteback id =>
      obtain ⟨wb, -, rfl⟩ := step_closeWriteback h
      exact ⟨hs.apart.erase, hs.inRange.erase⟩
    | _ => simp [Op.usesKeys] at hop

theorem Reaches.separate (h : Reaches StartsApart w) : Separate w.writebacks := by
  have hkeep : w.KeysOk ∧ Separate w.writebacks := by
    refine h.keeps (I := fun w => w.KeysOk ∧ Separate w.writebacks) ?_ ?_
    · intro tracks groups bytes minBytes default_ allowed
      have hnew : Reaches StartsApart
          (ofCache (.create tracks groups bytes minBytes default_ allowed)) := .create _ _ _ _ _ _
      refine ⟨hnew.keysOk, fun i v j u hi => ?_, all_empty⟩
      simp [ofCache] at hi
    · rintro w op w' hw hQ hstep ⟨hk, hs⟩
      exact ⟨hk.step hw hstep, Separate.step hw hk hs hQ hstep⟩
  exact hkeep.2

theorem resume_inserted {id : ConsumerId} {with_ : Resume} (hw : w.WF) (hk : w.KeysOk)
    (hs : Separate w.writebacks) (hQ : StartsApart w (.resume id with_)) :
    w.step (.resume id with_) ≠ .error (.xcheck "inserted") := by
  cases ht : w.tasks.lookup id with
  | none => simp [step, ht, orNoCaller, bind, Except.bind]
  | some task =>
    cases hspan : task.pc.nextSpan with
    | none => exact noKeys_inserted hw (opActs_resume_noKeys ht hspan)
    | some span =>
      intro he
      obtain ⟨intervals, after, hpc⟩ := nextSpan_eq_some hspan
      have htaken : (w.cache.tracks task.track).fetchesInProgress.lookup span.1 ≠ none := by
        apply FetchTask.fetchUpstream_inserted
        rcases bind_eq_error.mp he with hl | ⟨task', hl, he⟩
        · rw [ht] at hl
          cases hl
        · rw [ht] at hl
          cases hl
          unfold resumeTask at he
          rw [hpc] at he
          cases with_ with
          | consumer => cases he
          | upstream => cases he
          | run =>
            rcases bind_eq_error.mp he with hup | ⟨r, -, he⟩
            · exact hup
            · cases he
      obtain ⟨e, hl⟩ := Option.ne_none_iff_exists'.mp htaken
      obtain ⟨wb, hwb, htr, hkey⟩ := hk.entries _ _ e hl
      have hfree := (hQ task ht span hspan).spanFree hs.inRange
      exact (hfree _ wb hwb htr).1 ⟨span.1, hkey, .inl rfl⟩

theorem fetch_inserted {f : Fetch} (hw : w.WF) (hk : w.KeysOk) :
    w.step (.fetch f) ≠ .error (.xcheck "inserted") := by
  cases hl : w.cache.cache.lookup f.fullTrackName with
  | some tref => exact noKeys_inserted hw fun hnone => by simp [hl] at hnone
  | none =>
    intro he
    simp only [step, Cache.fetch, hl, bind_assoc] at he
    rcases bind_eq_error.mp he with hnew | ⟨r, -, he⟩
    · rcases bind_eq_error.mp hnew with hroom | ⟨d, hroom, hcreate⟩
      · have hspec : Spec (fun _ a => a.isKey = false) (w.cache.emplaceTrack f.fullTrackName)
            (w.cache.emplaceTrack f.fullTrackName).makeRoomForTrack id :=
          Cache.makeRoomForTrack_spec fun _ _ ha => ha.upkeep.isKey
        obtain ⟨d, -, hfails⟩ := hspec.fails hroom (by simp)
        obtain ⟨tref, l, entry, hkey, -⟩ := hfails.inserted rfl
        cases hkey
      · have htaken := FetchWriteback.create_inserted hcreate
        rw [hk.newTrack_lookup hw hl hroom] at htaken
        obtain ⟨e, he⟩ := Option.ne_none_iff_exists'.mp htaken
        obtain ⟨wb, hwb, htr, -⟩ := hk.entries _ _ e he
        have hlt := (hw.writebacks _ wb hwb).1.lt
        rw [htr] at hlt
        exact Nat.lt_irrefl _ hlt
    · cases he

theorem deliver_inserted {id : WritebackId} {delivery : Delivery} (hw : w.WF) (hk : w.KeysOk)
    (ha : Apart w.writebacks) : w.step (.deliver id delivery) ≠ .error (.xcheck "inserted") := by
  intro he
  rcases bind_eq_error.mp he with hno | ⟨wb, hwb, he⟩
  · cases hl : w.writebacks.lookup id <;> simp [hl, orNoCaller] at hno
  · have hwb := orNoCaller_eq_ok.mp hwb
    rcases bind_eq_error.mp he with hd | ⟨r, -, he⟩
    · obtain ⟨key, loc, hkey, hgroup, hmax, htaken⟩ :=
        FetchWriteback.deliver_inserted (hw.cache.bounded _) hd
      obtain ⟨e, hl⟩ := Option.ne_none_iff_exists'.mp htaken
      obtain ⟨v, hv, htr, hvkey⟩ := hk.entries _ _ e hl
      have hlt : key < loc := .inl hgroup
      -- The owner of the taken key is another writeback, whose key lies in the moving one's span.
      have hne : e.writeback ≠ id := by
        intro heq
        rw [heq, hwb, Option.some.injEq] at hv
        rw [← hv, hkey, Option.some.injEq] at hvkey
        exact absurd hvkey (ne_of_lt hlt)
      exact ha _ v id wb hv hwb hne htr loc hvkey ⟨key, hkey, .inr ⟨hlt.le, hmax⟩⟩
    · cases he

/-- While upstream fetches start apart from those in progress on their track, every
registration finds its key free, whatever else happens in between. -/
theorem registration_finds_key_free (h : Reaches StartsApart w) (hQ : StartsApart w op) :
    w.step op ≠ .error (.xcheck "inserted") := by
  have hw := h.wf
  have hk := h.keysOk
  cases op with
  | fetch f => exact fetch_inserted hw hk
  | resume id with_ => exact resume_inserted hw hk h.separate hQ
  | deliver id delivery => exact deliver_inserted hw hk h.separate.apart
  | closeWriteback id =>
    intro he
    rcases bind_eq_error.mp he with hno | ⟨wb, -, he⟩
    · cases hl : w.writebacks.lookup id <;> simp [hl, orNoCaller] at hno
    · split at he <;> simp at he
  | _ => exact noKeys_inserted hw (opActs_noKeys rfl)

end World

end

namespace World

/-- A fetch of all of a group: the wire writes its end as object 0 of that group. -/
def wholeGroup (group : Nat) : Op :=
  .fetch ⟨⟨[], "track"⟩, .oldestFirst, ⟨group, 0⟩, ⟨group, 0⟩⟩

/-- The steps of a fetch of an uncached range up to its first upstream fetch. -/
def goUpstream (id : ConsumerId) : List Op := List.replicate 4 (.resume id .run)

/-- A fetch of all of groups 1 and 2. -/
def twoGroups : Op := .fetch ⟨⟨[], "track"⟩, .oldestFirst, ⟨1, 0⟩, ⟨2, 0⟩⟩

/-- Beside a fetch of group 0, the step that makes the second writeback, and the delivery that moves
its key from group 1 to group 2. -/
theorem registration_finds_key_free_twoGroups :
    (∃ w, runMeets StartsApart (ofCache (.create 100 3 1000 0 none none))
        (wholeGroup 0 :: twoGroups :: List.replicate 3 (.resume 1 .run)) = some w ∧
      (w.step (.resume 1 .run)).toOption.map (fun w' => w'.writebacks.keys) = some [2, 0] ∧
      w.step (.resume 1 .run) ≠ .error (.xcheck "inserted")) ∧
    ∃ w, runMeets StartsApart (ofCache (.create 100 3 1000 0 none none))
        (wholeGroup 0 :: twoGroups :: goUpstream 1) = some w ∧
      (w.step (.deliver 2 (.endOfGroup 1 0 1 false))).toOption.map (fun w' =>
        (w'.writebacks.lookup 2).bind FetchWriteback.fetchInProgressIt) = some (some ⟨2, 0⟩) ∧
      w.step (.deliver 2 (.endOfGroup 1 0 1 false)) ≠ .error (.xcheck "inserted") := by
  have hstart : Reaches StartsApart (ofCache (.create 100 3 1000 0 none none)) :=
    .create _ _ _ _ _ _
  constructor
  · obtain ⟨w, hw, hrun, hend⟩ := hstart.of_elim
      (wholeGroup 0 :: twoGroups :: List.replicate 3 (.resume 1 .run)) (fun w =>
        decide (StartsApart w (.resume 1 .run) ∧
          (w.step (.resume 1 .run)).toOption.map (fun w' => w'.writebacks.keys) = some [2, 0]))
      (by decide +kernel)
    obtain ⟨hapart, hkeys⟩ := of_decide_eq_true hend
    exact ⟨w, hrun, hkeys, registration_finds_key_free hw hapart⟩
  · obtain ⟨w, hw, hrun, hend⟩ := hstart.of_elim (wholeGroup 0 :: twoGroups :: goUpstream 1)
      (fun w => decide ((w.step (.deliver 2 (.endOfGroup 1 0 1 false))).toOption.map (fun w' =>
        (w'.writebacks.lookup 2).bind FetchWriteback.fetchInProgressIt) = some (some ⟨2, 0⟩)))
      (by decide +kernel)
    exact ⟨w, hrun, of_decide_eq_true hend, registration_finds_key_free hw trivial⟩

/-- Two fetches of all of group 0: the entry of the first ends at object 0 of the group, so the
second does not see it, goes upstream as well and finds its key taken. -/
theorem wholeGroup_collides : ((ofCache (.create 100 3 1000 0 none none)).run
    (wholeGroup 0 :: wholeGroup 0 :: goUpstream 1)).map (fun w => w.nextId) =
      .error (.xcheck "inserted") := by
  decide +kernel

end World

end Moqx
