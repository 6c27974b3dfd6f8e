import Moqx.Sbd.ReceiveIntervals

/-! Every accepted sample counts in the interval in which it was received: what `ReceiveIntervals`
reports over whole sequences of calls. -/
namespace Moqx.Sbd

open Maps Runs

variable {σ τ S : Type}

/-- A measurement with the samples that were accepted and the summaries that were emitted. -/
structure Measurement (σ τ S : Type) where
  receiver : ReceiveIntervals σ τ
  accepted : List (Int × Double) := []
  emitted : List (Summary S) := []

inductive Call where
  | sample (receiveUs : Int) (delayUs : Double)
  | finishThrough (receiveWatermarkUs : Int)
deriving DecidableEq, Repr

namespace Measurement

/-- The interval in which the measurement started. -/
def firstBucket (m : Measurement σ τ S) : Int :=
  (m.accepted.head?.map fun s => s.1 / kIntervalUs).getD 0

/-- The first interval that has not been emitted. -/
def nextBucket (m : Measurement σ τ S) : Int := m.firstBucket + 1 + m.emitted.length

variable {m : Measurement σ τ S}

theorem firstBucket_lt_nextBucket : m.firstBucket < m.nextBucket := by
  unfold nextBucket
  omega

theorem firstBucket_append (hne : m.accepted ≠ []) (receiver : ReceiveIntervals σ τ)
    (s : Int × Double) :
    firstBucket { m with receiver := receiver, accepted := m.accepted ++ [s] } =
      m.firstBucket := by
  simp [firstBucket, List.head?_append_of_ne_nil _ hne]

theorem nextBucket_append (hne : m.accepted ≠ []) (receiver : ReceiveIntervals σ τ)
    (s : Int × Double) :
    nextBucket { m with receiver := receiver, accepted := m.accepted ++ [s] } =
      m.nextBucket := by
  rw [nextBucket, firstBucket_append hne, nextBucket]

theorem nextBucket_emit (receiver : ReceiveIntervals σ τ) (summary : Summary S) :
    nextBucket { m with receiver := receiver, emitted := m.emitted ++ [summary] } =
      m.nextBucket + 1 := by
  simp only [nextBucket, firstBucket, List.length_append, List.length_singleton]
  push_cast
  omega

variable [Estimator σ S] [Estimator τ S]

def start (dcSbd : Bool) : Measurement σ τ S where
  receiver := .new dcSbd

def step (m : Measurement σ τ S) : Call → Except Fault (Measurement σ τ S)
  | .sample receiveUs delayUs => do
    let (receiver, ok) ← m.receiver.sample receiveUs delayUs
    .ok { m with
      receiver := receiver
      accepted := if ok then m.accepted ++ [(receiveUs, delayUs)] else m.accepted }
  | .finishThrough receiveWatermarkUs => do
    let (receiver, summaries) ← m.receiver.finishThrough receiveWatermarkUs
    .ok { m with receiver := receiver, emitted := m.emitted ++ summaries }

/-- A watermark is the receive time of an accepted sample. -/
def FromAccepted (m : Measurement σ τ S) : Call → Prop
  | .sample _ _ => True
  | .finishThrough receiveWatermarkUs => receiveWatermarkUs ∈ m.accepted.map Prod.fst

instance (m : Measurement σ τ S) (call : Call) : Decidable (m.FromAccepted call) := by
  induction call using Call.casesOn <;> unfold FromAccepted <;> infer_instance

end Measurement

variable [Estimator σ S] [Estimator τ S]

/-- The delays of the samples that were received in an interval. -/
def delaysOf (accepted : List (Int × Double)) (bucket : Int) : List Double :=
  (accepted.filter fun s => s.1 / kIntervalUs = bucket).map Prod.snd

/-- The estimate for the delays of one interval, with the two estimators after it. -/
def estimateOf (dcSbd : Bool) (delays : List Double) (detectors : σ × τ) : S × σ × τ :=
  if dcSbd then
    let e := Estimator.finishInterval (delays.foldl Estimator.sample detectors.2)
    (e.1, detectors.1, e.2)
  else
    let e := Estimator.finishInterval (delays.foldl Estimator.sample detectors.1)
    (e.1, e.2, detectors.2)

/-- What fresh estimators report of the first `k` intervals after `first`, one after the other, when
they are given the delays of each. -/
def reports (dcSbd : Bool) (first : Int) (delays : Int → List Double) :
    Nat → List (Summary S) × σ × τ
  | 0 => ([], Estimator.init, Estimator.init)
  | k + 1 =>
    let previous := reports dcSbd first delays k
    let bucket := first + 1 + k
    let e := estimateOf dcSbd (delays bucket) previous.2
    (previous.1 ++ [⟨e.1, bucket * kIntervalUs, (bucket + 1) * kIntervalUs⟩], e.2)

theorem delaysOf_append (accepted : List (Int × Double)) (s : Int × Double) (bucket : Int) :
    delaysOf (accepted ++ [s]) bucket =
      delaysOf accepted bucket ++ if s.1 / kIntervalUs = bucket then [s.2] else [] := by
  unfold delaysOf
  rw [List.filter_append, List.map_append]
  by_cases h : s.1 / kIntervalUs = bucket
  · simp [h]
  · simp [h]

theorem delaysOf_append_ne (accepted : List (Int × Double)) {s : Int × Double} {bucket : Int}
    (h : s.1 / kIntervalUs ≠ bucket) :
    delaysOf (accepted ++ [s]) bucket = delaysOf accepted bucket := by
  rw [delaysOf_append, if_neg h, List.append_nil]

/-- Only the delays of the intervals that are reported matter. -/
theorem reports_congr {dcSbd : Bool} {first : Int} {delays delays' : Int → List Double} {k : Nat}
    (h : ∀ bucket, first < bucket → bucket < first + 1 + k → delays' bucket = delays bucket) :
    (reports dcSbd first delays' k : List (Summary S) × σ × τ) = reports dcSbd first delays k := by
  induction k with
  | zero => rfl
  | succ k ih =>
    have hprev : (reports dcSbd first delays' k : List (Summary S) × σ × τ) =
        reports dcSbd first delays k :=
      ih fun bucket hlow hhigh => h bucket hlow (by push_cast; omega)
    have hlast : delays' (first + 1 + k) = delays (first + 1 + k) :=
      h _ (by omega) (by push_cast; omega)
    simp only [reports, hprev, hlast]

section Arithmetic

variable {x : Int}

theorem checked_ok (hlow : 0 ≤ x) (hhigh : x ≤ int64Max) : checked x = .ok x := by
  unfold checked
  rw [if_pos]
  exact ⟨by unfold int64Max; omega, hhigh⟩

/-- The interval of a time, as the code divides. -/
theorem tdiv_bucket (h : 0 ≤ x) : x.tdiv kIntervalUs = x / kIntervalUs :=
  Int.tdiv_eq_ediv_of_nonneg h

theorem le_bucket_iff {n : Int} : n ≤ x / kIntervalUs ↔ n * kIntervalUs ≤ x := by
  unfold kIntervalUs
  omega

end Arithmetic

/-- The tables of the receiver, in terms of what was accepted and emitted. -/
structure Bucketed (dcSbd : Bool) (m : Measurement σ τ S) : Prop where
  kind : m.receiver.dcSbd = dcSbd
  first : m.accepted ≠ [] → m.receiver.first = some m.firstBucket
  next : m.accepted ≠ [] → m.receiver.next = some m.nextBucket
  idle : m.accepted = [] → m.receiver.next = none ∧ m.emitted = []
  reported : (m.emitted, m.receiver.detector, m.receiver.dcDetector) =
    reports dcSbd m.firstBucket (delaysOf m.accepted) m.emitted.length
  pending : ∀ bucket, m.receiver.buckets.lookup bucket =
    if m.nextBucket ≤ bucket ∧ delaysOf m.accepted bucket ≠ [] then
      some (delaysOf m.accepted bucket) else none
  samples : m.receiver.samples =
    (m.accepted.filter fun s => m.nextBucket ≤ s.1 / kIntervalUs).length
  times : ∀ s ∈ m.accepted, 0 ≤ s.1 ∧ s.1 ≤ int64Max - 10 * kIntervalUs ∧
    m.firstBucket ≤ s.1 / kIntervalUs ∧ s.1 / kIntervalUs ≤ m.nextBucket + 8
  marked : 0 ≤ m.receiver.watermark ∧ m.receiver.watermark ≤ int64Max - 10 * kIntervalUs ∧
    m.receiver.watermark / kIntervalUs ≤ m.nextBucket + 8
  low : 0 ≤ m.firstBucket
  high : m.nextBucket * kIntervalUs ≤ int64Max - 9 * kIntervalUs

namespace Bucketed

open Measurement

variable {dcSbd : Bool} {m : Measurement σ τ S}

theorem start (dcSbd : Bool) : Bucketed dcSbd (Measurement.start dcSbd : Measurement σ τ S) where
  kind := rfl
  first h := absurd rfl h
  next h := absurd rfl h
  idle _ := ⟨rfl, rfl⟩
  reported := rfl
  pending _ := by simp [delaysOf, Measurement.start, ReceiveIntervals.new]
  samples := rfl
  times := by simp [Measurement.start]
  marked := by
    refine ⟨le_rfl, ?_, ?_⟩
    · change (0 : Int) ≤ _
      decide
    · change (0 : Int) / kIntervalUs ≤ 0 + 1 + (0 : Nat) + 8
      decide
  low := le_rfl
  high := by
    change (0 + 1 + (0 : Nat) : Int) * kIntervalUs ≤ _
    decide

/-- The first sample of a measurement. -/
theorem begins (h : Bucketed dcSbd m) (hidle : m.accepted = []) (s : Int × Double) (hlow : 0 ≤ s.1)
    (hhigh : s.1 ≤ int64Max - 10 * kIntervalUs) :
    Bucketed dcSbd { m with
      receiver := { m.receiver with
        first := some (s.1 / kIntervalUs), next := some (s.1 / kIntervalUs + 1) }
      accepted := [s] } := by
  obtain ⟨-, hemitted⟩ := h.idle hidle
  have hnext : (Measurement.nextBucket { m with
      receiver := { m.receiver with
        first := some (s.1 / kIntervalUs), next := some (s.1 / kIntervalUs + 1) }
      accepted := [s] }) = s.1 / kIntervalUs + 1 := by
    simp [Measurement.nextBucket, Measurement.firstBucket, hemitted]
  refine ⟨h.kind, fun _ => rfl, fun _ => congrArg some hnext.symm, by simp,
    ?_, ?_, ?_, ?_, ?_, ?_, ?_⟩
  · have hold := h.reported
    rw [hemitted] at hold ⊢
    exact hold
  · intro bucket
    have hold := h.pending bucket
    rw [hidle, show delaysOf [] bucket = [] from rfl] at hold
    rw [hnext, if_neg]
    · simpa using hold
    · rintro ⟨hle, hdelays⟩
      refine hdelays (delaysOf_append_ne [] (fun heq => ?_))
      omega
  · have hold := h.samples
    rw [hidle] at hold
    simpa [hnext] using hold
  · intro s' hs'
    cases List.mem_singleton.mp hs'
    exact ⟨hlow, hhigh, le_rfl, by omega⟩
  · obtain ⟨hmark0, hmark, hahead⟩ := h.marked
    refine ⟨hmark0, hmark, ?_⟩
    have hbucket : 0 ≤ s.1 / kIntervalUs := Int.ediv_nonneg hlow (by decide)
    simp only [nextBucket, firstBucket, hidle, hemitted] at hahead
    change _ ≤ (0 : Int) + 1 + (0 : Nat) + 8 at hahead
    rw [hnext]
    exact hahead.trans (by omega)
  · exact Int.ediv_nonneg hlow (by decide)
  · rw [hnext]
    have hbucket : s.1 / kIntervalUs * kIntervalUs ≤ s.1 := le_bucket_iff.mp le_rfl
    rw [add_mul]
    omega

/-- A sample that is not in an interval that was emitted, once its delay is in the table. -/
theorem accepts (h : Bucketed dcSbd m) (hne : m.accepted ≠ []) {s : Int × Double} (hlow : 0 ≤ s.1)
    (hhigh : s.1 ≤ int64Max - 10 * kIntervalUs)
    (hahead : s.1 / kIntervalUs ≤ m.nextBucket + 8)
    (hopen : s.1 / kIntervalUs = m.firstBucket ∨ m.nextBucket ≤ s.1 / kIntervalUs)
    {buckets : AList (fun _ : Int => List Double)} {samples : Nat}
    (hbuckets : ∀ bucket, buckets.lookup bucket =
      if m.nextBucket ≤ bucket ∧ delaysOf (m.accepted ++ [s]) bucket ≠ [] then
        some (delaysOf (m.accepted ++ [s]) bucket) else none)
    (hsamples : samples = m.receiver.samples +
      if m.nextBucket ≤ s.1 / kIntervalUs then 1 else 0) :
    Bucketed dcSbd { m with
      receiver := { m.receiver with buckets := buckets, samples := samples }
      accepted := m.accepted ++ [s] } := by
  refine ⟨h.kind, ?_, ?_, by simp, ?_, ?_, ?_, ?_, ?_, ?_, ?_⟩
  · intro _
    rw [firstBucket_append hne]
    exact h.first hne
  · intro _
    rw [nextBucket_append hne]
    exact h.next hne
  · rw [firstBucket_append hne]
    refine h.reported.trans (reports_congr fun bucket hafter hbefore => ?_).symm
    refine delaysOf_append_ne _ ?_
    rintro rfl
    unfold Measurement.nextBucket at hopen
    omega
  · intro bucket
    rw [nextBucket_append hne]
    exact hbuckets bucket
  · rw [nextBucket_append hne]
    change samples = _
    rw [hsamples, h.samples, List.filter_append, List.length_append]
    split <;> simp [*]
  · intro s' hs'
    rw [firstBucket_append hne, nextBucket_append hne]
    rcases List.mem_append.mp hs' with hs' | hs'
    · exact h.times s' hs'
    · cases List.mem_singleton.mp hs'
      refine ⟨hlow, hhigh, ?_, hahead⟩
      have hlt : m.firstBucket < m.nextBucket := firstBucket_lt_nextBucket
      exact hopen.elim (fun heq => heq.ge) fun hle => hlt.le.trans hle
  · rw [nextBucket_append hne]
    exact h.marked
  · rw [firstBucket_append hne]
    exact h.low
  · rw [nextBucket_append hne]
    exact h.high

/-- A sample of the interval in which the measurement started changes nothing. -/
theorem accepts_first (h : Bucketed dcSbd m) (hne : m.accepted ≠ []) (s : Int × Double)
    (hlow : 0 ≤ s.1) (hhigh : s.1 ≤ int64Max - 10 * kIntervalUs)
    (hfirst : s.1 / kIntervalUs = m.firstBucket) :
    Bucketed dcSbd { m with accepted := m.accepted ++ [s] } := by
  have hlt : m.firstBucket < m.nextBucket := firstBucket_lt_nextBucket
  refine h.accepts hne hlow hhigh (by omega) (.inl hfirst) ?_ ?_
  · intro bucket
    rw [h.pending bucket]
    by_cases hbucket : m.nextBucket ≤ bucket
    · rw [delaysOf_append_ne _ (by omega)]
    · simp [hbucket]
  · rw [if_neg (by omega), Nat.add_zero]

/-- A sample of an interval that has not been emitted is put into its bucket. -/
theorem accepts_later (h : Bucketed dcSbd m) (hne : m.accepted ≠ []) (s : Int × Double)
    (hlow : 0 ≤ s.1) (hhigh : s.1 ≤ int64Max - 10 * kIntervalUs)
    (hnext : m.nextBucket ≤ s.1 / kIntervalUs) (hahead : s.1 / kIntervalUs ≤ m.nextBucket + 8) :
    Bucketed dcSbd { m with
      receiver := { m.receiver with
        buckets := m.receiver.buckets.insert (s.1 / kIntervalUs)
          ((m.receiver.buckets.lookup (s.1 / kIntervalUs)).getD [] ++ [s.2])
        samples := m.receiver.samples + 1 }
      accepted := m.accepted ++ [s] } := by
  refine h.accepts hne hlow hhigh hahead (.inr hnext) ?_ (by rw [if_pos hnext])
  intro bucket
  by_cases hbucket : bucket = s.1 / kIntervalUs
  · subst hbucket
    have hold : (m.receiver.buckets.lookup (s.1 / kIntervalUs)).getD [] =
        delaysOf m.accepted (s.1 / kIntervalUs) := by
      rw [h.pending]
      by_cases hempty : delaysOf m.accepted (s.1 / kIntervalUs) = []
      · simp [hempty]
      · simp [hempty, hnext]
    rw [AList.lookup_insert, hold, delaysOf_append, if_pos rfl, if_pos]
    exact ⟨hnext, by simp⟩
  · rw [AList.lookup_insert_ne hbucket, h.pending, delaysOf_append_ne _ (Ne.symm hbucket)]

theorem sample (h : Bucketed dcSbd m) (receiveUs : Int) (delayUs : Double) :
    ∃ receiver ok, m.receiver.sample receiveUs delayUs = .ok (receiver, ok) ∧
      Bucketed dcSbd { m with
        receiver := receiver
        accepted := if ok then m.accepted ++ [(receiveUs, delayUs)] else m.accepted } ∧
      (ok = true → m.emitted = [] ∨ receiveUs / kIntervalUs = m.firstBucket ∨
        m.nextBucket ≤ receiveUs / kIntervalUs) := by
  unfold ReceiveIntervals.sample
  split_ifs with hbad
  · exact ⟨_, _, rfl, h, by simp⟩
  simp only [not_or, not_lt, not_not] at hbad
  obtain ⟨hlow, hhigh, -⟩ := hbad
  have hbucket : receiveUs / kIntervalUs * kIntervalUs ≤ receiveUs := le_bucket_iff.mp le_rfl
  have hbucket0 : 0 ≤ receiveUs / kIntervalUs := Int.ediv_nonneg hlow (by decide)
  rw [tdiv_bucket hlow]
  by_cases hidle : m.accepted = []
  · -- the measurement starts
    obtain ⟨hnext, hemitted⟩ := h.idle hidle
    have hchecked : checked (receiveUs / kIntervalUs + 1) = .ok (receiveUs / kIntervalUs + 1) :=
      checked_ok (by omega) (by unfold kIntervalUs int64Max at *; omega)
    have hbegin : m.receiver.begin (receiveUs / kIntervalUs) = .ok { m.receiver with
        first := some (receiveUs / kIntervalUs), next := some (receiveUs / kIntervalUs + 1) } := by
      simp only [ReceiveIntervals.begin, hnext, Option.isSome_none, Bool.false_eq_true, if_false,
        hchecked]
      rfl
    simp only [hbegin, deref, bind, Except.bind, if_true]
    refine ⟨_, _, rfl, ?_, fun _ => .inl hemitted⟩
    rw [if_pos rfl, hidle]
    exact h.begins hidle (receiveUs, delayUs) hlow hhigh
  · have hbegin : m.receiver.begin (receiveUs / kIntervalUs) = .ok m.receiver := by
      simp [ReceiveIntervals.begin, h.next hidle]
    simp only [hbegin, h.first hidle, h.next hidle, deref, bind, Except.bind]
    split_ifs with hfirst hlate
    · exact ⟨_, _, rfl, h.accepts_first hidle (receiveUs, delayUs) hlow hhigh hfirst,
        fun _ => .inr (.inl hfirst)⟩
    · exact ⟨_, _, rfl, h, by simp⟩
    · have hchecked : checked (receiveUs / kIntervalUs - m.nextBucket) =
          .ok (receiveUs / kIntervalUs - m.nextBucket) := by
        have := h.low
        have := firstBucket_lt_nextBucket (m := m)
        exact checked_ok (by omega) (by unfold kIntervalUs int64Max at *; omega)
      simp only [hchecked]
      rw [not_lt] at hlate
      split_ifs with hrefused
      · exact ⟨_, _, rfl, h, by simp⟩
      · rw [not_or, gt_iff_lt, not_lt] at hrefused
        have hahead : receiveUs / kIntervalUs ≤ m.nextBucket + 8 := by omega
        refine ⟨_, _, rfl, ?_, fun _ => .inr (.inr hlate)⟩
        rw [← h.first hidle, ← h.next hidle]
        exact h.accepts_later hidle (receiveUs, delayUs) hlow hhigh hlate hahead

theorem foldl_sampleDetector (receiver : ReceiveIntervals σ τ) (delays : List Double) :
    delays.foldl ReceiveIntervals.sampleDetector receiver =
      if receiver.dcSbd then
        { receiver with dcDetector := delays.foldl Estimator.sample receiver.dcDetector }
      else { receiver with detector := delays.foldl Estimator.sample receiver.detector } := by
  induction delays generalizing receiver with
  | nil => split <;> rfl
  | cons delay delays ih =>
    rw [List.foldl_cons, ih]
    unfold ReceiveIntervals.sampleDetector
    cases receiver.dcSbd with
    | true => simp
    | false => simp

/-- The samples of the next interval leave the table, and only they count in its estimate. -/
theorem finishEstimate_drain (h : Bucketed dcSbd m) :
    (m.receiver.drain m.nextBucket).finishEstimate =
      let delays := delaysOf m.accepted m.nextBucket
      let e := estimateOf m.receiver.dcSbd delays (m.receiver.detector, m.receiver.dcDetector)
      (e.1, { m.receiver with
        detector := e.2.1
        dcDetector := e.2.2
        samples := m.receiver.samples - delays.length
        buckets := m.receiver.buckets.erase m.nextBucket }) := by
  have hlookup := h.pending m.nextBucket
  unfold ReceiveIntervals.drain ReceiveIntervals.finishEstimate estimateOf
  by_cases hempty : delaysOf m.accepted m.nextBucket = []
  · simp only [hempty, ne_eq, not_true, and_false, if_false] at hlookup
    simp only [hlookup, hempty, erase_of_lookup_none hlookup]
    split <;> rfl
  · simp only [le_refl, hempty, ne_eq, not_false_eq_true, and_self, if_true] at hlookup
    simp only [hlookup, foldl_sampleDetector]
    cases m.receiver.dcSbd with
    | true => rfl
    | false => rfl

theorem length_pending (accepted : List (Int × Double)) (n : Int) :
    (accepted.filter fun s => n ≤ s.1 / kIntervalUs).length =
      (delaysOf accepted n).length +
        (accepted.filter fun s => n + 1 ≤ s.1 / kIntervalUs).length := by
  unfold delaysOf
  rw [List.length_map]
  induction accepted with
  | nil => rfl
  | cons s accepted ih =>
    simp only [List.filter_cons, decide_eq_true_eq]
    rcases lt_trichotomy (s.1 / kIntervalUs) n with hlt | heq | hgt
    · rw [if_neg (by omega), if_neg (by omega), if_neg (by omega), ih]
    · rw [if_pos (by omega), if_pos heq, if_neg (by omega), List.length_cons, List.length_cons, ih]
      omega
    · rw [if_pos (by omega), if_neg (by omega), if_pos (by omega), List.length_cons,
        List.length_cons, ih]
      omega

/-- One interval is finished. -/
theorem finishInterval (h : Bucketed dcSbd m) (hne : m.accepted ≠ [])
    (hroom : (m.nextBucket + 1) * kIntervalUs ≤ int64Max - 9 * kIntervalUs) :
    ∃ receiver summary, m.receiver.finishInterval m.nextBucket = .ok (receiver, summary) ∧
      Bucketed dcSbd { m with receiver := receiver, emitted := m.emitted ++ [summary] } ∧
      receiver.watermark = m.receiver.watermark := by
  have hlow : 0 ≤ m.nextBucket := by
    have := h.low
    have := firstBucket_lt_nextBucket (m := m)
    omega
  have hstart : checked (m.nextBucket * kIntervalUs) = .ok (m.nextBucket * kIntervalUs) := by
    exact checked_ok (by unfold kIntervalUs; omega) (by unfold kIntervalUs at *; omega)
  have hfollowing : checked (m.nextBucket + 1) = .ok (m.nextBucket + 1) :=
    checked_ok (by omega) (by unfold kIntervalUs at *; omega)
  have hend : checked ((m.nextBucket + 1) * kIntervalUs) =
      .ok ((m.nextBucket + 1) * kIntervalUs) :=
    checked_ok (by unfold kIntervalUs; omega) (by unfold kIntervalUs at *; omega)
  unfold ReceiveIntervals.finishInterval
  simp only [hstart, hfollowing, hend, bind, Except.bind, h.finishEstimate_drain]
  refine ⟨_, _, rfl, ⟨h.kind, ?_, ?_, ?_, ?_, ?_, ?_, ?_, ?_, ?_, ?_⟩, rfl⟩
  · exact h.first
  · intro _
    rw [nextBucket_emit]
  · exact fun hidle => absurd hidle hne
  · change _ = reports dcSbd m.firstBucket (delaysOf m.accepted) (m.emitted ++ [_]).length
    rw [h.kind, List.length_append, List.length_singleton, reports, ← h.reported]
    rfl
  · intro bucket
    rw [nextBucket_emit]
    by_cases hbucket : bucket = m.nextBucket
    · subst hbucket
      rw [AList.lookup_erase, if_neg (by omega)]
    · rw [AList.lookup_erase_ne hbucket, h.pending]
      refine if_congr ?_ rfl rfl
      rw [show m.nextBucket ≤ bucket ↔ m.nextBucket + 1 ≤ bucket by omega]
  · rw [nextBucket_emit]
    change m.receiver.samples - (delaysOf m.accepted m.nextBucket).length =
      (m.accepted.filter fun s => m.nextBucket + 1 ≤ s.1 / kIntervalUs).length
    rw [h.samples, length_pending, Nat.add_sub_cancel_left]
  · intro s hs
    obtain ⟨hs0, hs1, hafter, hahead⟩ := h.times s hs
    exact ⟨hs0, hs1, hafter, by rw [nextBucket_emit]; omega⟩
  · obtain ⟨hmark0, hmark, hahead⟩ := h.marked
    exact ⟨hmark0, hmark, by rw [nextBucket_emit]; exact hahead.trans (by omega)⟩
  · exact h.low
  · rw [nextBucket_emit]
    exact hroom

/-- The loop finishes the intervals that end by the watermark. -/
theorem finishLoop {fuel : Nat} (h : Bucketed dcSbd m) (hne : m.accepted ≠ []) (hpos : 0 < fuel)
    (hfuel : m.receiver.watermark / kIntervalUs < m.nextBucket + fuel) :
    ∃ receiver result, ReceiveIntervals.finishLoop fuel m.receiver = .ok (receiver, result) ∧
      Bucketed dcSbd { m with receiver := receiver, emitted := m.emitted ++ result } ∧
      m.nextBucket + result.length ≤ max m.nextBucket (m.receiver.watermark / kIntervalUs) := by
  induction fuel generalizing m with
  | zero => cases hpos
  | succ fuel ih =>
    have hlow : 0 ≤ m.nextBucket := h.low.trans firstBucket_lt_nextBucket.le
    have hhigh := h.high
    have hfollowing : checked (m.nextBucket + 1) = .ok (m.nextBucket + 1) :=
      checked_ok (by omega) (by unfold kIntervalUs int64Max at *; omega)
    have hend : checked ((m.nextBucket + 1) * kIntervalUs) =
        .ok ((m.nextBucket + 1) * kIntervalUs) :=
      checked_ok (by unfold kIntervalUs; omega) (by unfold kIntervalUs at *; omega)
    rw [ReceiveIntervals.finishLoop]
    simp only [h.next hne, deref, hfollowing, hend, bind, Except.bind]
    split_ifs with hdue
    · obtain ⟨-, hmark, -⟩ := h.marked
      obtain ⟨receiver, summary, hfinish, hturn, hwatermark⟩ :=
        h.finishInterval hne (by unfold kIntervalUs at *; omega)
      have hnext := nextBucket_emit receiver summary (m := m)
      rw [← le_bucket_iff] at hdue
      obtain ⟨receiver', result, hloop, hrest, hlength⟩ :=
        ih hturn hne (by push_cast at hfuel; omega)
          (by rw [hnext]; simp only [hwatermark]; push_cast at hfuel; omega)
      rw [hnext] at hlength
      simp only [hwatermark] at hlength
      simp only [hfinish, hloop]
      refine ⟨_, _, rfl, ?_, ?_⟩
      · simpa using hrest
      · rw [List.length_cons]
        push_cast
        omega
    · exact ⟨_, _, rfl, by simpa using h, by simp⟩

/-- A watermark is at most eight intervals ahead. -/
theorem finishThrough (h : Bucketed dcSbd m) {receiveWatermarkUs : Int}
    (haccepted : receiveWatermarkUs ∈ m.accepted.map Prod.fst) :
    ∃ receiver result, m.receiver.finishThrough receiveWatermarkUs = .ok (receiver, result) ∧
      Bucketed dcSbd { m with receiver := receiver, emitted := m.emitted ++ result } ∧
      result.length ≤ 8 := by
  obtain ⟨s, hs, rfl⟩ := List.mem_map.mp haccepted
  have hne : m.accepted ≠ [] := List.ne_nil_of_mem hs
  obtain ⟨hs0, hs1, -, hahead⟩ := h.times s hs
  obtain ⟨hmark0, hmark1, hmark⟩ := h.marked
  have hmoved : Bucketed dcSbd { m with
      receiver := { m.receiver with watermark := max m.receiver.watermark s.1 } } := by
    refine ⟨h.kind, h.first, h.next, h.idle, h.reported, h.pending, h.samples, h.times,
      ?_, h.low, h.high⟩
    rcases max_choice m.receiver.watermark s.1 with heq | heq
    · rw [heq]
      exact h.marked
    · rw [heq]
      exact ⟨hs0, hs1, hahead⟩
  have hwatermark := hmoved.marked
  have hlow : 0 ≤ m.nextBucket := h.low.trans firstBucket_lt_nextBucket.le
  have hfuel : max m.receiver.watermark s.1 / kIntervalUs <
      m.nextBucket + ((max m.receiver.watermark s.1).tdiv kIntervalUs).toNat.succ := by
    rw [tdiv_bucket hwatermark.1]
    push_cast
    omega
  obtain ⟨receiver, result, hloop, hdone, hlength⟩ :=
    hmoved.finishLoop hne (Nat.succ_pos _) hfuel
  refine ⟨receiver, result, ?_, hdone, ?_⟩
  · unfold ReceiveIntervals.finishThrough
    rw [if_neg]
    · exact hloop
    · rw [h.next hne]
      simp [hs0]
  · change m.nextBucket + result.length ≤
      max m.nextBucket (max m.receiver.watermark s.1 / kIntervalUs) at hlength
    have hbound : max m.receiver.watermark s.1 / kIntervalUs ≤ m.nextBucket + 8 := hwatermark.2.2
    omega

end Bucketed

/-- The intervals of the summaries follow one another. -/
theorem reports_interval {dcSbd : Bool} {first : Int} {delays : Int → List Double} {k i : Nat}
    {summary : Summary S}
    (h : (reports dcSbd first delays k : List (Summary S) × σ × τ).1[i]? = some summary) :
    summary.intervalStartUs = (first + 1 + i) * kIntervalUs ∧
      summary.intervalEndUs = (first + 1 + i + 1) * kIntervalUs := by
  have hlength : ∀ k, (reports dcSbd first delays k : List (Summary S) × σ × τ).1.length = k := by
    intro k
    induction k with
    | zero => rfl
    | succ k ih => rw [reports, List.length_append, ih, List.length_singleton]
  induction k with
  | zero => cases h
  | succ k ih =>
    rw [reports, List.getElem?_append, hlength] at h
    split at h
    · exact ih h
    · next hlt =>
      obtain ⟨hi, rfl⟩ := List.getElem?_eq_some_iff.mp h
      rw [List.length_singleton] at hi
      obtain rfl : i = k := by omega
      simp

def Summary.Contains (summary : Summary S) (timeUs : Int) : Prop :=
  summary.intervalStartUs ≤ timeUs ∧ timeUs < summary.intervalEndUs

section Runs

open Measurement

variable {dcSbd : Bool} {m : Measurement σ τ S}

theorem Bucketed.interval (h : Bucketed dcSbd m) {i : Nat} {summary : Summary S}
    (hi : m.emitted[i]? = some summary) :
    summary.intervalStartUs = (m.firstBucket + 1 + i) * kIntervalUs ∧
      summary.intervalEndUs = (m.firstBucket + 1 + i + 1) * kIntervalUs := by
  have hreported : m.emitted = (reports dcSbd m.firstBucket (delaysOf m.accepted)
      m.emitted.length : List (Summary S) × σ × τ).1 := congrArg Prod.fst h.reported
  rw [hreported] at hi
  exact reports_interval hi

/-- No interval that was emitted contains a time of the first or of a later interval. -/
theorem Bucketed.not_contains (h : Bucketed dcSbd m) {timeUs : Int}
    (hopen : m.emitted = [] ∨ timeUs / kIntervalUs = m.firstBucket ∨
      m.nextBucket ≤ timeUs / kIntervalUs) :
    ∀ summary ∈ m.emitted, ¬ summary.Contains timeUs := by
  intro summary hsummary hcontains
  obtain ⟨i, hi⟩ := List.mem_iff_getElem?.mp hsummary
  obtain ⟨hstart, hend⟩ := h.interval hi
  have hlength : i < m.emitted.length := (List.getElem?_eq_some_iff.mp hi).1
  obtain ⟨hlow, hhigh⟩ := hcontains
  rw [hstart, ← le_bucket_iff] at hlow
  rw [hend, ← not_le, ← le_bucket_iff, not_le] at hhigh
  rcases hopen with hopen | hopen | hopen
  · rw [hopen] at hsummary
    cases hsummary
  · omega
  · unfold nextBucket at hopen
    omega

/-- Every call succeeds, emits at most eight intervals and accepts no sample of an interval that was
emitted. -/
theorem Bucketed.step (h : Bucketed dcSbd m) {call : Call} (hcall : m.FromAccepted call) :
    ∃ m', m.step call = .ok m' ∧ Bucketed dcSbd m' ∧
      m'.emitted.length ≤ m.emitted.length + 8 ∧
      ∀ s ∈ m'.accepted.drop m.accepted.length, ∀ summary ∈ m.emitted,
        ¬ summary.Contains s.1 := by
  cases call with
  | sample receiveUs delayUs =>
    obtain ⟨receiver, ok, hsample, hkept, hopen⟩ := h.sample receiveUs delayUs
    simp only [Measurement.step, hsample, bind, Except.bind]
    refine ⟨_, rfl, hkept, Nat.le_add_right _ _, ?_⟩
    intro s hs
    cases ok with
    | true =>
      simp only [if_true, List.drop_left, List.mem_singleton] at hs
      subst hs
      exact h.not_contains (hopen rfl)
    | false => simp at hs
  | finishThrough receiveWatermarkUs =>
    obtain ⟨receiver, result, hfinish, hkept, hlength⟩ := h.finishThrough hcall
    simp only [Measurement.step, hfinish, bind, Except.bind]
    refine ⟨_, rfl, hkept, ?_, ?_⟩
    · rw [List.length_append]
      omega
    · intro s hs
      simp at hs

theorem bucketed_of_reaches (h : Reaches Measurement.step FromAccepted
    (Measurement.start dcSbd) m) : Bucketed dcSbd m := by
  refine h.keeps (Bucketed.start dcSbd) ?_
  intro m call m' hm hcall hstep
  obtain ⟨m'', hstep', hkept, -⟩ := hm.step hcall
  cases hstep.symm.trans hstep'
  exact hkept

/-- The intervals are emitted one after the other, each with exactly the delays of the accepted
samples that were received in it. Samples of later intervals wait in their buckets and are counted.
No call fails, and none emits more than eight intervals or accepts a sample of an emitted one. -/
theorem receive_intervals_exact (h : Reaches Measurement.step FromAccepted
    (Measurement.start dcSbd : Measurement σ τ S) m) :
    (∀ (i : Nat) (summary : Summary S), m.emitted[i]? = some summary →
      summary.intervalStartUs = (m.firstBucket + 1 + i) * kIntervalUs ∧
        summary.intervalEndUs = (m.firstBucket + 1 + i + 1) * kIntervalUs) ∧
    (m.emitted, m.receiver.detector, m.receiver.dcDetector) =
      reports dcSbd m.firstBucket (delaysOf m.accepted) m.emitted.length ∧
    (∀ s ∈ m.accepted, m.firstBucket ≤ s.1 / kIntervalUs) ∧
    (∀ bucket, m.receiver.buckets.lookup bucket =
      if m.nextBucket ≤ bucket ∧ delaysOf m.accepted bucket ≠ [] then
        some (delaysOf m.accepted bucket) else none) ∧
    m.receiver.samples =
      (m.accepted.filter fun s => m.nextBucket ≤ s.1 / kIntervalUs).length ∧
    ∀ call, m.FromAccepted call → ∃ m', m.step call = .ok m' ∧
      m'.emitted.length ≤ m.emitted.length + 8 ∧
      ∀ s ∈ m'.accepted.drop m.accepted.length, ∀ summary ∈ m.emitted,
        ¬ summary.Contains s.1 := by
  have hkept := bucketed_of_reaches h
  refine ⟨fun i summary hi => hkept.interval hi, hkept.reported, ?_, hkept.pending,
    hkept.samples, ?_⟩
  · intro s hs
    exact (hkept.times s hs).2.2.1
  · intro call hcall
    obtain ⟨m', hstep, -, hlength, hnew⟩ := hkept.step hcall
    exact ⟨m', hstep, hlength, hnew⟩

/-- An estimator that reports the delays it was given. -/
instance collected : Estimator (List Double) (List Double) where
  init := []
  sample delays delay := delays ++ [delay]
  finishInterval delays := (delays, [])

/-- Samples of the intervals 0, 1 and 3 and of 1 again, up to the time of the third. -/
def threeIntervals : List Call :=
  [.sample 100 (.finite 7), .sample 400000 (.finite 8), .sample 1050000 (.finite 9),
    .sample 699999 (.finite 10), .finishThrough 1050000]

theorem receive_intervals_exact_three :
    ∃ m : Measurement (List Double) (List Double) (List Double),
      runMeets Measurement.step FromAccepted (.start false) threeIntervals = some m ∧
      m.emitted.map Summary.estimate = [[.finite 8, .finite 10], []] ∧
      m.receiver.samples = 1 ∧
      m.receiver.samples =
        (m.accepted.filter fun s => m.nextBucket ≤ s.1 / kIntervalUs).length := by
  obtain ⟨m, hreach, hmeets, hrun⟩ := reaches_of_elim Measurement.step FromAccepted
    (Measurement.start false : Measurement (List Double) (List Double) (List Double))
    threeIntervals (fun m => decide (m.emitted.map Summary.estimate =
      [[.finite 8, .finite 10], []] ∧ m.receiver.samples = 1)) (by decide +kernel)
  obtain ⟨hemitted, hsamples⟩ := of_decide_eq_true hrun
  exact ⟨m, hmeets, hemitted, hsamples, (receive_intervals_exact hreach).2.2.2.2.1⟩

end Runs

end Moqx.Sbd
