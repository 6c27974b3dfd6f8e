import Moqx.Lib.Maps
import Moqx.Lib.Runs

/-! `ReceiveIntervals`: samples of the one-way delay, put into intervals of the receiver's clock and
handed to an estimator interval by interval. -/
namespace Moqx.Sbd

open Maps Runs

def kIntervalUs : Int := 350000

def int64Max : Int := 9223372036854775807

/-- A double, as far as values are told apart here. -/
inductive Double where
  | finite (value : ℚ)
  | infinite
  | nan
deriving DecidableEq, Repr

def isfinite : Double → Bool
  | .finite _ => true
  | _ => false

inductive Fault where
  | overflow
  | noValue
  | endless
deriving DecidableEq, Repr

/-- The result of arithmetic on `int64_t`. -/
def checked (x : Int) : Except Fault Int :=
  if -int64Max - 1 ≤ x ∧ x ≤ int64Max then .ok x else .error .overflow

def deref {α : Type} : Option α → Except Fault α
  | some a => .ok a
  | none => .error .noValue

/-- What `Detector` and `DcEstimator` have in common. -/
class Estimator (σ : Type) (S : outParam Type) where
  init : σ
  sample : σ → Double → σ
  finishInterval : σ → S × σ

/-- The estimate for an interval and the interval. -/
structure Summary (S : Type) where
  estimate : S
  intervalStartUs : Int
  intervalEndUs : Int
deriving DecidableEq

structure ReceiveIntervals (σ τ : Type) where
  detector : σ
  dcDetector : τ
  buckets : AList (fun _ : Int => List Double) := ∅
  next : Option Int := none
  first : Option Int := none
  watermark : Int := 0
  samples : Nat := 0
  dcSbd : Bool

namespace ReceiveIntervals

variable {σ τ S : Type} [Estimator σ S] [Estimator τ S]

def new (dcSbd : Bool) : ReceiveIntervals σ τ where
  detector := Estimator.init
  dcDetector := Estimator.init
  dcSbd := dcSbd

/-- The first sample starts the measurement. Its interval is partial and is discarded. -/
def begin (r : ReceiveIntervals σ τ) (bucket : Int) : Except Fault (ReceiveIntervals σ τ) :=
  if r.next.isSome then .ok r
  else do
    let next ← checked (bucket + 1)
    .ok { r with first := some bucket, next := some next }

def sample (r : ReceiveIntervals σ τ) (receiveUs : Int) (delayUs : Double) :
    Except Fault (ReceiveIntervals σ τ × Bool) :=
  if receiveUs < 0 ∨ receiveUs > int64Max - 10 * kIntervalUs ∨ ¬ isfinite delayUs then
    .ok (r, false)
  else do
    let bucket := receiveUs.tdiv kIntervalUs
    let r ← r.begin bucket
    let first ← deref r.first
    if bucket = first then .ok (r, true)
    else do
      let next ← deref r.next
      if bucket < next then .ok (r, false)
      else do
        let ahead ← checked (bucket - next)
        if ahead > 8 ∨ r.samples ≥ 65536 then .ok (r, false)
        else .ok ({ r with
          buckets := r.buckets.insert bucket ((r.buckets.lookup bucket).getD [] ++ [delayUs])
          samples := r.samples + 1 }, true)

def sampleDetector (r : ReceiveIntervals σ τ) (delay : Double) : ReceiveIntervals σ τ :=
  if r.dcSbd then { r with dcDetector := Estimator.sample r.dcDetector delay }
  else { r with detector := Estimator.sample r.detector delay }

/-- Hand the samples of an interval to the estimator. -/
def drain (r : ReceiveIntervals σ τ) (next : Int) : ReceiveIntervals σ τ :=
  match r.buckets.lookup next with
  | none => r
  | some delays =>
    let r := delays.foldl sampleDetector r
    { r with samples := r.samples - delays.length, buckets := r.buckets.erase next }

def finishEstimate (r : ReceiveIntervals σ τ) : S × ReceiveIntervals σ τ :=
  if r.dcSbd then
    let e := Estimator.finishInterval r.dcDetector
    (e.1, { r with dcDetector := e.2 })
  else
    let e := Estimator.finishInterval r.detector
    (e.1, { r with detector := e.2 })

/-- The body of the loop of `finishThrough`. -/
def finishInterval (r : ReceiveIntervals σ τ) (next : Int) :
    Except Fault (ReceiveIntervals σ τ × Summary S) := do
  let e := (r.drain next).finishEstimate
  let intervalStartUs ← checked (next * kIntervalUs)
  let following ← checked (next + 1)
  let intervalEndUs ← checked (following * kIntervalUs)
  .ok ({ e.2 with next := some following }, ⟨e.1, intervalStartUs, intervalEndUs⟩)

def finishLoop : Nat → ReceiveIntervals σ τ →
    Except Fault (ReceiveIntervals σ τ × List (Summary S))
  | 0, _ => .error .endless
  | fuel + 1, r => do
    let next ← deref r.next
    let following ← checked (next + 1)
    let intervalEndUs ← checked (following * kIntervalUs)
    if intervalEndUs ≤ r.watermark then do
      let (r, summary) ← r.finishInterval next
      let (r, result) ← finishLoop fuel r
      .ok (r, summary :: result)
    else .ok (r, [])

/-- An interval is finished in each turn of the loop, so the number of intervals up to the watermark
bounds the turns. -/
def finishThrough (r : ReceiveIntervals σ τ) (receiveWatermarkUs : Int) :
    Except Fault (ReceiveIntervals σ τ × List (Summary S)) :=
  if r.next.isNone ∨ receiveWatermarkUs < 0 then .ok (r, [])
  else
    let watermark := max r.watermark receiveWatermarkUs
    finishLoop (watermark.tdiv kIntervalUs).toNat.succ { r with watermark := watermark }

end ReceiveIntervals

end Moqx.Sbd
