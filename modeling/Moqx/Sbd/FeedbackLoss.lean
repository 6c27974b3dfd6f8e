import Moqx.Lib.OrderedMaps
import Moqx.Sbd.ReceiveIntervals

/-! `FeedbackLoss`: the outcomes of packets, counted by the interval in which they were sent. -/
namespace Moqx.Sbd

open OrderedMaps

/-- The number of intervals of a window. -/
def kN : Int := 50

def kLossThreshold : ℚ := 1 / 4

/-- The counts of one send interval. -/
structure Entry where
  interval : Int
  acked : Int
  lost : Int
deriving DecidableEq, Repr

inductive Outcome where
  | acked
  | lost
deriving DecidableEq, Repr

/-- A lost packet that counts as acknowledged after all. -/
def Entry.correct (entry : Entry) : Entry :=
  if entry.lost ≠ 0 then { entry with lost := entry.lost - 1, acked := entry.acked + 1 } else entry

def Entry.count (value : Outcome) (entry : Entry) : Entry :=
  match value with
  | .acked => { entry with acked := entry.acked + 1 }
  | .lost => { entry with lost := entry.lost + 1 }

structure Packet where
  interval : Int
  outcome : Outcome
deriving DecidableEq, Repr

structure FeedbackLoss where
  history : OrderedMap Int Entry := .empty
  packets : OrderedMap Nat Packet := .empty
  latestInterval : Option Int := none

/-- The fields of `Summary` that `apply` reads and writes. -/
structure LossSummary where
  measurementValid : Bool
  skew : ℚ
  acked : Int
  lost : Int
  loss : ℚ
  bottleneck : Bool
deriving DecidableEq, Repr

namespace FeedbackLoss

def expire (s : FeedbackLoss) (interval : Int) : FeedbackLoss :=
  let latest := max (s.latestInterval.getD interval) interval
  -- keep enough history to finalize delayed receiver-time intervals
  let cutoff := latest - 2 * kN
  { history := s.history.eraseWhile fun interval _ => interval ≤ cutoff
    packets := s.packets.eraseWhile fun _ packet => packet.interval ≤ cutoff
    latestInterval := some latest }

def outcome (s : FeedbackLoss) (sentUs : Int) (packetNum : Nat) (value : Outcome) :
    FeedbackLoss × Bool :=
  let interval := sentUs.tdiv kIntervalUs
  let s := s.expire interval
  if s.latestInterval.any fun latest => interval ≤ latest - 2 * kN then (s, true)
  else
    match s.packets.find packetNum with
    | some found =>
      if found.outcome = value ∨ found.outcome = .acked then (s, true)
      else
        ({ s with
          history := s.history.modify found.interval Entry.correct
          packets := s.packets.modify packetNum fun packet => { packet with outcome := .acked } },
          true)
    | none =>
      if s.packets.size ≥ 65536 then (s, false)
      else
        ({ s with
          packets := s.packets.tryEmplace packetNum ⟨interval, value⟩
          history := (s.history.tryEmplace interval ⟨interval, 0, 0⟩).modify interval
            (Entry.count value) }, true)

def acknowledged (s : FeedbackLoss) (sentUs : Int) (packetNum : Nat) : FeedbackLoss × Bool :=
  s.outcome sentUs packetNum .acked

def declaredLost (s : FeedbackLoss) (sentUs : Int) (packetNum : Nat) : FeedbackLoss × Bool :=
  s.outcome sentUs packetNum .lost

def spuriousLoss (s : FeedbackLoss) (sentUs : Int) (packetNum : Nat) : FeedbackLoss × Bool :=
  s.outcome sentUs packetNum .acked

/-- The entries of the window that ends with the interval before `stop`. -/
def inWindow (stop : Int) (entry : Entry) : Bool :=
  ¬ (entry.interval < stop - kN ∨ entry.interval ≥ stop)

def apply (s : FeedbackLoss) (windowEndUs : Int) (summary : LossSummary) :
    FeedbackLoss × LossSummary :=
  let stop := windowEndUs.tdiv kIntervalUs
  let s := s.expire stop
  let counts := s.history.entries.foldl (fun counts entry =>
    if inWindow stop entry.2 then (counts.1 + entry.2.acked, counts.2 + entry.2.lost)
    else counts) ((0 : Int), (0 : Int))
  let total := counts.1 + counts.2
  let loss : ℚ := if total ≠ 0 then counts.2 / total else 0
  (s, { summary with
    acked := counts.1
    lost := counts.2
    loss := loss
    bottleneck := summary.measurementValid && decide (summary.skew < 0 ∨ loss > kLossThreshold) })

end FeedbackLoss

end Moqx.Sbd
