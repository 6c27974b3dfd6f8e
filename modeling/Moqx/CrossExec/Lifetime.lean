import Moqx.Lib.Runs
import Moqx.Moxygen

/-! A filter that forwards the calls of a consumer to another executor: `CrossExecBase` and
`CrossExecLifetime`, the queue of the target executor and the references that keep the filter alive.
-/
namespace Moqx.CrossExec

open Runs

inductive ObjectPublishStatus where
  | inProgress
  | done
deriving DecidableEq, Repr

structure ObjectPayloadByteTracker where
  remaining : Nat := 0
deriving DecidableEq, Repr

namespace ObjectPayloadByteTracker

def beginObject (length : Nat) (initialPayload : Option Payload) : ObjectPayloadByteTracker where
  remaining := length - min length (initialPayload.elim 0 List.length)

def consume (tracker : ObjectPayloadByteTracker) (payload : Option Payload) :
    ObjectPayloadByteTracker × ObjectPublishStatus :=
  let remaining := tracker.remaining - min tracker.remaining (payload.elim 0 List.length)
  (⟨remaining⟩, if remaining = 0 then .done else .inProgress)

end ObjectPayloadByteTracker

/-- What the lambda of a call does about the answer of the downstream consumer. -/
inductive Handling where
  /-- An error closes the filter. The last call also releases the filter. -/
  | close (fin : Bool)
  /-- An error of a call that is always the last is logged. -/
  | log
  /-- There is no answer. -/
  | ignore
deriving DecidableEq, Repr

/-- Whether the lambda calls `deactivate`. -/
def Handling.fin : Handling → Bool
  | .close fin => fin
  | .log => true
  | .ignore => false

/-- The calls of a consumer. -/
class Consumer (C : Type) where
  handling : C → Handling
  track : C → ObjectPayloadByteTracker → ObjectPayloadByteTracker × Option ObjectPublishStatus

/-- What waits in the queue of the target executor. -/
inductive Lambda (C : Type) where
  /-- The lambda of `CrossExecFilter::beginSubgroup`, which holds a reference. -/
  | begin
  /-- The lambda of a call, which has the raw `this`. -/
  | forward (c : C)
  /-- The lambda of `enqueueDeactivate`, which holds what was the self-reference. -/
  | guard
  /-- The lambda of `reset`, which holds a reference. -/
  | reset (error : Nat)
deriving DecidableEq, Repr

/-- A call that reaches the downstream consumer. -/
inductive Sent (C : Type) where
  | call (c : C)
  | reset (error : Nat)
deriving DecidableEq, Repr

/-- A filter with the queue of its target executor and with its source. `made` are the calls of the
source, `accepted` those that the filter answered without an error, and `received` what the
downstream consumer got, with its answers. -/
structure Filter (C : Type) where
  downstream : Bool
  deferredError : Option PublishErrorCode := none
  selfGuard : Bool := true
  payloadTracker : ObjectPayloadByteTracker := {}
  queue : List (Lambda C) := []
  sourceHolds : Bool := true
  made : List (Sent C) := []
  accepted : List (Sent C) := []
  received : List (Sent C × Option PublishErrorCode) := []
  beginFailed : Bool := false

inductive Fault where
  | useAfterFree
  | noReference
  | idle
deriving DecidableEq, Repr

/-- A call of the source, the release of its reference, or the run of the next lambda with the
answer that the downstream consumer will give. -/
inductive Event (C : Type) where
  | call (c : C)
  | awaitReadyToConsume
  | reset (error : Nat)
  | drop
  | run (answer : Option PublishErrorCode)
deriving DecidableEq, Repr

section

variable {C : Type} [Consumer C]

/-- The call is the last: a fin call, an end-of call or a reset. -/
def Sent.terminal : Sent C → Bool
  | .call c => (Consumer.handling c).fin
  | .reset _ => true

/-- The lambda keeps the filter alive until it has run. -/
def Lambda.holds : Lambda C → Bool
  | .forward _ => false
  | _ => true

/-- What the lambda will forward. -/
def Lambda.sent : Lambda C → Option (Sent C)
  | .forward c => some (.call c)
  | .reset error => some (.reset error)
  | _ => none

namespace Filter

/-- The number of references to the filter. -/
def references (f : Filter C) : Nat :=
  f.sourceHolds.toNat + f.selfGuard.toNat + f.queue.countP Lambda.holds

def enqueueDeactivate (f : Filter C) : Filter C :=
  if f.selfGuard then { f with selfGuard := false, queue := f.queue ++ [.guard] } else f

def deactivate (f : Filter C) : Filter C := { f with selfGuard := false }

/-- The error is stored. The downstream consumer has been moved out of the filter. -/
def closeWithError (f : Filter C) (code : PublishErrorCode) : Filter C :=
  { f with deferredError := some code, downstream := false }

/-- A forwarding method of the filter, with its result. -/
def call (f : Filter C) (c : C) :
    Filter C × Except PublishErrorCode (Option ObjectPublishStatus) :=
  match f.deferredError with
  | some error => (f.enqueueDeactivate, .error error)
  | none =>
    let tracked := Consumer.track c f.payloadTracker
    ({ f with
      payloadTracker := tracked.1
      queue := f.queue ++ [.forward c] }, .ok tracked.2)

def awaitReadyToConsume (f : Filter C) : Filter C × Except PublishErrorCode Nat :=
  match f.deferredError with
  | some error => (f.enqueueDeactivate, .error error)
  | none => (f, .ok 0)

def reset (f : Filter C) (error : Nat) : Filter C :=
  { f with
    deferredError := some .cancelled
    queue := f.queue ++ [.reset error] }

/-- The downstream consumer gets a call. -/
def deliver (f : Filter C) (c : C) (answer : Option PublishErrorCode) : Filter C :=
  match Consumer.handling c with
  | .close _ =>
    let f := { f with received := f.received ++ [(.call c, answer)] }
    answer.elim f f.closeWithError
  | .log => { f with received := f.received ++ [(.call c, answer)] }
  | .ignore => { f with received := f.received ++ [(.call c, none)] }

def runForward (f : Filter C) (c : C) (answer : Option PublishErrorCode) : Filter C :=
  let f := if f.downstream then f.deliver c answer else f
  if (Consumer.handling c).fin then f.deactivate else f

def runReset (f : Filter C) (error : Nat) : Filter C :=
  let f := if f.downstream then { f with received := f.received ++ [(.reset error, none)] } else f
  f.deactivate

/-- The lambda of `beginSubgroup`: there is a consumer of the subgroup, or an error (which is
WRITE_ERROR when the track has no downstream consumer). -/
def runBegin (f : Filter C) (answer : Option PublishErrorCode) : Filter C :=
  match answer with
  | none => { f with downstream := true }
  | some error => { f.closeWithError error with beginFailed := true }

/-- The target executor runs the lambda that it has taken from the queue. -/
def run (f : Filter C) (answer : Option PublishErrorCode) : Lambda C → Except Fault (Filter C)
  | .begin => .ok (f.runBegin answer)
  | .forward c =>
    if f.references = 0 then .error .useAfterFree else .ok (f.runForward c answer)
  | .guard => .ok f
  | .reset error => .ok (f.runReset error)

/-- The source has made a call and got the answer. -/
def record (f : Filter C) (sent : Sent C) (ok : Bool) : Filter C :=
  { f with
    made := f.made ++ [sent]
    accepted := if ok then f.accepted ++ [sent] else f.accepted }

def called (f : Filter C) (c : C) : Filter C :=
  (f.call c).1.record (.call c) (f.call c).2.isOk

-- `reset` has no answer and is never refused.
def step (f : Filter C) : Event C → Except Fault (Filter C)
  | .call c => if f.sourceHolds then .ok (f.called c) else .error .noReference
  | .awaitReadyToConsume =>
    if f.sourceHolds then .ok f.awaitReadyToConsume.1 else .error .noReference
  | .reset error =>
    if f.sourceHolds then .ok ((f.reset error).record (.reset error) true) else .error .noReference
  | .drop => if f.sourceHolds then .ok { f with sourceHolds := false } else .error .noReference
  | .run answer =>
    match f.queue with
    | [] => .error .idle
    | lambda :: queue => { f with queue := queue }.run answer lambda

variable {f : Filter C}

theorem called_refused (h : f.deferredError ≠ none) (c : C) :
    f.called c = enqueueDeactivate { f with made := f.made ++ [.call c] } := by
  obtain ⟨error, herror⟩ := Option.ne_none_iff_exists'.mp h
  have hcall : f.call c = (f.enqueueDeactivate, .error error) := by
    simp only [call, herror]
  rw [called, hcall]
  unfold enqueueDeactivate
  split <;> rfl

theorem called_accepted (h : f.deferredError = none) (c : C) :
    f.called c = { f with
      made := f.made ++ [.call c]
      payloadTracker := (Consumer.track c f.payloadTracker).1
      queue := f.queue ++ [.forward c]
      accepted := f.accepted ++ [.call c] } := by
  simp only [called, call, h]
  rfl

omit [Consumer C] in
theorem awaitReadyToConsume_cases :
    (f.deferredError ≠ none ∧ f.awaitReadyToConsume.1 = f.enqueueDeactivate) ∨
      f.awaitReadyToConsume.1 = f := by
  unfold awaitReadyToConsume
  cases f.deferredError with
  | some error => exact .inl ⟨by simp, rfl⟩
  | none => exact .inr rfl

end Filter

end

end Moqx.CrossExec
