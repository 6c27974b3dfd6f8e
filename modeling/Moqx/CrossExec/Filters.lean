import Moqx.CrossExec.Lifetime

/-! `CrossExecSubgroupFilter` and `FetchCrossExecFilter`: the calls that each forwards and what
their lambdas do. -/
namespace Moqx.CrossExec

/-- The calls of `CrossExecSubgroupFilter`. -/
inductive SubgroupCall (Ext : Type) where
  | object (objectID : Nat) (payload : Option Payload) (extensions : Ext) (finSubgroup : Bool)
  | beginObject (objectID length : Nat) (initialPayload : Option Payload) (extensions : Ext)
  | objectPayload (payload : Option Payload) (finSubgroup : Bool)
  | endOfGroup (endOfGroupObjectID : Nat)
  | endOfTrackAndGroup (endOfTrackObjectID : Nat)
  | endOfSubgroup
  | checkpoint
deriving DecidableEq, Repr

/-- The calls of `FetchCrossExecFilter`. -/
inductive FetchCall (Ext : Type) where
  | object (groupID subgroupID objectID : Nat) (payload : Option Payload) (extensions : Ext)
      (finFetch forwardingPreferenceIsDatagram : Bool)
  | beginObject (groupID subgroupID objectID length : Nat) (initialPayload : Option Payload)
      (extensions : Ext)
  | objectPayload (payload : Option Payload) (finFetch : Bool)
  | endOfGroup (groupID subgroupID objectID : Nat) (finFetch : Bool)
  | endOfTrackAndGroup (groupID subgroupID objectID : Nat)
  | endOfFetch
  | checkpoint
  | endOfUnknownRange (groupID objectID : Nat) (finFetch : Bool)
deriving DecidableEq, Repr

variable {Ext : Type}

instance : Consumer (SubgroupCall Ext) where
  handling
    | .object _ _ _ finSubgroup => .close finSubgroup
    | .beginObject _ _ _ _ => .close false
    | .objectPayload _ finSubgroup => .close finSubgroup
    | .endOfGroup _ => .log
    | .endOfTrackAndGroup _ => .log
    | .endOfSubgroup => .log
    | .checkpoint => .ignore
  track
    | .beginObject _ length initialPayload _, _ => (.beginObject length initialPayload, none)
    | .objectPayload payload _, tracker =>
      let tracked := tracker.consume payload
      (tracked.1, some tracked.2)
    | _, tracker => (tracker, none)

instance : Consumer (FetchCall Ext) where
  handling
    | .object _ _ _ _ _ finFetch _ => .close finFetch
    | .beginObject _ _ _ _ _ _ => .close false
    | .objectPayload _ finFetch => .close finFetch
    | .endOfGroup _ _ _ finFetch => .close finFetch
    | .endOfTrackAndGroup _ _ _ => .log
    | .endOfFetch => .log
    | .checkpoint => .ignore
    | .endOfUnknownRange _ _ finFetch => .close finFetch
  track
    | .beginObject _ _ _ length initialPayload _, _ => (.beginObject length initialPayload, none)
    | .objectPayload payload _, tracker =>
      let tracked := tracker.consume payload
      (tracked.1, some tracked.2)
    | _, tracker => (tracker, none)

/-- The filter that `CrossExecFilter::beginSubgroup` returns, with the lambda it has enqueued. -/
def CrossExecSubgroupFilter.create : Filter (SubgroupCall Ext) where
  downstream := false
  queue := [.begin]

def FetchCrossExecFilter.create : Filter (FetchCall Ext) where
  downstream := true

end Moqx.CrossExec
