import Moqx.Lib.Maps

/-! `WeiDetector`: groups of connections that share a bottleneck, by Algorithm 1. Each call holds
the mutex of the detector, so that a run is a sequence of calls. -/
namespace Moqx.Sbd.Wei

open Maps

inductive State where
  | monitoring
  | judgement
  | finalJudgement
deriving DecidableEq, Repr

inductive EventType where
  | ce
  | loss
deriving DecidableEq, Repr

inductive Stage where
  | preliminary
  | verifyPreliminary
  | verifyFinal
deriving DecidableEq, Repr

structure CongestionEvent where
  type : EventType
  time : Int
  packetIndex : Nat
  count : Nat
deriving DecidableEq

structure Connection where
  peer : String := ""
  eligible : Bool := false
  closed : Bool := false
  state : State := .monitoring
  groupId : Option Nat := none
  ect0 : Nat := 0
  ect1 : Nat := 0
  ce : Nat := 0
  cwndBytes : Nat := 0
  maxDatagramSize : Nat := 0
  sentPackets : Nat := 0
  feedbackWatermark : Nat := 0
  packetIndex : AList (fun _ : Nat => Nat) := ∅
  resolvedPackets : Finset Nat := ∅
  events : List CongestionEvent := []

structure Window where
  anchor : Nat
  half : Nat
  lower : Nat
  upper : Nat
deriving DecidableEq, Repr

structure Observation where
  id : Nat
  stage : Stage
  trigger : String
  triggerTime : Int
  triggerCwndBytes : Nat
  triggerMaxDatagramSize : Nat
  triggerHalf : Nat
  ceDelta : Nat
  groupId : Option Nat
  windows : AList (fun _ : String => Window)

structure Group where
  id : Nat
  confirmed : Bool := false
  members : Finset String
deriving DecidableEq

/-- The results that `logDecision` writes. -/
inductive Result where
  | triggerInactive
  | triggerNoLongerMonitoring
  | noPreliminarySet
  | preliminarySetCreated
  | groupNoLongerExists
  | groupStateChanged
  | confirmedSetVerified
  | preliminarySetConfirmed
  | outsideConnectionMatched
  | memberMissingEvidence
deriving DecidableEq, Repr

/-- An entry of the log of decisions. -/
structure Decision where
  observation : Observation
  members : Finset String
  success : Bool
  result : Result
  groupId : Option Nat

/-- The detector. `decisions` is what `logDecision` has written so far. -/
structure Detector where
  enabled : Bool
  connections : AList (fun _ : String => Connection) := ∅
  groups : AList (fun _ : Nat => Group) := ∅
  observations : List Observation := []
  nextGroupId : Nat := 1
  nextObservationId : Nat := 1
  decisions : List Decision := []

def uint64Max : Nat := 2 ^ 64 - 1

def saturatedAdd (left right : Nat) : Nat :=
  if right > uint64Max - left then uint64Max else left + right

namespace Connection

variable (flow : Connection)

/-- Eligible and not closed. -/
def active : Bool := flow.eligible && !flow.closed

def halfWindow : Nat :=
  if flow.maxDatagramSize = 0 then 0 else flow.cwndBytes / flow.maxDatagramSize / 2

/-- The window around the packet that was sent last. -/
def window : Window where
  anchor := flow.sentPackets
  half := flow.halfWindow
  lower := if flow.sentPackets > flow.halfWindow then flow.sentPackets - flow.halfWindow else 0
  upper := saturatedAdd flow.sentPackets flow.halfWindow

def hasEvidence (window : Window) : Bool :=
  flow.events.any fun event => window.lower ≤ event.packetIndex ∧ event.packetIndex ≤ window.upper

def writePacket (packetNumber : Nat) : Connection :=
  if packetNumber ∈ flow.packetIndex then flow
  else { flow with
    sentPackets := flow.sentPackets + 1
    packetIndex := flow.packetIndex.insert packetNumber (flow.sentPackets + 1) }

def resolvePacket (packetNumber : Nat) : Connection :=
  match flow.packetIndex.lookup packetNumber with
  | none => flow
  | some index => { flow with
    resolvedPackets := insert index flow.resolvedPackets
    packetIndex := flow.packetIndex.erase packetNumber }

/-- The loop that moves the watermark, for at most `n` turns. -/
def moveWatermark : Nat → Connection → Connection
  | 0, flow => flow
  | n + 1, flow =>
    if flow.feedbackWatermark + 1 ∈ flow.resolvedPackets then
      moveWatermark n { flow with
        resolvedPackets := flow.resolvedPackets.erase (flow.feedbackWatermark + 1)
        feedbackWatermark := flow.feedbackWatermark + 1 }
    else flow

def resolvePackets (packetNumbers : List Nat) : Connection :=
  let flow := packetNumbers.foldl resolvePacket flow
  moveWatermark flow.resolvedPackets.card flow

def recordEvent (type : EventType) (time : Int) (count : Nat) : Connection :=
  { flow with events := flow.events ++ [⟨type, time, flow.sentPackets, count⟩] }

end Connection

/-- The state that a verification expects its trigger in. -/
def Stage.expected : Stage → State
  | .verifyPreliminary => .judgement
  | _ => .finalJudgement

namespace Detector

variable (d : Detector)

/-- `connections_[id]`. -/
def connection (id : String) : Connection := (d.connections.lookup id).getD {}

def set (id : String) (flow : Connection) : Detector :=
  { d with connections := d.connections.insert id flow }

/-- The connection is known, eligible and not closed. -/
def active (id : String) : Bool := (d.connections.lookup id).any Connection.active

/-- An active connection outside the groups that has evidence in its window. -/
def monitoringEvidence (id : String) (window : Window) : Bool :=
  (d.connections.lookup id).any fun flow =>
    flow.active && flow.state = .monitoring && flow.hasEvidence window

def memberEvidence (id : String) (window : Window) : Bool :=
  (d.connections.lookup id).any fun flow => flow.active && flow.hasEvidence window

def observationReady (observation : Observation) : Bool :=
  observation.windows.entries.all fun e =>
    (d.connections.lookup e.1).all fun flow =>
      !flow.active || e.2.upper ≤ flow.feedbackWatermark

def logDecision (observation : Observation) (members : Finset String) (success : Bool)
    (result : Result) (groupId : Option Nat) : Detector :=
  { d with decisions := d.decisions ++ [⟨observation, members, success, result, groupId⟩] }

/-- The windows of the other active connections, those of the group included. -/
def candidateWindows (trigger : String) (groupId : Option Nat) : AList (fun _ : String => Window) :=
  mapVal (fun _ flow => flow.window) <| keep (fun id flow =>
    id ≠ trigger && flow.active && (flow.state = .monitoring ||
      (groupId.bind d.groups.lookup).any fun group => id ∈ group.members)) d.connections

def addObservation (trigger : String) (flow : Connection) (triggerTime : Int) (ceDelta : Nat)
    (stage : Stage) (groupId : Option Nat) : Detector :=
  { d with
    nextObservationId := d.nextObservationId + 1
    observations := d.observations ++ [{
      id := d.nextObservationId
      stage := stage
      trigger := trigger
      triggerTime := triggerTime
      triggerCwndBytes := flow.cwndBytes
      triggerMaxDatagramSize := flow.maxDatagramSize
      triggerHalf := flow.halfWindow
      ceDelta := ceDelta
      groupId := groupId
      windows := d.candidateWindows trigger groupId }] }

def startObservation (trigger : String) (flow : Connection) (triggerTime : Int) (ceDelta : Nat) :
    Detector :=
  if flow.state = .monitoring then
    if d.observations.any fun o => o.stage = .preliminary ∧ o.trigger = trigger then d
    else d.addObservation trigger flow triggerTime ceDelta .preliminary none
  else if (flow.groupId.bind d.groups.lookup).isNone then d
  else if d.observations.any fun o => o.groupId = flow.groupId then d
  else d.addObservation trigger flow triggerTime ceDelta
    (if flow.state = .judgement then .verifyPreliminary else .verifyFinal) flow.groupId

def dissolveGroup (groupId : Nat) : Detector :=
  match d.groups.lookup groupId with
  | none => d
  | some group => { d with
    connections := mapVal (fun id flow =>
      if id ∈ group.members then { flow with state := .monitoring, groupId := none } else flow)
      d.connections
    observations := d.observations.filter fun o => o.groupId ≠ some groupId
    groups := d.groups.erase groupId }

/-- The trigger and the connections that have evidence. -/
def preliminarySet (observation : Observation) : Finset String :=
  insert observation.trigger ((observation.windows.entries.filter fun e =>
    d.monitoringEvidence e.1 e.2).map Sigma.fst).toFinset

def createGroup (members : Finset String) : Detector :=
  { d with
    nextGroupId := d.nextGroupId + 1
    groups := d.groups.insert d.nextGroupId { id := d.nextGroupId, members := members }
    connections := mapVal (fun id flow =>
      if id ∈ members then
        { flow with state := .judgement, groupId := some d.nextGroupId }
      else flow)
      d.connections }

def completePreliminary (observation : Observation) : Detector :=
  if (d.connection observation.trigger).state ≠ .monitoring then
    d.logDecision observation ∅ false .triggerNoLongerMonitoring none
  else
    let members := d.preliminarySet observation
    if members.card < 2 then d.logDecision observation members false .noPreliminarySet none
    else
      (d.createGroup members).logDecision observation members true .preliminarySetCreated
        (some d.nextGroupId)

def confirmGroup (group : Group) : Detector :=
  { d with
    groups := d.groups.insert group.id { group with confirmed := true }
    connections := mapVal (fun id flow =>
      if id ∈ group.members then { flow with state := .finalJudgement } else flow) d.connections }

/-- Every other member has evidence in its window. -/
def membersMatch (observation : Observation) (group : Group) : Bool :=
  decide (∀ id ∈ group.members, id ≠ observation.trigger →
    (observation.windows.lookup id).any (d.memberEvidence id))

/-- Some connection outside the group has evidence too. -/
def outsiderMatch (observation : Observation) (group : Group) : Bool :=
  observation.windows.entries.any fun e => e.1 ∉ group.members && d.monitoringEvidence e.1 e.2

def completeVerification (observation : Observation) (group : Group) : Detector :=
  let trigger := d.connection observation.trigger
  if trigger.groupId ≠ observation.groupId ∨ trigger.state ≠ observation.stage.expected then
    d.logDecision observation group.members false .groupStateChanged observation.groupId
  else
    let outsider := d.outsiderMatch observation group
    if d.membersMatch observation group && !outsider then
      if group.confirmed then
        d.logDecision observation group.members true .confirmedSetVerified (some group.id)
      else
        (d.confirmGroup group).logDecision observation group.members true .preliminarySetConfirmed
          (some group.id)
    else
      (d.logDecision observation group.members false
        (if outsider then .outsideConnectionMatched else .memberMissingEvidence)
        (some group.id)).dissolveGroup group.id

def completeObservation (observation : Observation) : Detector :=
  if !d.active observation.trigger then d.logDecision observation ∅ false .triggerInactive none
  else if observation.stage = .preliminary then d.completePreliminary observation
  else
    match observation.groupId.bind d.groups.lookup with
    | none => d.logDecision observation ∅ false .groupNoLongerExists observation.groupId
    | some group => d.completeVerification observation group

/-- The loop that completes what is ready, or nothing if it needs more than `n` turns. -/
def completeLoop : Nat → Detector → Option Detector
  | 0, _ => none
  | n + 1, d =>
    match d.observations.find? d.observationReady with
    | none => some d
    | some observation => completeLoop n (({ d with
        observations := d.observations.eraseP d.observationReady } : Detector).completeObservation
      observation)

def completeReadyObservations : Detector :=
  (completeLoop (d.observations.length + 1) d).getD d

def removeFromDetection (id : String) : Detector :=
  match d.connections.lookup id with
  | none => d
  | some flow =>
    let d := flow.groupId.elim d d.dissolveGroup
    let d := d.set id
      { flow with eligible := false, state := .monitoring, groupId := none, events := [] }
    let d : Detector := { d with
      observations := (d.observations.filter fun o => o.trigger ≠ id).map fun o =>
        { o with windows := o.windows.erase id } }
    d.completeReadyObservations

def attach (id peer : String) : Detector :=
  if !d.enabled || id = "" then d
  else d.set id { d.connection id with peer := peer, closed := false }

def eligible (id : String) (value : Bool) : Detector :=
  if !d.enabled || id = "" then d
  else
    let flow := d.connection id
    let d := d.set id flow
    if flow.eligible = value ∧ !flow.closed then d
    else if !value then d.removeFromDetection id
    else d.set id { flow with
      eligible := true
      closed := false
      state := .monitoring
      groupId := none
      events := []
      packetIndex := ∅
      resolvedPackets := ∅
      sentPackets := 0
      feedbackWatermark := 0 }

def close (id : String) : Detector :=
  if !d.enabled || id = "" then d
  else
    let d := d.removeFromDetection id
    (d.connections.lookup id).elim d fun flow => d.set id { flow with closed := true }

def packetsWritten (id : String) (packetNumbers : List Nat) (cwndBytes maxDatagramSize : Nat) :
    Detector :=
  if !d.enabled || packetNumbers.isEmpty then d
  else d.set id (packetNumbers.foldl Connection.writePacket
    { d.connection id with cwndBytes := cwndBytes, maxDatagramSize := maxDatagramSize })

def ackEcn (id : String) (ackTime : Int) (ackedPacketNumbers : List Nat) (ect0 ect1 ce : Nat)
    (cwndBytes maxDatagramSize : Nat) : Detector :=
  if !d.enabled then d
  else
    let flow := Connection.resolvePackets
      { d.connection id with cwndBytes := cwndBytes, maxDatagramSize := maxDatagramSize }
      ackedPacketNumbers
    let previousCe := flow.ce
    let flow : Connection := { flow with
      ect0 := max flow.ect0 ect0
      ect1 := max flow.ect1 ect1
      ce := max flow.ce ce }
    let deltaCe := flow.ce - previousCe
    let d := if deltaCe ≠ 0 ∧ flow.active then
        let flow := flow.recordEvent .ce ackTime deltaCe
        (d.set id flow).startObservation id flow ackTime deltaCe
      else d.set id flow
    d.completeReadyObservations

def loss (id : String) (lossTime : Int) (lostPacketNumbers : List Nat)
    (cwndBytes maxDatagramSize : Nat) : Detector :=
  if !d.enabled || lostPacketNumbers.isEmpty then d
  else
    let flow := Connection.resolvePackets
      { d.connection id with cwndBytes := cwndBytes, maxDatagramSize := maxDatagramSize }
      lostPacketNumbers
    let flow :=
      if flow.active then flow.recordEvent .loss lossTime lostPacketNumbers.length else flow
    (d.set id flow).completeReadyObservations

end Detector

inductive Call where
  | attach (id peer : String)
  | eligible (id : String) (value : Bool)
  | close (id : String)
  | packetsWritten (id : String) (packetNumbers : List Nat) (cwndBytes maxDatagramSize : Nat)
  | ackEcn (id : String) (ackTime : Int) (ackedPacketNumbers : List Nat) (ect0 ect1 ce : Nat)
    (cwndBytes maxDatagramSize : Nat)
  | loss (id : String) (lossTime : Int) (lostPacketNumbers : List Nat)
    (cwndBytes maxDatagramSize : Nat)
deriving DecidableEq, Repr

def Detector.step (d : Detector) : Call → Detector
  | .attach id peer => d.attach id peer
  | .eligible id value => d.eligible id value
  | .close id => d.close id
  | .packetsWritten id packetNumbers cwndBytes maxDatagramSize =>
    d.packetsWritten id packetNumbers cwndBytes maxDatagramSize
  | .ackEcn id ackTime ackedPacketNumbers ect0 ect1 ce cwndBytes maxDatagramSize =>
    d.ackEcn id ackTime ackedPacketNumbers ect0 ect1 ce cwndBytes maxDatagramSize
  | .loss id lossTime lostPacketNumbers cwndBytes maxDatagramSize =>
    d.loss id lossTime lostPacketNumbers cwndBytes maxDatagramSize

end Moqx.Sbd.Wei
