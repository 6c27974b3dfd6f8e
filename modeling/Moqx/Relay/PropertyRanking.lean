import Moqx.Lib.Ranks
import Moqx.Lib.Maps
import Moqx.Cache.Types

/-! `PropertyRanking`: tracks ranked by a property value, and the groups of sessions that receive
the best ones. Every operation answers with the callbacks it fires, each under the group that
fires it. Hash maps and sets are association lists and lists, walked in list order. -/
namespace Moqx

open Maps Ranks

abbrev SessionId := Nat

/-- A higher value is a better rank, and among equal values the earlier arrival. -/
structure RankKey where
  value : Nat
  arrivalSeq : Nat
deriving DecidableEq, Repr

namespace RankKey

instance : LT RankKey :=
  ⟨fun a b => a.value < b.value ∨ (a.value = b.value ∧ b.arrivalSeq < a.arrivalSeq)⟩

instance : LE RankKey :=
  ⟨fun a b => a.value < b.value ∨ (a.value = b.value ∧ b.arrivalSeq ≤ a.arrivalSeq)⟩

theorem lt_def {a b : RankKey} :
    a < b ↔ a.value < b.value ∨ (a.value = b.value ∧ b.arrivalSeq < a.arrivalSeq) := Iff.rfl

theorem le_def {a b : RankKey} :
    a ≤ b ↔ a.value < b.value ∨ (a.value = b.value ∧ b.arrivalSeq ≤ a.arrivalSeq) := Iff.rfl

theorem eq_def {a b : RankKey} : a = b ↔ a.value = b.value ∧ a.arrivalSeq = b.arrivalSeq := by
  cases a
  cases b
  simp

instance (a b : RankKey) : Decidable (a < b) := inferInstanceAs (Decidable (_ ∨ _))

instance (a b : RankKey) : Decidable (a ≤ b) := inferInstanceAs (Decidable (_ ∨ _))

instance : LinearOrder RankKey where
  le_refl a := by rw [le_def]; omega
  le_trans a b c := by simp only [le_def]; omega
  le_antisymm a b := by simp only [le_def, eq_def]; omega
  le_total a b := by simp only [le_def]; omega
  lt_iff_le_not_ge a b := by simp only [le_def, lt_def]; omega
  toDecidableLE := inferInstance
  toDecidableLT := inferInstance
  toDecidableEq := inferInstance

end RankKey

/-- Entry stored in the sorted container. -/
structure RankedEntry where
  ftn : FullTrackName
  publisherRaw : SessionId
deriving DecidableEq, Repr

inductive TrackState where
  | selected
  | deselected
deriving DecidableEq, Repr

/-- Per-session state within a `TopNGroup`. -/
structure SessionInfo where
  forward : Bool := true
  waterlineKey : Option RankKey := none
  selectedTracks : List FullTrackName := []
deriving DecidableEq, Repr

/-- Group of subscribers with the same N value. -/
structure TopNGroup where
  maxSelected : Nat := 0
  sessions : AList (fun _ : SessionId => SessionInfo) := ∅
  trackStates : AList (fun _ : FullTrackName => TrackState) := ∅
  deselectedQueue : List FullTrackName := []

/-- The callbacks into the relay. -/
inductive Callback where
  | onSelected (ftn : FullTrackName) (session : SessionId) (forward : Bool)
  | onBatchSelected (ftn : FullTrackName) (sessions : List (SessionId × Bool))
  | onEvicted (ftn : FullTrackName) (session : SessionId)
deriving DecidableEq, Repr

structure PropertyRanking where
  maxDeselected : Nat
  idleTimeout : Milliseconds
  sweepThrottle : Milliseconds
  lastSweepTime : Option TimePoint := none
  rankedTracks : RankMap RankKey RankedEntry := .empty
  topNGroups : AList (fun _ : Nat => TopNGroup) := ∅
  publisherTrackCount : AList (fun _ : SessionId => Nat) := ∅
  nextSeq : Nat := 0
  selectionThreshold : Nat := 0
  publisherExtendedThreshold : Nat := 0
  sortedThresholds : List Nat := []

/-- What is read from outside when tracks are swept: the clock, and when each track last sent an
object; the epoch stands for never. -/
structure Activity where
  now : TimePoint
  lastActivity : FullTrackName → TimePoint

/-- A group after a change, with the callbacks fired on the way. -/
abbrev GroupChange := TopNGroup × List Callback

def GroupChange.andThen (x : GroupChange) (f : TopNGroup → GroupChange) : GroupChange :=
  ((f x.1).1, x.2 ++ (f x.1).2)

namespace TopNGroup

/-- Evict from the front of the queue while it is too long: the queue, the states and the
callbacks. -/
def trimQueue (maxDeselected : Nat) (sessions : List SessionId) : List FullTrackName →
    AList (fun _ : FullTrackName => TrackState) →
    List FullTrackName × AList (fun _ : FullTrackName => TrackState) × List Callback
  | [], states => ([], states, [])
  | evicted :: rest, states =>
    if maxDeselected < (evicted :: rest).length then
      let (queue, states, callbacks) := trimQueue maxDeselected sessions rest (states.erase evicted)
      (queue, states, sessions.map (.onEvicted evicted) ++ callbacks)
    else (evicted :: rest, states, [])

def trimDeselectedQueue (maxDeselected : Nat) (g : TopNGroup) : GroupChange :=
  let (queue, states, callbacks) :=
    trimQueue maxDeselected g.sessions.keys g.deselectedQueue g.trackStates
  ({ g with deselectedQueue := queue, trackStates := states }, callbacks)

@[simps sessions maxSelected trackStates]
def removeFromDeselectedQueue (g : TopNGroup) (ftn : FullTrackName) : TopNGroup :=
  { g with deselectedQueue := g.deselectedQueue.filter (· ≠ ftn) }

/-- Mark a track as selected. -/
@[simps sessions maxSelected]
def select (g : TopNGroup) (ftn : FullTrackName) : TopNGroup :=
  { g with trackStates := g.trackStates.insert ftn .selected }

/-- Mark a track as deselected, append it to the queue, and trim. -/
def demoteTrack (maxDeselected : Nat) (ftn : FullTrackName) (g : TopNGroup) : GroupChange :=
  { g with
    trackStates := g.trackStates.insert ftn .deselected
    deselectedQueue := g.deselectedQueue ++ [ftn] }.trimDeselectedQueue maxDeselected

end TopNGroup

namespace PropertyRanking

/-- The registered tracks, best first. -/
def names (r : PropertyRanking) : List FullTrackName :=
  r.rankedTracks.entries.map fun e => e.2.ftn

/-- `trackIndexByName_`: the entry of a track in the sorted map. -/
def trackIndexByName (r : PropertyRanking) (ftn : FullTrackName) :
    Option (RankKey × RankedEntry) :=
  r.rankedTracks.entries.find? fun e => e.2.ftn = ftn

/-- The position of a track in the sorted map, `UINT64_MAX` for an unknown one. -/
def getCachedRank (r : PropertyRanking) (ftn : FullTrackName) : Nat :=
  (r.rankedTracks.entries.findIdx? fun e => e.2.ftn = ftn).getD (2 ^ 64 - 1)

def isPublisher (r : PropertyRanking) (session : SessionId) : Bool :=
  (r.publisherTrackCount.lookup session).isSome

/-- The loop of `computeWaterlineKey`, after `nonSelfCount` tracks of others. -/
def waterlineFrom (session : SessionId) (maxSelected : Nat) :
    Nat → List (RankKey × RankedEntry) → Option RankKey
  | _, [] => none
  | nonSelfCount, (key, entry) :: rest =>
    if entry.publisherRaw ≠ session then
      if nonSelfCount + 1 = maxSelected then some key
      else waterlineFrom session maxSelected (nonSelfCount + 1) rest
    else waterlineFrom session maxSelected nonSelfCount rest

def computeWaterlineKey (r : PropertyRanking) (session : SessionId) (maxSelected : Nat) :
    Option RankKey :=
  waterlineFrom session maxSelected 0 r.rankedTracks.entries

/-- The tracks of others at or above a waterline. -/
def aboveWaterline (r : PropertyRanking) (session : SessionId) (waterlineKey : Option RankKey) :
    List FullTrackName :=
  (r.rankedTracks.entries.filter fun e =>
    e.2.publisherRaw ≠ session ∧ waterlineKey.all (· ≤ e.1)).map fun e => e.2.ftn

/-- Recompute a publisher's own selection and fire callbacks for the difference. -/
def reconcilePublisherSelection (r : PropertyRanking) (info : SessionInfo) (maxSelected : Nat)
    (session : SessionId) : SessionInfo × List Callback :=
  let waterlineKey := r.computeWaterlineKey session maxSelected
  let nowSelected := r.aboveWaterline session waterlineKey
  ({ info with waterlineKey := waterlineKey, selectedTracks := nowSelected },
    (info.selectedTracks.filter (· ∉ nowSelected)).map (.onEvicted · session) ++
      (nowSelected.filter (· ∉ info.selectedTracks)).map (.onSelected · session info.forward))

/-- Reconcile the sessions of a group that `p` picks. -/
def reconcileSessions (r : PropertyRanking) (maxSelected : Nat) (p : SessionId → Bool)
    (g : TopNGroup) : GroupChange :=
  let reconciled := fun session info =>
    if p session then (r.reconcilePublisherSelection info maxSelected session).1 else info
  ({ g with sessions := mapVal reconciled g.sessions },
    g.sessions.entries.flatMap fun e =>
      if p e.1 then (r.reconcilePublisherSelection e.2 maxSelected e.1).2 else [])

/-- The sessions of a group that own no track, with their forward flags. -/
def viewers (r : PropertyRanking) (g : TopNGroup) : List (SessionId × Bool) :=
  (g.sessions.entries.filter fun e => !r.isPublisher e.1).map fun e => (e.1, e.2.forward)

/-- One callback for all viewers, if there are any. -/
def batchSelected (ftn : FullTrackName) (viewerBatch : List (SessionId × Bool)) : List Callback :=
  if viewerBatch.isEmpty then [] else [.onBatchSelected ftn viewerBatch]

/-- Tell the sessions of a group about a newly selected track. -/
def notifyTrackSelected (r : PropertyRanking) (ftn : FullTrackName) (g : TopNGroup) :
    GroupChange :=
  let (g', callbacks) := r.reconcileSessions g.maxSelected r.isPublisher g
  (g', callbacks ++ batchSelected ftn (r.viewers g))

/-- Demote the track at rank `n` if it is selected. -/
def demoteTrackAtRank (r : PropertyRanking) (n : Nat) (g : TopNGroup) : GroupChange :=
  match r.names[n]? with
  | some ftn =>
    if g.trackStates.lookup ftn = some .selected then g.demoteTrack r.maxDeselected ftn
    else (g, [])
  | none => (g, [])

/-- Promote the best track that is not selected, other than `excludeFtn`. -/
def promoteNextAvailableTrack (r : PropertyRanking) (excludeFtn : FullTrackName) (g : TopNGroup) :
    GroupChange :=
  match r.names.find? fun ftn =>
      ftn ≠ excludeFtn ∧ g.trackStates.lookup ftn ≠ some .selected with
  | some ftn => r.notifyTrackSelected ftn ((g.select ftn).removeFromDeselectedQueue ftn)
  | none => (g, [])

def setGroup (r : PropertyRanking) (n : Nat) (g : TopNGroup) : PropertyRanking :=
  { r with topNGroups := r.topNGroups.insert n g }

/-- Run a change over all groups. -/
def onGroups (r : PropertyRanking) (f : Nat → TopNGroup → GroupChange) :
    PropertyRanking × List (Nat × Callback) :=
  ({ r with topNGroups := mapVal (fun n g => (f n g).1) r.topNGroups },
    r.topNGroups.entries.flatMap fun e => (f e.1 e.2).2.map fun callback => (e.1, callback))

/-- The largest `N` of all groups. -/
def maxN (r : PropertyRanking) : Nat := r.topNGroups.keys.foldl max 0

/-- The largest `N + selfTrackCount` of all sessions that own tracks, and at least `least`. -/
def maxExtended (r : PropertyRanking) (least : Nat) : Nat :=
  r.topNGroups.entries.foldl (fun best e => e.2.sessions.keys.foldl (fun best session =>
    match r.publisherTrackCount.lookup session with
    | some count => max best (e.1 + count)
    | none => best) best) least

def updateSelectionThreshold (r : PropertyRanking) : PropertyRanking :=
  { r with
    sortedThresholds := r.topNGroups.keys.insertionSort (· ≤ ·)
    selectionThreshold := r.maxN + r.maxDeselected }

def updatePublisherExtendedThreshold (r : PropertyRanking) : PropertyRanking :=
  { r with publisherExtendedThreshold := r.maxExtended 0 + r.maxDeselected }

/-- Whether a rank move may change a selection. -/
def crossesThreshold (r : PropertyRanking) (oldRank newRank : Nat) : Bool :=
  if r.topNGroups.keys.isEmpty then false
  else
    let effectiveThreshold := max r.selectionThreshold r.publisherExtendedThreshold
    if effectiveThreshold ≤ oldRank ∧ effectiveThreshold ≤ newRank then false
    else
      let minRank := min oldRank newRank
      let maxRank := max oldRank newRank
      if decide (oldRank < r.selectionThreshold) ≠ decide (newRank < r.selectionThreshold) then true
      else if (r.sortedThresholds.find? (minRank < ·)).any (· ≤ maxRank) then true
      else if !r.publisherTrackCount.keys.isEmpty then
        minRank < r.maxExtended r.maxN || maxRank < r.maxExtended r.maxN
      else false

/-- A session of a group that may just have begun to publish: what it was sent as a viewer is
taken over before its own selection is computed. -/
def reconcilePublisherInGroup (r : PropertyRanking) (session : SessionId) (n : Nat)
    (g : TopNGroup) : GroupChange :=
  match g.sessions.lookup session with
  | none => (g, [])
  | some info =>
    let wasPublisher := !info.selectedTracks.isEmpty || info.waterlineKey.isSome
    let seeded := (r.names.take n).foldl (fun seen ftn => seen.insert ftn) info.selectedTracks
    let info := if wasPublisher then info else { info with selectedTracks := seeded }
    let (info, callbacks) := r.reconcilePublisherSelection info n session
    ({ g with sessions := g.sessions.insert session info }, callbacks)

def reconcilePublisherInAllGroups (r : PropertyRanking) (session : SessionId) :
    PropertyRanking × List (Nat × Callback) :=
  r.onGroups (r.reconcilePublisherInGroup session)

/-- The ranking with a new track, before any group hears of it. -/
def insertTrack (r : PropertyRanking) (ftn : FullTrackName) (value : Nat) (publisher : SessionId) :
    PropertyRanking :=
  let key : RankKey := ⟨value, r.nextSeq⟩
  let count := (r.publisherTrackCount.lookup publisher).getD 0
  let r := { r with
    nextSeq := r.nextSeq + 1
    publisherTrackCount := r.publisherTrackCount.insert publisher (count + 1) }
  let r := r.updatePublisherExtendedThreshold
  { r with rankedTracks := r.rankedTracks.emplace key ⟨ftn, publisher⟩ }

/-- What a new track of rank `rank` changes in a group. -/
def registerInGroup (r : PropertyRanking) (ftn : FullTrackName) (rank n : Nat) (g : TopNGroup) :
    GroupChange :=
  if rank < n then
    GroupChange.andThen (r.notifyTrackSelected ftn (g.select ftn)) (r.demoteTrackAtRank n)
  else r.reconcileSessions n r.isPublisher g

/-- Register a track. -/
def registerTrack (r : PropertyRanking) (ftn : FullTrackName) (initialPropertyValue : Option Nat)
    (publisher : SessionId) : PropertyRanking × List (Nat × Callback) :=
  if (r.trackIndexByName ftn).isSome then (r, [])
  else
    let r := r.insertTrack ftn (initialPropertyValue.getD 0) publisher
    let rank := r.getCachedRank ftn
    let (r, callbacks) := r.reconcilePublisherInAllGroups publisher
    let (r, callbacks') := r.onGroups (r.registerInGroup ftn rank)
    (r, callbacks ++ callbacks')

/-- Promote the track at rank `n - 1` if it is not selected. -/
def promoteTrackAtRank (r : PropertyRanking) (n : Nat) (g : TopNGroup) : GroupChange :=
  match r.names[n - 1]? with
  | some ftn =>
    if g.trackStates.lookup ftn = some .selected then (g, [])
    else r.notifyTrackSelected ftn ((g.select ftn).removeFromDeselectedQueue ftn)
  | none => (g, [])

/-- The sessions of a group hear of a move of `ftn`: publishers other than its own are
reconciled, viewers are told when it enters the top. -/
def notifyTrackMoved (r : PropertyRanking) (ftn : FullTrackName) (entered : Bool) (n : Nat)
    (g : TopNGroup) : GroupChange :=
  let ftnPublisher := (r.trackIndexByName ftn).map fun e => e.2.publisherRaw
  let (g', callbacks) := r.reconcileSessions n
    (fun session => r.isPublisher session && some session ≠ ftnPublisher) g
  (g', callbacks ++ if entered then batchSelected ftn (r.viewers g) else [])

/-- What a rank move changes in a group. -/
def recomputeGroup (r : PropertyRanking) (ftn : FullTrackName) (oldRank newRank n : Nat)
    (g : TopNGroup) : GroupChange :=
  let wasInTopN : Bool := oldRank < n
  let nowInTopN : Bool := newRank < n
  let changed : GroupChange :=
    if wasInTopN ≠ nowInTopN then
      if nowInTopN then ((g.select ftn).removeFromDeselectedQueue ftn, [])
      else g.demoteTrack r.maxDeselected ftn
    else (g, [])
  let notified := changed.andThen (r.notifyTrackMoved ftn (!wasInTopN && nowInTopN) n)
  if !wasInTopN && nowInTopN then notified.andThen (r.demoteTrackAtRank n)
  else if wasInTopN && !nowInTopN then notified.andThen (r.promoteTrackAtRank n)
  else notified

def recomputeTopNGroups (r : PropertyRanking) (ftn : FullTrackName) (oldRank newRank : Nat) :
    PropertyRanking × List (Nat × Callback) :=
  r.onGroups (r.recomputeGroup ftn oldRank newRank)

/-- Whether a track has been silent for too long. -/
def isIdle (r : PropertyRanking) (activity : Activity) (ftn : FullTrackName) : Bool :=
  activity.lastActivity ftn = 0 ||
    toNanoseconds r.idleTimeout < activity.now - activity.lastActivity ftn

/-- Demote the idle tracks among `selected`, each with a replacement promoted. -/
def sweepTracks (r : PropertyRanking) (activity : Activity) :
    List FullTrackName → TopNGroup → GroupChange
  | [], g => (g, [])
  | ftn :: rest, g =>
    if r.isIdle activity ftn then
      ((g.demoteTrack r.maxDeselected ftn).andThen (r.promoteNextAvailableTrack ftn)).andThen
        (r.sweepTracks activity rest)
    else r.sweepTracks activity rest g

def sweepGroup (r : PropertyRanking) (activity : Activity) (g : TopNGroup) : GroupChange :=
  r.sweepTracks activity
    ((g.trackStates.entries.filter fun e => e.2 = .selected).map fun e => e.1) g

/-- Sweep all selected tracks for idleness. -/
def sweepIdle (r : PropertyRanking) (activity : Activity) :
    PropertyRanking × List (Nat × Callback) :=
  if r.idleTimeout = 0 then (r, [])
  else if 0 < r.sweepThrottle ∧ r.lastSweepTime.any fun last =>
      activity.now - last < toNanoseconds r.sweepThrottle then (r, [])
  else
    let r := { r with lastSweepTime := some activity.now }
    r.onGroups fun _ g => r.sweepGroup activity g

/-- The ranking after a track got a new key. -/
def moveTrack (r : PropertyRanking) (oldKey newKey : RankKey) (entry : RankedEntry) :
    PropertyRanking :=
  { r with rankedTracks := (r.rankedTracks.erase oldKey).emplace newKey entry }

/-- Update a track's sort value. -/
def updateSortValue (r : PropertyRanking) (ftn : FullTrackName) (value : Nat)
    (activity : Activity) : PropertyRanking × List (Nat × Callback) :=
  match r.trackIndexByName ftn with
  | none => (r, [])
  | some (oldKey, entry) =>
    if oldKey.value = value then (r, [])
    else
      let oldRank := r.getCachedRank ftn
      let r := r.moveTrack oldKey ⟨value, oldKey.arrivalSeq⟩ entry
      let newRank := r.getCachedRank ftn
      if r.crossesThreshold oldRank newRank then
        let (r, callbacks) := r.recomputeTopNGroups ftn oldRank newRank
        let (r, callbacks') := r.sweepIdle activity
        (r, callbacks ++ callbacks')
      else (r, [])

/-- One track less for a publisher. -/
def decrementTrackCount (r : PropertyRanking) (publisher : SessionId) : PropertyRanking :=
  match r.publisherTrackCount.lookup publisher with
  | none => r
  | some count =>
    let counts := if count - 1 = 0 then r.publisherTrackCount.erase publisher
      else r.publisherTrackCount.insert publisher (count - 1)
    { r with publisherTrackCount := counts }.updatePublisherExtendedThreshold

/-- The ranking without a track, before any group hears of it. -/
def eraseTrack (r : PropertyRanking) (key : RankKey) (entry : RankedEntry) : PropertyRanking :=
  let r := r.decrementTrackCount entry.publisherRaw
  { r with rankedTracks := r.rankedTracks.erase key }

/-- What the end of a track changes in a group. -/
def removeInGroup (r : PropertyRanking) (ftn : FullTrackName) (g : TopNGroup) : GroupChange :=
  match g.trackStates.lookup ftn with
  | none => (g, [])
  | some state =>
    let g := { g with trackStates := g.trackStates.erase ftn }.removeFromDeselectedQueue ftn
    if state = .selected then
      match g.deselectedQueue with
      | promoted :: rest =>
        r.notifyTrackSelected promoted ({ g with deselectedQueue := rest }.select promoted)
      | [] => r.promoteNextAvailableTrack ftn g
    else (g, [])

/-- Remove a track. -/
def removeTrack (r : PropertyRanking) (ftn : FullTrackName) :
    PropertyRanking × List (Nat × Callback) :=
  match r.trackIndexByName ftn with
  | none => (r, [])
  | some (key, entry) =>
    let r := r.eraseTrack key entry
    r.onGroups fun _ g => r.removeInGroup ftn g

/-- Get or create the group for a given N. -/
def getOrCreateTopNGroup (r : PropertyRanking) (maxSelected : Nat) : PropertyRanking × TopNGroup :=
  match r.topNGroups.lookup maxSelected with
  | some g => (r, g)
  | none =>
    let r := (r.setGroup maxSelected { maxSelected := maxSelected }).updateSelectionThreshold
    let g : TopNGroup :=
      { maxSelected := maxSelected
        trackStates := (r.names.take maxSelected).foldl (fun states ftn =>
          states.insert ftn .selected) ∅ }
    (r.setGroup maxSelected g, g)

/-- Add a session to a group. -/
def addSessionToTopNGroup (r : PropertyRanking) (maxSelected : Nat) (session : SessionId)
    (forward : Bool) : PropertyRanking × List (Nat × Callback) :=
  let (r, g) := r.getOrCreateTopNGroup maxSelected
  let info : SessionInfo := { forward := forward }
  let r := r.setGroup maxSelected { g with sessions := g.sessions.insert session info }
  if r.isPublisher session then
    let r := r.updatePublisherExtendedThreshold
    let (info, callbacks) := r.reconcilePublisherSelection info maxSelected session
    (r.setGroup maxSelected { g with sessions := g.sessions.insert session info },
      callbacks.map fun callback => (maxSelected, callback))
  else
    (r, (r.names.take maxSelected).map fun ftn => (maxSelected, .onSelected ftn session forward))

/-- Update the forward flag of a session in a group. -/
def updateSessionForward (r : PropertyRanking) (maxSelected : Nat) (session : SessionId)
    (forward : Bool) : PropertyRanking :=
  match r.topNGroups.lookup maxSelected with
  | none => r
  | some g =>
    match g.sessions.lookup session with
    | none => r
    | some info => r.setGroup maxSelected
        { g with sessions := g.sessions.insert session { info with forward := forward } }

def removeTopNGroup (r : PropertyRanking) (maxSelected : Nat) : PropertyRanking :=
  { r with topNGroups := r.topNGroups.erase maxSelected }.updateSelectionThreshold

/-- Remove a session from a group. -/
def removeSessionFromTopNGroup (r : PropertyRanking) (maxSelected : Nat) (session : SessionId) :
    PropertyRanking :=
  match r.topNGroups.lookup maxSelected with
  | none => r
  | some g =>
    let wasPublisher := r.isPublisher session
    let g := { g with sessions := g.sessions.erase session }
    let r := r.setGroup maxSelected g
    let r := if g.sessions.keys.isEmpty then r.removeTopNGroup maxSelected else r
    if wasPublisher then r.updatePublisherExtendedThreshold else r

/-- The calls of the relay. -/
inductive Op where
  | registerTrack (ftn : FullTrackName) (initialPropertyValue : Option Nat) (publisher : SessionId)
  | updateSortValue (ftn : FullTrackName) (value : Nat) (activity : Activity)
  | removeTrack (ftn : FullTrackName)
  | getOrCreateTopNGroup (maxSelected : Nat)
  | addSessionToTopNGroup (maxSelected : Nat) (session : SessionId) (forward : Bool)
  | updateSessionForward (maxSelected : Nat) (session : SessionId) (forward : Bool)
  | removeSessionFromTopNGroup (maxSelected : Nat) (session : SessionId)
  | removeTopNGroup (maxSelected : Nat)
  | sweepIdle (activity : Activity)

def step (r : PropertyRanking) : Op → PropertyRanking × List (Nat × Callback)
  | .registerTrack ftn initialPropertyValue publisher =>
    r.registerTrack ftn initialPropertyValue publisher
  | .updateSortValue ftn value activity => r.updateSortValue ftn value activity
  | .removeTrack ftn => r.removeTrack ftn
  | .getOrCreateTopNGroup maxSelected => ((r.getOrCreateTopNGroup maxSelected).1, [])
  | .addSessionToTopNGroup maxSelected session forward =>
    r.addSessionToTopNGroup maxSelected session forward
  | .updateSessionForward maxSelected session forward =>
    (r.updateSessionForward maxSelected session forward, [])
  | .removeSessionFromTopNGroup maxSelected session =>
    (r.removeSessionFromTopNGroup maxSelected session, [])
  | .removeTopNGroup maxSelected => (r.removeTopNGroup maxSelected, [])
  | .sweepIdle activity => r.sweepIdle activity

end PropertyRanking

end Moqx
