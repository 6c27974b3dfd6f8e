import Moqx.Cache.Types

/-! Writing one object into a track: the largest location, the gap extensions, the end
markers and the entry itself. -/
namespace Moqx

open Moxygen

variable [Moxygen]

namespace CacheTrack

def updateLargest (t : CacheTrack) (current : AbsoluteLocation) (eot : Bool) :
    Expected Unit × CacheTrack :=
  if t.largestGroupAndObject.all (fun largest => largest < current) then
    if t.endOfTrack then (malformedTrack "Malformed track", t)
    else (.ok (), t.setInfo eot (some current) t.maxCacheDuration t.extensions t.lastWrite)
  else if eot && t.largestGroupAndObject ≠ some current then
    (malformedTrack "Malformed track", t)
  else (.ok (), t)

def getOrCreateGroup (t : CacheTrack) (groupID : Nat) : GroupRef × CacheTrack :=
  match t.groups.lookup groupID with
  | some ref => (ref, t)
  | none => (t.nextGroupRef, t.emplaceGroup groupID)

def hasObjects (t : CacheTrack) (groupID : Nat) : Bool :=
  (t.group? groupID).any fun g => !g.objects.entries.isEmpty

/-- Prior Group ID Gap: all objects of a group must carry the same value, and only the
nearest `kMaxGapValidation` groups are checked for objects before the gap is recorded. -/
def processPriorGroupGap (t : CacheTrack) (groupID gap : Nat) : Expected Unit × CacheTrack :=
  if groupID < gap then (malformedTrack "Prior Group ID Gap larger than Group ID", t)
  else
    let (ref, t) := t.getOrCreateGroup groupID
    match (t.heap ref).seenPriorGroupIdGap with
    | some seen =>
      if seen ≠ gap then (malformedTrack "Inconsistent Prior Group ID Gap values in group", t)
      else (.ok (), t)
    | none =>
      let t := t.setGroup ref { t.heap ref with seenPriorGroupIdGap := some gap }
      if 0 < gap then
        let checkCount := min gap kMaxGapValidation
        if (List.range' (groupID - checkCount) checkCount).any t.hasObjects then
          (malformedTrack "Prior Group ID Gap covers existing object", t)
        else (.ok (), t.insertGap ⟨groupID - gap, 0⟩ ⟨groupID - 1, kLocationMax.object⟩)
      else (.ok (), t)

/-- Prior Object ID Gap: values may differ between the objects of a group. -/
def processPriorObjectGap (t : CacheTrack) (groupID objectID gap : Nat) :
    Expected Unit × CacheTrack :=
  if objectID < gap then (malformedTrack "Prior Object ID Gap larger than Object ID", t)
  else if 0 < gap then
    let checkCount := min gap kMaxGapValidation
    let (ref, t) := t.getOrCreateGroup groupID
    if (List.range' (objectID - checkCount) checkCount).any
        fun o => ((t.heap ref).objects.lookup o).isSome then
      (malformedTrack "Prior Object ID Gap covers existing object", t)
    else (.ok (), t.insertGap ⟨groupID, objectID - gap⟩ ⟨groupID, objectID - 1⟩)
  else (.ok (), t)

def processPriorObjectExtension (t : CacheTrack) (groupID objectID : Nat) (ext : Extensions) :
    Expected Unit × CacheTrack :=
  match getIntExtension ext kPriorObjectIdGapExtensionType with
  | some gap => t.processPriorObjectGap groupID objectID gap
  | none => (.ok (), t)

def processGapExtensions (t : CacheTrack) (groupID objectID : Nat) (ext : Extensions) :
    Expected Unit × CacheTrack :=
  let priorGroup := match getIntExtension ext kPriorGroupIdGapExtensionType with
    | some gap => t.processPriorGroupGap groupID gap
    | none => (.ok (), t)
  match priorGroup with
  | (.error e, t) => (.error e, t)
  | (.ok _, t) => t.processPriorObjectExtension groupID objectID ext

/-- The rest of a group turns into a gap. -/
def markGroupEnd (t : CacheTrack) (groupID objectID : Nat) : CacheTrack :=
  match nextInGroup ⟨groupID, objectID⟩ with
  | some nextObj => t.insertGap nextObj ⟨groupID, kLocationMax.object⟩
  | none => t

/-- All later groups turn into a gap. -/
def markTrackEnd (t : CacheTrack) (groupID : Nat) : CacheTrack :=
  match nextGroup ⟨groupID, 0⟩ with
  | some nextGrp => t.insertGap nextGrp kLocationMax
  | none => t

/-- END_OF_GROUP and END_OF_TRACK turn the remaining objects and groups into gaps. -/
def markEnd (t : CacheTrack) (ref : GroupRef) (groupID objectID : Nat) (status : ObjectStatus) :
    CacheTrack :=
  if status = .normal then t
  else
    let t := t.markGroupEnd groupID objectID
    let t := if status = .endOfTrack then t.markTrackEnd groupID else t
    t.setGroup ref { t.heap ref with endOfGroup := true }

end CacheTrack

/-- The object a publisher writes: what `cacheObject` takes besides its place. -/
structure ObjectWrite where
  subgroup : Nat
  status : ObjectStatus
  extensions : Extensions
  payload : Option Payload
  complete : Bool
  forwardingPreferenceIsDatagram : Bool
  now : TimePoint

def ObjectWrite.payloadSize (w : ObjectWrite) : Nat := w.payload.elim 0 List.length

def ObjectWrite.toEntry (w : ObjectWrite) : CacheEntry where
  subgroup := w.subgroup
  status := w.status
  extensions := w.extensions
  payload := w.payload
  payloadSize := w.payloadSize
  complete := w.complete
  forwardingPreferenceIsDatagram := w.forwardingPreferenceIsDatagram
  cachedAt := w.now

namespace CacheGroup

/-- The reason for refusing to overwrite an entry, if there is one. -/
def overwriteError (cached : CacheEntry) (w : ObjectWrite) : Option String :=
  if w.status ≠ cached.status then some "Invalid status change"
  else if w.status = .normal ∧ cached.complete ∧
      (w.payload.isSome ≠ cached.payload.isSome ∨
        (w.payload.isSome ∧ w.payloadSize ≠ cached.payloadSize)) then
    some "payload mismatch"
  else if cached.forwardingPreferenceIsDatagram ≠ w.forwardingPreferenceIsDatagram then
    some "forwardingPreference mismatch"
  else none

/-- An overwrite keeps the subgroup of the first write. -/
def overwriteEntry (cached : CacheEntry) (w : ObjectWrite) : CacheEntry :=
  { w.toEntry with subgroup := cached.subgroup }

/-- Put the entry into the object map and keep the byte counter and the largest id. -/
def putObject (g : CacheGroup) (objectID : Nat) (w : ObjectWrite) :
    Except Abort (Expected CacheGroup) :=
  match g.objects.lookup objectID with
  | some cached =>
    match overwriteError cached w with
    | some msg => .ok (malformedTrack msg)
    | none => do
      let totalBytes ← subSize g.totalBytes cached.payloadSize
      .ok (.ok { g with
        objects := g.objects.insert objectID (overwriteEntry cached w)
        totalBytes := totalBytes + w.payloadSize
        maxCachedObject := max g.maxCachedObject objectID })
  | none =>
    .ok (.ok { g with
      objects := g.objects.insert objectID w.toEntry
      totalBytes := g.totalBytes + w.payloadSize
      maxCachedObject := max g.maxCachedObject objectID })

end CacheGroup

namespace CacheTrack

/-- The track after the object at `l` changed the group `ref` to `g`; a complete object is
part of the content. -/
def storeObject (t : CacheTrack) (ref : GroupRef) (g : CacheGroup) (l : AbsoluteLocation)
    (complete : Bool) : CacheTrack :=
  { t.setGroup ref g with
    cachedContent := if complete then insert t.cachedContent l l else t.cachedContent }

/-- `CacheGroup::cacheObject` on the group `ref`, which the caller holds. -/
def cacheObject (t : CacheTrack) (ref : GroupRef) (groupID objectID : Nat) (w : ObjectWrite) :
    Except Abort (Expected Unit × CacheTrack) :=
  if contains t.gaps ⟨groupID, objectID⟩ then .ok (malformedTrack "Object in known gap", t)
  else
    match t.processGapExtensions groupID objectID w.extensions with
    | (.error e, t) => .ok (.error e, t)
    | (.ok _, t) => do
      let t := t.markEnd ref groupID objectID w.status
      match ← (t.heap ref).putObject objectID w with
      | .error e => .ok (.error e, t)
      | .ok g => .ok (.ok (), t.storeObject ref g ⟨groupID, objectID⟩ w.complete)

end CacheTrack

end Moqx
