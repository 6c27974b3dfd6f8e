import Moqx.Cache.Types

/-! The pure range computations of the fetch path: where iteration resumes after a gap, how
a run of misses is split into upstream fetches, and which ranges a writeback marks. -/
namespace Moqx

open Moxygen

variable [Moxygen]

abbrev Interval := AbsoluteLocation × AbsoluteLocation

/-- The next position after a gap when groups are walked from high to low. -/
def computeDescendingAfterGap (current gapStart minLocation : AbsoluteLocation) :
    Option AbsoluteLocation :=
  let clamp (l : AbsoluteLocation) : AbsoluteLocation :=
    if l.group = minLocation.group then ⟨l.group, minLocation.object⟩ else l
  if 0 < gapStart.object ∧ gapStart.group ≠ current.group then some (clamp ⟨gapStart.group, 0⟩)
  else (prevGroup gapStart).map clamp

/-- Splits one contiguous cache miss region into half-open upstream intervals. -/
def getFetchIntervals (start stop missLocation hitLocation : AbsoluteLocation)
    (order : GroupOrder) (isTail : Bool) : List Interval :=
  if order ≠ .newestFirst then [(missLocation, if isTail then stop else hitLocation)]
  else if missLocation.group = hitLocation.group then
    [(missLocation, if isTail then (nextGroup missLocation).getD stop else hitLocation)]
  else
    let intervalEnd :=
      if missLocation.group = stop.group then stop else (nextGroup missLocation).getD stop
    let numIntermediateGroups := u64Sub (u64Sub missLocation.group hitLocation.group) 1
    let upperPart :=
      if 0 < numIntermediateGroups then
        if missLocation.object = 0 then
          -- The miss starts its group, so the intermediate groups join its interval.
          [(max start ⟨u64Sub missLocation.group numIntermediateGroups, 0⟩, intervalEnd)]
        else
          [(missLocation, intervalEnd),
            (⟨hitLocation.group + 1,
              if start.group = hitLocation.group + 1 then start.object else 0⟩,
              ⟨missLocation.group, 0⟩)]
      else [(missLocation, intervalEnd)]
    let lastStart := if start.group = hitLocation.group then start else ⟨hitLocation.group, 0⟩
    upperPart ++
      if hitLocation.object ≠ 0 ∧ lastStart < hitLocation then [(lastStart, hitLocation)] else []

/-- Whether nothing lies between two positions in iteration order. -/
def gapRangeIsEmpty (start stop : AbsoluteLocation) (order : GroupOrder) : Bool :=
  if order ≠ .newestFirst then stop ≤ start
  else start.group < stop.group || (start.group = stop.group && stop.object ≤ start.object)

/-- The ranges between two positions of different groups when groups are walked down: the
rest of the upper group, the groups between, and the passed part of the lower group. -/
def getDescendingGapRanges (start stop fetchStart fetchEnd : AbsoluteLocation) :
    Except Abort (List Interval) :=
  let startGroupEnd :=
    if start.group = fetchEnd.group then prevInGroup fetchEnd
    else some ⟨start.group, kLocationMax.object⟩
  let endGroupStart := if stop.group = fetchStart.group then fetchStart else ⟨stop.group, 0⟩
  match startGroupEnd, nextGroup stop, prevGroupEnd start with
  | none, _, _ => .error .nullDeref
  | some startGroupEnd, some endNextGroup, some startPrevGroupEnd =>
    let between := if endNextGroup.group ≤ startPrevGroupEnd.group then
      [(endNextGroup, startPrevGroupEnd)] else []
    if endGroupStart < stop then
      match prevInGroup stop with
      | some prev => .ok ((start, startGroupEnd) :: between ++ [(endGroupStart, prev)])
      | none => .error .nullDeref
    else .ok ((start, startGroupEnd) :: between)
  | _, _, _ => .error (.xcheck "endNextGroup && startPrevGroupEnd")

/-- The closed ranges to mark as gaps between two positions of a writeback's iterator. -/
def getGapRanges (start stop : AbsoluteLocation) (order : GroupOrder)
    (fetchStart fetchEnd : AbsoluteLocation) : Except Abort (List Interval) :=
  if gapRangeIsEmpty start stop order then .ok []
  else if start.group = stop.group then
    match prevInGroup stop with
    | some prev => .ok [(start, prev)]
    | none => .ok []
  else if order ≠ .newestFirst then
    match prev stop with
    | some gapEnd => .ok [(start, gapEnd)]
    | none =>
      .error (.xcheck "ascending different-group with end=\x7b0,0\x7d should be impossible")
  else getDescendingGapRanges start stop fetchStart fetchEnd

/-- Whether every location of a group is a known gap. -/
def isGroupNonExistent (gaps : LocationIntervalSet) (groupID : Nat) : Bool :=
  match findInterval gaps ⟨groupID, 0⟩ with
  | some (_, stop) =>
    groupID < stop.group || (stop.group = groupID && stop.object = kLocationMax.object)
  | none => false

end Moqx
