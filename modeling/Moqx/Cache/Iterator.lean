import Moqx.Cache.Ranges

/-! `FetchRangeIterator`: the group-order-aware position of a fetch inside its range. Its
track is passed to each operation, since the track changes while iterators are alive. -/
namespace Moqx

open Moxygen

variable [Moxygen]

structure FetchRangeIterator where
  minLocation : AbsoluteLocation
  maxLocation : AbsoluteLocation
  order : GroupOrder
  current : AbsoluteLocation
  end_ : AbsoluteLocation
  isValid : Bool
  cachedGroupId : Nat
  cachedGroupPtr : Option GroupRef
  cachedEndGroupId : Nat
  cachedEndGroupPtr : Option GroupRef

namespace FetchRangeIterator

/-- The object id up to which a group is walked before the next group, and the group
pointer that was looked at. The pointer is kept between calls for the same group. -/
def findGroupEndMaybe (it : FetchRangeIterator) (t : CacheTrack) (currGroup : Nat)
    (cachedGroupId : Nat) (cachedGroupPtr : Option GroupRef) :
    Option Nat × Nat × Option GroupRef :=
  let isFirstGroup : Bool := currGroup = it.minLocation.group
  let isDescending : Bool := it.order = .newestFirst
  if currGroup = it.maxLocation.group then
    (some (if isDescending && !isFirstGroup then u64Sub it.maxLocation.object 1
      else it.maxLocation.object), cachedGroupId, cachedGroupPtr)
  else
    let ptr := if cachedGroupId ≠ currGroup then t.groups.lookup currGroup else cachedGroupPtr
    let groupEnd := ptr.map fun ref =>
      let group := t.heap ref
      let maxObjectInGroup := group.maxCachedObject
      let endIncludingMaxCached :=
        if maxObjectInGroup < kLocationMax.object then maxObjectInGroup + 1 else maxObjectInGroup
      let firstUncachedObject :=
        if endIncludingMaxCached < kLocationMax.object then endIncludingMaxCached + 1
        else endIncludingMaxCached
      if isFirstGroup && isDescending then
        if group.endOfGroup then endIncludingMaxCached else firstUncachedObject
      else
        if group.endOfGroup then maxObjectInGroup else endIncludingMaxCached
    (groupEnd, currGroup, ptr)

/-- `end()`: the position at which iteration stops, recomputed from the track. -/
def refreshEnd (it : FetchRangeIterator) (t : CacheTrack) : FetchRangeIterator :=
  if (t.endOfTrack && t.largestGroupAndObject.any (· < it.current)) || !it.isValid then
    { it with end_ := it.current }
  else if it.order ≠ .newestFirst then it
  else
    let (last, id, ptr) :=
      it.findGroupEndMaybe t it.end_.group it.cachedEndGroupId it.cachedEndGroupPtr
    { it with
      end_ := ⟨it.end_.group, last.getD it.end_.object⟩
      cachedEndGroupId := id
      cachedEndGroupPtr := ptr }

/-- Single step without gap skipping. -/
def advanceOne (it : FetchRangeIterator) (t : CacheTrack) : FetchRangeIterator :=
  if !it.isValid || it.current = it.end_ then it
  else
    let (groupEndMaybe, id, ptr) :=
      it.findGroupEndMaybe t it.current.group it.cachedGroupId it.cachedGroupPtr
    let it := { it with cachedGroupId := id, cachedGroupPtr := ptr }
    if groupEndMaybe.any (it.current.object < ·) then
      { it with current := ⟨it.current.group, it.current.object + 1⟩ }
    else if it.order = .newestFirst then
      if it.current.group = 0 then { it with isValid := false }
      else
        let group := it.current.group - 1
        { it with current :=
            ⟨group, if group = it.minLocation.group then it.minLocation.object else 0⟩ }
    else if it.current.group = it.maxLocation.group then { it with current := it.end_ }
    else { it with current := ⟨it.current.group + 1, 0⟩ }

/-- Where iteration goes on after the gap interval that holds the current position. -/
def afterGap (it : FetchRangeIterator) (gap : Interval) : Option AbsoluteLocation :=
  if it.order ≠ .newestFirst then next gap.2
  else computeDescendingAfterGap it.current gap.1 it.minLocation

def afterGapInRange (it : FetchRangeIterator) (l : AbsoluteLocation) : Bool :=
  if it.order ≠ .newestFirst then l < it.end_ else it.minLocation ≤ l

/-- The loop of `skipGaps`. Ascending, one round leaves the gap; descending, each round
reaches a lower group. -/
def skipGapsLoop (t : CacheTrack) : Nat → FetchRangeIterator → FetchRangeIterator
  | 0, it => it
  | fuel + 1, it =>
    if it.isValid && contains t.gaps it.current then
      match findInterval t.gaps it.current with
      | none => skipGapsLoop t fuel (it.advanceOne t)
      | some gap =>
        match it.afterGap gap with
        | some l =>
          if it.afterGapInRange l then skipGapsLoop t fuel { it with current := l }
          else { it with current := it.end_ }
        | none => { it with current := it.end_ }
    else it

def skipGaps (it : FetchRangeIterator) (t : CacheTrack) : FetchRangeIterator :=
  skipGapsLoop t (it.current.group + 2) it

def next (it : FetchRangeIterator) (t : CacheTrack) : FetchRangeIterator :=
  if it.isValid then (it.advanceOne t).skipGaps t else it

def invalidate (it : FetchRangeIterator) : FetchRangeIterator :=
  { it with current := it.maxLocation, isValid := false }

def advanceTo (it : FetchRangeIterator) (t : CacheTrack) (loc : AbsoluteLocation) :
    FetchRangeIterator :=
  let it := { it with current := loc }
  if (it.order ≠ .newestFirst ∧ it.maxLocation < loc) ∨
      (it.order = .newestFirst ∧ loc < it.minLocation) then
    { it with isValid := false }
  else it.skipGaps t

/-- The first cached position of the nearest lower group that has one. -/
def findPrevGroupCachedPosition (it : FetchRangeIterator) (t : CacheTrack) :
    Except Abort (Option AbsoluteLocation) :=
  match prevGroupEnd it.current with
  | none => .ok none
  | some prevGE =>
    match (findInterval t.cachedContent prevGE).or (findPrevInterval t.cachedContent prevGE) with
    | none => .ok none
    | some prev =>
      if prev.2 < it.minLocation then .ok none
      else
        let targetGroup := min prev.2.group prevGE.group
        let target : AbsoluteLocation := max ⟨targetGroup, 0⟩ it.minLocation
        if contains t.cachedContent target then .ok (some target)
        else
          match findNextInterval t.cachedContent target with
          | some nextInt =>
            if nextInt.1.group = targetGroup then .ok (some nextInt.1)
            else .error (.xcheck "nextInt && nextInt->first.group == targetGroup")
          | none => .error (.xcheck "nextInt && nextInt->first.group == targetGroup")

/-- Skip to next cached content position. -/
def skipUncached (it : FetchRangeIterator) (t : CacheTrack) :
    Except Abort FetchRangeIterator :=
  if !it.isValid || it.current = it.end_ || contains t.cachedContent it.current then .ok it
  else
    let nextInt := findNextInterval t.cachedContent it.current
    if it.order ≠ .newestFirst then
      match nextInt with
      | some found =>
        if it.end_ ≤ found.1 then .ok { it with current := it.end_ }
        else .ok { it with current := found.1 }
      | none => .ok { it with current := it.end_ }
    else
      match nextInt.filter (fun found => found.1.group = it.current.group) with
      | some found => .ok { it with current := found.1 }
      | none => do
        match ← it.findPrevGroupCachedPosition t with
        | some target => .ok { it with current := target }
        | none => .ok { it with current := ⟨0, 0⟩, isValid := false }

/-- The constructor. Walking down, iteration starts at the first object of the top group
and ends behind the last known object of the bottom group. -/
def create (start stop : AbsoluteLocation) (order : GroupOrder) (t : CacheTrack) :
    FetchRangeIterator :=
  let it : FetchRangeIterator :=
    { minLocation := start, maxLocation := stop, order := order, current := start,
      end_ := stop, isValid := true,
      cachedGroupId := kLocationMax.group, cachedGroupPtr := none,
      cachedEndGroupId := kLocationMax.group, cachedEndGroupPtr := none }
  let it :=
    if order = .newestFirst ∧ start.group ≠ stop.group then
      let current : AbsoluteLocation :=
        if stop.object = 0 then
          let group := u64Sub stop.group 1
          ⟨group, if group = start.group then start.object else 0⟩
        else ⟨stop.group, 0⟩
      let lastObject :=
        match t.group? start.group with
        | some group =>
          if group.endOfGroup && group.maxCachedObject < kLocationMax.object then
            group.maxCachedObject + 1
          else kLocationMax.object
        | none => kLocationMax.object
      { it with current := current, end_ := ⟨start.group, lastObject⟩ }
    else it
  it.skipGaps t

/-- Two states of one iterator: the range and the order never change. -/
structure SameRange (it it' : FetchRangeIterator) : Prop where
  minLocation : it'.minLocation = it.minLocation
  maxLocation : it'.maxLocation = it.maxLocation
  order : it'.order = it.order

namespace SameRange

omit [Moxygen] in
theorem refl (it : FetchRangeIterator) : SameRange it it := ⟨rfl, rfl, rfl⟩

omit [Moxygen] in
theorem trans {a b d : FetchRangeIterator} (h : SameRange a b) (h' : SameRange b d) :
    SameRange a d :=
  ⟨h'.minLocation.trans h.minLocation, h'.maxLocation.trans h.maxLocation, h'.order.trans h.order⟩

end SameRange

variable (it : FetchRangeIterator) (t : CacheTrack)

theorem advanceOne_sameRange : SameRange it (it.advanceOne t) := by
  unfold advanceOne
  dsimp only
  split_ifs <;> exact ⟨rfl, rfl, rfl⟩

theorem skipGapsLoop_sameRange (fuel : Nat) : SameRange it (skipGapsLoop t fuel it) := by
  induction fuel generalizing it with
  | zero => exact .refl it
  | succ fuel ih =>
    simp only [skipGapsLoop]
    split
    · split
      · exact (advanceOne_sameRange it t).trans (ih _)
      · split
        · next l _ =>
          split
          · have hmove : SameRange it { it with current := l } := ⟨rfl, rfl, rfl⟩
            exact hmove.trans (ih _)
          · exact ⟨rfl, rfl, rfl⟩
        · exact ⟨rfl, rfl, rfl⟩
    · exact .refl it

theorem skipGaps_sameRange : SameRange it (it.skipGaps t) := skipGapsLoop_sameRange it t _

theorem create_maxLocation (start stop : AbsoluteLocation) (order : GroupOrder) :
    (create start stop order t).maxLocation = stop := by
  unfold create
  dsimp only
  rw [(skipGaps_sameRange _ t).maxLocation]
  split <;> rfl

theorem next_sameRange : SameRange it (it.next t) := by
  unfold next
  split
  · exact (advanceOne_sameRange it t).trans (skipGaps_sameRange _ t)
  · exact .refl it

theorem advanceTo_sameRange (loc : AbsoluteLocation) : SameRange it (it.advanceTo t loc) := by
  unfold advanceTo
  dsimp only
  split
  · exact ⟨rfl, rfl, rfl⟩
  · have hmove : SameRange it { it with current := loc } := ⟨rfl, rfl, rfl⟩
    exact hmove.trans (skipGaps_sameRange _ t)

theorem refreshEnd_sameRange : SameRange it (it.refreshEnd t) := by
  unfold refreshEnd
  split
  · exact ⟨rfl, rfl, rfl⟩
  · split
    · exact .refl it
    · exact ⟨rfl, rfl, rfl⟩

end FetchRangeIterator

end Moqx
