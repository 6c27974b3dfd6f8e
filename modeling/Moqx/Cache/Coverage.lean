import Moqx.Cache.Iterator
import Moqx.Moxygen.Ranked

/-! What the range computations of the fetch path cover, against the order in which iteration visits
locations: the closed ranges that a writeback marks as gaps, and the half-open intervals in which a
fetch from new to old asks upstream for what it misses. -/
namespace Moqx

open Moxygen AbsoluteLocation

/-- Iteration comes to `x` before `y`. From new to old, groups go down and objects go up. -/
def Before (order : GroupOrder) (x y : AbsoluteLocation) : Prop :=
  if order ≠ .newestFirst then x < y
  else y.group < x.group ∨ (x.group = y.group ∧ x.object < y.object)

theorem before_newestFirst {x y : AbsoluteLocation} : Before .newestFirst x y ↔
    y.group < x.group ∨ (x.group = y.group ∧ x.object < y.object) := by
  simp [Before]

theorem before_ascending {order : GroupOrder} (h : order ≠ .newestFirst) {x y : AbsoluteLocation} :
    Before order x y ↔ x.group < y.group ∨ (x.group = y.group ∧ x.object < y.object) := by
  rw [Before, if_pos h, lt_def]

/-- What ends a gap's computation at once: nothing lies between the positions. -/
theorem gapRangeIsEmpty_iff {order : GroupOrder} {start stop : AbsoluteLocation} :
    gapRangeIsEmpty start stop order = true ↔ ¬ Before order start stop := by
  by_cases horder : order = .newestFirst
  · subst horder
    simp only [gapRangeIsEmpty, before_newestFirst, ne_eq, not_true_eq_false, if_false,
      Bool.or_eq_true, Bool.and_eq_true, decide_eq_true_eq]
    omega
  · simp only [gapRangeIsEmpty, before_ascending horder, ne_eq, horder, not_false_eq_true, if_true,
      decide_eq_true_eq, le_def]
    omega

theorem Before.of_not {order : GroupOrder} {x y z : AbsoluteLocation} (h : Before order x y)
    (hnot : ¬ Before order z y) : Before order x z := by
  by_cases horder : order = .newestFirst
  · subst horder
    rw [before_newestFirst] at *
    omega
  · rw [before_ascending horder] at *
    omega

/-- The locations of a range that iteration passes from `start` to `stop`, without `stop`. -/
def Passed (order : GroupOrder) (fetchStart fetchEnd start stop l : AbsoluteLocation) : Prop :=
  fetchStart ≤ l ∧ l < fetchEnd ∧ ¬ Before order l start ∧ Before order l stop

/-- From new to old: the rest of the upper group, the groups between, and what lies before `stop` in
its own group. -/
theorem passed_newestFirst {fetchStart fetchEnd start stop : AbsoluteLocation}
    (hbefore : start < fetchEnd) (hstop : fetchStart ≤ stop) (hgroup : stop.group < start.group)
    (l : AbsoluteLocation) :
    Passed .newestFirst fetchStart fetchEnd start stop l ↔
      (l.group = start.group ∧ start.object ≤ l.object ∧ l < fetchEnd) ∨
        (stop.group < l.group ∧ l.group < start.group) ∨
          (l.group = stop.group ∧ fetchStart ≤ l ∧ l.object < stop.object) := by
  simp only [Passed, before_newestFirst, le_def, lt_def] at *
  omega

def Closed (r : Interval) (l : AbsoluteLocation) : Prop := r.1 ≤ l ∧ l ≤ r.2

def HalfOpen (r : Interval) (l : AbsoluteLocation) : Prop := r.1 ≤ l ∧ l < r.2

/-- The location lies in one of the intervals. -/
def Covered (inside : Interval → AbsoluteLocation → Prop) (intervals : List Interval)
    (l : AbsoluteLocation) : Prop :=
  ∃ r ∈ intervals, inside r l

section Covered

variable {inside : Interval → AbsoluteLocation → Prop} {l : AbsoluteLocation}

theorem covered_nil : Covered inside [] l ↔ False := by
  simp [Covered]

theorem covered_cons {r : Interval} {intervals : List Interval} :
    Covered inside (r :: intervals) l ↔ inside r l ∨ Covered inside intervals l := by
  simp [Covered]

theorem covered_append {intervals intervals' : List Interval} :
    Covered inside (intervals ++ intervals') l ↔
      Covered inside intervals l ∨ Covered inside intervals' l := by
  simp [Covered, or_and_right, exists_or]

theorem covered_ite {p : Prop} [Decidable p] {r : Interval} :
    Covered inside (if p then [r] else []) l ↔ p ∧ inside r l := by
  split
  · next h => simp [Covered, h]
  · next h => simp [Covered, h]

theorem covered_singleton {r : Interval} : Covered inside [r] l ↔ inside r l := by
  simp [Covered]

end Covered

section Gaps

variable {fetchStart fetchEnd start stop : AbsoluteLocation}

theorem gapRanges_sameGroup {order : GroupOrder} (hstart : fetchStart ≤ start)
    (hstop : stop ≤ fetchEnd) (hgroup : start.group = stop.group) (hlt : start.object < stop.object)
    (l : AbsoluteLocation) :
    Covered Closed [(start, ⟨stop.group, stop.object - 1⟩)] l ↔
      Passed order fetchStart fetchEnd start stop l := by
  by_cases horder : order = .newestFirst
  · subst horder
    simp only [covered_singleton, Closed, Passed, before_newestFirst, le_def,
      lt_def] at *
    omega
  · simp only [covered_singleton, Closed, Passed, before_ascending horder, le_def,
      lt_def] at *
    omega

/-- What is passed of a group before `stop`; the group may be the first one of the range. -/
theorem lowerPart_iff (hstop : fetchStart ≤ stop) (l : AbsoluteLocation) :
    ((if stop.group = fetchStart.group then fetchStart else ⟨stop.group, 0⟩) ≤ l ∧ l < stop) ↔
      l.group = stop.group ∧ fetchStart ≤ l ∧ l.object < stop.object := by
  simp only [le_def, lt_def] at *
  split_ifs with hbottom
  · omega
  · dsimp only
    omega

variable [Moxygen]

theorem gapRanges_ascending {order : GroupOrder} {gapEnd : AbsoluteLocation}
    (horder : order ≠ .newestFirst) (hstart : fetchStart ≤ start) (hstop : stop ≤ fetchEnd)
    (hprev : prev stop = some gapEnd) (l : AbsoluteLocation) (hl : l.object ≤ kLocationMax.object) :
    Covered Closed [(start, gapEnd)] l ↔ Passed order fetchStart fetchEnd start stop l := by
  have hend : l ≤ gapEnd ↔ l < stop := by
    rw [prev_eq, prevInGroup_eq, prevGroupEnd_eq] at hprev
    by_cases hobject : 0 < stop.object
    · rw [if_pos hobject] at hprev
      cases hprev
      rw [le_def, lt_def]
      dsimp only
      omega
    -- the first object of a group: the gap ends with the group before
    rw [if_neg hobject, Option.none_or] at hprev
    split_ifs at hprev with hgroup
    cases hprev
    rw [le_def, lt_def]
    dsimp only
    omega
  simp only [covered_singleton, Closed, hend, Passed, Before, if_pos horder, not_lt]
  constructor
  · rintro ⟨h, h'⟩
    exact ⟨hstart.trans h, h'.trans_le hstop, h, h'⟩
  · rintro ⟨-, -, h, h'⟩
    exact ⟨h, h'⟩

theorem gapRanges_upper (hbefore : start < fetchEnd) :
    ∃ upper, (if start.group = fetchEnd.group then prevInGroup fetchEnd
        else some ⟨start.group, kLocationMax.object⟩) = some upper ∧
      ∀ l : AbsoluteLocation, l.object ≤ kLocationMax.object → (Closed (start, upper) l ↔
        l.group = start.group ∧ start.object ≤ l.object ∧ l < fetchEnd) := by
  rw [lt_def] at hbefore
  split_ifs with htop
  · rw [prevInGroup_eq, if_pos (by omega)]
    refine ⟨_, rfl, fun l hl => ?_⟩
    simp only [Closed, le_def, lt_def]
    omega
  · refine ⟨_, rfl, fun l hl => ?_⟩
    simp only [Closed, le_def, lt_def]
    omega

theorem gapRanges_between (hgroup : stop.group < start.group) (l : AbsoluteLocation)
    (hl : l.object ≤ kLocationMax.object) :
    (stop.group + 1 ≤ start.group - 1 ∧
      Closed (⟨stop.group + 1, 0⟩, ⟨start.group - 1, kLocationMax.object⟩) l) ↔
        stop.group < l.group ∧ l.group < start.group := by
  simp only [Closed, le_def]
  omega

/-- From new to old: the rest of the upper group, the groups between and the passed part of the
lower group. -/
theorem gapRanges_descending (hbefore : start < fetchEnd) (hstop : fetchStart ≤ stop)
    (hgroup : stop.group < start.group) (hmax : fetchEnd.group ≤ kLocationMax.group) :
    ∃ ranges, getDescendingGapRanges start stop fetchStart fetchEnd = .ok ranges ∧
      ∀ l : AbsoluteLocation, l.object ≤ kLocationMax.object →
        (Covered Closed ranges l ↔ Passed .newestFirst fetchStart fetchEnd start stop l) := by
  have hnext : nextGroup stop = some ⟨stop.group + 1, 0⟩ := by
    rw [lt_def] at hbefore
    rw [nextGroup_eq, if_pos (by omega)]
  have hprevGroup : prevGroupEnd start = some ⟨start.group - 1, kLocationMax.object⟩ := by
    rw [prevGroupEnd_eq, if_pos (by omega)]
  obtain ⟨upper, hupper, hcovers⟩ := gapRanges_upper hbefore
  unfold getDescendingGapRanges
  simp only [hnext, hprevGroup, hupper]
  by_cases hpart : (if stop.group = fetchStart.group then fetchStart else ⟨stop.group, 0⟩) < stop
  · have hobject : 0 < stop.object := by
      obtain ⟨-, -, h⟩ := (lowerPart_iff hstop _).mp ⟨le_refl _, hpart⟩
      omega
    refine ⟨_, by rw [if_pos hpart, prevInGroup_eq, if_pos hobject], fun l hl => ?_⟩
    have hlower : Closed (if stop.group = fetchStart.group then fetchStart else ⟨stop.group, 0⟩,
        ⟨stop.group, stop.object - 1⟩) l ↔
          l.group = stop.group ∧ fetchStart ≤ l ∧ l.object < stop.object := by
      rw [← lowerPart_iff hstop, Closed, lt_def, le_def (a := l)]
      dsimp only
      refine and_congr_right fun _ => ?_
      omega
    rw [passed_newestFirst hbefore hstop hgroup, covered_append, covered_cons, covered_ite,
      covered_singleton, hcovers l hl, gapRanges_between hgroup l hl, hlower, or_assoc]
  · -- nothing of the lower group was passed
    have hnone : ∀ l : AbsoluteLocation,
        ¬ (l.group = stop.group ∧ fetchStart ≤ l ∧ l.object < stop.object) := by
      intro l h
      obtain ⟨hle, hlt⟩ := (lowerPart_iff hstop l).mpr h
      exact hpart (hle.trans_lt hlt)
    refine ⟨_, by rw [if_neg hpart], fun l hl => ?_⟩
    rw [passed_newestFirst hbefore hstop hgroup, covered_cons, covered_ite, hcovers l hl,
      gapRanges_between hgroup l hl, or_iff_left (hnone l)]

/-- The ranges that are marked as gaps are exactly the locations of the fetch range that iteration
passes, and nothing that is not there is dereferenced. -/
theorem getGapRanges_exact (order : GroupOrder) (fetchStart fetchEnd start stop : AbsoluteLocation)
    (hmax : fetchEnd.group ≤ kLocationMax.group) (hstart : fetchStart ≤ start ∧ start < fetchEnd)
    (hstop : fetchStart ≤ stop ∧ stop ≤ fetchEnd) :
    ∃ ranges, getGapRanges start stop order fetchStart fetchEnd = .ok ranges ∧
      ∀ l : AbsoluteLocation, l.object ≤ kLocationMax.object →
        (Covered Closed ranges l ↔ Passed order fetchStart fetchEnd start stop l) := by
  unfold getGapRanges
  by_cases hempty : gapRangeIsEmpty start stop order = true
  · refine ⟨[], if_pos hempty, fun l _ => ?_⟩
    rw [covered_nil, false_iff]
    rintro ⟨-, -, hnot, hbefore⟩
    exact hnot (hbefore.of_not (gapRangeIsEmpty_iff.mp hempty))
  have hmoves : Before order start stop := not_not.mp fun h => hempty (gapRangeIsEmpty_iff.mpr h)
  rw [if_neg hempty]
  by_cases hasc : order = .newestFirst
  · subst hasc
    rw [before_newestFirst] at hmoves
    by_cases hgroup : start.group = stop.group
    · rw [if_pos hgroup, prevInGroup_eq, if_pos (by omega)]
      exact ⟨_, rfl, fun l _ => gapRanges_sameGroup hstart.1 hstop.2 hgroup (by omega) l⟩
    · rw [if_neg hgroup, if_neg (by simp)]
      exact gapRanges_descending hstart.2 hstop.1 (by omega) hmax
  · rw [before_ascending hasc] at hmoves
    by_cases hgroup : start.group = stop.group
    · rw [if_pos hgroup, prevInGroup_eq, if_pos (by omega)]
      exact ⟨_, rfl, fun l _ => gapRanges_sameGroup hstart.1 hstop.2 hgroup (by omega) l⟩
    · have hprev : ∃ gapEnd, prev stop = some gapEnd := by
        rw [prev_eq, prevGroupEnd_eq, if_pos (by omega)]
        cases prevInGroup stop with
        | none => exact ⟨_, rfl⟩
        | some location => exact ⟨_, rfl⟩
      obtain ⟨gapEnd, hprev⟩ := hprev
      rw [if_neg hgroup, if_pos hasc, hprev]
      exact ⟨_, rfl, fun l hl => gapRanges_ascending hasc hstart.1 hstop.2 hprev l hl⟩

end Gaps

/-- A walk from new to old: two objects of the top group, two whole groups, and what comes before
the fourth object of group 3. -/
theorem getGapRanges_exact_downwards :
    ∃ ranges, getGapRanges ⟨6, 1⟩ ⟨3, 4⟩ .newestFirst ⟨1, 2⟩ ⟨6, 3⟩ = .ok ranges ∧
      ∀ l : AbsoluteLocation, l.object ≤ kLocationMax.object →
        (Covered Closed ranges l ↔ Passed .newestFirst ⟨1, 2⟩ ⟨6, 3⟩ ⟨6, 1⟩ ⟨3, 4⟩ l) :=
  getGapRanges_exact .newestFirst ⟨1, 2⟩ ⟨6, 3⟩ ⟨6, 1⟩ ⟨3, 4⟩ (by decide) (by decide) (by decide)

example : getGapRanges ⟨6, 1⟩ ⟨3, 4⟩ .newestFirst ⟨1, 2⟩ ⟨6, 3⟩ =
    .ok [(⟨6, 1⟩, ⟨6, 2⟩), (⟨4, 0⟩, ⟨5, kLocationMax.object⟩), (⟨3, 0⟩, ⟨3, 3⟩)] := rfl

section Misses

/-- `skipUncached` leaves the iterator here, and invalid, when nothing lower is cached: the rest of
the range is a miss. `getFetchIntervals` sees the position only, so a fetch that is cancelled when
its run of misses has come to a cached object at this location is taken for one that found nothing
lower. -/
def nothingLower : AbsoluteLocation := ⟨0, 0⟩

/-- What a fetch from new to old passes between a miss and the position at which the run of misses
ends: a hit or a gap, or, for the tail, where iteration ended. -/
def Missed (start stop miss later : AbsoluteLocation) (isTail : Bool) (l : AbsoluteLocation) :
    Prop :=
  if isTail = true ∧ later = nothingLower then
    start ≤ l ∧ l < stop ∧ ¬ Before .newestFirst l miss
  else Passed .newestFirst start stop miss later l

/-- Where a run of misses can end: at a later position of the range or, for the tail, also at the
end of the range or with nothing lower cached. -/
def EndsRun (start stop miss later : AbsoluteLocation) (isTail : Bool) : Prop :=
  (isTail = true ∧ later = nothingLower) ∨
    (Before .newestFirst miss later ∧ start ≤ later ∧
      (later < stop ∨ (isTail = true ∧ later = stop)))

/-- The intervals are asked for in iteration order, do not meet, stay in the range and hold exactly
the missed locations. -/
structure Splits (start stop miss later : AbsoluteLocation) (isTail : Bool)
    (intervals : List Interval) : Prop where
  disjoint : intervals.Pairwise fun r r' => ∀ l, ¬ (HalfOpen r l ∧ HalfOpen r' l)
  inside : ∀ r ∈ intervals, ∀ l, HalfOpen r l → start ≤ l ∧ l < stop
  descending : intervals.Pairwise fun r r' =>
    ∀ l l', HalfOpen r l → HalfOpen r' l' → Before .newestFirst l l'
  union : ∀ l, Covered HalfOpen intervals l ↔ Missed start stop miss later isTail l

/-- When the intervals are right. A tail in the group of the miss is asked for to the end of that
group. With nothing lower cached, the groups above the first one join the first interval if the miss
starts its group, and else become an interval of their own from group 1 on. -/
def SplitsRight [Moxygen] (start stop miss later : AbsoluteLocation) (isTail : Bool) : Prop :=
  isTail = true →
    if later = nothingLower then
      if miss.group = 0 then 0 < stop.group ∨ kLocationMax.group = 0
      else 0 < start.group ∧ (miss.object = 0 ∨ start.group = 1)
    else miss.group ≠ later.group ∨ (miss.group = kLocationMax.group ∧ later = stop)

variable {start stop miss later : AbsoluteLocation} {isTail : Bool} {intervals : List Interval}

theorem Missed.inside {l : AbsoluteLocation} (h : Missed start stop miss later isTail l) :
    start ≤ l ∧ l < stop := by
  unfold Missed at h
  split_ifs at h
  · exact ⟨h.1, h.2.1⟩
  · exact ⟨h.1, h.2.1⟩

/-- The order and the covered set say the rest. -/
theorem Splits.of_union
    (descending : intervals.Pairwise fun r r' =>
      ∀ l l', HalfOpen r l → HalfOpen r' l' → Before .newestFirst l l')
    (union : ∀ l, Covered HalfOpen intervals l ↔ Missed start stop miss later isTail l) :
    Splits start stop miss later isTail intervals where
  disjoint := by
    refine descending.imp fun {r r'} h l ⟨hl, hl'⟩ => ?_
    have := before_newestFirst.mp (h l l hl hl')
    omega
  inside := fun r hr l hl => ((union l).mp ⟨r, hr, hl⟩).inside
  descending := descending
  union := union

theorem u64Sub_eq {a b : Nat} (h : b ≤ a) (ha : a < 2 ^ 64) : u64Sub a b = a - b := by
  unfold u64Sub
  omega

variable [Moxygen]

/-- The interval of the missed group ends with the group or with the range. -/
def intervalEnd (stop miss : AbsoluteLocation) : AbsoluteLocation :=
  if miss.group = stop.group then stop else (nextGroup miss).getD stop

/-- The intervals above the group in which a run of misses ends, with the differences of the source
carried out. -/
def upperPart (start stop miss later : AbsoluteLocation) : List Interval :=
  if later.group + 1 < miss.group then
    if miss.object = 0 then [(max start ⟨later.group + 1, 0⟩, intervalEnd stop miss)]
    else [(miss, intervalEnd stop miss), (⟨later.group + 1,
      if start.group = later.group + 1 then start.object else 0⟩, ⟨miss.group, 0⟩)]
  else [(miss, intervalEnd stop miss)]

theorem getFetchIntervals_down (hgroup : later.group < miss.group) (h64 : miss.group < 2 ^ 64) :
    getFetchIntervals start stop miss later .newestFirst isTail =
      let lower := if start.group = later.group then start else ⟨later.group, 0⟩
      upperPart start stop miss later ++
        if later.object ≠ 0 ∧ lower < later then [(lower, later)] else [] := by
  have hnum : u64Sub (u64Sub miss.group later.group) 1 = miss.group - later.group - 1 := by
    rw [u64Sub_eq (by omega) h64, u64Sub_eq (by omega) (by omega)]
  have hfirst : u64Sub miss.group (miss.group - later.group - 1) = later.group + 1 := by
    rw [u64Sub_eq (by omega) h64]
    omega
  have hsome : 0 < miss.group - later.group - 1 ↔ later.group + 1 < miss.group := by omega
  simp only [getFetchIntervals, ne_eq, not_true_eq_false, if_false, if_neg hgroup.ne', hnum, hfirst,
    hsome, upperPart, intervalEnd]

theorem lt_intervalEnd_iff (hmiss : miss < stop) (hmax : stop.group ≤ kLocationMax.group)
    (l : AbsoluteLocation) :
    l < intervalEnd stop miss ↔ l.group ≤ miss.group ∧ l < stop := by
  rw [lt_def] at hmiss
  unfold intervalEnd
  split_ifs with hgroup
  · rw [lt_def]
    omega
  · rw [nextGroup_eq, if_pos (by omega), Option.getD_some]
    simp only [lt_def]
    omega

section Upper

variable (hmiss : miss < stop) (hmax : stop.group ≤ kLocationMax.group)
  (hgroup : later.group < miss.group)

include hgroup in
theorem upperPart_above {r : Interval} (hr : r ∈ upperPart start stop miss later) :
    later.group < r.1.group := by
  unfold upperPart at hr
  by_cases hbetween : later.group + 1 < miss.group
  · rw [if_pos hbetween] at hr
    by_cases hobject : miss.object = 0
    · rw [if_pos hobject, List.mem_singleton] at hr
      have h : (⟨later.group + 1, 0⟩ : AbsoluteLocation) ≤ r.1 := hr ▸ le_max_right _ _
      rw [le_def] at h
      dsimp only at h
      omega
    · rw [if_neg hobject] at hr
      rcases List.mem_pair.mp hr with rfl | rfl
      · exact hgroup
      · exact Nat.lt_succ_self _
  · rw [if_neg hbetween, List.mem_singleton] at hr
    rw [hr]
    exact hgroup

theorem upperPart_pairwise : (upperPart start stop miss later).Pairwise fun r r' =>
    ∀ l l', HalfOpen r l → HalfOpen r' l' → Before .newestFirst l l' := by
  unfold upperPart
  split
  · split
    · exact List.pairwise_singleton _ _
    · refine List.pairwise_pair.mpr fun l l' hl hl' => before_newestFirst.mpr (.inl ?_)
      obtain ⟨hl, -⟩ := hl
      obtain ⟨-, hl'⟩ := hl'
      rw [le_def] at hl
      rw [lt_def] at hl'
      dsimp only at hl hl'
      omega
  · exact List.pairwise_singleton _ _

include hmiss hmax hgroup in
/-- Above the last group nothing is left out, and nothing below the range is taken in as long as the
range starts at most one group higher or the miss starts its group. -/
theorem upperPart_covers (hstart : start ≤ miss)
    (hlow : start.group ≤ later.group + 1 ∨ miss.object = 0) (l : AbsoluteLocation) :
    Covered HalfOpen (upperPart start stop miss later) l ↔
      later.group < l.group ∧ start ≤ l ∧ l < stop ∧ ¬ Before .newestFirst l miss := by
  have hend := lt_intervalEnd_iff hmiss hmax l
  rw [before_newestFirst]
  unfold upperPart
  by_cases hbetween : later.group + 1 < miss.group
  · rw [if_pos hbetween]
    by_cases hobject : miss.object = 0
    · rw [if_pos hobject, covered_singleton, HalfOpen, hend, max_le_iff]
      simp only [le_def, lt_def] at *
      omega
    · rw [if_neg hobject, covered_cons, covered_singleton, HalfOpen, hend, HalfOpen]
      simp only [le_def, lt_def] at *
      split_ifs
      · omega
      · omega
  · rw [if_neg hbetween, covered_singleton, HalfOpen, hend]
    simp only [le_def, lt_def] at *
    omega

end Upper

/-- Down to a position of the range in a lower group, the intervals are right. -/
theorem splits_down (hstart : start ≤ miss) (hmiss : miss < stop)
    (hmax : stop.group ≤ kLocationMax.group) (h64 : miss.group < 2 ^ 64)
    (hlater : start ≤ later) (hgroup : later.group < miss.group)
    (hpassed : ∀ l, Missed start stop miss later isTail l ↔
      Passed .newestFirst start stop miss later l) :
    Splits start stop miss later isTail
      (getFetchIntervals start stop miss later .newestFirst isTail) := by
  have hfirst : start.group ≤ later.group := by
    rw [le_def] at hlater
    omega
  have hlowerPart := lowerPart_iff hlater
  simp only [getFetchIntervals_down hgroup h64, eq_comm (a := start.group)]
  generalize (if later.group = start.group then start else ⟨later.group, 0⟩) = lower at *
  refine .of_union ?_ fun l => ?_
  · -- below the upper part, only objects of the last group follow
    rw [List.pairwise_append]
    refine ⟨upperPart_pairwise, by split <;> simp, fun r hr r' hr' l l' hl hl' => ?_⟩
    have hlow := upperPart_above hgroup hr
    obtain ⟨hl, -⟩ := hl
    obtain ⟨-, hl'⟩ := hl'
    split_ifs at hr'
    · obtain rfl := List.mem_singleton.mp hr'
      rw [le_def] at hl
      rw [lt_def] at hl'
      dsimp only at hl'
      exact before_newestFirst.mpr (.inl (by omega))
    · cases hr'
  · have hlast : ((later.object ≠ 0 ∧ lower < later) ∧ HalfOpen (lower, later) l) ↔
        l.group = later.group ∧ start ≤ l ∧ l.object < later.object := by
      rw [← hlowerPart]
      refine and_iff_right_of_imp fun h => ⟨?_, h.1.trans_lt h.2⟩
      have := ((hlowerPart l).mp h).2.2
      omega
    rw [hpassed, passed_newestFirst hmiss hlater hgroup, covered_append, covered_ite, hlast,
      upperPart_covers hmiss hmax hgroup hstart (.inl (by omega))]
    simp only [le_def, lt_def, before_newestFirst] at hmiss ⊢
    omega

/-- A tail with nothing lower cached: only groups from 1 on are asked for. -/
theorem getFetchIntervals_nothingLower (hgroup : 0 < miss.group) (h64 : miss.group < 2 ^ 64) :
    getFetchIntervals start stop miss nothingLower .newestFirst isTail =
      upperPart start stop miss nothingLower := by
  rw [getFetchIntervals_down hgroup h64]
  simp [nothingLower]

theorem splits_nothingLower (hstart : start ≤ miss) (hmiss : miss < stop)
    (hmax : stop.group ≤ kLocationMax.group) (h64 : miss.group < 2 ^ 64) (hgroup : 0 < miss.group) :
    Splits start stop miss nothingLower true
        (getFetchIntervals start stop miss nothingLower .newestFirst true) ↔
      0 < start.group ∧ (miss.object = 0 ∨ start.group = 1) := by
  have hmissed : ∀ l, Missed start stop miss nothingLower true l ↔
      start ≤ l ∧ l < stop ∧ ¬ Before .newestFirst l miss := fun l => by simp [Missed]
  rw [getFetchIntervals_nothingLower hgroup h64]
  constructor
  · intro h
    have hpos : 0 < start.group := by
      -- else the first location of the range, in group 0, is not asked for
      by_contra hzero
      have hfirst : Missed start stop miss nothingLower true start := by
        refine (hmissed start).mpr ⟨le_refl _, hstart.trans_lt hmiss, ?_⟩
        rw [before_newestFirst]
        omega
      obtain ⟨r, hr, hl, -⟩ := (h.union start).mpr hfirst
      have hlow := upperPart_above hgroup hr
      rw [le_def] at hl
      omega
    refine ⟨hpos, ?_⟩
    -- else the interval for the groups below the miss starts with group 1, below the range
    by_contra hlow
    rw [not_or] at hlow
    rw [le_def] at hstart
    have hr : (⟨1, 0⟩, ⟨miss.group, 0⟩) ∈ upperPart start stop miss nothingLower := by
      simp [upperPart, nothingLower, hlow, show 1 < miss.group by omega]
    have hl : HalfOpen (⟨1, 0⟩, ⟨miss.group, 0⟩) ⟨1, 0⟩ :=
      ⟨le_refl _, lt_def.mpr (.inl (by dsimp only; omega))⟩
    have hle := (h.inside _ hr _ hl).1
    rw [le_def] at hle
    dsimp only at hle
    omega
  · rintro ⟨hpos, hlow⟩
    refine .of_union upperPart_pairwise fun l => ?_
    rw [hmissed, upperPart_covers hmiss hmax hgroup hstart]
    · refine and_iff_right_of_imp fun h => ?_
      have := h.1
      rw [le_def] at this
      exact lt_of_lt_of_le hpos (by omega)
    · have : nothingLower.group = 0 := rfl
      omega

omit [Moxygen] in
theorem splits_singleton {r : Interval} : Splits start stop miss later isTail [r] ↔
    ∀ l, HalfOpen r l ↔ Missed start stop miss later isTail l := by
  constructor
  · intro h l
    rw [← h.union, covered_singleton]
  · intro h
    exact .of_union (List.pairwise_singleton _ _) fun l => covered_singleton.trans (h l)

theorem splits_hit_sameGroup (hstart : start ≤ miss) (hgroup : miss.group = later.group)
    (hbefore : later < stop) :
    Splits start stop miss later false
      (getFetchIntervals start stop miss later .newestFirst false) := by
  simp only [getFetchIntervals, ne_eq, not_true_eq_false, if_false, if_pos hgroup,
    Bool.false_eq_true]
  refine splits_singleton.mpr fun l => ?_
  simp only [Missed, Bool.false_eq_true, false_and, if_false, HalfOpen, Passed, before_newestFirst,
    le_def, lt_def] at *
  omega

/-- A tail in the group of the miss is asked for to the end of the group, or of the range if there
is no next group. -/
theorem splits_tail_sameGroup (hgroup : miss.group = later.group) :
    Splits start stop miss later true (getFetchIntervals start stop miss later .newestFirst true) ↔
      ∀ l, HalfOpen (miss, (nextGroup miss).getD stop) l ↔ Missed start stop miss later true l := by
  simp only [getFetchIntervals, ne_eq, not_true_eq_false, if_false, if_pos hgroup, if_true,
    splits_singleton]

theorem splits_tail_zero (hstart : start ≤ miss) (hmiss : miss < stop)
    (hmax : stop.group ≤ kLocationMax.group) (hzero : miss.group = 0) :
    Splits start stop miss nothingLower true
        (getFetchIntervals start stop miss nothingLower .newestFirst true) ↔
      0 < stop.group ∨ kLocationMax.group = 0 := by
  rw [splits_tail_sameGroup hzero, nextGroup_eq]
  simp only [Missed, and_self, if_true, HalfOpen, before_newestFirst]
  simp only [le_def, lt_def] at *
  by_cases hnext : miss.group < kLocationMax.group
  · rw [if_pos hnext, Option.getD_some]
    dsimp only
    constructor
    · intro h
      have := (h stop).mp
      omega
    · intro h l
      omega
  · rw [if_neg hnext, Option.getD_none]
    refine iff_of_true (fun l => ?_) (.inr (by omega))
    omega

/-- A tail that ends in the group of the miss is right only in the last group there is. -/
theorem splits_tail_later (hstart : start ≤ miss) (hmiss : miss < stop)
    (hmax : stop.group ≤ kLocationMax.group) (hgroup : miss.group = later.group)
    (hne : later ≠ nothingLower) (hbefore : Before .newestFirst miss later) (hstop : later ≤ stop) :
    Splits start stop miss later true (getFetchIntervals start stop miss later .newestFirst true) ↔
      miss.group = kLocationMax.group ∧ later = stop := by
  rw [splits_tail_sameGroup hgroup, nextGroup_eq]
  simp only [Missed, hne, and_false, if_false, HalfOpen, Passed, before_newestFirst] at *
  simp only [le_def, lt_def, eq_def] at *
  by_cases hnext : miss.group < kLocationMax.group
  · rw [if_pos hnext, Option.getD_some]
    dsimp only
    refine iff_of_false (fun h => ?_) (by omega)
    have := (h later).mp
    omega
  · rw [if_neg hnext, Option.getD_none]
    constructor
    · intro h
      have := (h later).mp
      omega
    · intro h l
      omega

/-- A run of misses of a fetch from new to old is split into the right intervals exactly if it ends
at a hit, or its tail ends in a lower group of the range, or nothing lower is cached and the range
starts in a group other than 0 with the miss at the start of its group (or in group 1). -/
theorem getFetchIntervals_splits_iff (hstart : start ≤ miss) (hmiss : miss < stop)
    (hmax : stop.group ≤ kLocationMax.group) (h64 : kLocationMax.group < 2 ^ 64)
    (hends : EndsRun start stop miss later isTail) :
    Splits start stop miss later isTail
        (getFetchIntervals start stop miss later .newestFirst isTail) ↔
      SplitsRight start stop miss later isTail := by
  have hmiss64 : miss.group < 2 ^ 64 := by
    rw [lt_def] at hmiss
    omega
  unfold SplitsRight
  cases isTail with
  | false =>
    simp only [Bool.false_eq_true, false_imp_iff, iff_true]
    simp only [EndsRun, Bool.false_eq_true, false_and, false_or, or_false] at hends
    obtain ⟨hbefore, hlater, hstop⟩ := hends
    by_cases hgroup : miss.group = later.group
    · exact splits_hit_sameGroup hstart hgroup hstop
    · rw [before_newestFirst] at hbefore
      exact splits_down hstart hmiss hmax hmiss64 hlater (by omega) fun l => by simp [Missed]
  | true =>
    simp only [true_imp_iff]
    by_cases hnothing : later = nothingLower
    · subst hnothing
      by_cases hzero : miss.group = 0
      · rw [if_pos hzero]
        exact splits_tail_zero hstart hmiss hmax hzero
      · rw [if_neg hzero]
        exact splits_nothingLower hstart hmiss hmax hmiss64 (by omega)
    rw [if_neg hnothing]
    simp only [EndsRun, hnothing, and_false, false_or, true_and] at hends
    obtain ⟨hbefore, hlater, hstop⟩ := hends
    by_cases hgroup : miss.group = later.group
    · rw [splits_tail_later hstart hmiss hmax hgroup hnothing hbefore (le_iff_lt_or_eq.mpr hstop)]
      exact ⟨.inr, fun h => h.resolve_left (· hgroup)⟩
    · rw [before_newestFirst] at hbefore
      refine iff_of_true ?_ (.inl hgroup)
      exact splits_down hstart hmiss hmax hmiss64 hlater (by omega) fun l => by
        simp [Missed, hnothing]

end Misses

/-- Nothing is cached and a whole range of groups is fetched from new to old: one interval. -/
theorem getFetchIntervals_splits_iff_wholeGroups :
    Splits ⟨2, 0⟩ ⟨6, 0⟩ ⟨5, 0⟩ nothingLower true
        (getFetchIntervals ⟨2, 0⟩ ⟨6, 0⟩ ⟨5, 0⟩ nothingLower .newestFirst true) ↔
      SplitsRight ⟨2, 0⟩ ⟨6, 0⟩ ⟨5, 0⟩ nothingLower true :=
  getFetchIntervals_splits_iff (by decide) (by decide) (by decide) (by decide) (.inl ⟨rfl, rfl⟩)

/-- A fetch from new to old of one object of group 5, with nothing cached: the miss leaves the
iterator at its sentinel, and upstream is also asked for the groups 1 to 4, which are not in the
range. -/
theorem tail_below_range :
    let it := FetchRangeIterator.create ⟨5, 2⟩ ⟨5, 3⟩ .newestFirst {}
    it.current = ⟨5, 2⟩ ∧ ∃ it', it.skipUncached {} = .ok it' ∧ it'.current = nothingLower ∧
      getFetchIntervals ⟨5, 2⟩ ⟨5, 3⟩ ⟨5, 2⟩ nothingLower .newestFirst true =
        [(⟨5, 2⟩, ⟨5, 3⟩), (⟨1, 0⟩, ⟨5, 0⟩)] ∧
      ¬ Splits ⟨5, 2⟩ ⟨5, 3⟩ ⟨5, 2⟩ nothingLower true [(⟨5, 2⟩, ⟨5, 3⟩), (⟨1, 0⟩, ⟨5, 0⟩)] := by
  refine ⟨rfl, _, rfl, rfl, rfl, fun h => ?_⟩
  have hinside := h.inside (⟨1, 0⟩, ⟨5, 0⟩) (by simp) ⟨1, 0⟩ ⟨by decide, by decide⟩
  exact absurd hinside (by decide)

-- a range from group 0 on: group 0 is never asked for
example : getFetchIntervals ⟨0, 0⟩ ⟨2, 0⟩ ⟨1, 0⟩ nothingLower .newestFirst true =
    [(⟨1, 0⟩, ⟨2, 0⟩)] := rfl

end Moqx
