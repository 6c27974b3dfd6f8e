import Moqx.Moxygen
import Moqx.Lib.NatIntervals

/-! An implementation of the moxygen parameters: locations are numbered in track order and
their sets are interval lists. It shows that the laws can be met together and lets runs of
the model be evaluated. -/
namespace Moqx.Ranked

open NatIntervals

/-- The largest QUIC variable-length integer. -/
def maxId : Nat := 2 ^ 62 - 1

/-- Position of the first location that is not before `l`. -/
def lower (l : AbsoluteLocation) : Nat :=
  if l.object ≤ maxId then l.group * (maxId + 1) + l.object else (l.group + 1) * (maxId + 1)

/-- Position of the last location that is not after `l`. -/
def upper (l : AbsoluteLocation) : Nat := l.group * (maxId + 1) + min l.object maxId

def unrank (n : Nat) : AbsoluteLocation := ⟨n / (maxId + 1), n % (maxId + 1)⟩

structure LocationSet where
  intervals : Intervals
  separated : Separated intervals

def unrankPair (p : Nat × Nat) : AbsoluteLocation × AbsoluteLocation := (unrank p.1, unrank p.2)

def insertRange (s : LocationSet) (a b : AbsoluteLocation) : LocationSet :=
  if h : lower a ≤ upper b then
    ⟨NatIntervals.insert s.intervals (lower a) (upper b), separated_insert h s.separated⟩
  else s

def removeRange (s : LocationSet) (a b : AbsoluteLocation) : LocationSet :=
  if h : lower a ≤ upper b then
    ⟨NatIntervals.remove s.intervals (lower a) (upper b), separated_remove h s.separated⟩
  else s

variable {l a b : AbsoluteLocation} {n : Nat}

theorem upper_unrank (n : Nat) : upper (unrank n) = n := by
  simp only [unrank, upper, maxId]
  omega

theorem unrank_object (n : Nat) : (unrank n).object ≤ maxId := by
  simp only [unrank, maxId]
  omega

theorem le_iff_lower (h : l.object ≤ maxId) : a ≤ l ↔ lower a ≤ upper l := by
  by_cases ha : a.object ≤ maxId
  · rw [lower, if_pos ha]
    simp only [AbsoluteLocation.le_def, upper, maxId] at *
    omega
  · rw [lower, if_neg ha]
    simp only [AbsoluteLocation.le_def, upper, maxId] at *
    omega

theorem le_iff_upper (h : l.object ≤ maxId) : l ≤ b ↔ upper l ≤ upper b := by
  simp only [AbsoluteLocation.le_def, upper, maxId] at *
  omega

theorem lt_iff_upper (hl : l.object ≤ maxId) (hb : b.object ≤ maxId) :
    l < b ↔ upper l < upper b := by
  simp only [AbsoluteLocation.lt_def, upper, maxId] at *
  omega

theorem unrank_le_iff : unrank n ≤ l ↔ n ≤ upper l := by
  rw [le_iff_upper (unrank_object n), upper_unrank]

theorem le_unrank_iff (h : l.object ≤ maxId) : l ≤ unrank n ↔ upper l ≤ n := by
  rw [le_iff_upper h, upper_unrank]

theorem unrank_lt_iff (h : l.object ≤ maxId) : unrank n < l ↔ n < upper l := by
  rw [lt_iff_upper (unrank_object n) h, upper_unrank]

theorem lt_unrank_iff (h : l.object ≤ maxId) : l < unrank n ↔ upper l < n := by
  rw [lt_iff_upper h (unrank_object n), upper_unrank]

theorem insertRange_covers (s : LocationSet) (hl : l.object ≤ maxId) :
    Covers (insertRange s a b).intervals (upper l) ↔
      Covers s.intervals (upper l) ∨ (a ≤ l ∧ l ≤ b) := by
  by_cases h : lower a ≤ upper b
  · rw [insertRange, dif_pos h, covers_insert h s.separated, le_iff_lower hl, le_iff_upper hl]
  · rw [insertRange, dif_neg h, le_iff_lower hl, le_iff_upper hl]
    constructor
    · exact Or.inl
    · rintro (h' | h')
      · exact h'
      · omega

theorem removeRange_covers (s : LocationSet) (hl : l.object ≤ maxId) :
    Covers (removeRange s a b).intervals (upper l) ↔
      Covers s.intervals (upper l) ∧ ¬ (a ≤ l ∧ l ≤ b) := by
  by_cases h : lower a ≤ upper b
  · rw [removeRange, dif_pos h, covers_remove, le_iff_lower hl, le_iff_upper hl]
  · rw [removeRange, dif_neg h, le_iff_lower hl, le_iff_upper hl]
    constructor
    · exact fun h' => ⟨h', by omega⟩
    · exact And.left

def nextInGroup (l : AbsoluteLocation) : Option AbsoluteLocation :=
  if l.object < maxId then some ⟨l.group, l.object + 1⟩ else none

def prevInGroup (l : AbsoluteLocation) : Option AbsoluteLocation :=
  if 0 < l.object then some ⟨l.group, l.object - 1⟩ else none

def nextGroup (l : AbsoluteLocation) : Option AbsoluteLocation :=
  if l.group < maxId then some ⟨l.group + 1, 0⟩ else none

def prevGroupEnd (l : AbsoluteLocation) : Option AbsoluteLocation :=
  if 0 < l.group then some ⟨l.group - 1, maxId⟩ else none

theorem upper_next {y : AbsoluteLocation} (hl : l.object ≤ maxId)
    (h : (nextInGroup l).or (nextGroup l) = some y) : upper y = upper l + 1 := by
  simp only [nextInGroup, nextGroup] at h
  split at h
  · simp only [Option.some_or, Option.some.injEq] at h
    subst h
    simp only [upper, maxId] at *
    omega
  · split at h
    · simp only [Option.none_or, Option.some.injEq] at h
      subst h
      simp only [upper, maxId] at *
      omega
    · simp at h

theorem upper_prev {y : AbsoluteLocation} (hl : l.object ≤ maxId)
    (h : (prevInGroup l).or (prevGroupEnd l) = some y) : upper y + 1 = upper l := by
  simp only [prevInGroup, prevGroupEnd] at h
  split at h
  · simp only [Option.some_or, Option.some.injEq] at h
    subst h
    simp only [upper, maxId] at *
    omega
  · split at h
    · simp only [Option.none_or, Option.some.injEq] at h
      subst h
      simp only [upper, maxId] at *
      omega
    · simp at h

theorem find_laws (s : LocationSet) (hl : l.object ≤ maxId)
    (h : (find s.intervals (upper l)).map unrankPair = some (a, b)) :
    a ≤ l ∧ l ≤ b ∧ a.object ≤ maxId ∧ b.object ≤ maxId ∧
      (∀ x, a ≤ x → x ≤ b → x.object ≤ maxId → Covers s.intervals (upper x)) ∧
      (∀ y, (prevInGroup a).or (prevGroupEnd a) = some y → ¬ Covers s.intervals (upper y)) ∧
      (∀ y, (nextInGroup b).or (nextGroup b) = some y → ¬ Covers s.intervals (upper y)) := by
  obtain ⟨p, hp, he⟩ := Option.map_eq_some_iff.mp h
  obtain ⟨rfl, rfl⟩ : unrank p.1 = a ∧ unrank p.2 = b := by simpa [unrankPair] using he
  obtain ⟨hmem, hlo, hhi⟩ := find_eq_some hp
  obtain ⟨hafter, hbefore⟩ := separated_isolated s.separated hmem
  refine ⟨unrank_le_iff.mpr hlo, (le_unrank_iff hl).mpr hhi, unrank_object _,
    unrank_object _, ?_, ?_, ?_⟩
  · intro x hax hxb hx
    exact ⟨p, hmem, unrank_le_iff.mp hax, (le_unrank_iff hx).mp hxb⟩
  · intro y hy
    have := upper_prev (unrank_object _) hy
    rw [upper_unrank] at this
    exact hbefore _ this
  · intro y hy
    rw [upper_next (unrank_object _) hy, upper_unrank]
    exact hafter

theorem findNext_laws (s : LocationSet) (hl : l.object ≤ maxId)
    (hn : ¬ Covers s.intervals (upper l))
    (h : (findNext s.intervals (upper l)).map unrankPair = some (a, b)) :
    l < a ∧ a.object ≤ maxId ∧ (find s.intervals (upper a)).map unrankPair = some (a, b) ∧
      ∀ x, l < x → x < a → x.object ≤ maxId → ¬ Covers s.intervals (upper x) := by
  obtain ⟨p, hp, he⟩ := Option.map_eq_some_iff.mp h
  obtain ⟨rfl, rfl⟩ : unrank p.1 = a ∧ unrank p.2 = b := by simpa [unrankPair] using he
  obtain ⟨hmem, hlt, hfree⟩ := findNext_eq_some s.separated hn hp
  refine ⟨(lt_unrank_iff hl).mpr hlt, unrank_object _, ?_, ?_⟩
  · rw [upper_unrank, find_of_mem s.separated hmem ⟨le_rfl, s.separated.2 p hmem⟩]
    rfl
  · intro x hlx hxa hx
    exact hfree _ ((lt_iff_upper hl hx).mp hlx) ((lt_unrank_iff hx).mp hxa)

theorem findPrev_laws (s : LocationSet) (hl : l.object ≤ maxId)
    (hn : ¬ Covers s.intervals (upper l))
    (h : (findPrev s.intervals (upper l)).map unrankPair = some (a, b)) :
    b < l ∧ b.object ≤ maxId ∧ (find s.intervals (upper b)).map unrankPair = some (a, b) ∧
      ∀ x, b < x → x < l → x.object ≤ maxId → ¬ Covers s.intervals (upper x) := by
  obtain ⟨p, hp, he⟩ := Option.map_eq_some_iff.mp h
  obtain ⟨rfl, rfl⟩ : unrank p.1 = a ∧ unrank p.2 = b := by simpa [unrankPair] using he
  obtain ⟨hmem, hlt, hfree⟩ := findPrev_eq_some s.separated hn hp
  refine ⟨(unrank_lt_iff hl).mpr hlt, unrank_object _, ?_, ?_⟩
  · rw [upper_unrank, find_of_mem s.separated hmem ⟨s.separated.2 p hmem, le_rfl⟩]
    rfl
  · intro x hbx hxl hx
    exact hfree _ ((unrank_lt_iff hx).mp hbx) ((lt_iff_upper hx hl).mp hxl)

theorem no_later_iff (s : LocationSet) (hl : l.object ≤ maxId) :
    (∀ m, upper l < m → ¬ Covers s.intervals m) ↔
      ∀ x, l < x → x.object ≤ maxId → ¬ Covers s.intervals (upper x) := by
  constructor
  · exact fun h x hlx hx => h _ ((lt_iff_upper hl hx).mp hlx)
  · intro h m hm
    simpa [upper_unrank] using h (unrank m) ((lt_unrank_iff hl).mpr hm) (unrank_object m)

theorem no_earlier_iff (s : LocationSet) (hl : l.object ≤ maxId) :
    (∀ m, m < upper l → ¬ Covers s.intervals m) ↔
      ∀ x, x < l → x.object ≤ maxId → ¬ Covers s.intervals (upper x) := by
  constructor
  · exact fun h x hxl hx => h _ ((lt_iff_upper hx hl).mp hxl)
  · intro h m hm
    simpa [upper_unrank] using h (unrank m) ((unrank_lt_iff hl).mpr hm) (unrank_object m)

/-- Every law of the interface holds for numbered locations. -/
instance moxygen : Moxygen where
  kLocationMax := ⟨maxId, maxId⟩
  nextInGroup := nextInGroup
  prevInGroup := prevInGroup
  nextGroup := nextGroup
  prevGroup l := if 0 < l.group then some ⟨l.group - 1, 0⟩ else none
  prevGroupEnd := prevGroupEnd
  next l := (nextInGroup l).or (nextGroup l)
  prev l := (prevInGroup l).or (prevGroupEnd l)
  LocationIntervalSet := LocationSet
  emptySet := ⟨[], separated_nil⟩
  contains s l := decide (Covers s.intervals (upper l))
  insert := insertRange
  remove := removeRange
  findInterval s l := (find s.intervals (upper l)).map unrankPair
  findNextInterval s l := (findNext s.intervals (upper l)).map unrankPair
  findPrevInterval s l := (findPrev s.intervals (upper l)).map unrankPair
  Extensions := List (Nat × Nat)
  noExtensions := []
  getIntExtension e t := e.lookup t
  kMaxCacheDurationExtensionType := 4
  nextInGroup_eq _ := rfl
  prevInGroup_eq _ := rfl
  nextGroup_eq _ := rfl
  prevGroup_eq _ := rfl
  prevGroupEnd_eq _ := rfl
  next_eq _ := rfl
  prev_eq _ := rfl
  contains_emptySet l := by simp
  contains_insert s a b l hab hl := by simpa using insertRange_covers s hl
  contains_remove s a b l hab hl := by simpa using removeRange_covers s hl
  findInterval_none s l := by simp [find_eq_none]
  findInterval_some s l a b hl h := by simpa using find_laws s hl h
  findNextInterval_none s l hl hn := by
    simpa [findNext_eq_none s.separated (by simpa using hn)] using no_later_iff s hl
  findNextInterval_some s l a b hl hn h := by
    simpa using findNext_laws s hl (by simpa using hn) h
  findPrevInterval_none s l hl hn := by
    simpa [findPrev_eq_none s.separated (by simpa using hn)] using no_earlier_iff s hl
  findPrevInterval_some s l a b hl hn h := by
    simpa using findPrev_laws s hl (by simpa using hn) h
  getIntExtension_noExtensions t := rfl

end Moqx.Ranked
