import Mathlib

/-! The part of the moxygen library the cache is written against. The library is a
submodule outside this repository, so its functions are parameters with stated laws. -/
namespace Moqx

/-- A location of a track: a group and an object inside it, ordered group first. -/
structure AbsoluteLocation where
  group : Nat
  object : Nat
deriving DecidableEq, Repr

namespace AbsoluteLocation

instance : LT AbsoluteLocation :=
  ⟨fun a b => a.group < b.group ∨ (a.group = b.group ∧ a.object < b.object)⟩

instance : LE AbsoluteLocation :=
  ⟨fun a b => a.group < b.group ∨ (a.group = b.group ∧ a.object ≤ b.object)⟩

theorem lt_def {a b : AbsoluteLocation} :
    a < b ↔ a.group < b.group ∨ (a.group = b.group ∧ a.object < b.object) := Iff.rfl

theorem le_def {a b : AbsoluteLocation} :
    a ≤ b ↔ a.group < b.group ∨ (a.group = b.group ∧ a.object ≤ b.object) := Iff.rfl

theorem eq_def {a b : AbsoluteLocation} :
    a = b ↔ a.group = b.group ∧ a.object = b.object := by
  cases a
  cases b
  simp

instance (a b : AbsoluteLocation) : Decidable (a < b) :=
  inferInstanceAs (Decidable (_ ∨ _))

instance (a b : AbsoluteLocation) : Decidable (a ≤ b) :=
  inferInstanceAs (Decidable (_ ∨ _))

instance : LinearOrder AbsoluteLocation where
  le_refl a := by rw [le_def]; omega
  le_trans a b c := by simp only [le_def]; omega
  le_antisymm a b := by simp only [le_def, eq_def]; omega
  le_total a b := by simp only [le_def]; omega
  lt_iff_le_not_ge a b := by simp only [le_def, lt_def]; omega
  toDecidableLE := inferInstance
  toDecidableLT := inferInstance
  toDecidableEq := inferInstance

end AbsoluteLocation

/-- The order in which a fetch walks the groups of a track. -/
inductive GroupOrder where
  | default
  | oldestFirst
  | newestFirst
deriving DecidableEq, Repr

inductive ObjectStatus where
  | normal
  | endOfGroup
  | endOfTrack
deriving DecidableEq, Repr

inductive PublishErrorCode where
  | apiError
  | malformedTrack
  | blocked
  | cancelled
  | other (code : Nat)
deriving DecidableEq, Repr

structure MoQPublishError where
  code : PublishErrorCode
  msg : String
deriving DecidableEq, Repr

structure FullTrackName where
  trackNamespace : List String
  trackName : String
deriving DecidableEq, Repr

/-- The bytes of a payload chain. -/
abbrev Payload := List UInt8

/-- Location helpers, location sets and extension lists of moxygen, with the behaviour
the cache relies on. Laws about location sets speak of locations up to `kLocationMax`:
an interval set merges `⟨g, kLocationMax.object⟩` with `⟨g + 1, 0⟩`. -/
class Moxygen where
  kLocationMax : AbsoluteLocation
  nextInGroup : AbsoluteLocation → Option AbsoluteLocation
  prevInGroup : AbsoluteLocation → Option AbsoluteLocation
  nextGroup : AbsoluteLocation → Option AbsoluteLocation
  prevGroup : AbsoluteLocation → Option AbsoluteLocation
  prevGroupEnd : AbsoluteLocation → Option AbsoluteLocation
  next : AbsoluteLocation → Option AbsoluteLocation
  prev : AbsoluteLocation → Option AbsoluteLocation
  /-- A set of locations kept as closed intervals. -/
  LocationIntervalSet : Type
  emptySet : LocationIntervalSet
  contains : LocationIntervalSet → AbsoluteLocation → Bool
  insert : LocationIntervalSet → AbsoluteLocation → AbsoluteLocation → LocationIntervalSet
  remove : LocationIntervalSet → AbsoluteLocation → AbsoluteLocation → LocationIntervalSet
  findInterval : LocationIntervalSet → AbsoluteLocation →
    Option (AbsoluteLocation × AbsoluteLocation)
  findNextInterval : LocationIntervalSet → AbsoluteLocation →
    Option (AbsoluteLocation × AbsoluteLocation)
  findPrevInterval : LocationIntervalSet → AbsoluteLocation →
    Option (AbsoluteLocation × AbsoluteLocation)
  Extensions : Type
  noExtensions : Extensions
  getIntExtension : Extensions → Nat → Option Nat
  kMaxCacheDurationExtensionType : Nat
  nextInGroup_eq : ∀ l, nextInGroup l =
    if l.object < kLocationMax.object then some ⟨l.group, l.object + 1⟩ else none
  prevInGroup_eq : ∀ l, prevInGroup l =
    if 0 < l.object then some ⟨l.group, l.object - 1⟩ else none
  nextGroup_eq : ∀ l, nextGroup l =
    if l.group < kLocationMax.group then some ⟨l.group + 1, 0⟩ else none
  prevGroup_eq : ∀ l, prevGroup l =
    if 0 < l.group then some ⟨l.group - 1, 0⟩ else none
  prevGroupEnd_eq : ∀ l, prevGroupEnd l =
    if 0 < l.group then some ⟨l.group - 1, kLocationMax.object⟩ else none
  next_eq : ∀ l, next l = (nextInGroup l).or (nextGroup l)
  prev_eq : ∀ l, prev l = (prevInGroup l).or (prevGroupEnd l)
  contains_emptySet : ∀ l, contains emptySet l = false
  contains_insert : ∀ s a b l, a ≤ b → l.object ≤ kLocationMax.object →
    (contains (insert s a b) l = true ↔ contains s l = true ∨ (a ≤ l ∧ l ≤ b))
  contains_remove : ∀ s a b l, a ≤ b → l.object ≤ kLocationMax.object →
    (contains (remove s a b) l = true ↔ contains s l = true ∧ ¬ (a ≤ l ∧ l ≤ b))
  findInterval_none : ∀ s l, findInterval s l = none ↔ contains s l = false
  /-- The interval of a contained location is inside the set and cannot be extended. -/
  findInterval_some : ∀ s l a b, l.object ≤ kLocationMax.object →
    findInterval s l = some (a, b) →
    a ≤ l ∧ l ≤ b ∧ a.object ≤ kLocationMax.object ∧ b.object ≤ kLocationMax.object ∧
      (∀ x, a ≤ x → x ≤ b → x.object ≤ kLocationMax.object → contains s x = true) ∧
      (∀ y, prev a = some y → contains s y = false) ∧
      (∀ y, next b = some y → contains s y = false)
  /-- Without the location in the set, the next interval starts at the least later member. -/
  findNextInterval_none : ∀ s l, l.object ≤ kLocationMax.object → contains s l = false →
    (findNextInterval s l = none ↔
      ∀ x, l < x → x.object ≤ kLocationMax.object → contains s x = false)
  findNextInterval_some : ∀ s l a b, l.object ≤ kLocationMax.object → contains s l = false →
    findNextInterval s l = some (a, b) →
    l < a ∧ a.object ≤ kLocationMax.object ∧ findInterval s a = some (a, b) ∧
      ∀ x, l < x → x < a → x.object ≤ kLocationMax.object → contains s x = false
  /-- Without the location in the set, the previous interval ends at the greatest earlier
  member. -/
  findPrevInterval_none : ∀ s l, l.object ≤ kLocationMax.object → contains s l = false →
    (findPrevInterval s l = none ↔
      ∀ x, x < l → x.object ≤ kLocationMax.object → contains s x = false)
  findPrevInterval_some : ∀ s l a b, l.object ≤ kLocationMax.object → contains s l = false →
    findPrevInterval s l = some (a, b) →
    b < l ∧ b.object ≤ kLocationMax.object ∧ findInterval s b = some (a, b) ∧
      ∀ x, b < x → x < l → x.object ≤ kLocationMax.object → contains s x = false
  getIntExtension_noExtensions : ∀ t, getIntExtension noExtensions t = none

end Moqx
