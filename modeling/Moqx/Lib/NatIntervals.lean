import Mathlib

/-! Finite unions of closed intervals of natural numbers, kept sorted and merged. -/
namespace NatIntervals

abbrev Intervals := List (Nat × Nat)

/-- Nonempty intervals in increasing order, with a missing number between neighbours. -/
def Separated (s : Intervals) : Prop :=
  s.Pairwise (fun p q => p.2 + 1 < q.1) ∧ ∀ p ∈ s, p.1 ≤ p.2

def Covers (s : Intervals) (n : Nat) : Prop := ∃ p ∈ s, p.1 ≤ n ∧ n ≤ p.2

instance (s : Intervals) (n : Nat) : Decidable (Covers s n) :=
  inferInstanceAs (Decidable (∃ p ∈ s, _))

/-- Add `[a, b]`, absorbing every interval it meets or touches. -/
def insert : Intervals → Nat → Nat → Intervals
  | [], a, b => [(a, b)]
  | (c, d) :: s, a, b =>
    if b + 1 < c then (a, b) :: (c, d) :: s
    else if d + 1 < a then (c, d) :: insert s a b
    else insert s (min a c) (max b d)

/-- Cut `[a, b]` out of every interval. -/
def remove : Intervals → Nat → Nat → Intervals
  | [], _, _ => []
  | (c, d) :: s, a, b =>
    (if c < a then [(c, min d (a - 1))] else []) ++
      (if b < d then [(max c (b + 1), d)] else []) ++ remove s a b

def find (s : Intervals) (n : Nat) : Option (Nat × Nat) :=
  s.find? (fun p => p.1 ≤ n ∧ n ≤ p.2)

def findNext (s : Intervals) (n : Nat) : Option (Nat × Nat) :=
  s.find? (fun p => n < p.1)

def findPrev (s : Intervals) (n : Nat) : Option (Nat × Nat) :=
  s.reverse.find? (fun p => p.2 < n)

theorem separated_nil : Separated [] := by simp [Separated]

variable {s : Intervals} {a b n : Nat} {p : Nat × Nat}

theorem separated_cons {c d : Nat} :
    Separated ((c, d) :: s) ↔ c ≤ d ∧ (∀ q ∈ s, d + 1 < q.1) ∧ Separated s := by
  simp only [Separated, List.pairwise_cons, List.forall_mem_cons]
  tauto

@[simp] theorem covers_nil (n : Nat) : ¬ Covers [] n := by simp [Covers]

@[simp] theorem covers_cons {c d n : Nat} {s : Intervals} :
    Covers ((c, d) :: s) n ↔ (c ≤ n ∧ n ≤ d) ∨ Covers s n := by
  simp [Covers]

@[simp] theorem covers_append {s t : Intervals} {n : Nat} :
    Covers (s ++ t) n ↔ Covers s n ∨ Covers t n := by
  simp [Covers, or_and_right, exists_or]

theorem insert_above {x : Nat} (ha : x < a) (hs : ∀ q ∈ s, x < q.1) :
    ∀ q ∈ insert s a b, x < q.1 := by
  induction s generalizing a b with
  | nil => simpa [insert] using ha
  | cons p s ih =>
    obtain ⟨c, d⟩ := p
    obtain ⟨hc, hs⟩ := List.forall_mem_cons.mp hs
    simp only [insert]
    split
    · simpa [ha, hc] using hs
    · split
      · exact List.forall_mem_cons.mpr ⟨hc, ih ha hs⟩
      · exact ih (lt_min ha hc) hs

theorem separated_insert (hab : a ≤ b) (hs : Separated s) : Separated (insert s a b) := by
  induction s generalizing a b with
  | nil => simpa [insert, Separated] using hab
  | cons p s ih =>
    obtain ⟨c, d⟩ := p
    obtain ⟨hcd, hd, hs⟩ := separated_cons.mp hs
    simp only [insert]
    split
    next h =>
      refine separated_cons.mpr ⟨hab, ?_, separated_cons.mpr ⟨hcd, hd, hs⟩⟩
      refine List.forall_mem_cons.mpr ⟨h, fun q hq => ?_⟩
      have := hd q hq
      omega
    next h =>
      split
      next h' => exact separated_cons.mpr ⟨hcd, insert_above h' hd, ih hab hs⟩
      next h' => exact ih (by omega) hs

theorem covers_insert (hab : a ≤ b) (hs : Separated s) :
    Covers (insert s a b) n ↔ Covers s n ∨ (a ≤ n ∧ n ≤ b) := by
  induction s generalizing a b with
  | nil => simp [insert]
  | cons p s ih =>
    obtain ⟨c, d⟩ := p
    obtain ⟨hcd, -, hs⟩ := separated_cons.mp hs
    simp only [insert]
    split
    · simp only [covers_cons]
      tauto
    · split
      · simp only [covers_cons, ih hab hs]
        tauto
      · rw [ih (by omega) hs, covers_cons]
        constructor
        · rintro (h | h)
          · exact Or.inl (Or.inr h)
          · by_cases hn : c ≤ n ∧ n ≤ d
            · exact Or.inl (Or.inl hn)
            · exact Or.inr (by omega)
        · rintro ((h | h) | h)
          · exact Or.inr (by omega)
          · exact Or.inl h
          · exact Or.inr (by omega)

theorem remove_above {x : Nat} (hs : ∀ q ∈ s, x < q.1) : ∀ q ∈ remove s a b, x < q.1 := by
  induction s with
  | nil => simp [remove]
  | cons p s ih =>
    obtain ⟨c, d⟩ := p
    obtain ⟨hc, hs⟩ := List.forall_mem_cons.mp hs
    intro q hq
    simp only [remove, List.mem_append] at hq
    rcases hq with (hq | hq) | hq
    · split at hq <;> simp_all
    · split at hq <;> simp_all
    · exact ih hs q hq

theorem separated_remove (hab : a ≤ b) (hs : Separated s) : Separated (remove s a b) := by
  induction s with
  | nil => exact hs
  | cons p s ih =>
    obtain ⟨c, d⟩ := p
    obtain ⟨hcd, hd, hs⟩ := separated_cons.mp hs
    have htail := ih hs
    have habove := remove_above (a := a) (b := b) hd
    simp only [remove]
    split <;> split <;> simp only [List.cons_append, List.nil_append]
    · refine separated_cons.mpr ⟨by omega, ?_, separated_cons.mpr ⟨by omega, habove, htail⟩⟩
      refine List.forall_mem_cons.mpr ⟨by simp only; omega, fun q hq => ?_⟩
      have := habove q hq
      omega
    · refine separated_cons.mpr ⟨by omega, fun q hq => ?_, htail⟩
      have := habove q hq
      omega
    · exact separated_cons.mpr ⟨by omega, habove, htail⟩
    · exact htail

theorem covers_remove : Covers (remove s a b) n ↔ Covers s n ∧ ¬ (a ≤ n ∧ n ≤ b) := by
  induction s with
  | nil => simp [remove]
  | cons p s ih =>
    obtain ⟨c, d⟩ := p
    have hl : Covers (if c < a then [(c, min d (a - 1))] else []) n ↔
        c ≤ n ∧ n ≤ d ∧ n < a := by
      split <;> simp <;> omega
    have hr : Covers (if b < d then [(max c (b + 1), d)] else []) n ↔
        c ≤ n ∧ n ≤ d ∧ b < n := by
      split <;> simp <;> omega
    rw [remove, covers_append, covers_append, ih, hl, hr, covers_cons]
    by_cases h : Covers s n
    · simp only [h, true_and, or_true]
      omega
    · simp only [h, false_and, or_false]
      omega

theorem find_eq_none : find s n = none ↔ ¬ Covers s n := by
  simp [find, Covers]

theorem find_eq_some (h : find s n = some p) : p ∈ s ∧ p.1 ≤ n ∧ n ≤ p.2 := by
  have hp := List.find?_some h
  exact ⟨List.mem_of_find?_eq_some h, by simpa using hp⟩

/-- Intervals of a separated list that share a number are the same interval. -/
theorem separated_unique (hs : Separated s) {q : Nat × Nat} (hp : p ∈ s) (hq : q ∈ s)
    (hpn : p.1 ≤ n ∧ n ≤ p.2) (hqn : q.1 ≤ n ∧ n ≤ q.2) : p = q := by
  induction s with
  | nil => simp at hp
  | cons r s ih =>
    obtain ⟨c, d⟩ := r
    obtain ⟨-, hd, hs⟩ := separated_cons.mp hs
    rcases List.mem_cons.mp hp with rfl | hp <;> rcases List.mem_cons.mp hq with rfl | hq
    · rfl
    · have := hd q hq
      simp only at hpn
      omega
    · have := hd p hp
      simp only at hqn
      omega
    · exact ih hs hp hq

theorem find_of_mem (hs : Separated s) (hp : p ∈ s) (hn : p.1 ≤ n ∧ n ≤ p.2) :
    find s n = some p := by
  cases h : find s n with
  | none => exact (find_eq_none.mp h ⟨p, hp, hn⟩).elim
  | some q =>
    obtain ⟨hq, hqn⟩ := find_eq_some h
    rw [separated_unique hs hp hq hn hqn]

/-- An interval of a separated list is followed and preceded by missing numbers. -/
theorem separated_isolated (hs : Separated s) (hp : p ∈ s) :
    ¬ Covers s (p.2 + 1) ∧ ∀ m, m + 1 = p.1 → ¬ Covers s m := by
  induction s with
  | nil => simp at hp
  | cons r s ih =>
    obtain ⟨c, d⟩ := r
    obtain ⟨hcd, hd, hs⟩ := separated_cons.mp hs
    rcases List.mem_cons.mp hp with rfl | hp
    · refine ⟨?_, fun m hm => ?_⟩
      · rintro ⟨q, hq, hqn⟩
        rcases List.mem_cons.mp hq with rfl | hq
        · simp only at hqn
          omega
        · have := hd q hq
          simp only at hqn
          omega
      · rintro ⟨q, hq, hqn⟩
        rcases List.mem_cons.mp hq with rfl | hq
        · simp only at hqn hm
          omega
        · have := hd q hq
          simp only at hm
          omega
    · obtain ⟨h1, h2⟩ := ih hs hp
      have hlow := hd p hp
      have hle := hs.2 p hp
      refine ⟨?_, fun m hm => ?_⟩
      · rw [covers_cons]
        rintro (h | h)
        · omega
        · exact h1 h
      · rw [covers_cons]
        rintro (h | h)
        · omega
        · exact h2 m hm h

theorem findNext_eq_none (hs : Separated s) (hn : ¬ Covers s n) :
    findNext s n = none ↔ ∀ m, n < m → ¬ Covers s m := by
  simp only [findNext, List.find?_eq_none, decide_eq_true_eq]
  constructor
  · rintro h m hm ⟨p, hp, hpm⟩
    exact hn ⟨p, hp, by have := h p hp; omega⟩
  · intro h p hp hlt
    exact h p.1 hlt ⟨p, hp, le_rfl, hs.2 p hp⟩

theorem findNext_eq_some (hs : Separated s) (hn : ¬ Covers s n) (h : findNext s n = some p) :
    p ∈ s ∧ n < p.1 ∧ ∀ m, n < m → m < p.1 → ¬ Covers s m := by
  refine ⟨List.mem_of_find?_eq_some h, by simpa using List.find?_some h, ?_⟩
  induction s with
  | nil => simp [findNext] at h
  | cons r s ih =>
    obtain ⟨c, d⟩ := r
    obtain ⟨hcd, hd, hs⟩ := separated_cons.mp hs
    intro m hnm hm
    rw [covers_cons, not_or] at hn ⊢
    by_cases hc : n < c
    · have hp : (c, d) = p := by simpa [findNext, hc] using h
      subst hp
      refine ⟨by simp only at hm; omega, ?_⟩
      rintro ⟨q, hq, hqn⟩
      have := hd q hq
      simp only at hm
      omega
    · have h' : findNext s n = some p := by simpa [findNext, hc] using h
      exact ⟨by omega, ih hs hn.2 h' m hnm hm⟩

theorem findPrev_eq_none (hs : Separated s) (hn : ¬ Covers s n) :
    findPrev s n = none ↔ ∀ m, m < n → ¬ Covers s m := by
  simp only [findPrev, List.find?_eq_none, List.mem_reverse, decide_eq_true_eq]
  constructor
  · rintro h m hm ⟨p, hp, hpm⟩
    exact hn ⟨p, hp, by have := h p hp; omega⟩
  · intro h p hp hlt
    exact h p.2 hlt ⟨p, hp, hs.2 p hp, le_rfl⟩

theorem findPrev_eq_some (hs : Separated s) (hn : ¬ Covers s n) (h : findPrev s n = some p) :
    p ∈ s ∧ p.2 < n ∧ ∀ m, p.2 < m → m < n → ¬ Covers s m := by
  have hp : p ∈ s := by simpa using List.mem_of_find?_eq_some h
  refine ⟨hp, by simpa using List.find?_some h, ?_⟩
  induction s with
  | nil => simp at hp
  | cons r s ih =>
    obtain ⟨c, d⟩ := r
    obtain ⟨hcd, hd, hs⟩ := separated_cons.mp hs
    intro m hpm hm
    rw [covers_cons, not_or] at hn ⊢
    simp only [findPrev, List.reverse_cons, List.find?_append] at h
    cases hf : s.reverse.find? (fun q => q.2 < n) with
    | some q =>
      have hq : q = p := by simpa [hf] using h
      subst hq
      have hmem : q ∈ s := by simpa using List.mem_of_find?_eq_some hf
      have := hd q hmem
      have := hs.2 q hmem
      exact ⟨by omega, ih hs hn.2 hf hmem m hpm hm⟩
    | none =>
      have hlast : d < n ∧ (c, d) = p := by
        by_cases hlt : d < n
        · simpa [hf, hlt] using h
        · simp [hf, hlt] at h
      obtain ⟨-, rfl⟩ := hlast
      refine ⟨by simp only at hpm; omega, ?_⟩
      exact (findPrev_eq_none hs hn.2).mp hf m hm

end NatIntervals
