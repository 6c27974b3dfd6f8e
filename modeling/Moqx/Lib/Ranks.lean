import Mathlib
import Moqx.Lib.OrderedMaps

/-! Maps kept in descending order of their keys, and what becomes of their first entries when an
entry comes in or goes out. -/
namespace Ranks

/-- A map as the list of its entries, greatest key first. -/
structure RankMap (κ α : Type) [LinearOrder κ] where
  entries : List (κ × α)
  sorted : entries.Pairwise fun a b => b.1 < a.1

section
variable {κ α : Type} [LinearOrder κ] {l : List (κ × α)} {k : κ} {x : α}

/-- The first `n` of a list in descending order are those with fewer than `n` greater ones. -/
theorem mem_take_iff_of_pairwise (hl : l.Pairwise fun a b => b.1 < a.1) {e : κ × α} {n : Nat} :
    e ∈ l.take n ↔ e ∈ l ∧ (l.filter fun d => e.1 < d.1).length < n := by
  induction l generalizing n with
  | nil => simp
  | cons a l ih =>
    obtain ⟨hhead, htail⟩ := List.pairwise_cons.mp hl
    cases n with
    | zero => simp
    | succ n =>
      rw [List.take_succ_cons, List.mem_cons, ih htail, List.mem_cons]
      by_cases heq : e = a
      · subst heq
        have hnone : l.filter (fun d => decide (e.1 < d.1)) = [] := by
          simpa using fun a b hb => le_of_lt (hhead (a, b) hb)
        simp [hnone]
      · simp only [heq, false_or]
        refine and_congr_right fun he => ?_
        rw [List.filter_cons, if_pos (by simpa using hhead e he), List.length_cons]
        omega

/-- The entries at or above the `n`-th are the first `n`. -/
theorem filter_le_eq_take (hl : l.Pairwise fun a b => b.1 < a.1) {e : κ × α} {n : Nat}
    (h : l[n]? = some e) : (l.filter fun d => e.1 ≤ d.1) = l.take (n + 1) := by
  induction l generalizing n with
  | nil => cases h
  | cons a l ih =>
    obtain ⟨hhead, htail⟩ := List.pairwise_cons.mp hl
    cases n with
    | zero =>
      obtain rfl : a = e := by simpa using h
      have hnone : l.filter (fun d => decide (a.1 ≤ d.1)) = [] := by
        simpa using fun b c hb => hhead (b, c) hb
      simp [hnone]
    | succ n =>
      rw [List.getElem?_cons_succ] at h
      have hlt : e.1 < a.1 := hhead e (List.mem_of_getElem? h)
      rw [List.filter_cons, if_pos (by simpa using le_of_lt hlt), ih htail h, List.take_succ_cons]

/-- An entry stands behind as many as have a greater key. -/
theorem length_filter_gt {e : κ × α} {i : Nat} (hi : i ≤ l.length)
    (hl : (l.insertIdx i e).Pairwise fun a b => b.1 < a.1) :
    (l.filter fun d => e.1 < d.1).length = i := by
  induction l generalizing i with
  | nil =>
    obtain rfl : i = 0 := by simpa using hi
    rfl
  | cons a l ih =>
    cases i with
    | zero =>
      have hhead := (List.pairwise_cons.mp hl).1
      rw [List.length_eq_zero_iff, List.filter_eq_nil_iff]
      intro d hd
      simpa using le_of_lt (hhead d hd)
    | succ i =>
      rw [List.insertIdx_succ_cons] at hl
      obtain ⟨hhead, htail⟩ := List.pairwise_cons.mp hl
      have hi := Nat.le_of_succ_le_succ hi
      have hlt : e.1 < a.1 := hhead e ((List.mem_insertIdx hi).mpr (.inl rfl))
      rw [List.filter_cons, if_pos (by simpa using hlt), List.length_cons, ih hi htail]

/-- Insert an entry unless its key is taken. -/
def emplaceEntry (k : κ) (x : α) : List (κ × α) → List (κ × α)
  | [] => [(k, x)]
  | e :: l =>
    if e.1 < k then (k, x) :: e :: l
    else if e.1 = k then e :: l
    else e :: emplaceEntry k x l

/-- The descending order is the ascending one of the dual. -/
theorem emplaceEntry_eq (k : κ) (x : α) (l : List (κ × α)) :
    emplaceEntry k x l = OrderedMaps.emplaceEntry (OrderDual.toDual k) x l := by
  induction l with
  | nil => rfl
  | cons e l ih => exact if_congr Iff.rfl rfl (if_congr eq_comm rfl (congrArg (List.cons e) ih))

theorem pairwise_emplaceEntry (k : κ) (x : α) (h : l.Pairwise fun a b => b.1 < a.1) :
    (emplaceEntry k x l).Pairwise fun a b => b.1 < a.1 := by
  rw [emplaceEntry_eq]
  exact OrderedMaps.pairwise_emplaceEntry (κ := κᵒᵈ) h

/-- A new key goes in at one position. -/
theorem emplaceEntry_eq_insertIdx (h : ∀ e ∈ l, e.1 ≠ k) :
    ∃ i ≤ l.length, emplaceEntry k x l = l.insertIdx i (k, x) := by
  induction l with
  | nil => exact ⟨0, Nat.le_refl _, rfl⟩
  | cons a l ih =>
    simp only [emplaceEntry]
    split_ifs with hlt heq
    · exact ⟨0, Nat.zero_le _, rfl⟩
    · exact absurd heq (h a List.mem_cons_self)
    · obtain ⟨i, hi, heq⟩ := ih fun e he => h e (List.mem_cons_of_mem a he)
      exact ⟨i + 1, Nat.succ_le_succ hi, by rw [heq, List.insertIdx_succ_cons]⟩

end

namespace RankMap

variable {κ α : Type} [LinearOrder κ] (m : RankMap κ α)

def empty : RankMap κ α := ⟨[], .nil⟩

def emplace (k : κ) (x : α) : RankMap κ α :=
  ⟨emplaceEntry k x m.entries, pairwise_emplaceEntry k x m.sorted⟩

def erase (k : κ) : RankMap κ α :=
  ⟨m.entries.filter fun e => e.1 ≠ k, m.sorted.filter _⟩

variable {m}

/-- A map with an entry is the map without it, with the entry put in at its position. -/
theorem entries_eq_insertIdx {k : κ} {x : α} (h : (k, x) ∈ m.entries) :
    ∃ i ≤ (m.erase k).entries.length, m.entries = (m.erase k).entries.insertIdx i (k, x) := by
  obtain ⟨l, hl⟩ := m
  simp only [erase] at h ⊢
  induction l with
  | nil => cases h
  | cons a l ih =>
    obtain ⟨hhead, htail⟩ := List.pairwise_cons.mp hl
    rcases List.mem_cons.mp h with rfl | h
    · have hrest : l.filter (fun e => decide (e.1 ≠ k)) = l :=
        List.filter_eq_self.mpr fun e he => by simp [ne_of_lt (hhead e he)]
      refine ⟨0, Nat.zero_le _, ?_⟩
      rw [List.filter_cons, if_neg (by simp), hrest, List.insertIdx_zero]
    · obtain ⟨i, hi, heq⟩ := ih htail h
      have hne : a.1 ≠ k := (ne_of_lt (hhead (k, x) h)).symm
      refine ⟨i + 1, ?_, ?_⟩
      · rw [List.filter_cons, if_pos (by simpa using hne)]
        exact Nat.succ_le_succ hi
      · rw [List.filter_cons, if_pos (by simpa using hne), List.insertIdx_succ_cons]
        exact congrArg (a :: ·) heq

end RankMap

section
variable {α : Type} {l : List α} {x y : α} {i n : Nat}

/-- A position in front of the `n`-th takes one place away from the others. -/
theorem take_insertIdx_of_lt (l : List α) (x : α) (h : i < n) :
    (l.insertIdx i x).take n = (l.take (n - 1)).insertIdx i x := by
  induction l generalizing i n with
  | nil =>
    cases i with
    | zero =>
      obtain ⟨n, rfl⟩ := Nat.exists_eq_add_of_lt h
      simp
    | succ i => simp
  | cons a l ih =>
    obtain ⟨n, rfl⟩ : ∃ m, n = m + 1 := ⟨n - 1, by omega⟩
    cases i with
    | zero => simp
    | succ i =>
      obtain ⟨n, rfl⟩ : ∃ m, n = m + 1 := ⟨n - 1, by omega⟩
      simp only [List.insertIdx_succ_cons, List.take_succ_cons, Nat.add_sub_cancel]
      rw [ih (by omega), Nat.add_sub_cancel]

theorem mem_take_insertIdx (hi : i ≤ l.length) (h : i < n) : x ∈ (l.insertIdx i x).take n := by
  rw [take_insertIdx_of_lt l x h]
  exact (List.mem_insertIdx (by rw [List.length_take]; omega)).mpr (.inl rfl)

/-- Selecting after inserting. -/
theorem filter_insertIdx (p : α → Bool) (h : i ≤ l.length) : (l.insertIdx i x).filter p =
    if p x then (l.filter p).insertIdx ((l.take i).filter p).length x else l.filter p := by
  induction l generalizing i with
  | nil =>
    obtain rfl : i = 0 := by simpa using h
    cases hp : p x <;> simp [hp]
  | cons a l ih =>
    cases i with
    | zero => cases hp : p x <;> simp [hp]
    | succ i =>
      have ih := ih (Nat.le_of_succ_le_succ h)
      cases ha : p a <;> cases hp : p x <;> simp [ha, hp] at ih ⊢ <;> exact ih

/-- Among the first `i` elements at most as many fail as in the whole list. -/
theorem le_length_filter_take (p : α → Bool) (h : i ≤ l.length) :
    i ≤ ((l.take i).filter p).length + (l.filter fun a => !p a).length := by
  have hsplit : ((l.take i).filter p).length + ((l.take i).filter fun a => !p a).length =
      (l.take i).length := (List.length_eq_length_filter_add p).symm
  have hsub : ((l.take i).filter fun a => !p a).length ≤ (l.filter fun a => !p a).length :=
    ((List.take_sublist i l).filter _).length_le
  rw [List.length_take, Nat.min_eq_left h] at hsplit
  omega

theorem findIdx?_insertIdx {p : α → Bool} (h : i ≤ l.length) (hx : p x = true)
    (hl : ∀ a ∈ l, p a = false) : (l.insertIdx i x).findIdx? p = some i := by
  induction l generalizing i with
  | nil =>
    obtain rfl : i = 0 := by simpa using h
    simp [hx]
  | cons a l ih =>
    have ha : p a = false := hl a List.mem_cons_self
    cases i with
    | zero => simp [List.findIdx?_cons, hx]
    | succ i =>
      rw [List.insertIdx_succ_cons, List.findIdx?_cons]
      simp [ha, ih (Nat.le_of_succ_le_succ h) fun b hb => hl b (List.mem_cons_of_mem a hb)]

/-- The search stops at the first element that none before it satisfies. -/
theorem find?_eq_getElem? {p : α → Bool} {k : Nat} (hbefore : ∀ y ∈ l.take k, p y = false)
    (hat : ∀ y, l[k]? = some y → p y = true) : l.find? p = l[k]? := by
  induction l generalizing k with
  | nil => simp
  | cons a l ih =>
    cases k with
    | zero => simp [hat a rfl]
    | succ k =>
      have ha : p a = false := hbefore a (by simp)
      rw [List.find?_cons, ha, List.getElem?_cons_succ]
      refine ih (fun y hy => hbefore y ?_) fun y hy => hat y ?_
      · simp [hy]
      · simpa using hy

variable [DecidableEq α]

/-- The best `n` of a ranked list. -/
def best (n : Nat) (l : List α) : Finset α := (l.take n).toFinset

theorem mem_best : y ∈ best n l ↔ y ∈ l.take n := List.mem_toFinset

theorem mem_of_mem_best (h : y ∈ best n l) : y ∈ l := List.mem_of_mem_take (mem_best.mp h)

theorem best_insertIdx_of_lt (hi : i ≤ l.length) (h : i < n) :
    best n (l.insertIdx i x) = insert x (best (n - 1) l) := by
  have hlen : i ≤ (l.take (n - 1)).length := by
    rw [List.length_take]
    omega
  ext y
  rw [mem_best, take_insertIdx_of_lt l x h, List.mem_insertIdx hlen, Finset.mem_insert, mem_best]

theorem best_insertIdx_of_le (h : n ≤ i) : best n (l.insertIdx i x) = best n l := by
  rw [best, List.take_insertIdx_eq_take_of_le l x n i h, best]

/-- The `n`-th place. -/
theorem best_eq_insert (hn : 0 < n) (h : l[n - 1]? = some y) :
    best n l = insert y (best (n - 1) l) := by
  obtain ⟨n, rfl⟩ : ∃ m, n = m + 1 := ⟨n - 1, by omega⟩
  rw [Nat.add_sub_cancel] at h
  rw [best, List.take_add_one, h, List.toFinset_append, Nat.add_sub_cancel, best]
  ext z
  simp

theorem best_eq_of_none (h : l[n - 1]? = none) : best n l = best (n - 1) l := by
  have hlen : l.length ≤ n - 1 := List.getElem?_eq_none_iff.mp h
  rw [best, best, List.take_of_length_le (by omega), List.take_of_length_le hlen]

theorem notMem_best (hl : l.Nodup) (h : l[n]? = some y) : y ∉ best n l := by
  intro hmem
  obtain ⟨j, hj, heq⟩ := List.mem_take_iff_getElem.mp (mem_best.mp hmem)
  obtain ⟨hn, hy⟩ := List.getElem?_eq_some_iff.mp h
  have := hl.getElem_inj_iff.mp (heq.trans hy.symm)
  omega

section
variable (hl : l.Nodup) (hx : x ∉ l) (hi : i ≤ l.length) (hin : i < n)
include hl hx hi hin

/-- An element that comes in pushes the `n`-th out. -/
theorem best_enter (hy : l[n - 1]? = some y) :
    (insert x (best n l)).erase y = best n (l.insertIdx i x) := by
  have hne : x ≠ y := fun h => hx (h ▸ List.mem_of_getElem? hy)
  rw [best_insertIdx_of_lt hi hin, best_eq_insert (by omega) hy, Finset.erase_insert_of_ne hne,
    Finset.erase_insert (notMem_best hl hy)]

end

theorem best_enter_none (hi : i ≤ l.length) (hin : i < n) (hy : l[n - 1]? = none) :
    insert x (best n l) = best n (l.insertIdx i x) := by
  rw [best_insertIdx_of_lt hi hin, best_eq_of_none hy]

/-- An element that goes leaves the best but one. -/
theorem best_leave (hx : x ∉ l) (hi : i ≤ l.length) (hin : i < n) :
    (best n (l.insertIdx i x)).erase x = best (n - 1) l := by
  rw [best_insertIdx_of_lt hi hin, Finset.erase_insert fun h => hx (mem_of_mem_best h)]

theorem card_best (hl : l.Nodup) : (best n l).card = min n l.length := by
  rw [best, List.toFinset_card_of_nodup (hl.sublist (List.take_sublist n l)), List.length_take]

end

end Ranks
