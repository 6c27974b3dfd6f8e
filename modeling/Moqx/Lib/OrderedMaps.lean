import Mathlib

/-! Maps kept in ascending order of their keys, as `std::map` keeps them. -/
namespace OrderedMaps

/-- A map as the list of its entries, least key first. -/
structure OrderedMap (κ β : Type) [LinearOrder κ] where
  entries : List (κ × β)
  sorted : entries.Pairwise fun a b => a.1 < b.1

variable {κ β : Type} [LinearOrder κ]

/-- Insert an entry unless its key is taken. -/
def emplaceEntry (k : κ) (x : β) : List (κ × β) → List (κ × β)
  | [] => [(k, x)]
  | e :: l =>
    if k < e.1 then (k, x) :: e :: l
    else if k = e.1 then e :: l
    else e :: emplaceEntry k x l

section Entries

variable {l : List (κ × β)} {k : κ} {x : β} {e : κ × β}

theorem mem_emplaceEntry (h : e ∈ emplaceEntry k x l) : e = (k, x) ∨ e ∈ l := by
  induction l with
  | nil => simpa [emplaceEntry] using h
  | cons a l ih =>
    simp only [emplaceEntry] at h
    split_ifs at h
    · simpa using h
    · exact .inr h
    · rcases List.mem_cons.mp h with rfl | h
      · exact .inr List.mem_cons_self
      · exact (ih h).imp_right (List.mem_cons_of_mem a)

theorem pairwise_emplaceEntry (h : l.Pairwise fun a b => a.1 < b.1) :
    (emplaceEntry k x l).Pairwise fun a b => a.1 < b.1 := by
  induction l with
  | nil => simp [emplaceEntry]
  | cons a l ih =>
    obtain ⟨hhead, htail⟩ := List.pairwise_cons.mp h
    simp only [emplaceEntry]
    split_ifs with hlt heq
    · refine List.pairwise_cons.mpr ⟨fun b hb => ?_, h⟩
      rcases List.mem_cons.mp hb with rfl | hb
      · exact hlt
      · exact hlt.trans (hhead b hb)
    · exact h
    · refine List.pairwise_cons.mpr ⟨fun b hb => ?_, ih htail⟩
      rcases mem_emplaceEntry hb with rfl | hb
      · exact lt_of_le_of_ne (not_lt.mp hlt) (Ne.symm heq)
      · exact hhead b hb

/-- What goes in unless its key is taken, and what was there. -/
theorem mem_emplaceEntry_iff (h : ∀ e ∈ l, e.1 ≠ k) :
    e ∈ emplaceEntry k x l ↔ e = (k, x) ∨ e ∈ l := by
  refine ⟨mem_emplaceEntry, ?_⟩
  induction l with
  | nil => simp [emplaceEntry]
  | cons a l ih =>
    intro he
    simp only [emplaceEntry]
    split_ifs with hlt heq
    · simpa using he
    · exact absurd heq.symm (h a List.mem_cons_self)
    · rcases he with rfl | he
      · exact List.mem_cons_of_mem a (ih (fun b hb => h b (List.mem_cons_of_mem a hb)) (.inl rfl))
      · rcases List.mem_cons.mp he with rfl | he
        · exact List.mem_cons_self
        · exact List.mem_cons_of_mem a (ih (fun b hb => h b (List.mem_cons_of_mem a hb)) (.inr he))

theorem emplaceEntry_of_mem {y : β} (hl : l.Pairwise fun a b => a.1 < b.1) (h : (k, y) ∈ l) :
    emplaceEntry k x l = l := by
  induction l with
  | nil => cases h
  | cons a l ih =>
    obtain ⟨hhead, htail⟩ := List.pairwise_cons.mp hl
    simp only [emplaceEntry]
    split_ifs with hlt heq
    · rcases List.mem_cons.mp h with rfl | h
      · exact absurd hlt (lt_irrefl k)
      · exact absurd (hlt.trans (hhead _ h)) (lt_irrefl k)
    · rfl
    · rcases List.mem_cons.mp h with rfl | h
      · exact absurd rfl heq
      · rw [ih htail h]

theorem find?_entries (hl : l.Pairwise fun a b => a.1 < b.1) :
    (l.find? fun e => e.1 = k).map Prod.snd = some x ↔ (k, x) ∈ l := by
  induction l with
  | nil => simp
  | cons a l ih =>
    obtain ⟨hhead, htail⟩ := List.pairwise_cons.mp hl
    by_cases ha : a.1 = k
    · rw [List.find?_cons_of_pos (by simpa using ha), Option.map_some, Option.some.injEq]
      subst ha
      constructor
      · rintro rfl
        exact List.mem_cons_self
      · intro h
        rcases List.mem_cons.mp h with heq | h
        · rw [← heq]
        · exact absurd (hhead _ h) (lt_irrefl _)
    · rw [List.find?_cons_of_neg (by simpa using ha), ih htail, List.mem_cons, or_iff_right]
      rintro rfl
      exact ha rfl

end Entries

/-- What goes from the front is all that goes, where it goes down to the least. -/
theorem dropWhile_eq_filter {α : Type} {R : α → α → Prop} {p : α → Bool} {l : List α}
    (hl : l.Pairwise R) (hp : ∀ a ∈ l, ∀ b ∈ l, R a b → p b = true → p a = true) :
    l.dropWhile p = l.filter fun a => !p a := by
  induction l with
  | nil => rfl
  | cons a l ih =>
    obtain ⟨hhead, htail⟩ := List.pairwise_cons.mp hl
    cases ha : p a with
    | true =>
      rw [List.dropWhile_cons_of_pos ha, List.filter_cons_of_neg (by simp [ha])]
      exact ih htail fun b hb c hc =>
        hp b (List.mem_cons_of_mem a hb) c (List.mem_cons_of_mem a hc)
    | false =>
      rw [List.dropWhile_cons_of_neg (by simp [ha]), List.filter_eq_self.mpr]
      intro b hb
      rcases List.mem_cons.mp hb with rfl | htl
      · simp [ha]
      · cases hpb : p b with
        | false => rfl
        | true => simp [hp a List.mem_cons_self b hb (hhead b htl) hpb] at ha

namespace OrderedMap

def empty : OrderedMap κ β := ⟨[], .nil⟩

def find (m : OrderedMap κ β) (k : κ) : Option β :=
  (m.entries.find? fun e => e.1 = k).map Prod.snd

def size (m : OrderedMap κ β) : Nat := m.entries.length

/-- `try_emplace`. -/
def tryEmplace (m : OrderedMap κ β) (k : κ) (x : β) : OrderedMap κ β :=
  ⟨emplaceEntry k x m.entries, pairwise_emplaceEntry m.sorted⟩

/-- Change the value at a key. -/
def modify (m : OrderedMap κ β) (k : κ) (f : β → β) : OrderedMap κ β where
  entries := m.entries.map fun e => if e.1 = k then (e.1, f e.2) else e
  sorted := by
    refine List.pairwise_map.mpr (m.sorted.imp fun {a b} hab => ?_)
    split_ifs
    all_goals exact hab

/-- Erase from the front, as long as the first entry is to go. -/
def eraseWhile (m : OrderedMap κ β) (p : κ → β → Bool) : OrderedMap κ β where
  entries := m.entries.dropWhile fun e => p e.1 e.2
  sorted := m.sorted.sublist (List.dropWhile_sublist _)

variable {m : OrderedMap κ β} {k k' : κ} {x : β}

theorem find_eq_some : m.find k = some x ↔ (k, x) ∈ m.entries := find?_entries m.sorted

theorem find_eq_none (h : m.find k = none) : ∀ e ∈ m.entries, e.1 ≠ k := by
  rintro ⟨_, y⟩ he rfl
  rw [find_eq_some.mpr he] at h
  cases h

theorem find_tryEmplace :
    (m.tryEmplace k x).find k' = if k' = k then some ((m.find k).getD x) else m.find k' := by
  cases hk : m.find k with
  | some y =>
    have hsame : m.tryEmplace k x = m := by
      obtain ⟨l, hl⟩ := m
      rw [tryEmplace]
      congr 1
      exact emplaceEntry_of_mem hl (find_eq_some.mp hk)
    rw [hsame]
    split_ifs with heq
    · rw [heq, hk, Option.getD_some]
    · rfl
  | none =>
    apply Option.ext
    intro y
    rw [find_eq_some, tryEmplace, mem_emplaceEntry_iff (find_eq_none hk), Prod.mk.injEq,
      ← find_eq_some]
    by_cases heq : k' = k
    · rw [if_pos heq, heq, hk]
      simp [eq_comm]
    · rw [if_neg heq]
      simp [heq]

theorem find_modify {f : β → β} :
    (m.modify k f).find k' = if k' = k then (m.find k).map f else m.find k' := by
  apply Option.ext
  intro y
  rw [find_eq_some, modify, List.mem_map]
  constructor
  · rintro ⟨⟨k₁, x₁⟩, hmem, heq⟩
    split_ifs at heq with hk₁
    · cases heq
      rw [if_pos hk₁, ← hk₁, find_eq_some.mpr hmem, Option.map_some]
    · cases heq
      rw [if_neg hk₁]
      exact find_eq_some.mpr hmem
  · intro h
    split_ifs at h with heq
    · obtain ⟨x, hx, rfl⟩ := Option.map_eq_some_iff.mp h
      exact ⟨(k, x), find_eq_some.mp hx, by simp [heq]⟩
    · exact ⟨(k', y), find_eq_some.mp h, by simp [heq]⟩

/-- Where what is to go comes first, all of it goes. -/
theorem find_eraseWhile {p : κ → β → Bool}
    (hp : ∀ a ∈ m.entries, ∀ b ∈ m.entries, a.1 < b.1 → p b.1 b.2 = true → p a.1 a.2 = true) :
    (m.eraseWhile p).find k = (m.find k).filter fun x => !p k x := by
  apply Option.ext
  intro y
  rw [find_eq_some]
  change (k, y) ∈ m.entries.dropWhile (fun e => p e.1 e.2) ↔ _
  rw [dropWhile_eq_filter m.sorted hp, List.mem_filter, ← find_eq_some, Option.filter_eq_some_iff]

theorem size_eq_card {keys : Finset κ} (h : ∀ k, (m.find k).isSome ↔ k ∈ keys) :
    m.size = keys.card := by
  have hnodup : (m.entries.map Prod.fst).Nodup :=
    List.pairwise_map.mpr (m.sorted.imp fun hab => ne_of_lt hab)
  have hkeys : (m.entries.map Prod.fst).toFinset = keys := by
    ext k
    rw [List.mem_toFinset, ← h k, List.mem_map]
    constructor
    · rintro ⟨⟨_, x⟩, hmem, rfl⟩
      rw [find_eq_some.mpr hmem, Option.isSome_some]
    · intro hsome
      obtain ⟨x, hx⟩ := Option.isSome_iff_exists.mp hsome
      exact ⟨(k, x), find_eq_some.mp hx, rfl⟩
  rw [← hkeys, List.toFinset_card_of_nodup hnodup, List.length_map, size]

/-- A sum over the entries is a sum over the keys. -/
theorem sum_entries (keys : Finset κ) (f : β → ℤ) :
    ((m.entries.filter fun e => e.1 ∈ keys).map fun e => f e.2).sum =
      ∑ k ∈ keys, (m.find k).elim 0 f := by
  obtain ⟨l, hl⟩ := m
  simp only [find]
  induction l with
  | nil => simp
  | cons a l ih =>
    obtain ⟨hhead, htail⟩ := List.pairwise_cons.mp hl
    have habsent : l.find? (fun e => decide (e.1 = a.1)) = none := by
      refine List.find?_eq_none.mpr fun e he heq => ?_
      exact ne_of_gt (hhead e he) (of_decide_eq_true heq)
    have hsplit : ∀ k, (((a :: l).find? fun e => decide (e.1 = k)).map Prod.snd).elim 0 f =
        (if a.1 = k then f a.2 else 0) +
          ((l.find? fun e => decide (e.1 = k)).map Prod.snd).elim 0 f := by
      intro k
      by_cases hk : a.1 = k
      · subst hk
        simp [habsent]
      · simp [hk]
    simp only [hsplit, Finset.sum_add_distrib, Finset.sum_ite_eq, ← ih htail]
    by_cases hmem : a.1 ∈ keys
    · simp [hmem]
    · simp [hmem]

end OrderedMap

end OrderedMaps
