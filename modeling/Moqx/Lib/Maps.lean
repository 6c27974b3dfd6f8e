import Mathlib

/-! Association lists as finite maps: sums over their entries and statements about all of
them. -/
namespace Maps

variable {α β : Type} [DecidableEq α] {m : AList (fun _ : α => β)} {f g : α → β → Nat}
  {a k : α} {b b' : β}

/-- The sum of a weight over all entries. -/
def total (m : AList (fun _ : α => β)) (f : α → β → Nat) : Nat :=
  (m.entries.map fun e => f e.1 e.2).sum

omit [DecidableEq α] in
@[simp] theorem total_empty : total (∅ : AList (fun _ : α => β)) f = 0 := rfl

/-- An entry and what is left without it make up the list. -/
theorem perm_kerase (h : m.lookup a = some b) :
    m.entries.Perm (⟨a, b⟩ :: (m.erase a).entries) := by
  obtain ⟨x, l₁, l₂, -, hm, he⟩ := List.exists_of_kerase
    (AList.mem_keys.mp (AList.lookup_isSome.mp (by rw [h]; rfl)))
  have hx : x = b := by
    have hmem : (⟨a, x⟩ : Sigma fun _ : α => β) ∈ m.entries := by
      rw [hm]
      simp
    have := List.mem_dlookup m.nodupKeys hmem
    change x ∈ m.lookup a at this
    rw [h] at this
    simpa using this.symm
  subst hx
  change m.entries.Perm (⟨a, x⟩ :: m.entries.kerase a)
  rw [he, hm]
  exact List.perm_middle

theorem total_erase (h : m.lookup a = some b) : total (m.erase a) f + f a b = total m f := by
  have hsum := ((perm_kerase h).map fun e : Sigma fun _ : α => β => f e.1 e.2).sum_eq
  simp only [List.map_cons, List.sum_cons] at hsum
  simp only [total]
  omega

theorem total_insert_new (h : m.lookup a = none) :
    total (m.insert a b) f = f a b + total m f := by
  simp only [total, AList.entries_insert_of_notMem (AList.lookup_eq_none.mp h), List.map_cons,
    List.sum_cons]

theorem total_insert (b : β) (h : m.lookup a = some b') :
    total (m.insert a b) f + f a b' = f a b + total m f := by
  have hins : total (m.insert a b) f = f a b + total (m.erase a) f := by
    simp [total, AList.entries_insert, AList.erase]
  have herase : total (m.erase a) f + f a b' = total m f := total_erase h
  omega

theorem total_congr (h : ∀ a b, m.lookup a = some b → f a b = g a b) :
    total m f = total m g := by
  refine congrArg List.sum (List.map_congr_left fun e he => h e.1 e.2 ?_)
  exact List.mem_dlookup m.nodupKeys (b := e.2) he

/-- Changing the weight of one entry. -/
theorem total_update (h : m.lookup a = some b)
    (hne : ∀ k x, m.lookup k = some x → k ≠ a → f k x = g k x) :
    total m g + f a b = total m f + g a b := by
  have hf := total_erase (f := f) h
  have hg := total_erase (f := g) h
  have hrest : total (m.erase a) f = total (m.erase a) g := by
    refine total_congr fun k x hk => hne k x ?_ ?_
    · by_cases hka : k = a
      · subst hka
        simp at hk
      · rwa [AList.lookup_erase_ne hka] at hk
    · rintro rfl
      simp at hk
  omega

theorem le_total (h : m.lookup a = some b) : f a b ≤ total m f := by
  have := total_erase (f := f) h
  omega

theorem lookup_erase_some (h : (m.erase k).lookup a = some b) : a ≠ k ∧ m.lookup a = some b := by
  by_cases hak : a = k
  · subst hak
    simp at h
  · exact ⟨hak, by rwa [AList.lookup_erase_ne hak] at h⟩

theorem lookup_insert_some (h : (m.insert k b').lookup a = some b) :
    (a = k ∧ b = b') ∨ (a ≠ k ∧ m.lookup a = some b) := by
  by_cases hak : a = k
  · subst hak
    rw [AList.lookup_insert, Option.some.injEq] at h
    exact .inl ⟨rfl, h.symm⟩
  · exact .inr ⟨hak, by rwa [AList.lookup_insert_ne hak] at h⟩

/-- What is there stays when a new key comes in. -/
theorem lookup_insert_of_new (hk : m.lookup k = none) (h : m.lookup a = some b) :
    (m.insert k b').lookup a = some b := by
  have hne : a ≠ k := by
    rintro rfl
    rw [hk] at h
    cases h
  rwa [AList.lookup_insert_ne hne]

/-- What is there stays when the key of another value goes. -/
theorem lookup_erase_of_ne (hk : m.lookup k = some b') (hne : b ≠ b') (h : m.lookup a = some b) :
    (m.erase k).lookup a = some b := by
  have hak : a ≠ k := by
    rintro rfl
    exact hne (Option.some.inj (h.symm.trans hk))
  rwa [AList.lookup_erase_ne hak]

/-- Only the entry of one key contributes. -/
theorem flatMap_entries {γ : Type} {F : (Sigma fun _ : α => β) → List γ}
    (h : ∀ e, e.1 ≠ a → F e = []) :
    m.entries.flatMap F = ((m.lookup a).map fun b => F ⟨a, b⟩).getD [] := by
  have hnone : ∀ l : List (Sigma fun _ : α => β), a ∉ l.keys → l.flatMap F = [] := by
    intro l hl
    refine List.flatMap_eq_nil_iff.mpr fun e he => h e ?_
    rintro rfl
    exact hl (List.mem_keys_of_mem he)
  obtain ⟨l, hl⟩ := m
  change l.flatMap F = ((List.dlookup a l).map fun b => F ⟨a, b⟩).getD []
  induction l with
  | nil => rfl
  | cons e l ih =>
    obtain ⟨k, b⟩ := e
    obtain ⟨hk, hl⟩ := List.nodupKeys_cons.mp hl
    by_cases hak : a = k
    · subst hak
      simp [hnone l hk]
    · rw [List.flatMap_cons, h ⟨k, b⟩ (Ne.symm hak), List.nil_append, ih hl,
        List.dlookup_cons_ne l ⟨k, b⟩ hak]

/-- A statement about every entry. -/
def All (m : AList (fun _ : α => β)) (p : α → β → Prop) : Prop :=
  ∀ a b, m.lookup a = some b → p a b

section
variable {p q : α → β → Prop}

theorem all_empty : All ∅ p := by
  intro a b h
  simp at h

theorem All.mono (h : All m p) (hpq : ∀ a b, p a b → q a b) : All m q :=
  fun a b hab => hpq a b (h a b hab)

theorem All.insert (h : All m p) (hk : p k b) : All (m.insert k b) p := by
  intro a x hax
  rcases lookup_insert_some hax with ⟨rfl, rfl⟩ | ⟨-, hax⟩
  · exact hk
  · exact h a x hax

theorem All.erase (h : All m p) : All (m.erase k) p :=
  fun a x hax => h a x (lookup_erase_some hax).2

end

theorem keys_eq_nil (h : ∀ a, m.lookup a = none) : m.keys = [] := by
  rw [List.eq_nil_iff_forall_not_mem]
  intro a ha
  exact AList.lookup_eq_none.mp (h a) (AList.mem_keys.mpr ha)

theorem lookup_none_of_keys (h : m.keys = []) (a : α) : m.lookup a = none := by
  rw [AList.lookup_eq_none, AList.mem_keys, h]
  simp

section
variable {γ : Type} (h : α → β → γ)

/-- Change every value. -/
def mapVal (m : AList (fun _ : α => β)) : AList (fun _ : α => γ) where
  entries := m.entries.map fun e => ⟨e.1, h e.1 e.2⟩
  nodupKeys := by
    have hkeys : (m.entries.map fun e => (⟨e.1, h e.1 e.2⟩ : Sigma fun _ : α => γ)).keys =
        m.entries.keys := by
      simp [List.keys, Function.comp_def]
    rw [List.NodupKeys, hkeys]
    exact m.nodupKeys

@[simp] theorem lookup_mapVal (m : AList (fun _ : α => β)) (a : α) :
    (mapVal h m).lookup a = (m.lookup a).map (h a) := by
  obtain ⟨l, hl⟩ := m
  change List.dlookup a (l.map fun e => (⟨e.1, h e.1 e.2⟩ : Sigma fun _ : α => γ)) =
    (List.dlookup a l).map (h a)
  clear hl
  induction l with
  | nil => rfl
  | cons e l ih =>
    obtain ⟨k, b⟩ := e
    by_cases hk : a = k
    · subst hk
      simp
    · have hcons : ∀ {δ : Type} (d : δ) (l : List (Sigma fun _ : α => δ)),
          List.dlookup a (⟨k, d⟩ :: l) = List.dlookup a l := fun d l =>
        List.dlookup_cons_ne l ⟨k, d⟩ hk
      rw [List.map_cons, hcons, hcons, ih]

end

/-- The entries that `p` picks. -/
def keep (p : α → β → Bool) (m : AList (fun _ : α => β)) : AList (fun _ : α => β) where
  entries := m.entries.filter fun e => p e.1 e.2
  nodupKeys := List.NodupKeys.sublist List.filter_sublist m.nodupKeys

@[simp] theorem lookup_keep (p : α → β → Bool) (m : AList (fun _ : α => β)) (a : α) :
    (keep p m).lookup a = (m.lookup a).filter (p a) := by
  obtain ⟨l, hl⟩ := m
  change List.dlookup a (l.filter fun e => p e.1 e.2) = (List.dlookup a l).filter (p a)
  induction l with
  | nil => rfl
  | cons e l ih =>
    obtain ⟨k, b⟩ := e
    obtain ⟨hk, htail⟩ := List.nodupKeys_cons.mp hl
    have hcons : ∀ l : List (Sigma fun _ : α => β), a ≠ k →
        List.dlookup a (⟨k, b⟩ :: l) = List.dlookup a l := fun l h =>
      List.dlookup_cons_ne l ⟨k, b⟩ h
    by_cases hak : a = k
    · subst hak
      cases hp : p a b with
      | true => simp [hp, Option.filter]
      | false =>
        have hnone : List.dlookup a l = none := List.dlookup_eq_none.mpr hk
        simp [hp, ih htail, hnone, Option.filter]
    · cases hp : p k b with
      | true => simp only [List.filter_cons, hp, if_true, hcons _ hak, ih htail]
      | false => simp [hp, hcons _ hak, ih htail]

theorem erase_of_lookup_none (h : m.lookup a = none) : m.erase a = m := by
  apply AList.ext
  rw [AList.erase]
  exact List.kerase_of_notMem_keys (AList.lookup_eq_none.mp h)

end Maps
