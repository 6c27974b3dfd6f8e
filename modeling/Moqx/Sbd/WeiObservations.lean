import Moqx.Sbd.WeiGroups

/-! The pending observations stay meaningful while groups form, are confirmed and dissolve. -/
namespace Moqx.Sbd.Wei

open Maps

variable {role role' : String → Role} {groups groups' : AList (fun _ : Nat => Group)}
  {next groupId : Nat} {group : Group} {observations rest : List Observation} {o : Observation}
  {id : String} {members : Finset String} {d : Detector}

/-- A verification refers to a group that contains its trigger, at the stage of that group, and has
a window for each other member. -/
structure Verifies (groups : AList (fun _ : Nat => Group)) (o : Observation) (groupId : Nat)
    (group : Group) : Prop where
  refers : o.groupId = some groupId
  found : groups.lookup groupId = some group
  trigger : o.trigger ∈ group.members
  stage : o.stage = group.stage
  windows : ∀ id ∈ group.members, id ≠ o.trigger → (o.windows.lookup id).isSome = true

/-- A pending observation is a preliminary one without a group, or verifies a group. -/
def Meaningful (groups : AList (fun _ : Nat => Group)) (o : Observation) : Prop :=
  (o.stage = .preliminary ∧ o.groupId = none) ∨ ∃ groupId group, Verifies groups o groupId group

/-- Two observations that may be pending together. -/
def Compatible (a b : Observation) : Prop :=
  (a.stage = .preliminary → b.stage = .preliminary → a.trigger ≠ b.trigger) ∧
    ∀ groupId, a.groupId = some groupId → b.groupId ≠ some groupId

theorem Compatible.symm {a b : Observation} (h : Compatible a b) : Compatible b a :=
  ⟨fun hb ha => (h.1 ha hb).symm, fun groupId hb ha => h.2 groupId ha hb⟩

structure Observed (role : String → Role) (groups : AList (fun _ : Nat => Group))
    (observations : List Observation) : Prop where
  compatible : observations.Pairwise Compatible
  trigger : ∀ o ∈ observations, (role o.trigger).active = true
  meaningful : ∀ o ∈ observations, Meaningful groups o

/-- An observation keeps its meaning as long as its group does. -/
theorem Meaningful.congr (h : Meaningful groups o)
    (hgroups : ∀ groupId, o.groupId = some groupId →
      groups'.lookup groupId = groups.lookup groupId) :
    Meaningful groups' o := by
  rcases h with hpreliminary | ⟨groupId, group, hv⟩
  · exact .inl hpreliminary
  · exact .inr ⟨groupId, group, hv.refers, (hgroups groupId hv.refers).trans hv.found, hv.trigger,
      hv.stage, hv.windows⟩

namespace Observed

theorem sublist (h : Observed role groups observations) (hsub : rest.Sublist observations) :
    Observed role groups rest :=
  ⟨h.compatible.sublist hsub, fun o ho => h.trigger o (hsub.subset ho),
    fun o ho => h.meaningful o (hsub.subset ho)⟩

theorem congr (h : Observed role groups observations)
    (hactive : ∀ o ∈ observations, (role' o.trigger).active = true)
    (hgroups : ∀ o ∈ observations, ∀ groupId, o.groupId = some groupId →
      groups'.lookup groupId = groups.lookup groupId) : Observed role' groups' observations :=
  ⟨h.compatible, hactive, fun o ho => (h.meaningful o ho).congr (hgroups o ho)⟩

/-- What is taken out, and what stays. -/
theorem eraseP (h : Observed role groups observations) {p : Observation → Bool}
    (hfind : observations.find? p = some o) :
    Observed role groups (observations.eraseP p) ∧ (role o.trigger).active = true ∧
      Meaningful groups o ∧ ∀ b ∈ observations.eraseP p, Compatible o b := by
  have hmem := List.mem_of_find?_eq_some hfind
  refine ⟨h.sublist List.eraseP_sublist, h.trigger o hmem, h.meaningful o hmem, ?_⟩
  obtain ⟨hp, before, after, heq, hbefore⟩ := List.find?_eq_some_iff_append.mp hfind
  have herase : observations.eraseP p = before ++ after := by
    have hnot : ∀ b ∈ before, ¬ p b = true := fun b hb => by simpa using hbefore b hb
    rw [heq, List.eraseP_append_right _ hnot, List.eraseP_cons_of_pos hp]
  have hpairs : (o :: (before ++ after)).Pairwise Compatible := by
    have hpairs := h.compatible
    rw [heq] at hpairs
    exact (List.perm_middle.pairwise_iff fun hab => hab.symm).mp hpairs
  rw [herase]
  exact fun b hb => List.rel_of_pairwise_cons hpairs hb

theorem append (h : Observed role groups observations) (hactive : (role o.trigger).active = true)
    (hmeaningful : Meaningful groups o) (hcompatible : ∀ a ∈ observations, Compatible a o) :
    Observed role groups (observations ++ [o]) := by
  have hmem : ∀ {a}, a ∈ observations ++ [o] → a ∈ observations ∨ a = o := by
    intro a ha
    rcases List.mem_append.mp ha with ha | ha
    · exact .inl ha
    · exact .inr (List.mem_singleton.mp ha)
  refine ⟨List.pairwise_append.mpr ⟨h.compatible, List.pairwise_singleton _ _, ?_⟩, ?_, ?_⟩
  · intro a ha b hb
    cases List.mem_singleton.mp hb
    exact hcompatible a ha
  · intro a ha
    rcases hmem ha with ha | rfl
    · exact h.trigger a ha
    · exact hactive
  · intro a ha
    rcases hmem ha with ha | rfl
    · exact h.meaningful a ha
    · exact hmeaningful

/-- A connection outside the groups loses its windows. -/
theorem eraseWindows (h : Observed role groups observations)
    (hout : ∀ groupId group, groups.lookup groupId = some group → id ∉ group.members) :
    Observed role groups (observations.map fun o => { o with windows := o.windows.erase id }) := by
  refine ⟨List.pairwise_map.mpr h.compatible, ?_, ?_⟩
  · intro a ha
    obtain ⟨o, ho, rfl⟩ := List.mem_map.mp ha
    exact h.trigger o ho
  · intro a ha
    obtain ⟨o, ho, rfl⟩ := List.mem_map.mp ha
    rcases h.meaningful o ho with hpreliminary | ⟨groupId, group, hv⟩
    · exact .inl hpreliminary
    · refine .inr ⟨groupId, group, hv.refers, hv.found, hv.trigger, hv.stage, ?_⟩
      intro k hk hne
      have hkid : k ≠ id := by
        rintro rfl
        exact hout groupId group hv.found hk
      rw [show (o.windows.erase id).lookup k = o.windows.lookup k from AList.lookup_erase_ne hkid]
      exact hv.windows k hk hne

theorem leave (h : Observed role groups observations) :
    Observed (leave role members) (groups.erase groupId)
      (observations.filter fun o => o.groupId ≠ some groupId) := by
  refine (h.sublist List.filter_sublist).congr ?_ ?_
  · intro o ho
    rw [active_leave]
    exact h.trigger o (List.mem_of_mem_filter ho)
  · intro o ho i hi
    refine AList.lookup_erase_ne ?_
    rintro rfl
    exact of_decide_eq_true (List.mem_filter.mp ho).2 hi

theorem enter (h : Observed role groups observations) (hfresh : All groups fun i _ => i < next) :
    Observed (enter role members next) (groups.insert next group) observations := by
  refine h.congr ?_ ?_
  · intro o ho
    rw [active_enter]
    exact h.trigger o ho
  · intro o ho i hi
    refine AList.lookup_insert_ne ?_
    rcases h.meaningful o ho with ⟨-, hnone⟩ | ⟨j, g, hv⟩
    · cases hnone.symm.trans hi
    · cases hv.refers.symm.trans hi
      exact (hfresh i g hv.found).ne

theorem confirm (h : Observed role groups observations)
    (hother : ∀ o ∈ observations, o.groupId ≠ some groupId) :
    Observed (confirm role members) (groups.insert groupId group) observations := by
  refine h.congr ?_ ?_
  · intro o ho
    rw [active_confirm]
    exact h.trigger o ho
  · intro o ho i hi
    refine AList.lookup_insert_ne ?_
    rintro rfl
    exact hother o ho hi

end Observed

end Moqx.Sbd.Wei
