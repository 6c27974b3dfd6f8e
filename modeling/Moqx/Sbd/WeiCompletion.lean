import Moqx.Sbd.WeiObservations

/-! Completing the observations that are ready keeps connections, groups and observations
consistent, and comes to an end. -/
namespace Moqx.Sbd.Wei

open Maps Runs

variable {d d' : Detector} {o : Observation} {group : Group} {groupId n : Nat} {id : String}
  {flow : Connection} {members : Finset String}

/-- The results of the guards that a decision falls back to. -/
def Result.guard : Result → Bool
  | .triggerInactive => true
  | .groupNoLongerExists => true
  | .groupStateChanged => true
  | _ => false

structure Consistent (d : Detector) : Prop where
  grouped : Grouped d.role d.groups d.nextGroupId
  observed : Observed d.role d.groups d.observations
  decided : ∀ x ∈ d.decisions, x.result.guard = false

section
variable (d)

theorem role_set (id : String) (flow : Connection) :
    (d.set id flow).role = Function.update d.role id flow.role := by
  funext k
  unfold Detector.role Detector.connection Detector.set
  by_cases hk : k = id
  · subst hk
    rw [AList.lookup_insert, Function.update_self]
    rfl
  · rw [AList.lookup_insert_ne hk, Function.update_of_ne hk]

/-- Some connections that are known change. -/
theorem role_mapVal (d' : Detector) (f : Connection → Connection) (g : Role → Role)
    (members : Finset String) (hf : ∀ flow, (f flow).role = g flow.role)
    (hknown : ∀ k ∈ members, k ∉ d.connections → g {} = {})
    (hd' : d'.connections = mapVal (fun id flow => if id ∈ members then f flow else flow)
      d.connections) :
    d'.role = fun id => if id ∈ members then g (d.role id) else d.role id := by
  funext k
  unfold Detector.role Detector.connection
  rw [hd', lookup_mapVal]
  cases hk : d.connections.lookup k with
  | none =>
    by_cases hmem : k ∈ members
    · rw [if_pos hmem]
      exact (hknown k hmem (AList.lookup_eq_none.mp hk)).symm
    · rw [if_neg hmem]
      rfl
  | some flow =>
    by_cases hmem : k ∈ members
    · simp only [Option.map_some, Option.getD_some, if_pos hmem, hf]
    · simp only [Option.map_some, Option.getD_some, if_neg hmem]

theorem active_eq (id : String) : d.active id = (d.role id).active := by
  unfold Detector.active Detector.role Detector.connection
  cases d.connections.lookup id with
  | none => rfl
  | some flow => rfl

end

theorem mem_of_active (h : (d.role id).active = true) : id ∈ d.connections := by
  rw [← AList.lookup_isSome]
  cases hid : d.connections.lookup id with
  | none =>
    unfold Detector.role Detector.connection at h
    rw [hid] at h
    cases h
  | some flow => rfl

theorem connection_of_active (h : (d.role id).active = true) :
    ∃ flow, d.connections.lookup id = some flow ∧ flow.role = d.role id := by
  obtain ⟨flow, hflow⟩ := Option.isSome_iff_exists.mp (AList.lookup_isSome.mpr (mem_of_active h))
  refine ⟨flow, hflow, ?_⟩
  unfold Detector.role Detector.connection
  rw [hflow]
  rfl

theorem role_of_monitoringEvidence {window : Window} (h : d.monitoringEvidence id window = true) :
    (d.role id).active = true ∧ (d.role id).state = .monitoring := by
  unfold Detector.monitoringEvidence at h
  unfold Detector.role Detector.connection
  cases hid : d.connections.lookup id with
  | none =>
    rw [hid] at h
    cases h
  | some flow =>
    rw [hid, Option.any_some, Bool.and_eq_true, Bool.and_eq_true] at h
    exact ⟨h.1.1, of_decide_eq_true h.1.2⟩

section
variable (flow)

@[simp] theorem role_writePackets (packetNumbers : List Nat) :
    (packetNumbers.foldl Connection.writePacket flow).role = flow.role := by
  refine foldl_keeps (I := fun c : Connection => c.role = flow.role) packetNumbers rfl ?_
  intro c hc packetNumber _
  unfold Connection.writePacket
  split
  · exact hc
  · exact hc

theorem role_moveWatermark (n : Nat) : (Connection.moveWatermark n flow).role = flow.role := by
  induction n generalizing flow with
  | zero => rfl
  | succ n ih =>
    unfold Connection.moveWatermark
    split
    · exact ih _
    · rfl

@[simp] theorem role_resolvePackets (packetNumbers : List Nat) :
    (flow.resolvePackets packetNumbers).role = flow.role := by
  unfold Connection.resolvePackets
  rw [role_moveWatermark]
  refine foldl_keeps (I := fun c : Connection => c.role = flow.role) packetNumbers rfl ?_
  intro c hc packetNumber _
  unfold Connection.resolvePacket
  split
  · exact hc
  · exact hc

end

theorem role_dissolveGroup (hgroup : d.groups.lookup groupId = some group) :
    (d.dissolveGroup groupId).role = leave d.role group.members := by
  unfold Detector.dissolveGroup
  rw [hgroup]
  exact role_mapVal d _ (fun flow => { flow with state := .monitoring, groupId := none })
    (fun r => { r with state := .monitoring, groupId := none }) group.members (fun _ => rfl)
    (fun _ _ _ => rfl) rfl

namespace Consistent

theorem logDecision (h : Consistent d) {result : Result} (hresult : result.guard = false)
    (o : Observation) (members : Finset String) (success : Bool) (groupId : Option Nat) :
    Consistent (d.logDecision o members success result groupId) := by
  refine ⟨h.grouped, h.observed, ?_⟩
  intro x hx
  rcases List.mem_append.mp hx with hx | hx
  · exact h.decided x hx
  · cases List.mem_singleton.mp hx
    exact hresult

/-- A connection outside the groups changes. -/
theorem set (h : Consistent d) (id : String) (flow : Connection)
    (hnone : (d.role id).groupId = none) (hgroup : flow.groupId = none)
    (hstate : flow.state = .monitoring) (hclosed : flow.closed = true → flow.eligible = false)
    (htrigger : ∀ o ∈ d.observations, o.trigger = id → flow.role.active = true) :
    Consistent (d.set id flow) := by
  refine ⟨?_, ?_, h.decided⟩
  · rw [role_set]
    exact h.grouped.update hnone hgroup hstate hclosed
  · rw [role_set]
    refine h.observed.congr ?_ fun o _ i _ => rfl
    intro o ho
    by_cases hid : o.trigger = id
    · rw [hid, Function.update_self]
      exact htrigger o ho hid
    · rw [Function.update_of_ne hid]
      exact h.observed.trigger o ho

/-- Something else changes in a connection. -/
theorem set_same (h : Consistent d) (hrole : flow.role = d.role id) :
    Consistent (d.set id flow) := by
  have hsame : (d.set id flow).role = d.role := by
    rw [role_set, hrole, Function.update_eq_self]
  refine ⟨?_, ?_, h.decided⟩
  · rw [hsame]
    exact h.grouped
  · rw [hsame]
    exact h.observed

theorem dissolveGroup (h : Consistent d) (groupId : Nat) :
    Consistent (d.dissolveGroup groupId) := by
  cases hgroup : d.groups.lookup groupId with
  | none =>
    have hsame : d.dissolveGroup groupId = d := by
      unfold Detector.dissolveGroup
      rw [hgroup]
    rw [hsame]
    exact h
  | some group =>
    have hrole := role_dissolveGroup hgroup
    unfold Detector.dissolveGroup at hrole ⊢
    rw [hgroup] at hrole ⊢
    refine ⟨?_, ?_, h.decided⟩
    · rw [hrole]
      exact h.grouped.leave hgroup
    · rw [hrole]
      exact h.observed.leave

theorem createGroup (h : Consistent d) (hactive : ∀ k ∈ members, (d.role k).active = true)
    (hstate : ∀ k ∈ members, (d.role k).state = .monitoring) (hsize : 2 ≤ members.card) :
    Consistent (d.createGroup members) := by
  have hrole : (d.createGroup members).role = enter d.role members d.nextGroupId :=
    role_mapVal d _ (fun flow => { flow with state := .judgement, groupId := some d.nextGroupId })
      (fun r => { r with state := .judgement, groupId := some d.nextGroupId }) members
      (fun _ => rfl)
      (fun k hk hunknown => absurd (mem_of_active (hactive k hk)) hunknown) rfl
  refine ⟨?_, ?_, h.decided⟩
  · rw [hrole]
    exact h.grouped.enter hactive (fun k hk => h.grouped.no_group (hstate k hk)) hsize
  · rw [hrole]
    exact h.observed.enter h.grouped.fresh

theorem confirmGroup (h : Consistent d) (hgroup : d.groups.lookup groupId = some group)
    (hother : ∀ o ∈ d.observations, o.groupId ≠ some groupId) :
    Consistent (d.confirmGroup group) := by
  obtain rfl : group.id = groupId := h.grouped.named groupId group hgroup
  have hrole : (d.confirmGroup group).role = confirm d.role group.members :=
    role_mapVal d _ (fun flow => { flow with state := .finalJudgement })
      (fun r => { r with state := .finalJudgement }) group.members (fun _ => rfl)
      (fun k hk hunknown => absurd (mem_of_active (h.grouped.member hgroup hk).2.2) hunknown) rfl
  refine ⟨?_, ?_, h.decided⟩
  · rw [hrole]
    exact h.grouped.confirm hgroup
  · rw [hrole]
    exact h.observed.confirm hother

theorem completePreliminary (h : Consistent d) (hactive : (d.role o.trigger).active = true) :
    Consistent (d.completePreliminary o) := by
  unfold Detector.completePreliminary
  by_cases hstate : (d.connection o.trigger).state = .monitoring
  · rw [if_neg (not_not.mpr hstate)]
    by_cases hsize : (d.preliminarySet o).card < 2
    · rw [if_pos hsize]
      exact h.logDecision rfl _ _ _ _
    · rw [if_neg hsize]
      have hmember : ∀ k ∈ d.preliminarySet o,
          (d.role k).active = true ∧ (d.role k).state = .monitoring := by
        intro k hk
        rcases Finset.mem_insert.mp hk with rfl | hk
        · exact ⟨hactive, hstate⟩
        · obtain ⟨e, he, rfl⟩ := List.mem_map.mp (List.mem_toFinset.mp hk)
          exact role_of_monitoringEvidence (List.mem_filter.mp he).2
      exact (h.createGroup (fun k hk => (hmember k hk).1) (fun k hk => (hmember k hk).2)
        (not_lt.mp hsize)).logDecision rfl _ _ _ _
  · rw [if_pos hstate]
    exact h.logDecision rfl _ _ _ _

/-- The trigger of a verification is where the verification expects it. -/
theorem expected (h : Consistent d) (hv : Verifies d.groups o groupId group) :
    (d.connection o.trigger).groupId = o.groupId ∧
      (d.connection o.trigger).state = o.stage.expected := by
  obtain ⟨hrecord, hstate, -⟩ := h.grouped.member hv.found hv.trigger
  refine ⟨hrecord.trans hv.refers.symm, ?_⟩
  rw [hv.stage, Group.expected_stage]
  exact hstate

theorem completeVerification (h : Consistent d) (hv : Verifies d.groups o groupId group)
    (hother : ∀ b ∈ d.observations, b.groupId ≠ some groupId) :
    Consistent (d.completeVerification o group) := by
  obtain ⟨hrecord, hstate⟩ := h.expected hv
  have hexpected : ¬ ((d.connection o.trigger).groupId ≠ o.groupId ∨
      (d.connection o.trigger).state ≠ o.stage.expected) := by
    rintro (hne | hne)
    · exact hne hrecord
    · exact hne hstate
  unfold Detector.completeVerification
  dsimp only
  rw [if_neg hexpected]
  split
  · split
    · exact h.logDecision rfl _ _ _ _
    · exact (h.confirmGroup hv.found hother).logDecision rfl _ _ _ _
  · refine (h.logDecision ?_ _ _ _ _).dissolveGroup _
    split <;> rfl

/-- Completing an observation that was pending. -/
theorem completeObservation (h : Consistent d) (hactive : (d.role o.trigger).active = true)
    (hmeaningful : Meaningful d.groups o) (hcompatible : ∀ b ∈ d.observations, Compatible o b) :
    Consistent (d.completeObservation o) := by
  unfold Detector.completeObservation
  rw [active_eq, hactive]
  rcases hmeaningful with ⟨hstage, -⟩ | ⟨groupId, group, hv⟩
  · rw [if_neg (by decide), if_pos hstage]
    exact h.completePreliminary hactive
  · have hstage : o.stage ≠ .preliminary := hv.stage ▸ group.stage_ne_preliminary
    rw [if_neg (by decide), if_neg hstage, hv.refers, Option.bind_some, hv.found]
    exact h.completeVerification hv fun b hb => (hcompatible b hb).2 groupId hv.refers

theorem completeLoop (h : Consistent d) (hloop : d.completeLoop n = some d') : Consistent d' := by
  induction n generalizing d with
  | zero => cases hloop
  | succ n ih =>
    unfold Detector.completeLoop at hloop
    split at hloop
    · cases hloop
      exact h
    · next o hfind =>
      obtain ⟨hrest, hactive, hmeaningful, hcompatible⟩ := h.observed.eraseP hfind
      have herased :
          Consistent { d with observations := d.observations.eraseP d.observationReady } :=
        ⟨h.grouped, hrest, h.decided⟩
      exact ih (herased.completeObservation hactive hmeaningful hcompatible) hloop

end Consistent

/-- No observation starts, and eligible is who was so before. -/
structure Calm (d d' : Detector) : Prop where
  length : d'.observations.length ≤ d.observations.length
  eligible : ∀ id, (d'.role id).eligible = (d.role id).eligible

theorem Calm.refl (d : Detector) : Calm d d := ⟨le_refl _, fun _ => rfl⟩

theorem Calm.trans {d₁ d₂ d₃ : Detector} (h : Calm d₁ d₂) (h' : Calm d₂ d₃) : Calm d₁ d₃ :=
  ⟨h'.length.trans h.length, fun id => (h'.eligible id).trans (h.eligible id)⟩

theorem calm_mapVal {f : String → Connection → Connection}
    (hlength : d'.observations.length ≤ d.observations.length)
    (hd' : ∀ k, d'.connections.lookup k = (d.connections.lookup k).map (f k))
    (hf : ∀ k flow, (f k flow).eligible = flow.eligible) : Calm d d' := by
  refine ⟨hlength, ?_⟩
  intro k
  unfold Detector.role Detector.connection
  rw [hd']
  cases d.connections.lookup k with
  | none => rfl
  | some flow => exact hf k flow

theorem calm_dissolveGroup (d : Detector) (groupId : Nat) : Calm d (d.dissolveGroup groupId) := by
  unfold Detector.dissolveGroup
  split
  · exact .refl d
  · refine calm_mapVal (List.length_filter_le _ _) (lookup_mapVal _ _) ?_
    intro k flow
    split <;> rfl

theorem calm_createGroup (d : Detector) (members : Finset String) :
    Calm d (d.createGroup members) := by
  refine calm_mapVal (le_refl _) (lookup_mapVal _ _) ?_
  intro k flow
  split <;> rfl

theorem calm_confirmGroup (d : Detector) (group : Group) : Calm d (d.confirmGroup group) := by
  refine calm_mapVal (le_refl _) (lookup_mapVal _ _) ?_
  intro k flow
  split <;> rfl

theorem calm_completeObservation (d : Detector) (o : Observation) :
    Calm d (d.completeObservation o) := by
  have hlog : ∀ (d : Detector) members success result groupId,
      Calm d (d.logDecision o members success result groupId) := fun d _ _ _ _ =>
    ⟨le_refl _, fun _ => rfl⟩
  unfold Detector.completeObservation
  split
  · exact hlog _ _ _ _ _
  split
  · unfold Detector.completePreliminary
    split
    · exact hlog _ _ _ _ _
    · dsimp only
      split
      · exact hlog _ _ _ _ _
      · exact (calm_createGroup d _).trans (hlog _ _ _ _ _)
  split
  · exact hlog _ _ _ _ _
  next group _ =>
  unfold Detector.completeVerification
  dsimp only
  split
  · exact hlog _ _ _ _ _
  split
  · split
    · exact hlog _ _ _ _ _
    · exact (calm_confirmGroup d group).trans (hlog _ _ _ _ _)
  · exact (hlog _ _ _ _ _).trans (calm_dissolveGroup _ _)

theorem calm_completeLoop (h : d.completeLoop n = some d') : Calm d d' := by
  induction n generalizing d with
  | zero => cases h
  | succ n ih =>
    unfold Detector.completeLoop at h
    split at h
    · cases h
      exact .refl _
    · next o _ =>
      have herased : Calm d { d with observations := d.observations.eraseP d.observationReady } :=
        ⟨List.length_eraseP_le, fun _ => rfl⟩
      exact herased.trans ((calm_completeObservation _ o).trans (ih h))

/-- With a turn for each pending observation the loop ends, and nothing is ready any more. -/
theorem completeLoop_ends (h : d.observations.length < n) :
    ∃ d', d.completeLoop n = some d' ∧ ∀ o ∈ d'.observations, d'.observationReady o = false := by
  induction n generalizing d with
  | zero => exact absurd h (Nat.not_lt_zero _)
  | succ n ih =>
    unfold Detector.completeLoop
    split
    · next hfind =>
      refine ⟨d, rfl, ?_⟩
      intro o ho
      exact Bool.eq_false_iff.mpr (List.find?_eq_none.mp hfind o ho)
    · next o hfind =>
      apply ih
      refine lt_of_le_of_lt (calm_completeObservation _ o).length ?_
      have hlength :
          (d.observations.eraseP d.observationReady).length = d.observations.length - 1 :=
        List.length_eraseP_of_mem (List.mem_of_find?_eq_some hfind) (List.find?_some hfind)
      have hpos : 0 < d.observations.length :=
        List.length_pos_of_mem (List.mem_of_find?_eq_some hfind)
      dsimp only
      omega

/-- More turns change nothing. -/
theorem completeLoop_succ (h : d.completeLoop n = some d') : d.completeLoop (n + 1) = some d' := by
  induction n generalizing d with
  | zero => cases h
  | succ n ih =>
    unfold Detector.completeLoop at h ⊢
    split at h
    · exact h
    · exact ih h

theorem completeLoop_mono {m : Nat} (h : d.completeLoop n = some d') (hnm : n ≤ m) :
    d.completeLoop m = some d' := by
  induction m, hnm using Nat.le_induction with
  | base => exact h
  | succ m _ ih => exact completeLoop_succ ih

theorem completeLoop_eq (h : d.observations.length < n) :
    d.completeLoop n = some d.completeReadyObservations := by
  obtain ⟨d', hloop, -⟩ := completeLoop_ends (Nat.lt_succ_self d.observations.length)
  have heq : d.completeReadyObservations = d' := by
    unfold Detector.completeReadyObservations
    rw [hloop]
    rfl
  rw [heq]
  exact completeLoop_mono hloop h

end Moqx.Sbd.Wei
