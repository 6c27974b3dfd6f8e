import Moqx.Sbd.WeiCompletion

/-! Every run of the detector keeps connections, groups and observations consistent. -/
namespace Moqx.Sbd.Wei

open Maps Runs

variable {d : Detector} {n : Nat} {id : String} {flow : Connection}

theorem eligible_removeFromDetection (d : Detector) (id : String) :
    ((d.removeFromDetection id).role id).eligible = false := by
  unfold Detector.removeFromDetection
  split
  · next hnone =>
    unfold Detector.role Detector.connection
    rw [hnone]
    rfl
  · next flow _ =>
    dsimp only
    rw [(calm_completeLoop (completeLoop_eq (Nat.lt_succ_self _))).eligible id]
    exact congrArg Role.eligible
      ((congrFun (role_set _ id _) id).trans (Function.update_self _ _ _))

namespace Consistent

theorem completeReadyObservations (h : Consistent d) : Consistent d.completeReadyObservations :=
  h.completeLoop (completeLoop_eq (Nat.lt_succ_self _))

/-- A connection that leaves the detection first leaves its group. -/
theorem leaveGroup (h : Consistent d) (hflow : d.connections.lookup id = some flow) :
    Consistent (flow.groupId.elim d d.dissolveGroup) ∧
      ((flow.groupId.elim d d.dissolveGroup).role id).groupId = none := by
  have hrecord : (d.role id).groupId = flow.groupId := by
    unfold Detector.role Detector.connection
    rw [hflow]
    rfl
  cases hgroupId : flow.groupId with
  | none => exact ⟨h, hrecord.trans hgroupId⟩
  | some groupId =>
    refine ⟨h.dissolveGroup groupId, ?_⟩
    obtain ⟨group, hgroup, hid⟩ := (h.grouped.recorded id groupId).mp (hrecord.trans hgroupId)
    rw [Option.elim_some, role_dissolveGroup hgroup]
    exact congrArg Role.groupId (if_pos hid)

/-- It takes its observations and its windows with it. -/
theorem removeFromDetection (h : Consistent d) (id : String) :
    Consistent (d.removeFromDetection id) := by
  unfold Detector.removeFromDetection
  split
  · exact h
  next flow hflow =>
  obtain ⟨h₁, hnone⟩ := h.leaveGroup hflow
  generalize flow.groupId.elim d d.dissolveGroup = d₁ at h₁ hnone
  have h₂ : Consistent { d₁ with observations := d₁.observations.filter fun o => o.trigger ≠ id } :=
    ⟨h₁.grouped, h₁.observed.sublist List.filter_sublist, h₁.decided⟩
  have h₃ := h₂.set id
    { flow with eligible := false, state := .monitoring, groupId := none, events := [] }
    hnone rfl rfl (fun _ => rfl) fun o ho htrigger =>
      absurd htrigger (of_decide_eq_true (List.mem_filter.mp ho).2)
  refine Consistent.completeReadyObservations ⟨h₃.grouped, ?_, h₃.decided⟩
  refine h₃.observed.eraseWindows ?_
  intro groupId group hgroup hid
  cases hnone.symm.trans (h₁.grouped.member hgroup hid).1

/-- Without a group to verify the connection looks for one, otherwise its group is verified. -/
theorem startObservation (h : Consistent d) (hrole : flow.role = d.role id)
    (hactive : flow.role.active = true) (triggerTime : Int) (ceDelta : Nat) :
    Consistent (d.startObservation id flow triggerTime ceDelta) := by
  have htrigger : (d.role id).active = true := hrole ▸ hactive
  unfold Detector.startObservation
  split
  · split
    · exact h
    · next hpending =>
      rw [Bool.not_eq_true, List.any_eq_false] at hpending
      refine ⟨h.grouped, h.observed.append htrigger (.inl ⟨rfl, rfl⟩) ?_, h.decided⟩
      intro a ha
      refine ⟨fun hstage _ htrigger => hpending a ha (decide_eq_true ⟨hstage, htrigger⟩), ?_⟩
      intro groupId _ hnone
      cases hnone
  next hstate =>
  split
  · exact h
  next hsome =>
  split
  · exact h
  next hpending =>
  have hstate' : flow.state = (d.role id).state := congrArg Role.state hrole
  have hgroupId : (d.role id).groupId = flow.groupId := (congrArg Role.groupId hrole).symm
  cases hflow : flow.groupId with
  | none =>
    rw [hflow] at hsome
    exact absurd rfl hsome
  | some groupId =>
    obtain ⟨group, hgroup, hid⟩ := (h.grouped.recorded id groupId).mp (hgroupId.trans hflow)
    obtain ⟨-, hmember, -⟩ := h.grouped.member hgroup hid
    refine ⟨h.grouped,
      h.observed.append htrigger (.inr ⟨groupId, group, rfl, hgroup, hid, ?_, ?_⟩) ?_,
      h.decided⟩
    · -- the stage goes with the state of the group
      dsimp only
      rw [hstate', hmember]
      unfold Group.state Group.stage
      split <;> rfl
    · intro k hk hne
      obtain ⟨-, -, hkactive⟩ := h.grouped.member hgroup hk
      obtain ⟨candidate, hcandidate, hcrole⟩ := connection_of_active hkactive
      have hcactive : candidate.active = true := (congrArg Role.active hcrole).trans hkactive
      dsimp only
      unfold Detector.candidateWindows
      rw [lookup_mapVal, lookup_keep, hcandidate]
      simp [hne, hcactive, hgroup, hk]
    · intro a ha
      rw [Bool.not_eq_true, List.any_eq_false] at hpending
      refine ⟨?_, ?_⟩
      · intro _ hstage
        dsimp only at hstage
        split at hstage <;> cases hstage
      · intro i hi hgroup'
        exact hpending a ha (decide_eq_true (hi.trans (hgroup'.symm.trans hflow.symm)))

theorem no_group_of_inactive (h : Consistent d) (hinactive : (d.role id).active = false) :
    (d.role id).groupId = none ∧ (d.role id).state = .monitoring := by
  have hnone : (d.role id).groupId = none := by
    cases hgroupId : (d.role id).groupId with
    | none => rfl
    | some groupId => cases hinactive.symm.trans (h.grouped.active id groupId hgroupId)
  exact ⟨hnone, h.grouped.monitoring hnone⟩

/-- A connection that is not active is in no group and triggers nothing. -/
theorem set_inactive (h : Consistent d) (id : String) (flow : Connection)
    (hinactive : (d.role id).active = false) (hgroup : flow.groupId = none)
    (hstate : flow.state = .monitoring) (hclosed : flow.closed = true → flow.eligible = false) :
    Consistent (d.set id flow) := by
  refine h.set id flow (h.no_group_of_inactive hinactive).1 hgroup hstate hclosed ?_
  rintro o ho rfl
  cases hinactive.symm.trans (h.observed.trigger o ho)

theorem attach (h : Consistent d) (id peer : String) : Consistent (d.attach id peer) := by
  unfold Detector.attach
  split
  · exact h
  cases hclosed : (d.connection id).closed with
  | false =>
    refine h.set_same ?_
    unfold Detector.role Connection.role
    rw [hclosed]
  | true =>
    have hinactive : (d.role id).active = false := by
      unfold Role.active
      rw [h.grouped.closed id hclosed]
      rfl
    obtain ⟨hnone, hstate⟩ := h.no_group_of_inactive hinactive
    refine h.set_inactive id _ hinactive hnone hstate fun hfalse => ?_
    cases hfalse

theorem eligible (h : Consistent d) (id : String) (value : Bool) :
    Consistent (d.eligible id value) := by
  unfold Detector.eligible
  split
  · exact h
  have hset : Consistent (d.set id (d.connection id)) := h.set_same rfl
  dsimp only
  split
  · exact hset
  next hchange =>
  cases value with
  | false => exact hset.removeFromDetection id
  | true =>
    refine hset.set_inactive id _ ?_ rfl rfl fun hfalse => ?_
    · rw [role_set, Function.update_self]
      refine Bool.eq_false_iff.mpr fun hactive => hchange ?_
      exact Bool.and_eq_true_iff.mp hactive
    · cases hfalse

theorem close (h : Consistent d) (id : String) : Consistent (d.close id) := by
  unfold Detector.close
  split
  · exact h
  have hremoved := h.removeFromDetection id
  dsimp only
  cases hflow : (d.removeFromDetection id).connections.lookup id with
  | none => exact hremoved
  | some flow =>
    have hrole : (d.removeFromDetection id).role id = flow.role := by
      unfold Detector.role Detector.connection
      rw [hflow]
      rfl
    have hineligible : flow.eligible = false :=
      (congrArg Role.eligible hrole).symm.trans (eligible_removeFromDetection d id)
    have hinactive : ((d.removeFromDetection id).role id).active = false := by
      rw [hrole]
      unfold Role.active Connection.role
      rw [hineligible]
      rfl
    obtain ⟨hnone, hstate⟩ := hremoved.no_group_of_inactive hinactive
    rw [hrole] at hnone hstate
    exact hremoved.set_inactive id _ hinactive hnone hstate fun _ => hineligible

theorem packetsWritten (h : Consistent d) (id : String) (packetNumbers : List Nat)
    (cwndBytes maxDatagramSize : Nat) :
    Consistent (d.packetsWritten id packetNumbers cwndBytes maxDatagramSize) := by
  unfold Detector.packetsWritten
  split
  · exact h
  · exact h.set_same (role_writePackets _ packetNumbers)

theorem ackEcn (h : Consistent d) (id : String) (ackTime : Int) (ackedPacketNumbers : List Nat)
    (ect0 ect1 ce cwndBytes maxDatagramSize : Nat) :
    Consistent (d.ackEcn id ackTime ackedPacketNumbers ect0 ect1 ce cwndBytes maxDatagramSize) := by
  unfold Detector.ackEcn
  split
  · exact h
  have hrole := role_resolvePackets
    { d.connection id with cwndBytes := cwndBytes, maxDatagramSize := maxDatagramSize }
    ackedPacketNumbers
  refine Consistent.completeReadyObservations ?_
  split
  · next hce =>
    apply Consistent.startObservation
    · exact h.set_same hrole
    · rw [role_set, Function.update_self]
    · exact hce.2
  · exact h.set_same hrole

theorem loss (h : Consistent d) (id : String) (lossTime : Int) (lostPacketNumbers : List Nat)
    (cwndBytes maxDatagramSize : Nat) :
    Consistent (d.loss id lossTime lostPacketNumbers cwndBytes maxDatagramSize) := by
  unfold Detector.loss
  split
  · exact h
  have hrole := role_resolvePackets
    { d.connection id with cwndBytes := cwndBytes, maxDatagramSize := maxDatagramSize }
    lostPacketNumbers
  refine Consistent.completeReadyObservations (h.set_same ?_)
  split
  · exact hrole
  · exact hrole

theorem step (h : Consistent d) (call : Call) : Consistent (d.step call) := by
  cases call with
  | attach id peer => exact h.attach id peer
  | eligible id value => exact h.eligible id value
  | close id => exact h.close id
  | packetsWritten id packetNumbers cwndBytes maxDatagramSize =>
    exact h.packetsWritten id packetNumbers cwndBytes maxDatagramSize
  | ackEcn id ackTime ackedPacketNumbers ect0 ect1 ce cwndBytes maxDatagramSize =>
    exact h.ackEcn id ackTime ackedPacketNumbers ect0 ect1 ce cwndBytes maxDatagramSize
  | loss id lossTime lostPacketNumbers cwndBytes maxDatagramSize =>
    exact h.loss id lossTime lostPacketNumbers cwndBytes maxDatagramSize

end Consistent

theorem consistent_start (enabled : Bool) : Consistent { enabled := enabled } := by
  refine ⟨⟨?_, all_empty, all_empty, fun _ => rfl, ?_, ?_, all_empty⟩,
    ⟨List.Pairwise.nil, ?_, ?_⟩, ?_⟩
  · intro id groupId
    constructor
    · intro hnone
      cases hnone
    · rintro ⟨group, hgroup, -⟩
      cases hgroup
  · intro id groupId hnone
    cases hnone
  · intro id hfalse
    cases hfalse
  · intro o ho
    cases ho
  · intro o ho
    cases ho
  · intro x hx
    cases hx

theorem consistent_run (enabled : Bool) (calls : List Call) :
    Consistent (calls.foldl Detector.step { enabled := enabled }) :=
  foldl_keeps calls (consistent_start enabled) fun _ h call _ => h.step call

theorem role_of_lookup (h : d.connections.lookup id = some flow) : d.role id = flow.role := by
  unfold Detector.role Detector.connection
  rw [h]
  rfl

/-- An active connection is known, eligible and not closed. -/
theorem open_of_active (h : (d.role id).active = true) :
    ∃ flow, d.connections.lookup id = some flow ∧ flow.eligible = true ∧ flow.closed = false := by
  obtain ⟨flow, hflow, hrole⟩ := connection_of_active h
  rw [← hrole] at h
  obtain ⟨heligible, hopen⟩ := Bool.and_eq_true_iff.mp h
  exact ⟨flow, hflow, heligible, (Bool.not_eq_true' _).mp hopen⟩

/-- The state of a connection tells whether its group is confirmed. -/
theorem Grouped.state_iff (h : Grouped d.role d.groups n)
    (hflow : d.connections.lookup id = some flow) (confirmed : Bool) :
    flow.state = (if confirmed then .finalJudgement else .judgement) ↔
      ∃ groupId group, flow.groupId = some groupId ∧ d.groups.lookup groupId = some group ∧
        group.confirmed = confirmed := by
  have hrole := role_of_lookup hflow
  constructor
  · intro hstate
    cases hgroupId : flow.groupId with
    | none =>
      have hnone : (d.role id).groupId = none := by
        rw [hrole]
        exact hgroupId
      have hmonitoring := h.monitoring hnone
      rw [hrole] at hmonitoring
      cases confirmed <;> cases hmonitoring.symm.trans hstate
    | some groupId =>
      obtain ⟨group, hgroup, hid⟩ := (h.recorded id groupId).mp (by rw [hrole]; exact hgroupId)
      refine ⟨groupId, group, rfl, hgroup, ?_⟩
      have hmember := (h.member hgroup hid).2.1
      rw [hrole] at hmember
      have heq := hmember.symm.trans hstate
      unfold Group.state at heq
      cases hconfirmed : group.confirmed <;> cases confirmed <;> simp_all
  · rintro ⟨groupId, group, hgroupId, hgroup, rfl⟩
    have hstate := h.state id
    rw [hrole] at hstate
    unfold Connection.role at hstate
    dsimp only at hstate
    rw [hstate, hgroupId, Option.bind_some, hgroup]
    rfl

/-- After every sequence of calls the groups are disjoint and have at least two members, a
connection is in the group that it records and in no other, its state says whether it has a group
and whether that is confirmed, and who is in a group is eligible and not closed. -/
theorem groups_agree_with_connections (enabled : Bool) (calls : List Call) :
    let d := calls.foldl Detector.step { enabled := enabled }
    (∀ i j group group', d.groups.lookup i = some group → d.groups.lookup j = some group' → i ≠ j →
      Disjoint group.members group'.members) ∧
    (∀ i group, d.groups.lookup i = some group → 2 ≤ group.members.card) ∧
    (∀ i group id, d.groups.lookup i = some group → (id ∈ group.members ↔
      ∃ flow, d.connections.lookup id = some flow ∧ flow.groupId = some i)) ∧
    (∀ id flow, d.connections.lookup id = some flow →
      (flow.state = .monitoring ↔ flow.groupId = none) ∧
      (flow.state = .judgement ↔ ∃ i group, flow.groupId = some i ∧ d.groups.lookup i = some group ∧
        group.confirmed = false) ∧
      (flow.state = .finalJudgement ↔ ∃ i group, flow.groupId = some i ∧
        d.groups.lookup i = some group ∧ group.confirmed = true)) ∧
    (∀ i group id, d.groups.lookup i = some group → id ∈ group.members →
      ∃ flow, d.connections.lookup id = some flow ∧ flow.eligible = true ∧
        flow.closed = false) := by
  have h := (consistent_run enabled calls).grouped
  generalize calls.foldl Detector.step { enabled := enabled } = d at h
  refine ⟨?_, h.size, ?_, ?_, ?_⟩
  · intro i j group group' hi hj hne
    refine Finset.disjoint_left.mpr fun id hid hid' => hne ?_
    exact Option.some.inj ((h.member hi hid).1.symm.trans (h.member hj hid').1)
  · intro i group id hi
    constructor
    · intro hid
      obtain ⟨hrecord, -, hactive⟩ := h.member hi hid
      obtain ⟨flow, hflow, hrole⟩ := connection_of_active hactive
      exact ⟨flow, hflow, (congrArg Role.groupId hrole).trans hrecord⟩
    · rintro ⟨flow, hflow, hrecord⟩
      obtain ⟨group', hgroup', hid⟩ :=
        (h.recorded id i).mp (by rw [role_of_lookup hflow]; exact hrecord)
      cases hi.symm.trans hgroup'
      exact hid
  · intro id flow hflow
    have hrole := role_of_lookup hflow
    refine ⟨⟨fun hstate => ?_, fun hnone => ?_⟩, h.state_iff hflow false, h.state_iff hflow true⟩
    · exact (congrArg Role.groupId hrole).symm.trans
        (h.no_group ((congrArg Role.state hrole).trans hstate))
    · exact (congrArg Role.state hrole).symm.trans
        (h.monitoring ((congrArg Role.groupId hrole).trans hnone))
  · intro i group id hi hid
    exact open_of_active (h.member hi hid).2.2

/-- Two connections with losses and marks at the same time become a group, which is then
confirmed. -/
example :
    let d := [Call.eligible "a" true, .eligible "b" true, .packetsWritten "a" [1] 0 1,
      .packetsWritten "b" [1] 0 1, .loss "b" 0 [1] 0 1, .ackEcn "a" 1 [1] 0 0 1 0 1,
      .ackEcn "a" 2 [] 0 0 2 0 1].foldl Detector.step { enabled := true }
    (d.groups.lookup 1).map (fun group => (group.confirmed, group.members.card)) = some (true, 2) ∧
      (d.connection "b").state = .finalJudgement := by
  decide +kernel

/-- After every sequence of calls no two pending observations have the same trigger and are
preliminary or verify the same group, every trigger is eligible and not closed, and a verification
refers to a group that contains its trigger in the state of its stage and has a window for each
other member. So the guards of `completeObservation` are never taken, and its loop always ends. -/
theorem observations_stay_meaningful (enabled : Bool) (calls : List Call) :
    let d := calls.foldl Detector.step { enabled := enabled }
    (d.observations.Pairwise fun a b =>
      a.stage = .preliminary → b.stage = .preliminary → a.trigger ≠ b.trigger) ∧
    (d.observations.Pairwise fun a b => ∀ i, a.groupId = some i → b.groupId ≠ some i) ∧
    (∀ o ∈ d.observations, ∃ flow, d.connections.lookup o.trigger = some flow ∧
      flow.eligible = true ∧ flow.closed = false) ∧
    (∀ o ∈ d.observations, o.stage ≠ .preliminary → ∃ i group flow, o.groupId = some i ∧
      d.groups.lookup i = some group ∧ o.trigger ∈ group.members ∧
      d.connections.lookup o.trigger = some flow ∧ flow.state = o.stage.expected ∧
      ∀ id ∈ group.members, id ≠ o.trigger → (o.windows.lookup id).isSome = true) ∧
    (∀ x ∈ d.decisions, x.result ≠ .triggerInactive ∧ x.result ≠ .groupNoLongerExists ∧
      x.result ≠ .groupStateChanged) ∧
    ∀ (d : Detector) (n : Nat), d.observations.length < n →
      d.completeLoop n = some d.completeReadyObservations ∧
      ∀ o ∈ d.completeReadyObservations.observations,
        d.completeReadyObservations.observationReady o = false := by
  have h := consistent_run enabled calls
  generalize calls.foldl Detector.step { enabled := enabled } = d at h
  refine ⟨h.observed.compatible.imp fun hab => hab.1, h.observed.compatible.imp fun hab => hab.2,
    ?_, ?_, ?_, ?_⟩
  · intro o ho
    exact open_of_active (h.observed.trigger o ho)
  · intro o ho hstage
    rcases h.observed.meaningful o ho with ⟨hpreliminary, -⟩ | ⟨i, group, hv⟩
    · exact absurd hpreliminary hstage
    · obtain ⟨flow, hflow, hrole⟩ := connection_of_active (h.observed.trigger o ho)
      obtain ⟨-, hstate⟩ := h.expected hv
      exact ⟨i, group, flow, hv.refers, hv.found, hv.trigger, hflow,
        (congrArg Role.state hrole).trans hstate, hv.windows⟩
  · intro x hx
    have hguard := h.decided x hx
    refine ⟨?_, ?_, ?_⟩
    · intro hresult
      rw [hresult] at hguard
      cases hguard
    · intro hresult
      rw [hresult] at hguard
      cases hguard
    · intro hresult
      rw [hresult] at hguard
      cases hguard
  · intro d n hn
    obtain ⟨d', hloop, hdone⟩ := completeLoop_ends hn
    have heq := completeLoop_eq hn
    cases hloop.symm.trans heq
    exact ⟨heq, hdone⟩

end Moqx.Sbd.Wei
