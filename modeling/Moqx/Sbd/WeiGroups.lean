import Moqx.Lib.Runs
import Moqx.Sbd.WeiDetector

/-! What ties connections, groups and pending observations together, stated over what each
connection says of itself: whether it is eligible or closed, its state and its group. -/
namespace Moqx.Sbd.Wei

open Maps

/-- The part of a connection that groups and observations depend on. -/
structure Role where
  eligible : Bool := false
  closed : Bool := false
  state : State := .monitoring
  groupId : Option Nat := none
deriving DecidableEq, Repr

def Role.active (role : Role) : Bool := role.eligible && !role.closed

def Connection.role (flow : Connection) : Role :=
  ⟨flow.eligible, flow.closed, flow.state, flow.groupId⟩

/-- A connection that is not known yet has the role of a new one. -/
def Detector.role (d : Detector) (id : String) : Role := (d.connection id).role

/-- The state of the members of a group. -/
def Group.state (group : Group) : State :=
  if group.confirmed then .finalJudgement else .judgement

/-- The stage of the verifications of a group. -/
def Group.stage (group : Group) : Stage :=
  if group.confirmed then .verifyFinal else .verifyPreliminary

theorem Group.expected_stage (group : Group) : group.stage.expected = group.state := by
  unfold Group.stage Group.state
  split <;> rfl

theorem Group.stage_ne_preliminary (group : Group) : group.stage ≠ .preliminary := by
  unfold Group.stage
  split <;> decide

variable {role : String → Role} {groups : AList (fun _ : Nat => Group)} {next groupId : Nat}
  {group : Group} {observations rest : List Observation} {o : Observation} {id : String}
  {members : Finset String} {d : Detector}

/-- The roles of the connections agree with the groups. -/
structure Grouped (role : String → Role) (groups : AList (fun _ : Nat => Group)) (next : Nat) :
    Prop where
  recorded : ∀ id groupId, (role id).groupId = some groupId ↔
    ∃ group, groups.lookup groupId = some group ∧ id ∈ group.members
  named : All groups fun groupId group => group.id = groupId
  size : All groups fun _ group => 2 ≤ group.members.card
  state : ∀ id, (role id).state =
    ((role id).groupId.bind groups.lookup).elim .monitoring Group.state
  active : ∀ id groupId, (role id).groupId = some groupId → (role id).active = true
  closed : ∀ id, (role id).closed = true → (role id).eligible = false
  fresh : All groups fun groupId _ => groupId < next

namespace Grouped

/-- The one group of a member. -/
theorem member (h : Grouped role groups next) (hgroup : groups.lookup groupId = some group)
    (hid : id ∈ group.members) :
    (role id).groupId = some groupId ∧ (role id).state = group.state ∧ (role id).active = true := by
  have hrecord := (h.recorded id groupId).mpr ⟨group, hgroup, hid⟩
  refine ⟨hrecord, ?_, h.active id groupId hrecord⟩
  rw [h.state id, hrecord, Option.bind_some, hgroup, Option.elim_some]

theorem monitoring (h : Grouped role groups next) (hnone : (role id).groupId = none) :
    (role id).state = .monitoring := by
  rw [h.state id, hnone]
  rfl

theorem no_group (h : Grouped role groups next) (hstate : (role id).state = .monitoring) :
    (role id).groupId = none := by
  cases hrecord : (role id).groupId with
  | none => rfl
  | some groupId =>
    obtain ⟨group, hgroup, hid⟩ := (h.recorded id groupId).mp hrecord
    have hmember := (h.member hgroup hid).2.1
    rw [hstate] at hmember
    unfold Group.state at hmember
    split at hmember <;> cases hmember

/-- A connection outside the groups changes. -/
theorem update (h : Grouped role groups next) {r : Role} (hnone : (role id).groupId = none)
    (hr : r.groupId = none) (hstate : r.state = .monitoring)
    (hclosed : r.closed = true → r.eligible = false) :
    Grouped (Function.update role id r) groups next := by
  have hrecord : ∀ k, (Function.update role id r k).groupId = (role k).groupId := by
    intro k
    by_cases hk : k = id
    · subst hk
      rw [Function.update_self, hr, hnone]
    · rw [Function.update_of_ne hk]
  refine ⟨?_, h.named, h.size, ?_, ?_, ?_, h.fresh⟩
  · intro k groupId
    rw [hrecord k]
    exact h.recorded k groupId
  · intro k
    rw [hrecord k, ← h.state k]
    by_cases hk : k = id
    · subst hk
      rw [Function.update_self, hstate, h.monitoring hnone]
    · rw [Function.update_of_ne hk]
  · intro k groupId hk
    rw [hrecord k] at hk
    have hne : k ≠ id := by
      rintro rfl
      cases hnone.symm.trans hk
    rw [Function.update_of_ne hne]
    exact h.active k groupId hk
  · intro k
    by_cases hk : k = id
    · subst hk
      rw [Function.update_self]
      exact hclosed
    · rw [Function.update_of_ne hk]
      exact h.closed k

end Grouped

/-- The members of a group leave it. -/
def leave (role : String → Role) (members : Finset String) (id : String) : Role :=
  if id ∈ members then { role id with state := .monitoring, groupId := none } else role id

/-- Connections come into a group. -/
def enter (role : String → Role) (members : Finset String) (groupId : Nat) (id : String) : Role :=
  if id ∈ members then { role id with state := .judgement, groupId := some groupId } else role id

def confirm (role : String → Role) (members : Finset String) (id : String) : Role :=
  if id ∈ members then { role id with state := .finalJudgement } else role id

theorem active_leave : (leave role members id).active = (role id).active := by
  unfold leave
  split <;> rfl

theorem active_enter : (enter role members groupId id).active = (role id).active := by
  unfold enter
  split <;> rfl

theorem active_confirm : (confirm role members id).active = (role id).active := by
  unfold confirm
  split <;> rfl

namespace Grouped

theorem leave (h : Grouped role groups next) (hgroup : groups.lookup groupId = some group) :
    Grouped (leave role group.members) (groups.erase groupId) next := by
  -- who is left in a group is in another one
  have hother : ∀ {k i}, (role k).groupId = some i → k ∉ group.members →
      (groups.erase groupId).lookup i = groups.lookup i := by
    intro k i hk hout
    refine AList.lookup_erase_ne ?_
    rintro rfl
    obtain ⟨g, hg, hmem⟩ := (h.recorded k i).mp hk
    cases hgroup.symm.trans hg
    exact hout hmem
  refine ⟨?_, h.named.erase, h.size.erase, ?_, ?_, ?_, h.fresh.erase⟩
  · intro k i
    unfold Wei.leave
    split
    · next hk =>
      constructor
      · intro hnone
        cases hnone
      · rintro ⟨g, hg, hmem⟩
        obtain ⟨hne, hg⟩ := lookup_erase_some hg
        have hin := (h.member hgroup hk).1
        cases hin.symm.trans (h.member hg hmem).1
        exact absurd rfl hne
    · next hk =>
      rw [h.recorded k i]
      constructor
      · rintro ⟨g, hg, hmem⟩
        exact ⟨g, (hother (h.member hg hmem).1 hk).trans hg, hmem⟩
      · rintro ⟨g, hg, hmem⟩
        exact ⟨g, (lookup_erase_some hg).2, hmem⟩
  · intro k
    unfold Wei.leave
    split
    · rfl
    · next hk =>
      cases hrecord : (role k).groupId with
      | none => exact h.monitoring hrecord
      | some i =>
        rw [Option.bind_some, hother hrecord hk, h.state k, hrecord, Option.bind_some]
  · intro k i hrecord
    rw [active_leave]
    unfold Wei.leave at hrecord
    split at hrecord
    · cases hrecord
    · exact h.active k i hrecord
  · intro k
    unfold Wei.leave
    split
    · exact h.closed k
    · exact h.closed k

theorem enter (h : Grouped role groups next) (hactive : ∀ k ∈ members, (role k).active = true)
    (hfree : ∀ k ∈ members, (role k).groupId = none) (hsize : 2 ≤ members.card) :
    Grouped (enter role members next) (groups.insert next { id := next, members := members })
      (next + 1) := by
  have hnew : ∀ {i g}, groups.lookup i = some g → i ≠ next := fun hg => (h.fresh _ _ hg).ne
  have hold : ∀ {i g}, groups.lookup i = some g →
      (groups.insert next { id := next, members := members }).lookup i = some g := fun hg =>
    (AList.lookup_insert_ne (hnew hg)).trans hg
  refine ⟨?_, h.named.insert rfl, h.size.insert hsize, ?_, ?_, ?_, ?_⟩
  · intro k i
    unfold Wei.enter
    split
    · next hk =>
      constructor
      · intro hi
        cases hi
        exact ⟨_, AList.lookup_insert _, hk⟩
      · rintro ⟨g, hg, hmem⟩
        rcases lookup_insert_some hg with ⟨rfl, -⟩ | ⟨-, hg⟩
        · rfl
        · cases (hfree k hk).symm.trans (h.member hg hmem).1
    · next hk =>
      rw [h.recorded k i]
      constructor
      · rintro ⟨g, hg, hmem⟩
        exact ⟨g, hold hg, hmem⟩
      · rintro ⟨g, hg, hmem⟩
        rcases lookup_insert_some hg with ⟨rfl, rfl⟩ | ⟨-, hg⟩
        · exact absurd hmem hk
        · exact ⟨g, hg, hmem⟩
  · intro k
    unfold Wei.enter
    split
    · rw [Option.bind_some, AList.lookup_insert]
      rfl
    · cases hrecord : (role k).groupId with
      | none => exact h.monitoring hrecord
      | some i =>
        obtain ⟨g, hg, hmem⟩ := (h.recorded k i).mp hrecord
        rw [Option.bind_some, hold hg, (h.member hg hmem).2.1]
        rfl
  · intro k i hrecord
    rw [active_enter]
    unfold Wei.enter at hrecord
    split at hrecord
    · next hk => exact hactive k hk
    · exact h.active k i hrecord
  · intro k
    unfold Wei.enter
    split
    · exact h.closed k
    · exact h.closed k
  · intro i g hg
    rcases lookup_insert_some hg with ⟨rfl, -⟩ | ⟨-, hg⟩
    · exact Nat.lt_succ_self i
    · exact (h.fresh i g hg).trans (Nat.lt_succ_self next)

theorem confirm (h : Grouped role groups next) (hgroup : groups.lookup groupId = some group) :
    Grouped (confirm role group.members) (groups.insert groupId { group with confirmed := true })
      next := by
  have hrecord : ∀ k, (Wei.confirm role group.members k).groupId = (role k).groupId := by
    intro k
    unfold Wei.confirm
    split <;> rfl
  refine ⟨?_, h.named.insert (h.named groupId group hgroup),
    h.size.insert (h.size groupId group hgroup),
    ?_, ?_, ?_, h.fresh.insert (h.fresh groupId group hgroup)⟩
  · intro k i
    rw [hrecord k, h.recorded k i]
    by_cases hi : i = groupId
    · subst hi
      rw [AList.lookup_insert, hgroup]
      simp only [Option.some.injEq, exists_eq_left']
    · rw [AList.lookup_insert_ne hi]
  · intro k
    rw [hrecord k]
    unfold Wei.confirm
    split
    · next hk =>
      rw [(h.member hgroup hk).1, Option.bind_some, AList.lookup_insert]
      rfl
    · next hk =>
      rw [h.state k]
      cases hgroupId : (role k).groupId with
      | none => rfl
      | some i =>
        have hi : i ≠ groupId := by
          rintro rfl
          obtain ⟨g, hg, hmem⟩ := (h.recorded k i).mp hgroupId
          cases hgroup.symm.trans hg
          exact hk hmem
        rw [Option.bind_some, Option.bind_some, AList.lookup_insert_ne hi]
  · intro k i hk
    rw [active_confirm]
    exact h.active k i ((hrecord k).symm.trans hk)
  · intro k
    unfold Wei.confirm
    split
    · exact h.closed k
    · exact h.closed k

end Grouped

end Moqx.Sbd.Wei
