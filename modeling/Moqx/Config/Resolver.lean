import Moqx.Lib.Maps

/-! The match rules of services: how `resolveConfig` checks the rules of a parsed configuration and
what it makes of them. -/
namespace Moqx.Config

/-- A byte string. -/
abbrev Text := List Char

inductive AuthorityMatch where
  | exact (exact : Text)
  | wildcard (wildcard : Text)
  | any (any : Bool)
deriving DecidableEq, Repr

inductive PathMatch where
  | exact (value : Text)
  | prefix_ (value : Text)
deriving DecidableEq, Repr

structure MatchRule where
  authority : AuthorityMatch
  path : PathMatch
deriving DecidableEq, Repr

structure ParsedServiceConfig where
  match_ : List MatchRule
deriving DecidableEq, Repr

inductive Authority where
  | exact (value : Text)
  | wildcard (pattern : Text)
  | any
deriving DecidableEq, Repr

structure MatchEntry where
  authority : Authority
  path : PathMatch
deriving DecidableEq, Repr

structure ServiceConfig where
  match_ : List MatchEntry
deriving DecidableEq, Repr

inductive AuthorityType where
  | exact
  | wildcard
  | any
deriving DecidableEq, Repr

def AuthorityType.name : AuthorityType → Text
  | .exact => ['e', 'x', 'a', 'c', 't']
  | .wildcard => ['w', 'i', 'l', 'd', 'c', 'a', 'r', 'd']
  | .any => ['a', 'n', 'y']

structure AuthorityInfo where
  type : AuthorityType
  value : Text
deriving DecidableEq, Repr

def matchRuleErrorLabel (name : String) (j : Nat) : String :=
  "Service '" ++ name ++ "' match[" ++ toString j ++ "]"

def validateAuthority (authority : AuthorityMatch) (label : String) :
    Except String AuthorityInfo :=
  match authority with
  | .exact value =>
    if value.isEmpty then .error (label ++ ".authority: exact value must be non-empty")
    else .ok ⟨.exact, value⟩
  | .wildcard pat =>
    if pat.length < 3 ∨ pat.head? ≠ some '*' ∨ pat.tail.head? ≠ some '.' then
      .error (label ++ ".authority: wildcard must start with '*.' (e.g. '*.example.com'), got '" ++
        String.ofList pat ++ "'")
    else if '*' ∈ pat.drop 2 then
      .error (label ++ ".authority: wildcard must contain exactly one '*' at the start, got '" ++
        String.ofList pat ++ "'")
    else .ok ⟨.wildcard, pat⟩
  | .any any =>
    if any then .ok ⟨.any, []⟩ else .error (label ++ ".authority: any must be true")

def PathMatch.text : PathMatch → Text
  | .exact value => value
  | .prefix_ value => value

def validatePath (path : PathMatch) (label : String) : Except String Unit :=
  if path.text.isEmpty then .error (label ++ ".path: value must be non-empty")
  else if path.text.head? ≠ some '/' then
    .error (label ++ ".path: value must start with '/', got '" ++ String.ofList path.text ++ "'")
  else .ok ()

/-- An authority and a path as one key for the detection of duplicates. -/
def makeCompositeKey (authorityType : AuthorityType) (authorityValue : Text) (path : PathMatch) :
    Text :=
  authorityType.name ++ [':'] ++ authorityValue ++ ['|'] ++
    match path with
    | .exact value => ['e', 'x', 'a', 'c', 't', ':'] ++ value
    | .prefix_ value => ['p', 'r', 'e', 'f', 'i', 'x', ':'] ++ value

/-- The keys that were seen and the errors that were found so far. -/
structure Validation where
  compositeKeys : List Text := []
  errors : List String := []
deriving DecidableEq, Repr

/-- One turn of the loop of `validateService` over the match rules of a service. -/
def validateEntry (name : String) (v : Validation) (entry : MatchRule × Nat) : Validation :=
  let label := matchRuleErrorLabel name entry.2
  match validateAuthority entry.1.authority label with
  | .error error => { v with errors := v.errors ++ [error] }
  | .ok authInfo =>
    match validatePath entry.1.path label with
    | .error error => { v with errors := v.errors ++ [error] }
    | .ok () =>
      let key := makeCompositeKey authInfo.type authInfo.value entry.1.path
      if key ∈ v.compositeKeys then
        { v with errors := v.errors ++ ["Duplicate (authority, path) combination in service '" ++
          name ++ "': " ++ String.ofList key] }
      else { v with compositeKeys := key :: v.compositeKeys }

def validateService (v : Validation) (service : String × ParsedServiceConfig) : Validation :=
  service.2.match_.zipIdx.foldl (validateEntry service.1) v

def resolveMatchEntry (entry : MatchRule) : MatchEntry where
  authority :=
    match entry.authority with
    | .exact value => .exact value
    | .wildcard pattern => .wildcard pattern
    | .any _ => .any
  path := entry.path

def resolveService (svc : ParsedServiceConfig) : ServiceConfig where
  match_ := svc.match_.map resolveMatchEntry

/-- The part of `resolveConfig` that is about the match rules of services. -/
def resolveServices (services : List (String × ParsedServiceConfig)) :
    Except (List String) (List (String × ServiceConfig)) :=
  let v := services.foldl validateService
    { errors := if services.isEmpty then ["At least one service is required"] else [] }
  if v.errors = [] then .ok (services.map fun service => (service.1, resolveService service.2))
  else .error v.errors

section Accepted

variable {v : Validation} {name : String}

/-- What a rule that passes adds to the keys. -/
def MatchRule.key (rule : MatchRule) : Text :=
  match rule.authority with
  | .exact value => makeCompositeKey .exact value rule.path
  | .wildcard pattern => makeCompositeKey .wildcard pattern rule.path
  | .any _ => makeCompositeKey .any [] rule.path

/-- What is checked of the authority of a rule, apart from the text of errors. -/
def MatchRule.Valid (rule : MatchRule) : Prop :=
  match rule.authority with
  | .exact value => value ≠ []
  | .wildcard pattern => ∃ rest, pattern = '*' :: '.' :: rest
  | .any any => any = true

theorem validateAuthority_ok {rule : MatchRule} {label : String} {info : AuthorityInfo}
    (h : validateAuthority rule.authority label = .ok info) :
    rule.Valid ∧ makeCompositeKey info.type info.value rule.path = rule.key := by
  unfold validateAuthority at h
  unfold MatchRule.Valid MatchRule.key
  cases hauthority : rule.authority with
  | exact value =>
    simp only [hauthority] at h
    split at h
    · cases h
    · next hempty =>
      cases h
      exact ⟨by simpa using hempty, rfl⟩
  | wildcard pattern =>
    simp only [hauthority] at h
    split at h
    · cases h
    · next hshape =>
      split at h
      · cases h
      · cases h
        refine ⟨?_, rfl⟩
        simp only [not_or, not_not] at hshape
        obtain ⟨-, hstar, hdot⟩ := hshape
        rcases pattern with _ | ⟨c, _ | ⟨d, rest⟩⟩
        · cases hstar
        · cases hdot
        · cases hstar
          cases hdot
          exact ⟨rest, rfl⟩
  | any any =>
    simp only [hauthority] at h
    split at h
    · next htrue =>
      cases h
      exact ⟨htrue, rfl⟩
    · cases h

/-- A rule that adds no error is valid and its key is new. -/
theorem validateEntry_ok {entry : MatchRule × Nat} (h : (validateEntry name v entry).errors = []) :
    v.errors = [] ∧ entry.1.Valid ∧ entry.1.key ∉ v.compositeKeys ∧
      (validateEntry name v entry).compositeKeys = entry.1.key :: v.compositeKeys := by
  unfold validateEntry at h ⊢
  cases hauthority : validateAuthority entry.1.authority (matchRuleErrorLabel name entry.2) with
  | error error => simp [hauthority] at h
  | ok info =>
    obtain ⟨hvalid, hkey⟩ := validateAuthority_ok hauthority
    simp only [hauthority] at h ⊢
    cases hpath : validatePath entry.1.path (matchRuleErrorLabel name entry.2) with
    | error error => simp [hpath] at h
    | ok _ =>
      simp only [hpath, hkey] at h ⊢
      split at h
      · simp at h
      · next hnew =>
        rw [if_neg hnew]
        exact ⟨h, hvalid, hnew, rfl⟩

/-- The rules of all services, in the order in which they are checked. -/
def parsedRules (services : List (String × ParsedServiceConfig)) : List MatchRule :=
  services.flatMap fun service => service.2.match_

theorem validateService_ok {service : String × ParsedServiceConfig}
    (h : (validateService v service).errors = []) :
    v.errors = [] ∧ (∀ rule ∈ service.2.match_, rule.Valid) ∧
      (validateService v service).compositeKeys =
        (service.2.match_.map MatchRule.key).reverse ++ v.compositeKeys ∧
      (v.compositeKeys.Nodup → (validateService v service).compositeKeys.Nodup) := by
  obtain ⟨name, rules⟩ := service
  have hloop : ∀ (rules : List MatchRule) (n : Nat) (v : Validation),
      ((rules.zipIdx n).foldl (validateEntry name) v).errors = [] →
      v.errors = [] ∧ (∀ rule ∈ rules, rule.Valid) ∧
        ((rules.zipIdx n).foldl (validateEntry name) v).compositeKeys =
          (rules.map MatchRule.key).reverse ++ v.compositeKeys ∧
        (v.compositeKeys.Nodup →
          ((rules.zipIdx n).foldl (validateEntry name) v).compositeKeys.Nodup) := by
    intro rules
    induction rules with
    | nil => exact fun n v h => ⟨h, by simp, rfl, id⟩
    | cons rule rules ih =>
      intro n v h
      rw [List.zipIdx_cons, List.foldl_cons] at h ⊢
      obtain ⟨herrors, hvalid, hkeys, hnodup⟩ := ih (n + 1) _ h
      obtain ⟨herrors', hvalid', hnew, hkeys'⟩ := validateEntry_ok herrors
      refine ⟨herrors', ?_, ?_, ?_⟩
      · intro rule' hrule'
        rcases List.mem_cons.mp hrule' with rfl | hrule'
        · exact hvalid'
        · exact hvalid rule' hrule'
      · rw [hkeys, hkeys']
        simp
      · intro hv
        refine hnodup ?_
        rw [hkeys']
        exact List.nodup_cons.mpr ⟨hnew, hv⟩
  exact hloop rules.match_ 0 v h

theorem validateServices_ok {services : List (String × ParsedServiceConfig)}
    (h : (services.foldl validateService v).errors = []) :
    v.errors = [] ∧ (∀ rule ∈ parsedRules services, rule.Valid) ∧
      (services.foldl validateService v).compositeKeys =
        ((parsedRules services).map MatchRule.key).reverse ++ v.compositeKeys ∧
      (v.compositeKeys.Nodup → (services.foldl validateService v).compositeKeys.Nodup) := by
  induction services generalizing v with
  | nil => exact ⟨h, by simp [parsedRules], rfl, id⟩
  | cons service services ih =>
    rw [List.foldl_cons] at h ⊢
    obtain ⟨herrors, hvalid, hkeys, hnodup⟩ := ih h
    obtain ⟨herrors', hvalid', hkeys', hnodup'⟩ := validateService_ok herrors
    refine ⟨herrors', ?_, ?_, fun hv => hnodup (hnodup' hv)⟩
    · intro rule hrule
      rw [parsedRules, List.flatMap_cons, List.mem_append] at hrule
      exact hrule.elim (hvalid' rule) (hvalid rule)
    · rw [hkeys, hkeys']
      simp [parsedRules]

/-- All rules of an accepted configuration are valid, and no two have the same key. -/
theorem resolveServices_ok {services : List (String × ParsedServiceConfig)}
    {resolved : List (String × ServiceConfig)} (h : resolveServices services = .ok resolved) :
    resolved = services.map (fun service => (service.1, resolveService service.2)) ∧
      (∀ rule ∈ parsedRules services, rule.Valid) ∧
      ((parsedRules services).map MatchRule.key).Nodup := by
  unfold resolveServices at h
  extract_lets v at h
  split_ifs at h with hempty
  cases h
  obtain ⟨-, hvalid, hkeys, hnodup⟩ := validateServices_ok hempty
  have hall := hnodup List.nodup_nil
  rw [hkeys, List.append_nil, List.nodup_reverse] at hall
  exact ⟨rfl, hvalid, hall⟩

end Accepted

end Moqx.Config
