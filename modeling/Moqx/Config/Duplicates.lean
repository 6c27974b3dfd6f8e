import Moqx.Config.Resolver

/-! When two match rules count as duplicates. The key of a rule is one text, in which a `|` of the
authority or of the path looks like the one between them. -/
namespace Moqx.Config

variable {v : Validation} {name : String} {rule other : MatchRule} {key : Text}

/-- The rule passes the checks of its authority and of its path. -/
def MatchRule.Passes (rule : MatchRule) : Prop :=
  ∀ label, (∃ info, validateAuthority rule.authority label = .ok info) ∧
    validatePath rule.path label = .ok ()

def AuthorityMatch.type : AuthorityMatch → AuthorityType
  | .exact _ => .exact
  | .wildcard _ => .wildcard
  | .any _ => .any

def AuthorityMatch.value : AuthorityMatch → Text
  | .exact value => value
  | .wildcard pattern => pattern
  | .any _ => []

/-- What stands before the text of a path in a key. -/
def PathMatch.label : PathMatch → Text
  | .exact _ => ['e', 'x', 'a', 'c', 't', ':']
  | .prefix_ _ => ['p', 'r', 'e', 'f', 'i', 'x', ':']

/-- The authority of the other rule goes on with a `|`, the kind of this rule's path and the start
of its text, and the text goes on with a `|` and the other path. -/
def Straddles (rule other : MatchRule) : Prop :=
  rule.authority.type = other.authority.type ∧ ∃ middle,
    other.authority.value = rule.authority.value ++ '|' :: (rule.path.label ++ middle) ∧
    rule.path.text = middle ++ '|' :: (other.path.label ++ other.path.text)

theorem key_eq (rule : MatchRule) : rule.key = rule.authority.type.name ++
    ':' :: (rule.authority.value ++ '|' :: (rule.path.label ++ rule.path.text)) := by
  obtain ⟨authority, path⟩ := rule
  cases authority <;> cases path <;>
    simp [MatchRule.key, makeCompositeKey, AuthorityMatch.type, AuthorityMatch.value,
      PathMatch.label, PathMatch.text]

theorem type_of_key {a b : AuthorityType} {x y : Text}
    (h : a.name ++ ':' :: x = b.name ++ ':' :: y) :
    a = b ∧ x = y := by
  cases a <;> cases b <;> simp_all [AuthorityType.name]

theorem path_of_label {p q : PathMatch} (h : p.label ++ p.text = q.label ++ q.text) : p = q := by
  cases p <;> cases q <;> simp_all [PathMatch.label, PathMatch.text]

theorem bar_notMem_label (p : PathMatch) : '|' ∉ p.label := by
  cases p <;> simp [PathMatch.label]

theorem MatchRule.Passes.any {b : Bool} (h : rule.Passes) (hrule : rule.authority = .any b) :
    b = true := by
  obtain ⟨⟨info, hinfo⟩, -⟩ := h ""
  cases b
  · rw [hrule] at hinfo
    cases hinfo
  · rfl

theorem eq_of_parts (hrule : rule.Passes) (hother : other.Passes)
    (htype : rule.authority.type = other.authority.type)
    (hvalue : rule.authority.value = other.authority.value) (hpath : rule.path = other.path) :
    rule = other := by
  have hauthority : rule.authority = other.authority := by
    cases ha : rule.authority <;> cases hb : other.authority <;>
      simp_all [AuthorityMatch.type, AuthorityMatch.value]
    · rw [hrule.any ha, hother.any hb]
  obtain ⟨a, p⟩ := rule
  cases hauthority
  cases hpath
  rfl

/-- Where the longer authority goes on, the path of the other rule has begun. -/
theorem straddles_of_append {rest : Text} (htype : rule.authority.type = other.authority.type)
    (hvalue : other.authority.value = rule.authority.value ++ '|' :: rest)
    (hpath : rule.path.label ++ rule.path.text =
      rest ++ '|' :: (other.path.label ++ other.path.text)) : Straddles rule other := by
  rcases List.append_eq_append_iff.mp hpath with ⟨middle, rfl, htext⟩ | ⟨tail, hlabel, htext⟩
  · exact ⟨htype, middle, hvalue, htext⟩
  · cases tail with
    | nil =>
      rw [List.append_nil] at hlabel
      refine ⟨htype, [], ?_, htext.symm⟩
      rw [hvalue, hlabel, List.append_nil]
    | cons c tail =>
      -- a label has no `|` in it
      rw [List.cons_append, List.cons.injEq] at htext
      refine absurd ?_ (bar_notMem_label rule.path)
      rw [hlabel, htext.1]
      simp

theorem key_eq_key_iff (hrule : rule.Passes) (hother : other.Passes) :
    rule.key = other.key ↔ rule = other ∨ Straddles rule other ∨ Straddles other rule := by
  constructor
  · intro h
    rw [key_eq, key_eq] at h
    obtain ⟨htype, h⟩ := type_of_key h
    rcases List.append_eq_append_iff.mp h with ⟨rest, hvalue, hrest⟩ | ⟨rest, hvalue, hrest⟩
    · cases rest with
      | nil =>
        rw [List.append_nil] at hvalue
        exact .inl (eq_of_parts hrule hother htype hvalue.symm
          (path_of_label (List.cons.inj hrest).2))
      | cons c rest =>
        obtain ⟨rfl, hpath⟩ := List.cons.inj hrest
        exact .inr (.inl (straddles_of_append htype hvalue hpath))
    · cases rest with
      | nil =>
        rw [List.append_nil] at hvalue
        exact .inl (eq_of_parts hrule hother htype hvalue
          (path_of_label (List.cons.inj hrest).2.symm))
      | cons c rest =>
        obtain ⟨rfl, hpath⟩ := List.cons.inj hrest
        exact .inr (.inr (straddles_of_append htype.symm hvalue hpath))
  · have hkey : ∀ {a b : MatchRule}, Straddles a b → a.key = b.key := by
      rintro a b ⟨htype, middle, hvalue, htext⟩
      rw [key_eq, key_eq, htype, hvalue, htext]
      simp
    rintro (rfl | h | h)
    · rfl
    · exact hkey h
    · exact (hkey h).symm

/-- The error that is raised for a rule whose key was seen before. -/
def duplicateError (name : String) (rule : MatchRule) : String :=
  "Duplicate (authority, path) combination in service '" ++ name ++ "': " ++ String.ofList rule.key

theorem validateEntry_passes (h : rule.Passes) (j : Nat) :
    validateEntry name v (rule, j) = if rule.key ∈ v.compositeKeys then
        { v with errors := v.errors ++ [duplicateError name rule] }
      else { v with compositeKeys := rule.key :: v.compositeKeys } := by
  obtain ⟨⟨info, hinfo⟩, hpath⟩ := h (matchRuleErrorLabel name j)
  simp only [validateEntry, hinfo, hpath, (validateAuthority_ok hinfo).2]
  rfl

/-- The keys that are there after some rules are those of the rules. -/
theorem mem_keys_validateEntries {rules : List MatchRule} (h : ∀ rule ∈ rules, rule.Passes)
    (n : Nat) : key ∈ ((rules.zipIdx n).foldl (validateEntry name) v).compositeKeys ↔
      key ∈ v.compositeKeys ∨ ∃ rule ∈ rules, rule.key = key := by
  induction rules generalizing v n with
  | nil => simp
  | cons rule rules ih =>
    rw [List.zipIdx_cons, List.foldl_cons, ih (fun r hr => h r (List.mem_cons_of_mem _ hr)),
      validateEntry_passes (h rule List.mem_cons_self)]
    rw [List.exists_mem_cons_iff]
    split
    · next hseen =>
      constructor
      · exact Or.imp_right .inr
      · rintro (hkey | rfl | hkey)
        · exact .inl hkey
        · exact .inl hseen
        · exact .inr hkey
    · rw [List.mem_cons, eq_comm, or_assoc, or_left_comm]

theorem mem_keys_validateServices {services : List (String × ParsedServiceConfig)}
    (h : ∀ rule ∈ parsedRules services, rule.Passes) :
    key ∈ (services.foldl validateService v).compositeKeys ↔
      key ∈ v.compositeKeys ∨ ∃ rule ∈ parsedRules services, rule.key = key := by
  induction services generalizing v with
  | nil => simp [parsedRules]
  | cons service services ih =>
    have hmem : ∀ rule, rule ∈ parsedRules (service :: services) ↔
        rule ∈ service.2.match_ ∨ rule ∈ parsedRules services := by
      intro rule
      rw [parsedRules, List.flatMap_cons, List.mem_append]
      rfl
    rw [List.foldl_cons, ih fun r hr => h r ((hmem r).mpr (.inr hr)), validateService,
      mem_keys_validateEntries fun r hr => h r ((hmem r).mpr (.inl hr))]
    simp only [hmem, or_and_right, exists_or, or_assoc]

/-- What has been checked before a rule: the services before its own, and the rules before it. -/
def checkedBefore (before : List (String × ParsedServiceConfig)) (name : String)
    (earlier : List MatchRule) : Validation :=
  earlier.zipIdx.foldl (validateEntry name) (before.foldl validateService {})

theorem mem_keys_checkedBefore {before : List (String × ParsedServiceConfig)}
    {earlier : List MatchRule} (h : ∀ r ∈ parsedRules before ++ earlier, r.Passes) :
    key ∈ (checkedBefore before name earlier).compositeKeys ↔
      ∃ other ∈ parsedRules before ++ earlier, other.key = key := by
  rw [checkedBefore, mem_keys_validateEntries fun r hr => h r (List.mem_append_right _ hr),
    mem_keys_validateServices fun r hr => h r (List.mem_append_left _ hr)]
  simp only [List.mem_append, or_and_right, exists_or, List.not_mem_nil, false_or]

/-- The check of all services comes to each rule with what was checked before it. There it raises
the error exactly if the rule was there before, unless the rule straddles with one that was, without
having been there itself. -/
theorem duplicate_reported_iff (before after : List (String × ParsedServiceConfig)) (name : String)
    (earlier later : List MatchRule) (rule : MatchRule)
    (hpass : ∀ r ∈ parsedRules (before ++ (name, ⟨earlier ++ rule :: later⟩) :: after), r.Passes) :
    (before ++ (name, ⟨earlier ++ rule :: later⟩) :: after).foldl validateService {} =
      after.foldl validateService ((later.zipIdx (earlier.length + 1)).foldl (validateEntry name)
        (validateEntry name (checkedBefore before name earlier) (rule, earlier.length))) ∧
    (((validateEntry name (checkedBefore before name earlier) (rule, earlier.length)).errors =
        (checkedBefore before name earlier).errors ++ [duplicateError name rule] ↔
      rule ∈ parsedRules before ++ earlier) ↔
    ((∃ other ∈ parsedRules before ++ earlier, Straddles rule other ∨ Straddles other rule) →
      rule ∈ parsedRules before ++ earlier)) := by
  refine ⟨by simp [checkedBefore, validateService, List.zipIdx_append, List.zipIdx_cons], ?_⟩
  have hseen : ∀ r ∈ parsedRules before ++ earlier, r.Passes := by
    intro r hr
    refine hpass r ?_
    simp only [parsedRules, List.flatMap_append, List.flatMap_cons, List.mem_append] at hr ⊢
    exact hr.imp_right fun hr => .inl (.inl hr)
  have hrule : rule.Passes := hpass rule (by simp [parsedRules])
  have hraised : (validateEntry name (checkedBefore before name earlier)
        (rule, earlier.length)).errors =
      (checkedBefore before name earlier).errors ++ [duplicateError name rule] ↔
      rule.key ∈ (checkedBefore before name earlier).compositeKeys := by
    rw [validateEntry_passes hrule]
    split
    · next hkey => exact iff_of_true rfl hkey
    · next hkey => simp [hkey]
  have hkeys : rule.key ∈ (checkedBefore before name earlier).compositeKeys ↔
      rule ∈ parsedRules before ++ earlier ∨ ∃ other ∈ parsedRules before ++ earlier,
        Straddles rule other ∨ Straddles other rule := by
    rw [mem_keys_checkedBefore hseen]
    constructor
    · rintro ⟨other, hother, hkey⟩
      rcases (key_eq_key_iff hrule (hseen other hother)).mp hkey.symm with rfl | hs
      · exact .inl hother
      · exact .inr ⟨other, hother, hs⟩
    · rintro (hr | ⟨other, hother, hs⟩)
      · exact ⟨rule, hr, rfl⟩
      · exact ⟨other, hother, ((key_eq_key_iff hrule (hseen other hother)).mpr (.inr hs)).symm⟩
  rw [hraised, hkeys]
  exact or_iff_left_iff_imp

/-- A rule that is there twice in one service. -/
theorem same_rule_reported :
    (validateEntry "live" (checkedBefore [] "live" [⟨.any true, .exact ['/']⟩])
      (⟨.any true, .exact ['/']⟩, 1)).errors =
    (checkedBefore [] "live" [⟨.any true, .exact ['/']⟩]).errors ++
      [duplicateError "live" ⟨.any true, .exact ['/']⟩] := by
  have hpass : ∀ r ∈ parsedRules ([] ++ ("live", ParsedServiceConfig.mk
      ([⟨.any true, .exact ['/']⟩] ++ [⟨.any true, .exact ['/']⟩])) :: []), r.Passes := by
    intro r hr
    have hr : r = ⟨.any true, .exact ['/']⟩ := by simpa [parsedRules] using hr
    subst hr
    exact fun label => ⟨⟨_, rfl⟩, rfl⟩
  have hmem : (⟨.any true, .exact ['/']⟩ : MatchRule) ∈
      parsedRules [] ++ [⟨.any true, .exact ['/']⟩] := List.mem_singleton_self _
  exact ((duplicate_reported_iff [] [] "live" _ _ _ hpass).2.mpr fun _ => hmem).mpr hmem

/-- One rule has the `|` in its path, the other in its authority: the keys are the same, and the
second rule is reported. -/
theorem straddling_rule_reported :
    let rules : List MatchRule := [
      ⟨.exact ['a'], .exact ['/', '|', 'e', 'x', 'a', 'c', 't', ':', '/']⟩,
      ⟨.exact ['a', '|', 'e', 'x', 'a', 'c', 't', ':', '/'], .exact ['/']⟩]
    rules.Nodup ∧ (validateService {} ("live", ⟨rules⟩)).errors =
      ["Duplicate (authority, path) combination in service 'live': exact:a|exact:/|exact:/"] := by
  decide +kernel

end Moqx.Config
