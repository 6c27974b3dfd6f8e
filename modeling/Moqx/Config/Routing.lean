import Moqx.Config.ServiceMatcher

/-! The most specific rule wins: what `ServiceMatcher` finds, in terms of the rules alone. -/
namespace Moqx.Config

open ServiceMatcher (effectivePath suffix)

/-- A match entry with the service it routes to. -/
structure Rule where
  authority : Authority
  path : PathMatch
  service : String
deriving DecidableEq, Repr

def rulesOf (name : String) (entries : List MatchEntry) : List Rule :=
  entries.map fun entry => ⟨entry.authority, entry.path, name⟩

def rules (services : List (String × ServiceConfig)) : List Rule :=
  services.flatMap fun service => rulesOf service.1 service.2.match_

/-- A wildcard stands for one label, which has no dots. -/
def Authority.Matches : Authority → Text → Prop
  | .exact value, authority => authority = value
  | .wildcard pattern, authority => ∃ label, '.' ∉ label ∧ authority = label ++ pattern.drop 1
  | .any, _ => True

def PathMatch.Matches : PathMatch → Text → Prop
  | .exact value, path => path = value
  | .prefix_ value, path => value <+: path

def Rule.Matches (rule : Rule) (authority path : Text) : Prop :=
  rule.authority.Matches authority ∧ rule.path.Matches (effectivePath path)

def Authority.level : Authority → ℕ
  | .exact _ => 2
  | .wildcard _ => 1
  | .any => 0

def PathMatch.specificity : PathMatch → ℕ ×ₗ ℕ
  | .exact _ => toLex (1, 0)
  | .prefix_ value => toLex (0, value.length)

/-- The authority counts first, then whether the path is exact, then the length of the prefix. -/
def Rule.specificity (rule : Rule) : ℕ ×ₗ (ℕ ×ₗ ℕ) :=
  toLex (rule.authority.level, rule.path.specificity)

/-- The rules that stand under one authority. -/
def entriesOf (rules : List Rule) (authority : Authority) : List (PathMatch × String) :=
  (rules.filter fun rule => rule.authority = authority).map fun rule => (rule.path, rule.service)

theorem mem_entriesOf {l : List Rule} {authority : Authority} {path : PathMatch}
    {service : String} :
    (path, service) ∈ entriesOf l authority ↔ ⟨authority, path, service⟩ ∈ l := by
  constructor
  · intro h
    obtain ⟨rule, hrule, heq⟩ := List.mem_map.mp h
    obtain ⟨hmem, hauthority⟩ := List.mem_filter.mp hrule
    cases heq
    cases of_decide_eq_true hauthority
    exact hmem
  · intro h
    exact List.mem_map.mpr ⟨_, List.mem_filter.mpr ⟨h, decide_eq_true rfl⟩, rfl⟩

section Paths

variable {set : PathRuleSet} {l : List (PathMatch × String)}

namespace PathRuleSet

/-- The set holds exactly the given paths. -/
structure Holds (set : PathRuleSet) (l : List (PathMatch × String)) : Prop where
  exact : ∀ path name, set.exactPaths.lookup path = some name → (.exact path, name) ∈ l
  missing : ∀ path name, set.exactPaths.lookup path = none → (.exact path, name) ∉ l
  prefixes : ∀ rule, rule ∈ set.prefixPaths ↔ (.prefix_ rule.prefix_, rule.serviceName) ∈ l

theorem Holds.empty : Holds {} [] where
  exact _ _ h := nomatch h
  missing _ _ _ := by simp
  prefixes _ := by simp

theorem Holds.addRule (h : Holds set l) (path : PathMatch) (name : String) :
    Holds (set.addRule path name) (l ++ [(path, name)]) := by
  unfold PathRuleSet.addRule
  cases path with
  | exact val =>
    dsimp only
    split_ifs with hsome
    · obtain ⟨first, hfirst⟩ := Option.isSome_iff_exists.mp hsome
      refine ⟨?_, ?_, ?_⟩
      · intro path' name' hlookup
        exact List.mem_append_left _ (h.exact path' name' hlookup)
      · intro path' name' hnone hmem
        rcases List.mem_append.mp hmem with hmem | hmem
        · exact h.missing path' name' hnone hmem
        · cases List.mem_singleton.mp hmem
          rw [hfirst] at hnone
          cases hnone
      · intro rule
        rw [h.prefixes rule]
        simp
    · refine ⟨?_, ?_, ?_⟩
      · intro path' name' hlookup
        rcases Maps.lookup_insert_some hlookup with ⟨rfl, rfl⟩ | ⟨_, hold⟩
        · simp
        · exact List.mem_append_left _ (h.exact path' name' hold)
      · intro path' name' hnone hmem
        have hne : path' ≠ val := by
          rintro rfl
          rw [AList.lookup_insert] at hnone
          cases hnone
        rw [AList.lookup_insert_ne hne] at hnone
        rcases List.mem_append.mp hmem with hmem | hmem
        · exact h.missing path' name' hnone hmem
        · cases List.mem_singleton.mp hmem
          exact hne rfl
      · intro rule
        rw [h.prefixes rule]
        simp
  | prefix_ val =>
    refine ⟨?_, ?_, ?_⟩
    · intro path' name' hlookup
      exact List.mem_append_left _ (h.exact path' name' hlookup)
    · intro path' name' hnone hmem
      rcases List.mem_append.mp hmem with hmem | hmem
      · exact h.missing path' name' hnone hmem
      · cases List.mem_singleton.mp hmem
    · intro rule
      simp only [List.mem_append, List.mem_singleton, h.prefixes rule]
      constructor
      · rintro (hmem | rfl)
        · exact .inl hmem
        · exact .inr rfl
      · rintro (hmem | heq)
        · exact .inl hmem
        · cases heq
          exact .inr rfl

theorem Holds.finalize (h : Holds set l) (sort : LengthSort) : Holds (set.finalize sort) l where
  exact := h.exact
  missing := h.missing
  prefixes rule := by rw [PathRuleSet.finalize, (sort.perm _).mem_iff, h.prefixes rule]

end PathRuleSet

theorem takes_iff {path val : Text} :
    path.length ≥ val.length ∧ path.take val.length = val ↔ val <+: path := by
  constructor
  · rintro ⟨_, htake⟩
    rw [← htake]
    exact List.take_prefix _ _
  · intro h
    exact ⟨h.length_le, (List.prefix_iff_eq_take.mp h).symm⟩

/-- A path rule that no other matching one exceeds. -/
def Fits (l : List (PathMatch × String)) (path : Text) (rule : PathMatch × String) : Prop :=
  rule ∈ l ∧ rule.1.Matches path ∧
    ∀ other ∈ l, other.1.Matches path → other.1.specificity ≤ rule.1.specificity

theorem fits_exact {path : Text} {name : String} (h : (.exact path, name) ∈ l) :
    Fits l path (.exact path, name) := by
  refine ⟨h, rfl, ?_⟩
  rintro ⟨other, _⟩ _ _
  cases other with
  | exact _ => exact le_rfl
  | prefix_ _ => exact Prod.Lex.toLex_le_toLex.mpr (.inl Nat.zero_lt_one)

/-- Sorted by length, the first prefix that fits is the longest one. -/
theorem longest_first {rules : List PrefixRule} {path : Text} {rule : PrefixRule}
    (hsorted : rules.Pairwise fun a b => b.prefix_.length ≤ a.prefix_.length)
    (hfind : rules.find? (fun rule =>
      path.length ≥ rule.prefix_.length ∧ path.take rule.prefix_.length = rule.prefix_) =
        some rule) :
    ∀ other ∈ rules, other.prefix_ <+: path → other.prefix_.length ≤ rule.prefix_.length := by
  obtain ⟨_, before, after, rfl, hbefore⟩ := List.find?_eq_some_iff_append.mp hfind
  intro other hother hprefixes
  rcases List.mem_append.mp hother with hother | hother
  · have hnot := hbefore other hother
    simp [takes_iff, hprefixes] at hnot
  · rcases List.mem_cons.mp hother with rfl | hother
    · exact le_rfl
    · exact List.rel_of_pairwise_cons (List.pairwise_append.mp hsorted).2.1 hother

variable {sort : LengthSort} {path : Text}

/-- What a set of paths finds is a path of the highest specificity that matches. -/
theorem PathRuleSet.Holds.match_some (h : set.Holds l) {name : String}
    (hmatch : (set.finalize sort).match_ path = some name) :
    ∃ pathMatch, Fits l path (pathMatch, name) := by
  have hfinal := h.finalize sort
  unfold PathRuleSet.match_ at hmatch
  cases hexact : (set.finalize sort).exactPaths.lookup path with
  | some first =>
    simp only [hexact, Option.some.injEq] at hmatch
    subst hmatch
    exact ⟨_, fits_exact (h.exact path _ hexact)⟩
  | none =>
    simp only [hexact, Option.map_eq_some_iff] at hmatch
    obtain ⟨rule, hfind, rfl⟩ := hmatch
    have hmem := (hfinal.prefixes rule).mp (List.mem_of_find?_eq_some hfind)
    have hfound := List.find?_some hfind
    rw [decide_eq_true_iff, takes_iff] at hfound
    refine ⟨.prefix_ rule.prefix_, hmem, hfound, ?_⟩
    rintro ⟨other, name'⟩ hother hmatches
    cases other with
    | exact _ =>
      cases hmatches
      exact absurd hother (hfinal.missing path name' hexact)
    | prefix_ val =>
      have hlongest := longest_first (sort.sorted _) hfind ⟨val, name'⟩
        ((hfinal.prefixes ⟨val, name'⟩).mpr hother) hmatches
      exact Prod.Lex.toLex_le_toLex.mpr (.inr ⟨rfl, hlongest⟩)

/-- When a set of paths finds nothing, none of them matches. -/
theorem PathRuleSet.Holds.match_none (h : set.Holds l)
    (hmatch : (set.finalize sort).match_ path = none) : ∀ rule ∈ l, ¬ rule.1.Matches path := by
  have hfinal := h.finalize sort
  unfold PathRuleSet.match_ at hmatch
  cases hexact : (set.finalize sort).exactPaths.lookup path with
  | some first => simp [hexact] at hmatch
  | none =>
    simp only [hexact, Option.map_eq_none_iff, List.find?_eq_none] at hmatch
    rintro ⟨rule, name⟩ hrule hmatches
    cases rule with
    | exact _ =>
      cases hmatches
      exact hfinal.missing path name hexact hrule
    | prefix_ val =>
      refine hmatch ⟨val, name⟩ ((hfinal.prefixes ⟨val, name⟩).mpr hrule) (decide_eq_true ?_)
      exact takes_iff.mpr hmatches

end Paths

section Tables

variable {matcher : ServiceMatcher} {l : List Rule}

/-- The set of paths under a key. -/
def ruleSet (map : AList (fun _ : Text => PathRuleSet)) (key : Text) : PathRuleSet :=
  (map.lookup key).getD {}

namespace ServiceMatcher

/-- The tables hold exactly the given rules. -/
structure Holds (matcher : ServiceMatcher) (l : List Rule) : Prop where
  exact : ∀ value,
    (ruleSet matcher.exactAuthorityRules value).Holds (entriesOf l (.exact value))
  wildcard : ∀ suffix, (ruleSet matcher.wildcardAuthorityRules suffix).Holds
    (entriesOf l (.wildcard ('*' :: suffix)))
  any : matcher.anyAuthorityRules.Holds (entriesOf l .any)

theorem Holds.empty : Holds {} [] where
  exact _ := PathRuleSet.Holds.empty
  wildcard _ := PathRuleSet.Holds.empty
  any := PathRuleSet.Holds.empty

end ServiceMatcher

theorem entriesOf_append_self (authority : Authority) (path : PathMatch) (name : String) :
    entriesOf (l ++ [⟨authority, path, name⟩]) authority =
      entriesOf l authority ++ [(path, name)] := by
  simp [entriesOf]

theorem entriesOf_append_ne {authority other : Authority} (h : authority ≠ other)
    (path : PathMatch) (name : String) :
    entriesOf (l ++ [⟨authority, path, name⟩]) other = entriesOf l other := by
  simp [entriesOf, h]

/-- A rule that is added under one key is added for the authority of that key. -/
theorem holds_addRuleAt {map : AList (fun _ : Text => PathRuleSet)} (make : Text → Authority)
    (hmake : Function.Injective make)
    (h : ∀ key, (ruleSet map key).Holds (entriesOf l (make key))) (key : Text) (path : PathMatch)
    (name : String) (key' : Text) :
    (ruleSet (ServiceMatcher.addRuleAt map key path name) key').Holds
      (entriesOf (l ++ [⟨make key, path, name⟩]) (make key')) := by
  unfold ServiceMatcher.addRuleAt ruleSet
  by_cases hkey : key' = key
  · subst hkey
    rw [AList.lookup_insert, Option.getD_some, entriesOf_append_self]
    exact (h key').addRule path name
  · rw [AList.lookup_insert_ne hkey, entriesOf_append_ne (fun heq => hkey (hmake heq).symm)]
    exact h key'

/-- The patterns of wildcards, as the resolver accepts them. -/
def Authority.Accepted : Authority → Prop
  | .wildcard pattern => ∃ rest, pattern = '*' :: '.' :: rest
  | _ => True

theorem ServiceMatcher.Holds.addEntry (h : matcher.Holds l) (name : String) {entry : MatchEntry}
    (haccepted : entry.authority.Accepted) :
    (ServiceMatcher.addEntry name matcher entry).Holds
      (l ++ [⟨entry.authority, entry.path, name⟩]) := by
  obtain ⟨authority, path⟩ := entry
  cases authority with
  | exact value =>
    refine ⟨?_, ?_, ?_⟩
    · exact holds_addRuleAt Authority.exact (fun _ _ heq => by cases heq; rfl) h.exact
        value path name
    · intro suffix
      rw [entriesOf_append_ne (fun heq => by cases heq)]
      exact h.wildcard suffix
    · rw [entriesOf_append_ne (fun heq => by cases heq)]
      exact h.any
  | wildcard pattern =>
    obtain ⟨rest, rfl⟩ := haccepted
    refine ⟨?_, ?_, ?_⟩
    · intro value
      rw [entriesOf_append_ne (fun heq => by cases heq)]
      exact h.exact value
    · exact holds_addRuleAt (fun suffix => Authority.wildcard ('*' :: suffix))
        (fun _ _ heq => by cases heq; rfl) h.wildcard ('.' :: rest) path name
    · rw [entriesOf_append_ne (fun heq => by cases heq)]
      exact h.any
  | any =>
    refine ⟨?_, ?_, ?_⟩
    · intro value
      rw [entriesOf_append_ne (fun heq => by cases heq)]
      exact h.exact value
    · intro suffix
      rw [entriesOf_append_ne (fun heq => by cases heq)]
      exact h.wildcard suffix
    · rw [entriesOf_append_self]
      exact h.any.addRule path name

theorem ServiceMatcher.Holds.addEntries (h : matcher.Holds l) (name : String)
    {entries : List MatchEntry} (haccepted : ∀ entry ∈ entries, entry.authority.Accepted) :
    (entries.foldl (ServiceMatcher.addEntry name) matcher).Holds (l ++ rulesOf name entries) := by
  induction entries generalizing matcher l with
  | nil => simpa [rulesOf] using h
  | cons entry entries ih =>
    have hrest := ih (h.addEntry name (haccepted entry List.mem_cons_self))
      (fun other hother => haccepted other (List.mem_cons_of_mem _ hother))
    simpa [rulesOf] using hrest

theorem ServiceMatcher.Holds.addServices (h : matcher.Holds l)
    {services : List (String × ServiceConfig)}
    (haccepted : ∀ rule ∈ rules services, rule.authority.Accepted) :
    (services.foldl ServiceMatcher.addService matcher).Holds (l ++ rules services) := by
  induction services generalizing matcher l with
  | nil => simpa [rules] using h
  | cons service services ih =>
    have hservice : ∀ entry ∈ service.2.match_, entry.authority.Accepted := by
      intro entry hentry
      exact haccepted _ (List.mem_append_left _ (List.mem_map.mpr ⟨entry, hentry, rfl⟩))
    have hrest := ih (h.addEntries service.1 hservice)
      (fun rule hrule => haccepted rule (List.mem_append_right _ hrule))
    rwa [List.append_assoc] at hrest

end Tables

section Tiers

variable {l : List Rule} {set : PathRuleSet} {sort : LengthSort} {tier : Authority}
  {authority path : Text} {name : String}

/-- One authority decides, when every other rule that matches has an authority of a lower level. -/
theorem best_of_tier (hset : set.Holds (entriesOf l tier)) (htier : tier.Matches authority)
    (hmatch : (set.finalize sort).match_ (effectivePath path) = some name)
    (hlower : ∀ other ∈ l, other.Matches authority path →
      other.authority = tier ∨ other.authority.level < tier.level) :
    ∃ rule ∈ l, rule.Matches authority path ∧ rule.service = name ∧
      ∀ other ∈ l, other.Matches authority path → other.specificity ≤ rule.specificity := by
  obtain ⟨pathMatch, hmem, hmatches, hbest⟩ := hset.match_some hmatch
  refine ⟨⟨tier, pathMatch, name⟩, mem_entriesOf.mp hmem, ⟨htier, hmatches⟩, rfl, ?_⟩
  rintro ⟨authority', path', name'⟩ hother hmatches'
  rcases hlower _ hother hmatches' with rfl | hlevel
  · have hpath := hbest (path', name') (mem_entriesOf.mpr hother) hmatches'.2
    exact Prod.Lex.toLex_le_toLex.mpr (.inr ⟨rfl, hpath⟩)
  · exact Prod.Lex.toLex_le_toLex.mpr (.inl hlevel)

theorem none_of_tier (hset : set.Holds (entriesOf l tier))
    (hmatch : (set.finalize sort).match_ (effectivePath path) = none) :
    ∀ rule ∈ l, rule.Matches authority path → rule.authority ≠ tier := by
  rintro ⟨_, path', name'⟩ hrule hmatches rfl
  exact hset.match_none hmatch (path', name') (mem_entriesOf.mpr hrule) hmatches.2

theorem suffix_append {label rest : Text} (hlabel : '.' ∉ label) :
    suffix (label ++ '.' :: rest) = some ('.' :: rest) := by
  have hmem : '.' ∈ label ++ '.' :: rest := List.mem_append_right _ List.mem_cons_self
  rw [suffix, if_pos hmem, List.dropWhile_append_of_pos]
  · simp
  · intro c hc
    refine decide_eq_true ?_
    rintro rfl
    exact hlabel hc

theorem suffix_dot {rest : Text} (h : suffix authority = some rest) :
    ∃ tail, rest = '.' :: tail := by
  have hdot : '.' ∈ authority := by
    by_contra hdot
    rw [suffix, if_neg hdot] at h
    cases h
  obtain ⟨label, tail, rfl, hlabel⟩ := List.eq_append_cons_of_mem hdot
  rw [suffix_append hlabel] at h
  cases h
  exact ⟨tail, rfl⟩

/-- A wildcard matches exactly the authorities that go on from their first dot as its pattern
does. -/
theorem wildcard_matches_iff {rest : Text} :
    (Authority.wildcard ('*' :: '.' :: rest)).Matches authority ↔
      suffix authority = some ('.' :: rest) := by
  constructor
  · rintro ⟨label, hlabel, rfl⟩
    exact suffix_append hlabel
  · intro h
    unfold suffix at h
    split_ifs at h with hdot
    refine ⟨authority.takeWhile fun c => c ≠ '.', ?_, ?_⟩
    · intro hmem
      have hne := List.mem_takeWhile_imp hmem
      simp at hne
    · rw [List.drop_one, List.tail_cons, ← Option.some.inj h, List.takeWhile_append_dropWhile]

variable {matcher : ServiceMatcher}

theorem match_ruleSet (map : AList (fun _ : Text => PathRuleSet)) (key : Text) :
    ((Maps.mapVal (fun _ rules => PathRuleSet.finalize sort rules) map).lookup key).bind
      (fun rules => rules.match_ path) = ((ruleSet map key).finalize sort).match_ path := by
  rw [Maps.lookup_mapVal, ruleSet]
  cases map.lookup key with
  | some rules => rfl
  | none =>
    have hempty : sort.sort [] = [] := List.perm_nil.mp (sort.perm [])
    simp [PathRuleSet.finalize, PathRuleSet.match_, hempty]

/-- What the tables find at each level, and which level decides. -/
theorem match_finalize :
    (matcher.finalize sort).match_ authority path =
      (((ruleSet matcher.exactAuthorityRules authority).finalize sort).match_
        (effectivePath path)).or
      (((suffix authority).bind fun suffix =>
        ((ruleSet matcher.wildcardAuthorityRules suffix).finalize sort).match_
          (effectivePath path)).or
      ((matcher.anyAuthorityRules.finalize sort).match_ (effectivePath path))) := by
  unfold ServiceMatcher.match_ ServiceMatcher.finalize
  simp only [match_ruleSet]

theorem level_of_exact {rule : Rule} (hmatches : rule.Matches authority path) :
    rule.authority = .exact authority ∨ rule.authority.level < 2 := by
  obtain ⟨authority', path', service⟩ := rule
  cases authority' with
  | exact value => exact .inl (congrArg Authority.exact hmatches.1.symm)
  | wildcard _ => exact .inr Nat.one_lt_two
  | any => exact .inr Nat.zero_lt_two

theorem level_of_wildcard {rule : Rule} (haccepted : rule.authority.Accepted)
    (hmatches : rule.Matches authority path) (hlevel : rule.authority.level < 2) :
    (∃ rest, suffix authority = some rest ∧ rule.authority = .wildcard ('*' :: rest)) ∨
      rule.authority.level < 1 := by
  obtain ⟨authority', path', service⟩ := rule
  cases authority' with
  | exact _ => exact absurd hlevel (Nat.lt_irrefl 2)
  | wildcard _ =>
    obtain ⟨rest, rfl⟩ := haccepted
    exact .inl ⟨_, wildcard_matches_iff.mp hmatches.1, rfl⟩
  | any => exact .inr Nat.zero_lt_one

theorem level_of_any {rule : Rule} (hlevel : rule.authority.level < 1) :
    rule.authority = .any := by
  cases hauthority : rule.authority with
  | exact _ | wildcard _ => simp [hauthority, Authority.level] at hlevel
  | any => rfl

theorem lower_of_exact_none (h : matcher.Holds l)
    (hnone : ((ruleSet matcher.exactAuthorityRules authority).finalize sort).match_
      (effectivePath path) = none) :
    ∀ rule ∈ l, rule.Matches authority path → rule.authority.level < 2 := by
  intro rule hrule hmatches
  refine (level_of_exact hmatches).resolve_left ?_
  exact none_of_tier (h.exact authority) hnone rule hrule hmatches

theorem lower_of_wildcard_none (h : matcher.Holds l)
    (haccepted : ∀ rule ∈ l, rule.authority.Accepted)
    (hlower : ∀ rule ∈ l, rule.Matches authority path → rule.authority.level < 2)
    (hnone : ((suffix authority).bind fun suffix =>
      ((ruleSet matcher.wildcardAuthorityRules suffix).finalize sort).match_
        (effectivePath path)) = none) :
    ∀ rule ∈ l, rule.Matches authority path → rule.authority.level < 1 := by
  intro rule hrule hmatches
  refine (level_of_wildcard (haccepted rule hrule) hmatches
    (hlower rule hrule hmatches)).resolve_left ?_
  rintro ⟨rest, hrest, hauthority⟩
  rw [hrest, Option.bind_some] at hnone
  exact none_of_tier (h.wildcard rest) hnone rule hrule hmatches hauthority

/-- The tables find a rule of the highest specificity that matches. -/
theorem ServiceMatcher.Holds.match_some (h : matcher.Holds l)
    (haccepted : ∀ rule ∈ l, rule.authority.Accepted)
    (hmatch : (matcher.finalize sort).match_ authority path = some name) :
    ∃ rule ∈ l, rule.Matches authority path ∧ rule.service = name ∧
      ∀ other ∈ l, other.Matches authority path → other.specificity ≤ rule.specificity := by
  rw [match_finalize, Option.or_eq_some_iff, Option.or_eq_some_iff] at hmatch
  rcases hmatch with hexact | ⟨hexact, hwildcard | ⟨hwildcard, hany⟩⟩
  · exact best_of_tier (h.exact authority) rfl hexact fun _ _ => level_of_exact
  · have hlower := lower_of_exact_none h hexact
    obtain ⟨rest, hrest, hfound⟩ := Option.bind_eq_some_iff.mp hwildcard
    obtain ⟨tail, rfl⟩ := suffix_dot hrest
    refine best_of_tier (h.wildcard ('.' :: tail)) (wildcard_matches_iff.mpr hrest) hfound ?_
    intro other hother hmatches
    rcases level_of_wildcard (haccepted other hother) hmatches (hlower other hother hmatches) with
      ⟨rest', hrest', hauthority⟩ | hlevel
    · cases hrest.symm.trans hrest'
      exact .inl hauthority
    · exact .inr hlevel
  · have hlower := lower_of_wildcard_none h haccepted (lower_of_exact_none h hexact) hwildcard
    refine best_of_tier h.any trivial hany fun other hother hmatches => .inl ?_
    exact level_of_any (hlower other hother hmatches)

/-- When the tables find nothing, no rule matches. -/
theorem ServiceMatcher.Holds.match_none (h : matcher.Holds l)
    (haccepted : ∀ rule ∈ l, rule.authority.Accepted)
    (hmatch : (matcher.finalize sort).match_ authority path = none) :
    ∀ rule ∈ l, ¬ rule.Matches authority path := by
  rw [match_finalize, Option.or_eq_none_iff, Option.or_eq_none_iff] at hmatch
  obtain ⟨hexact, hwildcard, hany⟩ := hmatch
  intro rule hrule hmatches
  have hlower := lower_of_wildcard_none h haccepted (lower_of_exact_none h hexact) hwildcard
  exact none_of_tier h.any hany rule hrule hmatches (level_of_any (hlower rule hrule hmatches))

end Tiers

section Routing

variable {l : List Rule} {authority path : Text}

/-- Rules of equal specificity that match the same authority and path have the same authority and
path. -/
theorem same_of_specificity {rule other : Rule} (haccepted : rule.authority.Accepted)
    (haccepted' : other.authority.Accepted) (hmatches : rule.Matches authority path)
    (hmatches' : other.Matches authority path) (heq : other.specificity = rule.specificity) :
    other.authority = rule.authority ∧ other.path = rule.path := by
  obtain ⟨hlevel, hpaths⟩ := Prod.mk.inj (toLex.injective heq)
  constructor
  · rcases level_of_exact hmatches with hrule | hrule
    · rcases level_of_exact hmatches' with hother | hother
      · rw [hrule, hother]
      · rw [hlevel, hrule] at hother
        exact absurd hother (Nat.lt_irrefl 2)
    · rcases level_of_wildcard haccepted hmatches hrule with ⟨rest, hrest, hwildcard⟩ | hany
      · rcases level_of_wildcard haccepted' hmatches' (hlevel ▸ hrule) with
          ⟨rest', hrest', hwildcard'⟩ | hany'
        · cases hrest.symm.trans hrest'
          rw [hwildcard, hwildcard']
        · rw [hlevel, hwildcard] at hany'
          exact absurd hany' (Nat.lt_irrefl 1)
      · rw [level_of_any hany, level_of_any (hlevel ▸ hany)]
  · obtain ⟨_, path₁, _⟩ := rule
    obtain ⟨_, path₂, _⟩ := other
    obtain ⟨-, hpath₁⟩ := hmatches
    obtain ⟨-, hpath₂⟩ := hmatches'
    cases path₁ with
    | exact value =>
      cases path₂ with
      | exact value' => exact congrArg PathMatch.exact (hpath₂.symm.trans hpath₁)
      | prefix_ value' => cases hpaths
    | prefix_ value =>
      cases path₂ with
      | exact value' => cases hpaths
      | prefix_ value' =>
        have hlength : value'.length = value.length := (Prod.mk.inj (toLex.injective hpaths)).2
        exact congrArg PathMatch.prefix_ (List.prefix_of_prefix_length_le hpath₂ hpath₁
          hlength.le |>.eq_of_length hlength)

/-- The key of a rule, from what it was resolved to. -/
def Rule.key (rule : Rule) : Text :=
  match rule.authority with
  | .exact value => makeCompositeKey .exact value rule.path
  | .wildcard pattern => makeCompositeKey .wildcard pattern rule.path
  | .any => makeCompositeKey .any [] rule.path

variable {services resolved order : List (String × ServiceConfig)}

theorem rules_perm (h : order.Perm resolved) : (rules order).Perm (rules resolved) :=
  h.flatMap_right _

variable {parsed : List (String × ParsedServiceConfig)}

def resolveRule (name : String) (rule : MatchRule) : Rule :=
  ⟨(resolveMatchEntry rule).authority, rule.path, name⟩

theorem key_resolveRule (name : String) (rule : MatchRule) :
    (resolveRule name rule).key = rule.key := by
  obtain ⟨authority, path⟩ := rule
  cases authority with
  | exact _ => rfl
  | wildcard _ => rfl
  | any _ => rfl

theorem accepted_resolveRule (name : String) {rule : MatchRule} (h : rule.Valid) :
    (resolveRule name rule).authority.Accepted := by
  obtain ⟨authority, path⟩ := rule
  cases authority with
  | exact _ => trivial
  | wildcard _ => exact h
  | any _ => trivial

theorem rules_resolve :
    rules (parsed.map fun service => (service.1, resolveService service.2)) =
      parsed.flatMap fun service => service.2.match_.map (resolveRule service.1) := by
  simp only [rules, rulesOf, resolveService, List.flatMap_map, List.map_map]
  rfl

theorem accepted_of_resolve (h : resolveServices parsed = .ok resolved) :
    ∀ rule ∈ rules resolved, rule.authority.Accepted := by
  obtain ⟨rfl, hvalid, -⟩ := resolveServices_ok h
  intro rule hrule
  rw [rules_resolve] at hrule
  obtain ⟨service, hservice, hrule⟩ := List.mem_flatMap.mp hrule
  obtain ⟨entry, hentry, rfl⟩ := List.mem_map.mp hrule
  exact accepted_resolveRule _ (hvalid entry (List.mem_flatMap.mpr ⟨service, hservice, hentry⟩))

/-- No two rules of an accepted configuration have the same authority and path. -/
theorem distinct_of_resolve (h : resolveServices parsed = .ok resolved) {rule other : Rule}
    (hrule : rule ∈ rules resolved) (hother : other ∈ rules resolved)
    (hauthority : other.authority = rule.authority) (hpath : other.path = rule.path) :
    other = rule := by
  obtain ⟨rfl, -, hnodup⟩ := resolveServices_ok h
  have hkeys : (rules (parsed.map fun service => (service.1, resolveService service.2))).map
      Rule.key = (parsedRules parsed).map MatchRule.key := by
    simp [rules_resolve, parsedRules, List.map_flatMap, Function.comp_def, key_resolveRule]
  rw [← hkeys] at hnodup
  refine List.inj_on_of_nodup_map hnodup hother hrule ?_
  simp only [Rule.key, hauthority, hpath]

/-- A rule that matches and exceeds every other one that does. -/
def MostSpecific (l : List Rule) (authority path : Text) (rule : Rule) : Prop :=
  rule ∈ l ∧ rule.Matches authority path ∧
    ∀ other ∈ l, other.Matches authority path → other ≠ rule →
      other.specificity < rule.specificity

theorem holds_make (haccepted : ∀ rule ∈ rules order, rule.authority.Accepted) :
    (order.foldl ServiceMatcher.addService {}).Holds (rules order) :=
  ServiceMatcher.Holds.empty.addServices haccepted

/-- The service that is found is that of the most specific rule, in whatever order the services
come and however prefixes of one length are sorted. -/
theorem match_most_specific (sort : LengthSort) (h : resolveServices parsed = .ok resolved)
    (horder : order.Perm resolved) (authority path : Text) :
    (∀ name, (ServiceMatcher.make sort order).match_ authority path = some name ↔
      ∃ rule, MostSpecific (rules resolved) authority path rule ∧ rule.service = name) ∧
    ((ServiceMatcher.make sort order).match_ authority path = none ↔
      ∀ rule ∈ rules resolved, ¬ rule.Matches authority path) := by
  have hmem : ∀ rule, rule ∈ rules order ↔ rule ∈ rules resolved :=
    fun rule => (rules_perm horder).mem_iff
  have haccepted := accepted_of_resolve h
  have haccepted' : ∀ rule ∈ rules order, rule.authority.Accepted :=
    fun rule hrule => haccepted rule ((hmem rule).mp hrule)
  have hholds := holds_make haccepted'
  have hsome : ∀ name, (ServiceMatcher.make sort order).match_ authority path = some name →
      ∃ rule, MostSpecific (rules resolved) authority path rule ∧ rule.service = name := by
    intro name hmatch
    obtain ⟨rule, hrule, hmatches, rfl, hbest⟩ := hholds.match_some haccepted' hmatch
    have hrule' := (hmem rule).mp hrule
    refine ⟨rule, ⟨hrule', hmatches, ?_⟩, rfl⟩
    intro other hother hmatches' hne
    refine lt_of_le_of_ne (hbest other ((hmem other).mpr hother) hmatches') ?_
    intro heq
    obtain ⟨hauthority, hpath⟩ := same_of_specificity (haccepted rule hrule')
      (haccepted other hother) hmatches hmatches' heq
    exact hne (distinct_of_resolve h hrule' hother hauthority hpath)
  have hnone : (ServiceMatcher.make sort order).match_ authority path = none →
      ∀ rule ∈ rules resolved, ¬ rule.Matches authority path := by
    intro hmatch rule hrule
    exact hholds.match_none haccepted' hmatch rule ((hmem rule).mpr hrule)
  refine ⟨fun name => ⟨hsome name, ?_⟩, hnone, ?_⟩
  · rintro ⟨rule, ⟨hrule, hmatches, hbest⟩, rfl⟩
    cases hmatch : (ServiceMatcher.make sort order).match_ authority path with
    | none => exact absurd hmatches (hnone hmatch rule hrule)
    | some name =>
      obtain ⟨rule', ⟨hrule', hmatches', hbest'⟩, rfl⟩ := hsome name hmatch
      by_cases heq : rule' = rule
      · rw [heq]
      · have hlt := hbest rule' hrule' hmatches' heq
        have hgt := hbest' rule hrule hmatches (Ne.symm heq)
        exact absurd hlt hgt.asymm
  · intro hno
    cases hmatch : (ServiceMatcher.make sort order).match_ authority path with
    | none => rfl
    | some name =>
      obtain ⟨rule, ⟨hrule, hmatches, -⟩, -⟩ := hsome name hmatch
      exact absurd hmatches (hno rule hrule)

/-- One service for the subdomains of one domain, one for a path of any authority. -/
def liveAndArchive : List (String × ParsedServiceConfig) :=
  [("live", ⟨[⟨.wildcard ['*', '.', 't', 'v'], .prefix_ ['/']⟩]⟩),
    ("archive", ⟨[⟨.any true, .prefix_ ['/', 'a']⟩, ⟨.exact ['t', 'v'], .exact ['/', 'a']⟩]⟩)]

theorem match_most_specific_live :
    ∃ rule, MostSpecific (rules (liveAndArchive.map fun service =>
      (service.1, resolveService service.2))) ['a', '.', 't', 'v'] [] rule ∧
      rule.service = "live" := by
  have haccepted : resolveServices liveAndArchive =
      .ok (liveAndArchive.map fun service => (service.1, resolveService service.2)) := rfl
  refine ((match_most_specific .insertion haccepted (List.reverse_perm _) _ _).1 "live").mp ?_
  decide +kernel

end Routing

end Moqx.Config
