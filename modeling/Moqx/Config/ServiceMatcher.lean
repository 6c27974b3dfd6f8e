import Moqx.Config.Resolver

/-! `ServiceMatcher`: the tables it builds from the services and how it looks up a service. -/
namespace Moqx.Config

structure PrefixRule where
  prefix_ : Text
  serviceName : String
deriving DecidableEq, Repr

structure PathRuleSet where
  exactPaths : AList (fun _ : Text => String) := ∅
  prefixPaths : List PrefixRule := []

/-- What `std::sort` by descending length promises. The order of prefixes of equal length is
open. -/
structure LengthSort where
  sort : List PrefixRule → List PrefixRule
  perm : ∀ rules, (sort rules).Perm rules
  sorted : ∀ rules, (sort rules).Pairwise fun a b => b.prefix_.length ≤ a.prefix_.length

/-- Insertion is one such sort. -/
def LengthSort.insertion : LengthSort where
  sort rules := rules.insertionSort fun a b => b.prefix_.length ≤ a.prefix_.length
  perm rules := List.perm_insertionSort _ rules
  sorted rules :=
    haveI : Std.Total fun a b : PrefixRule => b.prefix_.length ≤ a.prefix_.length :=
      ⟨fun a b => Nat.le_total b.prefix_.length a.prefix_.length⟩
    haveI : IsTrans PrefixRule fun a b => b.prefix_.length ≤ a.prefix_.length :=
      ⟨fun _ _ _ hab hbc => Nat.le_trans hbc hab⟩
    List.pairwise_insertionSort _ rules

namespace PathRuleSet

def addRule (rules : PathRuleSet) (path : PathMatch) (serviceName : String) : PathRuleSet :=
  match path with
  | .exact val =>
    -- try_emplace: the first service keeps the path
    if (rules.exactPaths.lookup val).isSome then rules
    else { rules with exactPaths := rules.exactPaths.insert val serviceName }
  | .prefix_ val => { rules with prefixPaths := rules.prefixPaths ++ [⟨val, serviceName⟩] }

def finalize (sort : LengthSort) (rules : PathRuleSet) : PathRuleSet :=
  { rules with prefixPaths := sort.sort rules.prefixPaths }

def match_ (rules : PathRuleSet) (path : Text) : Option String :=
  match rules.exactPaths.lookup path with
  | some serviceName => some serviceName
  | none =>
    (rules.prefixPaths.find? fun rule =>
      path.length ≥ rule.prefix_.length ∧ path.take rule.prefix_.length = rule.prefix_).map
      PrefixRule.serviceName

end PathRuleSet

structure ServiceMatcher where
  exactAuthorityRules : AList (fun _ : Text => PathRuleSet) := ∅
  wildcardAuthorityRules : AList (fun _ : Text => PathRuleSet) := ∅
  anyAuthorityRules : PathRuleSet := {}

namespace ServiceMatcher

/-- `map[key].addRule(path, serviceName)`. -/
def addRuleAt (map : AList (fun _ : Text => PathRuleSet)) (key : Text) (path : PathMatch)
    (serviceName : String) : AList (fun _ : Text => PathRuleSet) :=
  map.insert key (((map.lookup key).getD {}).addRule path serviceName)

def addEntry (name : String) (matcher : ServiceMatcher) (entry : MatchEntry) : ServiceMatcher :=
  match entry.authority with
  | .exact value =>
    { matcher with
      exactAuthorityRules := addRuleAt matcher.exactAuthorityRules value entry.path name }
  | .wildcard pattern =>
    { matcher with
      wildcardAuthorityRules :=
        addRuleAt matcher.wildcardAuthorityRules (pattern.drop 1) entry.path name }
  | .any =>
    { matcher with anyAuthorityRules := matcher.anyAuthorityRules.addRule entry.path name }

def finalize (sort : LengthSort) (matcher : ServiceMatcher) : ServiceMatcher where
  exactAuthorityRules :=
    Maps.mapVal (fun _ rules => PathRuleSet.finalize sort rules) matcher.exactAuthorityRules
  wildcardAuthorityRules :=
    Maps.mapVal (fun _ rules => PathRuleSet.finalize sort rules) matcher.wildcardAuthorityRules
  anyAuthorityRules := matcher.anyAuthorityRules.finalize sort

def addService (matcher : ServiceMatcher) (service : String × ServiceConfig) : ServiceMatcher :=
  service.2.match_.foldl (addEntry service.1) matcher

/-- The constructor, for services in the order in which the map is iterated. -/
def make (sort : LengthSort) (services : List (String × ServiceConfig)) : ServiceMatcher :=
  (services.foldl addService {}).finalize sort

/-- The authority from its first dot on. -/
def suffix (authority : Text) : Option Text :=
  if '.' ∈ authority then some (authority.dropWhile fun c => c ≠ '.') else none

/-- The MOQT specification allows an empty path in CLIENT_SETUP. -/
def effectivePath (path : Text) : Text :=
  if path.isEmpty then ['/'] else path

def match_ (matcher : ServiceMatcher) (authority path : Text) : Option String :=
  let path := effectivePath path
  let exact := (matcher.exactAuthorityRules.lookup authority).bind fun rules => rules.match_ path
  let wildcard := (suffix authority).bind fun suffix =>
    (matcher.wildcardAuthorityRules.lookup suffix).bind fun rules => rules.match_ path
  exact.or (wildcard.or (matcher.anyAuthorityRules.match_ path))

end ServiceMatcher

end Moqx.Config
