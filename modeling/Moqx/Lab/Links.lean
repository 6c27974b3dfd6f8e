import Mathlib.Data.List.Nodup
import Mathlib.Data.Rat.Defs

/-! The links of the lab's page: their identifiers, live edits by identifier, and the throughput
that is shown for them. -/
namespace Moqx.Lab

abbrev NodeId := List Char

/-- `_NODE_ID_RE.match`; the `$` of the pattern also stands before a newline at the end. -/
def matchesNodeId : NodeId → Bool
  | [] => false
  | first :: rest =>
    let rest := if rest.getLast? = some '\n' then rest.dropLast else rest
    first.isAlphanum && rest.length ≤ 62 &&
      rest.all fun c => c.isAlphanum || c == '_' || c == '-'

/-- The identifier of a link from its two ends. -/
def linkId (a b : NodeId) : List Char := a ++ '-' :: '-' :: b

inductive Direction
  | forward
  | reverse
deriving DecidableEq

def Direction.ofString (direction : String) : Option Direction :=
  if direction = "forward" then some .forward
  else if direction = "reverse" then some .reverse
  else none

structure LinkSpec (Spec : Type) where
  from_ : NodeId
  to_ : NodeId
  forward : Spec
  reverse : Spec
deriving DecidableEq

inductive HTTPStatus
  | badRequest
  | notFound
  | conflict
  | unprocessableEntity
  | internalServerError
deriving DecidableEq

structure LinkUpdateError where
  status : HTTPStatus
  message : String
deriving DecidableEq

section Model

variable {Spec Raw : Type} [DecidableEq Spec]

namespace LinkSpec

def id (link : LinkSpec Spec) : List Char := linkId link.from_ link.to_

def canonicalKey (link : LinkSpec Spec) : NodeId × NodeId :=
  if link.from_ < link.to_ then (link.from_, link.to_) else (link.to_, link.from_)

def get (link : LinkSpec Spec) : Direction → Spec
  | .forward => link.forward
  | .reverse => link.reverse

def set (link : LinkSpec Spec) (spec : Spec) : Direction → LinkSpec Spec
  | .forward => { link with forward := spec }
  | .reverse => { link with reverse := spec }

end LinkSpec

/-- The checks of the links and of the names of their ends in the schema. -/
def accepts (links : List (LinkSpec Spec)) : Bool :=
  links.all (fun link => matchesNodeId link.from_ && matchesNodeId link.to_ &&
    link.from_ != link.to_) && decide (links.map LinkSpec.canonicalKey).Nodup

/-- What came of a request, the links after it, and the number of the link whose interface was
shaped. -/
structure Edited (Spec : Type) where
  result : Except LinkUpdateError Spec
  links : List (LinkSpec Spec)
  shaped : Option Nat := none

variable (linkUpdater : Nat → Direction → Spec → Spec → Except String Unit)

/-- The edit of the link with this number; `before` and `after` are the other ones. -/
def editFound (before : List (LinkSpec Spec)) (link : LinkSpec Spec) (after : List (LinkSpec Spec))
    (direction : Direction) (spec : Spec) : Edited Spec :=
  if spec = link.get direction then ⟨.ok spec, before ++ link :: after, none⟩
  else match linkUpdater before.length direction spec (link.get direction) with
    | .error message =>
      ⟨.error ⟨.internalServerError, message⟩, before ++ link :: after, some before.length⟩
    | .ok () => ⟨.ok spec, before ++ link.set spec direction :: after, some before.length⟩

/-- The loop over the links, of which `before` have another identifier. -/
def editFirst (id : List Char) (direction : Direction) (spec : Spec) :
    List (LinkSpec Spec) → List (LinkSpec Spec) → Edited Spec
  | before, [] => ⟨.error ⟨.notFound, "unknown link"⟩, before, none⟩
  | before, link :: after =>
    if link.id ≠ id then editFirst id direction spec (before ++ [link]) after
    else editFound linkUpdater before link after direction spec

/-- `active` is a Containernet run with a link updater; `raw` is nothing if the body is not an
object. -/
def updateLink (validate : Raw → Except String Spec) (active : Bool) (links : List (LinkSpec Spec))
    (id : List Char) (direction : String) (raw : Option Raw) : Edited Spec :=
  if !active then
    ⟨.error ⟨.conflict, "live link editing requires an active Containernet run"⟩, links, none⟩
  else match Direction.ofString direction, raw with
    | none, _ => ⟨.error ⟨.notFound, "unknown link direction"⟩, links, none⟩
    | some _, none => ⟨.error ⟨.badRequest, "direction must be a JSON object"⟩, links, none⟩
    | some direction, some raw =>
      match validate raw with
      | .error message => ⟨.error ⟨.unprocessableEntity, message⟩, links, none⟩
      | .ok spec => editFirst linkUpdater id direction spec [] links

end Model

/-- The sent bytes of both ends of a link. -/
structure Sample where
  at_s : ℚ
  a : Nat
  b : Nat

inductive Rate
  | unavailable
  | warming
  | ok (throughput_bps a_to_b_bps b_to_a_bps : ℚ)

/-- One call of the sampler: the time, and what is read from the interfaces of a link, which go by
its number. -/
structure Call where
  now : ℚ
  counters : Nat → Option (Nat × Nat)

def Call.read (call : Call) (i : Nat) : Option Sample :=
  (call.counters i).map fun counters => ⟨call.now, counters.1, counters.2⟩

def bytesPerSecond (previous current : Nat) (elapsed_s : ℚ) : ℚ :=
  (current - previous : Nat) / elapsed_s

def rateOf : Option Sample → Option Sample → Rate
  | none, _ => .unavailable
  | some _, none => .warming
  | some current, some previous =>
    if current.at_s ≤ previous.at_s then .warming
    else
      let elapsed := current.at_s - previous.at_s
      let aToB := bytesPerSecond previous.a current.a elapsed * 8
      let bToA := bytesPerSecond previous.b current.b elapsed * 8
      .ok (aToB + bToA) aToB bToA

/-- What is remembered and what is reported under an identifier. -/
abbrev Table := List Char → Option Sample × Option Rate

def sampleEdge {Spec : Type} (call : Call) (table : Table) (edge : LinkSpec Spec × Nat) : Table :=
  Function.update table edge.1.id
    (call.read edge.2, some (rateOf (call.read edge.2) (table edge.1.id).1))

/-- `sample` starts with an empty report. -/
def sample {Spec : Type} (links : List (LinkSpec Spec)) (table : Table) (call : Call) : Table :=
  links.zipIdx.foldl (sampleEdge call) fun id => ((table id).1, none)

/-- The sampler after some calls. -/
def sampled {Spec : Type} (links : List (LinkSpec Spec)) (calls : List Call) : Table :=
  calls.foldl (sample links) fun _ => (none, none)

section Identifiers

variable {Spec : Type} {links : List (LinkSpec Spec)} {link other : LinkSpec Spec}

/-- The other link begins where this one does and goes on with `--`, and this one ends with `--` and
the end of the other. -/
def Straddles (link other : LinkSpec Spec) : Prop :=
  ∃ middle, other.from_ = linkId link.from_ middle ∧ link.to_ = linkId middle other.to_

theorem head_of_matches {node : NodeId} (h : matchesNodeId node = true) :
    node.head? ≠ some '-' := by
  cases node with
  | nil => cases h
  | cons first rest =>
    rintro ⟨⟩
    simp [matchesNodeId] at h

/-- A `-` more or less is not possible, since no name begins with one. -/
theorem straddles_of_append {rest : List Char} (hto : link.to_.head? ≠ some '-')
    (hfrom : other.from_ = link.from_ ++ rest)
    (h : '-' :: '-' :: link.to_ = rest ++ '-' :: '-' :: other.to_) :
    link.from_ = other.from_ ∧ link.to_ = other.to_ ∨ Straddles link other := by
  cases rest with
  | nil =>
    rw [List.append_nil] at hfrom
    exact .inl ⟨hfrom.symm, by simpa using h⟩
  | cons c rest =>
    obtain ⟨rfl, htail⟩ := List.cons.inj h
    cases rest with
    | nil =>
      refine absurd ?_ hto
      rw [(List.cons.inj htail).2]
      rfl
    | cons d middle =>
      obtain ⟨rfl, hmiddle⟩ := List.cons.inj htail
      exact .inr ⟨middle, hfrom, hmiddle⟩

theorem ends_of_id (hlink : link.to_.head? ≠ some '-') (hother : other.to_.head? ≠ some '-')
    (h : link.id = other.id) : (link.from_ = other.from_ ∧ link.to_ = other.to_) ∨
      Straddles link other ∨ Straddles other link := by
  rcases List.append_eq_append_iff.mp h with ⟨rest, hfrom, hrest⟩ | ⟨rest, hfrom, hrest⟩
  · exact (straddles_of_append hlink hfrom hrest).imp_right .inl
  · exact (straddles_of_append hother hfrom hrest).imp (fun h => ⟨h.1.symm, h.2.symm⟩) .inr

theorem Straddles.id_eq (h : Straddles link other) : link.id = other.id := by
  obtain ⟨middle, hfrom, hto⟩ := h
  simp [LinkSpec.id, linkId, hfrom, hto]

theorem not_straddles_self : ¬ Straddles link link := by
  rintro ⟨middle, hfrom, -⟩
  have hlength := congrArg List.length hfrom
  simp [linkId] at hlength

/-- The identifiers of accepted links differ if no two of them straddle. -/
theorem ids_nodup_iff (h : accepts links = true) : (links.map LinkSpec.id).Nodup ↔
    ∀ link ∈ links, ∀ other ∈ links, ¬ Straddles link other := by
  simp only [accepts, Bool.and_eq_true, List.all_eq_true, decide_eq_true_eq] at h
  obtain ⟨hlinks, hkeys⟩ := h
  have hhead : ∀ link ∈ links, link.to_.head? ≠ some '-' :=
    fun link hlink => head_of_matches (hlinks link hlink).1.2
  constructor
  · intro hnodup link hlink other hother hstraddles
    cases List.inj_on_of_nodup_map hnodup hlink hother hstraddles.id_eq
    exact not_straddles_self hstraddles
  · intro hnone
    rw [List.Nodup, List.pairwise_map] at hkeys ⊢
    refine hkeys.imp_of_mem fun {link other} hlink hother hne hid => hne ?_
    rcases ends_of_id (hhead _ hlink) (hhead _ hother) hid with ⟨hfrom, hto⟩ | h | h
    · rw [LinkSpec.canonicalKey, LinkSpec.canonicalKey, hfrom, hto]
    · exact absurd h (hnone _ hlink _ hother)
    · exact absurd h (hnone _ hother _ hlink)

variable [DecidableEq Spec] (linkUpdater : Nat → Direction → Spec → Spec → Except String Unit)

/-- The loop comes to the link if no link before it has its identifier. -/
theorem editFirst_eq (before passed after : List (LinkSpec Spec)) (direction : Direction)
    (spec : Spec)
    (h : ∀ other ∈ before, other.id ≠ link.id) :
    editFirst linkUpdater link.id direction spec passed (before ++ link :: after) =
      editFound linkUpdater (passed ++ before) link after direction spec := by
  induction before generalizing passed with
  | nil => simp [editFirst]
  | cons other before ih =>
    rw [List.cons_append, editFirst, if_pos (h other List.mem_cons_self),
      ih _ fun x hx => h x (List.mem_cons_of_mem _ hx)]
    simp

end Identifiers

section Sampler

variable {Spec : Type} {links : List (LinkSpec Spec)} {edge : LinkSpec Spec × Nat}

theorem sampleEdges_of_notMem (call : Call) {id : List Char} {edges : List (LinkSpec Spec × Nat)}
    (h : ∀ edge ∈ edges, id ≠ edge.1.id) (table : Table) :
    edges.foldl (sampleEdge call) table id = table id := by
  induction edges generalizing table with
  | nil => rfl
  | cons edge edges ih =>
    exact (ih (fun e he => h e (List.mem_cons_of_mem _ he)) _).trans
      (Function.update_of_ne (h edge List.mem_cons_self) _ _)

/-- A link is sampled once and overwritten by no other one. -/
theorem sample_eq (hnodup : (links.map LinkSpec.id).Nodup) (hedge : edge ∈ links.zipIdx)
    (table : Table) (call : Call) : sample links table call edge.1.id =
      (call.read edge.2, some (rateOf (call.read edge.2) (table edge.1.id).1)) := by
  have hids : links.zipIdx.map (fun edge => edge.1.id) = links.map LinkSpec.id := by
    rw [← List.zipIdx_map_fst 0 links, List.map_map]
    simp
  obtain ⟨before, after, hsplit⟩ := List.append_of_mem hedge
  rw [← hids, hsplit, List.map_append, List.nodup_append, List.map_cons, List.nodup_cons] at hnodup
  obtain ⟨-, ⟨hafter, -⟩, hbefore⟩ := hnodup
  rw [sample, hsplit, List.foldl_append, List.foldl_cons, sampleEdges_of_notMem call, sampleEdge,
    Function.update_self, sampleEdges_of_notMem call]
  · exact fun e he heq => hbefore _ (List.mem_map_of_mem he) _ List.mem_cons_self heq.symm
  · exact fun e he heq => hafter (heq ▸ List.mem_map_of_mem he)

/-- What is remembered of a link is what the last call read of it. -/
theorem sampled_eq (hnodup : (links.map LinkSpec.id).Nodup) (hedge : edge ∈ links.zipIdx)
    (calls : List Call) :
    (sampled links calls edge.1.id).1 = calls.getLast?.bind fun call => call.read edge.2 := by
  rcases List.eq_nil_or_concat calls with rfl | ⟨calls, call, rfl⟩
  · rfl
  · rw [List.concat_eq_append, sampled, List.foldl_append, List.getLast?_append]
    exact congrArg Prod.fst (sample_eq hnodup hedge _ call)

end Sampler

/-- The identifiers of the links differ, a request with the identifier of a link edits this link,
and the throughput that is shown for it comes from its counters now and at the call before, exactly
if no two links straddle. -/
theorem linkIds_exact_iff {Spec Raw : Type} [DecidableEq Spec] (links : List (LinkSpec Spec))
    (validate : Raw → Except String Spec)
    (linkUpdater : Nat → Direction → Spec → Spec → Except String Unit)
    (h : accepts links = true) :
    ((links.map LinkSpec.id).Nodup ∧
      (∀ before link after, links = before ++ link :: after →
        ∀ name direction raw spec, Direction.ofString name = some direction →
          validate raw = .ok spec →
          updateLink linkUpdater validate true links link.id name (some raw) =
            editFound linkUpdater before link after direction spec) ∧
      ∀ edge ∈ links.zipIdx, ∀ calls call, (sampled links (calls ++ [call]) edge.1.id).2 =
        some (rateOf (call.read edge.2) (calls.getLast?.bind fun call => call.read edge.2))) ↔
    ∀ link ∈ links, ∀ other ∈ links, ¬ Straddles link other := by
  rw [← ids_nodup_iff h]
  refine ⟨And.left, fun hnodup => ⟨hnodup, ?_, ?_⟩⟩
  · rintro before link after rfl name direction raw spec hname hraw
    rw [List.map_append, List.nodup_append] at hnodup
    have hedit := editFirst_eq linkUpdater before [] after direction spec fun other hother =>
      hnodup.2.2 _ (List.mem_map_of_mem hother) _ List.mem_cons_self
    simpa [updateLink, hname, hraw] using hedit
  · intro edge hedge calls call
    rw [sampled, List.foldl_append, ← sampled_eq hnodup hedge]
    exact congrArg Prod.snd (sample_eq hnodup hedge _ call)

/-- Beside a link between `a` and `b--c`, one between `a--b` and `d` is found by its identifier. -/
theorem linkIds_exact_twoLinks :
    let links : List (LinkSpec Nat) :=
      [⟨['a'], "b--c".toList, 0, 0⟩, ⟨"a--b".toList, ['d'], 0, 0⟩]
    (links.map LinkSpec.id).Nodup ∧
      (updateLink (fun _ _ _ _ => .ok ()) (fun raw : Nat => .ok raw) true links
        (linkId "a--b".toList ['d']) "forward" (some 7)).links =
          [⟨['a'], "b--c".toList, 0, 0⟩, ⟨"a--b".toList, ['d'], 7, 0⟩] := by
  intro links
  have hexact := (linkIds_exact_iff links (fun raw : Nat => .ok raw) (fun _ _ _ _ => .ok ())
    (by decide +kernel)).mpr (by simp [links, Straddles, linkId])
  have hedit := hexact.2.1 [⟨['a'], "b--c".toList, 0, 0⟩] ⟨"a--b".toList, ['d'], 0, 0⟩ [] rfl
    "forward" .forward 7 7 rfl rfl
  exact ⟨hexact.1, (congrArg _ hedit).trans (by decide +kernel)⟩

/-- A request with the identifier of the second link edits the first one. -/
theorem first_link_edited :
    let links : List (LinkSpec Nat) :=
      [⟨['a'], "b--c".toList, 0, 0⟩, ⟨"a--b".toList, ['c'], 0, 0⟩]
    accepts links = true ∧
      (updateLink (fun _ _ _ _ => .ok ()) (fun raw : Nat => .ok raw) true links
        (linkId "a--b".toList ['c']) "forward" (some 7)).links =
          [⟨['a'], "b--c".toList, 7, 0⟩, ⟨"a--b".toList, ['c'], 0, 0⟩] := by
  decide +kernel

end Moqx.Lab
