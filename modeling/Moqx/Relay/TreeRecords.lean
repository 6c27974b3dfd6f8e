import Moqx.Relay.NamespaceTree

/-! The tree as a flat map: what is recorded under a path, an absent node standing for an empty
record. Changes of a node touch no other record, because a node is pruned only when nothing is
recorded in its subtree. -/
namespace Moqx

open Maps

/-- What a node has to say about its namespace. -/
structure NamespaceRecord where
  publisher : Option (SessionId × String) := none
  publishes : AList (fun _ : String => SessionId) := ∅
  subscribers : AList (fun _ : SessionId => NamespaceSubscriberInfo) := ∅
  draft14PubNsHandles : AList (fun _ : SessionId => HandleId) := ∅

def NamespaceNode.record (node : NamespaceNode) : NamespaceRecord where
  publisher := node.publisherSession.map fun session => (session, node.publisherPeerID)
  publishes := node.publishes
  subscribers := node.subscribers
  draft14PubNsHandles := node.draft14PubNsHandles

theorem eq_empty_of_keys {α β : Type} {m : AList (fun _ : α => β)} (h : m.keys = []) : m = ∅ := by
  apply AList.ext
  exact List.map_eq_nil_iff.mp h

theorem NamespaceNode.record_eq_empty {node : NamespaceNode} (h : node.hasContent = false) :
    node.record = {} := by
  simp only [hasContent, Bool.or_eq_false_iff, Bool.not_eq_false', List.isEmpty_iff,
    Option.isSome_eq_false_iff, Option.isNone_iff_eq_none] at h
  obtain ⟨⟨⟨hp, hs⟩, hh⟩, hpub⟩ := h
  simp only [record, hpub, Option.map_none, eq_empty_of_keys hp, eq_empty_of_keys hs,
    eq_empty_of_keys hh]

namespace NamespaceTree

variable {t t' : NamespaceTree} {path p q : Path} {node node' : NamespaceNode} {name : String}

def record (t : NamespaceTree) (path : Path) : NamespaceRecord :=
  (t.lookup path).elim {} NamespaceNode.record

@[simp] theorem lookup_setNode :
    (t.setNode path node).lookup p = if p = path then some node else t.lookup p := by
  split
  · next h =>
    subst h
    exact AList.lookup_insert _
  · next h => exact AList.lookup_insert_ne h

@[simp] theorem lookup_addNode :
    (t.addNode path).lookup p = if p = path then some { id := t.nextNode } else t.lookup p := by
  split
  · next h =>
    subst h
    exact AList.lookup_insert _
  · next h => exact AList.lookup_insert_ne h

@[simp] theorem lookup_eraseSubtree :
    (t.eraseSubtree path).lookup p = if path <:+ p then none else t.lookup p := by
  change (keep _ t.nodes).lookup p = _
  rw [lookup_keep]
  by_cases h : path <:+ p
  · simp only [h, if_true]
    cases t.nodes.lookup p with
    | none => rfl
    | some node => simp [Option.filter, List.isSuffixOf_iff_suffix.mpr h]
  · have hfalse : path.isSuffixOf p = false := by
      rw [← Bool.not_eq_true, List.isSuffixOf_iff_suffix]
      exact h
    simp only [h, if_false, hfalse]
    change Option.filter _ (t.lookup p) = t.lookup p
    cases t.lookup p <;> simp [Option.filter]

/-- The names of the children of a node. -/
def childNames (t : NamespaceTree) (path : Path) : Set String :=
  {name | (t.lookup (name :: path)).isSome}

theorem finite_childNames (t : NamespaceTree) (path : Path) : (t.childNames path).Finite := by
  refine (List.finite_toSet (t.nodes.keys.filterMap List.head?)).subset ?_
  intro name h
  simp only [Set.mem_ofPred_eq, List.mem_filterMap]
  exact ⟨name :: path, AList.mem_keys.mp (AList.lookup_isSome.mp h), rfl⟩

/-- The tree is closed under parents, and no node has more children than it counts. -/
structure WF (t : NamespaceTree) : Prop where
  root : (t.lookup []).isSome
  parent : ∀ ⦃name path⦄, (t.lookup (name :: path)).isSome → (t.lookup path).isSome
  counted : ∀ ⦃path node⦄, t.lookup path = some node →
    (t.childNames path).ncard ≤ node.activeChildCount

/-- The parents of all nodes are there. -/
def Closed (t : NamespaceTree) : Prop :=
  ∀ ⦃name path⦄, (t.lookup (name :: path)).isSome → (t.lookup path).isSome

theorem Closed.suffix (h : t.Closed) (hp : (t.lookup p).isSome) (hq : q <:+ p) :
    (t.lookup q).isSome := by
  induction p with
  | nil =>
    rw [List.suffix_nil.mp hq]
    exact hp
  | cons name p ih =>
    rcases List.suffix_cons_iff.mp hq with rfl | hq
    · exact hp
    · exact ih (h hp) hq

theorem Closed.setNode (h : t.Closed) (hp : (t.lookup path).isSome) :
    (t.setNode path node).Closed := by
  intro name above hchild
  rw [lookup_setNode] at hchild ⊢
  split
  · rfl
  · split at hchild
    · next heq =>
      subst heq
      exact h hp
    · exact h hchild

theorem WF.suffix (h : t.WF) (hp : (t.lookup p).isSome) (hq : q <:+ p) : (t.lookup q).isSome :=
  Closed.suffix h.parent hp hq

theorem lookup_start (p : Path) :
    ({} : NamespaceTree).lookup p = if p = [] then some { id := 0 } else none := by
  by_cases hp : p = []
  · subst hp
    rfl
  · rw [if_neg hp]
    exact AList.lookup_eq_none.mpr (by
      simpa [AList.mem_keys, AList.singleton, AList.keys, List.keys] using hp)

theorem wf_start : ({} : NamespaceTree).WF := by
  refine ⟨rfl, ?_, ?_⟩
  · intro name path h
    simp [lookup_start] at h
  · intro path node h
    have : ({} : NamespaceTree).childNames path = ∅ := by
      simp [childNames, lookup_start]
    rw [this, Set.ncard_empty]
    exact Nat.zero_le _

theorem not_suffix_of_cons (h : p <:+ path) : ¬ (name :: path) <:+ p := by
  intro h'
  have := h'.length_le
  have := h.length_le
  simp at *
  omega

/-- The next node on the way down. -/
theorem child_of_suffix (h : path <:+ p) (hne : p ≠ path) : ∃ name, name :: path <:+ p := by
  obtain ⟨names, rfl⟩ := h
  obtain rfl | ⟨front, name, rfl⟩ := names.eq_nil_or_concat
  · exact absurd rfl hne
  · exact ⟨name, front, by simp⟩

/-- The tree with all nodes on a path. -/
def create (t : NamespaceTree) : Path → NamespaceTree
  | [] => t
  | name :: parent =>
    if ((t.create parent).lookup (name :: parent)).isSome then t.create parent
    else (t.create parent).addNode (name :: parent)

theorem lookup_create_of_some (h : t.lookup p = some node) :
    (t.create path).lookup p = some node := by
  induction path with
  | nil => exact h
  | cons name parent ih =>
    simp only [create]
    split
    · exact ih
    · next hnone =>
      rw [lookup_addNode, if_neg]
      · exact ih
      · rintro rfl
        exact hnone (by rw [ih]; rfl)

theorem lookup_create_of_not_suffix (h : ¬ p <:+ path) : (t.create path).lookup p = t.lookup p := by
  induction path with
  | nil => rfl
  | cons name parent ih =>
    have hne : p ≠ name :: parent := by
      rintro rfl
      exact h List.suffix_rfl
    have hparent : ¬ p <:+ parent := fun hp => h (hp.trans (List.suffix_cons name parent))
    simp only [create]
    split
    · exact ih hparent
    · rw [lookup_addNode, if_neg hne]
      exact ih hparent

theorem lookup_create_new (hnone : t.lookup p = none) (hsuffix : p <:+ path) (hp : p ≠ []) :
    ∃ id, (t.create path).lookup p = some { id := id } := by
  induction path with
  | nil => exact absurd (List.suffix_nil.mp hsuffix) hp
  | cons name parent ih =>
    by_cases hparent : p <:+ parent
    · obtain ⟨id, hid⟩ := ih hparent
      simp only [create]
      split
      · exact ⟨id, hid⟩
      · next hnew =>
        refine ⟨id, ?_⟩
        rw [lookup_addNode, if_neg]
        · exact hid
        · rintro rfl
          exact hnew (by rw [hid]; rfl)
    · rcases List.suffix_cons_iff.mp hsuffix with rfl | h
      · have hold : (t.create parent).lookup (name :: parent) = none := by
          rw [lookup_create_of_not_suffix hparent, hnone]
        simp [create, hold]
      · exact absurd h hparent

theorem create_eq_self (h : t.WF) (hp : (t.lookup path).isSome) : t.create path = t := by
  induction path with
  | nil => rfl
  | cons name parent ih =>
    have hparent : t.create parent = t := ih (h.parent hp)
    simp [create, hparent, hp]

theorem lookup_create_root (path : Path) : (t.create path).lookup [] = t.lookup [] := by
  induction path with
  | nil => rfl
  | cons name parent ih =>
    simp only [create]
    split
    · exact ih
    · rw [lookup_addNode, if_neg (by simp), ih]

/-- A new node looks like a missing one. -/
theorem observe_create {α : Type} {f : Option NamespaceNode → α}
    (hnew : ∀ id, f (some { id := id }) = f none) (t : NamespaceTree) (path p : Path) :
    f ((t.create path).lookup p) = f (t.lookup p) := by
  cases h : t.lookup p with
  | some node => rw [lookup_create_of_some h]
  | none =>
    by_cases hsuffix : p <:+ path
    · by_cases hp : p = []
      · subst hp
        rw [lookup_create_root, h]
      · obtain ⟨id, hid⟩ := lookup_create_new h hsuffix hp
        rw [hid, hnew]
    · rw [lookup_create_of_not_suffix hsuffix, h]

theorem record_create (t : NamespaceTree) (path p : Path) : (t.create path).record p = t.record p :=
  observe_create (f := fun node => node.elim ({} : NamespaceRecord) NamespaceNode.record)
    (fun _ => rfl) t path p

theorem walk_create_append (t : NamespaceTree) (path : Path) (matchType : MatchType)
    (ns : TrackNamespace) (name : String) :
    (walk true matchType t path (ns ++ [name])).1 =
      if ((walk true matchType t path ns).1.lookup (name :: (ns.reverse ++ path))).isSome then
        (walk true matchType t path ns).1
      else (walk true matchType t path ns).1.addNode (name :: (ns.reverse ++ path)) := by
  induction ns generalizing t path with
  | nil => by_cases h : (t.lookup (name :: path)).isSome <;> simp [walk, h]
  | cons first rest ih =>
    have hpath : (first :: rest).reverse ++ path = rest.reverse ++ first :: path := by simp
    simp only [List.cons_append, walk, hpath]
    split
    · exact ih _ _
    · exact ih _ _

/-- `findNode` with missing nodes created. -/
theorem findNode_create (matchType : MatchType) (ns : TrackNamespace) :
    (t.findNode ns true matchType).1 = t.create ns.reverse := by
  induction ns using List.reverseRecOn with
  | nil => rfl
  | append_singleton ns name ih =>
    have happend := walk_create_append t [] matchType ns name
    simp only [List.append_nil] at happend
    rw [findNode, happend]
    rw [findNode] at ih
    rw [ih, List.reverse_append]
    rfl

/-- Nodes are the same up to counts, which do not go down. -/
def Raises (t t' : NamespaceTree) : Prop :=
  ∀ p, t'.lookup p = none ∧ t.lookup p = none ∨
    ∃ node count, t.lookup p = some node ∧ node.activeChildCount ≤ count ∧
      t'.lookup p = some { node with activeChildCount := count }

theorem Raises.refl (t : NamespaceTree) : t.Raises t := by
  intro p
  cases h : t.lookup p with
  | none => exact .inl ⟨rfl, rfl⟩
  | some node => exact .inr ⟨node, node.activeChildCount, rfl, Nat.le_refl _, rfl⟩

theorem Raises.of_some (h : t.Raises t') (hp : t'.lookup p = some node') :
    ∃ node, t.lookup p = some node ∧ node.activeChildCount ≤ node'.activeChildCount ∧
      node' = { node with activeChildCount := node'.activeChildCount } := by
  rcases h p with ⟨h', -⟩ | ⟨node, count, h₀, hle, h'⟩
  · rw [hp] at h'
    cases h'
  · rw [hp] at h'
    cases h'
    exact ⟨node, h₀, hle, rfl⟩

theorem Raises.isSome (h : t.Raises t') (p : Path) :
    (t'.lookup p).isSome = (t.lookup p).isSome := by
  rcases h p with ⟨h', h⟩ | ⟨node, count, h, -, h'⟩
  · rw [h, h']
  · rw [h, h']
    rfl

theorem Raises.record (h : t.Raises t') (p : Path) : t'.record p = t.record p := by
  unfold NamespaceTree.record
  rcases h p with ⟨h', h⟩ | ⟨node, count, h, -, h'⟩
  · rw [h, h']
  · rw [h, h']
    rfl

theorem Raises.childNames (h : t.Raises t') (p : Path) : t'.childNames p = t.childNames p := by
  ext name
  simp only [NamespaceTree.childNames, Set.mem_ofPred_eq, h.isSome]

theorem Raises.trans {t'' : NamespaceTree} (h : t.Raises t') (h' : t'.Raises t'') :
    t.Raises t'' := by
  intro p
  rcases h p with ⟨h₁, h₀⟩ | ⟨node, count, h₀, hle, h₁⟩
  · rcases h' p with ⟨h₂, -⟩ | ⟨node, count, h₂, -, -⟩
    · exact .inl ⟨h₂, h₀⟩
    · rw [h₁] at h₂
      cases h₂
  · rcases h' p with ⟨-, h₂⟩ | ⟨node', count', h₂, hle', h₃⟩
    · rw [h₁] at h₂
      cases h₂
    · rw [h₁] at h₂
      cases h₂
      exact .inr ⟨node, count', h₀, Nat.le_trans hle hle', h₃⟩

theorem raises_setCount {count : Nat} (h : t.lookup path = some node)
    (hle : node.activeChildCount ≤ count) :
    t.Raises (t.setNode path { node with activeChildCount := count }) := by
  intro p
  rw [lookup_setNode]
  by_cases hp : p = path
  · subst hp
    exact .inr ⟨node, count, h, hle, by simp⟩
  · rw [if_neg hp]
    exact Raises.refl t p

theorem raises_increment (t : NamespaceTree) (path : Path) :
    t.Raises (t.incrementActiveChildren path) := by
  induction path generalizing t with
  | nil =>
    unfold incrementActiveChildren
    cases h : t.lookup [] with
    | none => exact .refl t
    | some node => exact raises_setCount h (Nat.le_succ _)
  | cons name parent ih =>
    unfold incrementActiveChildren
    cases h : t.lookup (name :: parent) with
    | none => exact .refl t
    | some node =>
      have hset := raises_setCount h (Nat.le_succ node.activeChildCount)
      simp only
      split
      · exact hset.trans (ih _)
      · exact hset

/-- Only nodes on the way up are touched. -/
theorem lookup_increment_of_not_suffix (h : ¬ p <:+ path) :
    (t.incrementActiveChildren path).lookup p = t.lookup p := by
  induction path generalizing t with
  | nil =>
    have hne : p ≠ [] := by
      rintro rfl
      exact h List.suffix_rfl
    unfold incrementActiveChildren
    cases t.lookup [] with
    | none => rfl
    | some node => simp [hne]
  | cons name parent ih =>
    have hne : p ≠ name :: parent := by
      rintro rfl
      exact h List.suffix_rfl
    have hparent : ¬ p <:+ parent := fun hp => h (hp.trans (List.suffix_cons name parent))
    unfold incrementActiveChildren
    cases t.lookup (name :: parent) with
    | none => rfl
    | some node =>
      simp only
      split
      · rw [ih hparent, lookup_setNode, if_neg hne]
      · rw [lookup_setNode, if_neg hne]

/-- What happens on the way up depends on the nodes there only. -/
theorem lookup_increment_congr (h : ∀ p, p <:+ path → t.lookup p = t'.lookup p) (hp : p <:+ path) :
    (t.incrementActiveChildren path).lookup p = (t'.incrementActiveChildren path).lookup p := by
  induction path generalizing t t' with
  | nil =>
    have hroot := h [] List.suffix_rfl
    have : p = [] := List.suffix_nil.mp hp
    subst this
    unfold incrementActiveChildren
    rw [← hroot]
    cases t.lookup [] with
    | none => exact hroot
    | some node => simp
  | cons name parent ih =>
    have hself := h (name :: parent) List.suffix_rfl
    have habove : ∀ node p, p <:+ parent →
        (t.setNode (name :: parent) node).lookup p =
          (t'.setNode (name :: parent) node).lookup p := by
      intro node p hp
      rw [lookup_setNode, lookup_setNode, h p (hp.trans (List.suffix_cons name parent))]
    unfold incrementActiveChildren
    rw [← hself]
    cases t.lookup (name :: parent) with
    | none => exact h p hp
    | some node =>
      simp only
      split
      · rcases List.suffix_cons_iff.mp hp with rfl | hp
        · have hnot : ¬ (name :: parent) <:+ parent := not_suffix_of_cons List.suffix_rfl
          rw [lookup_increment_of_not_suffix hnot, lookup_increment_of_not_suffix hnot]
          simp
        · exact ih (habove _) hp
      · rw [lookup_setNode, lookup_setNode, h p hp]

theorem increment_self (h : t.lookup path = some node) :
    ∃ count, node.activeChildCount < count ∧ (t.incrementActiveChildren path).lookup path =
      some { node with activeChildCount := count } := by
  cases path with
  | nil =>
    unfold incrementActiveChildren
    simp [h]
  | cons name parent =>
    unfold incrementActiveChildren
    rw [h]
    simp only
    split
    · rw [lookup_increment_of_not_suffix (not_suffix_of_cons List.suffix_rfl)]
      simp
    · simp

theorem lookup_increment_setNode (h : ¬ q <:+ path) :
    ((t.setNode q node).incrementActiveChildren path).lookup p =
      if p = q then some node else (t.incrementActiveChildren path).lookup p := by
  by_cases hp : p <:+ path
  · have hne : p ≠ q := by
      rintro rfl
      exact h hp
    rw [if_neg hne]
    refine lookup_increment_congr ?_ hp
    intro p' hp'
    rw [lookup_setNode, if_neg]
    rintro rfl
    exact h hp'
  · rw [lookup_increment_of_not_suffix hp, lookup_increment_of_not_suffix hp, lookup_setNode]

/-- No node has more children than it counts. -/
def Counted (t : NamespaceTree) : Prop :=
  ∀ ⦃path node⦄, t.lookup path = some node → (t.childNames path).ncard ≤ node.activeChildCount

theorem Raises.counted (h : t.Raises t') (hc : t.Counted) : t'.Counted := by
  intro p node' hp
  rw [h.childNames]
  obtain ⟨node, h₀, hle, -⟩ := h.of_some hp
  exact Nat.le_trans (hc h₀) hle

theorem childNames_setNode_parent (t : NamespaceTree) (name : String) (path : Path)
    (node : NamespaceNode) :
    (t.setNode (name :: path) node).childNames path = insert name (t.childNames path) := by
  ext name'
  by_cases h : name' = name <;> simp [childNames, h]

theorem childNames_setNode_other (node : NamespaceNode) (h : p ≠ path) :
    (t.setNode (name :: path) node).childNames p = t.childNames p := by
  simp [childNames, h]

theorem WF.childNames_eq_empty (h : t.WF) (hnone : t.lookup path = none) :
    t.childNames path = ∅ := by
  ext name
  simp only [childNames, Set.mem_ofPred_eq, Set.mem_empty_iff_false, iff_false]
  intro hname
  have := h.parent hname
  rw [hnone] at this
  cases this

/-- All nodes but a new leaf have a count that fits the number of their children. -/
def CountsBy (R : Nat → Nat → Prop) (t : NamespaceTree) (leaf : Path) : Prop :=
  ∀ ⦃p node⦄, p ≠ leaf → t.lookup p = some node →
    R (t.childNames p).ncard node.activeChildCount

/-- The tree with a new node, which its parent counts. -/
def graft (t : NamespaceTree) (name : String) (path : Path) (node : NamespaceNode) :
    NamespaceTree :=
  ((t.create (name :: path)).setNode (name :: path) node).incrementActiveChildren path

section Counts

variable {R : Nat → Nat → Prop}

theorem childNames_congr (heq : ∀ p, t'.lookup p = t.lookup p) (p : Path) :
    t'.childNames p = t.childNames p := by
  ext name
  simp only [childNames, Set.mem_ofPred_eq, heq]

theorem CountsBy.congr (h : t.CountsBy R path) (heq : ∀ p, t'.lookup p = t.lookup p) :
    t'.CountsBy R path := by
  intro p node hne hp
  rw [childNames_congr heq]
  rw [heq] at hp
  exact h hne hp

/-- A node with its new child, which it counts. -/
theorem countsBy_new_child (hc : ∀ ⦃p node⦄, p ≠ name :: path → t.lookup p = some node →
      R ((t.childNames p).ncard + (if p = path then 1 else 0)) node.activeChildCount)
    (hnone : t.lookup (name :: path) = none) :
    (t.setNode (name :: path) node).CountsBy R (name :: path) := by
  intro p node' hne hp
  rw [lookup_setNode, if_neg hne] at hp
  have hR := hc hne hp
  by_cases hpath : p = path
  · subst hpath
    have hnew : name ∉ t.childNames p := by
      intro hname
      rw [childNames, Set.mem_ofPred_eq, hnone] at hname
      cases hname
    rw [if_pos rfl] at hR
    rwa [childNames_setNode_parent, Set.ncard_insert_of_notMem hnew (t.finite_childNames p)]
  · rw [childNames_setNode_other node hpath]
    rwa [if_neg hpath, Nat.add_zero] at hR

/-- A new node whose parent was there. -/
theorem WF.countsBy_new (h : t.WF) (hnone : t.lookup (name :: path) = none)
    (hpath : (t.lookup path).isSome) (node : NamespaceNode)
    (hcounts : ∀ ⦃p node'⦄, (t.incrementActiveChildren path).lookup p = some node' →
      R ((t.childNames p).ncard + (if p = path then 1 else 0)) node'.activeChildCount) :
    (t.graft name path node).CountsBy R (name :: path) := by
  have hnot : ¬ (name :: path) <:+ path := not_suffix_of_cons List.suffix_rfl
  have hraises : t.Raises (t.incrementActiveChildren path) := raises_increment t path
  have hcreate : t.create (name :: path) = t.addNode (name :: path) := by
    simp [create, create_eq_self h hpath, hnone]
  refine CountsBy.congr (t := (t.incrementActiveChildren path).setNode (name :: path) node)
    (countsBy_new_child ?_ ?_) ?_
  · intro p node' _ hnode'
    rw [hraises.childNames]
    exact hcounts hnode'
  · rw [lookup_increment_of_not_suffix hnot, hnone]
  · intro p
    rw [graft, lookup_increment_setNode hnot, lookup_setNode, hcreate]
    split
    · rfl
    · next hp =>
      by_cases hsuffix : p <:+ path
      · refine lookup_increment_congr ?_ hsuffix
        intro p' hp'
        rw [lookup_addNode, if_neg]
        rintro rfl
        exact hnot hp'
      · rw [lookup_increment_of_not_suffix hsuffix, lookup_increment_of_not_suffix hsuffix,
          lookup_addNode, if_neg hp]

/-- A new node with its missing ancestors, counted up to the first ancestor that was there. -/
theorem WF.countsBy_created (h : t.WF) (hone : R 1 1)
    (hcounts : ∀ ⦃path p node'⦄, (t.lookup path).isSome →
      (t.incrementActiveChildren path).lookup p = some node' →
      R ((t.childNames p).ncard + (if p = path then 1 else 0)) node'.activeChildCount)
    (hnone : t.lookup (name :: path) = none) (node : NamespaceNode) :
    (t.graft name path node).CountsBy R (name :: path) := by
  induction path generalizing name node with
  | nil => exact h.countsBy_new hnone h.root node fun _ _ => hcounts h.root
  | cons parentName above ih =>
    by_cases hpath : (t.lookup (parentName :: above)).isSome
    · exact h.countsBy_new hnone hpath node fun _ _ => hcounts hpath
    · have hparent : t.lookup (parentName :: above) = none := by simpa using hpath
      obtain ⟨id, hid⟩ := lookup_create_new hparent List.suffix_rfl (List.cons_ne_nil _ _)
      have hnot : ¬ (name :: parentName :: above) <:+ above :=
        not_suffix_of_cons (List.suffix_cons parentName above)
      have hnot' : ¬ (parentName :: above) <:+ above := not_suffix_of_cons List.suffix_rfl
      have hne : parentName :: above ≠ name :: parentName :: above := by
        intro heq
        have := congrArg List.length heq
        simp at this
      have hcreate : t.create (name :: parentName :: above) =
          (t.create (parentName :: above)).addNode (name :: parentName :: above) := by
        have hleaf : (t.create (parentName :: above)).lookup (name :: parentName :: above) =
            none := by
          rw [lookup_create_of_not_suffix (not_suffix_of_cons List.suffix_rfl), hnone]
        rw [create, hleaf]
        rfl
      -- the parent is new too: it gets its first child and is counted in turn
      let counted : NamespaceNode := { id := id, activeChildCount := 1 }
      let t₀ := (t.create (parentName :: above)).setNode (parentName :: above) counted
      have hcounted : (t₀.incrementActiveChildren above).CountsBy R (parentName :: above) :=
        ih hparent counted
      have hraises : t₀.Raises (t₀.incrementActiveChildren above) := raises_increment t₀ above
      have hleaf : (t₀.incrementActiveChildren above).lookup (name :: parentName :: above) =
          none := by
        rw [lookup_increment_of_not_suffix hnot, lookup_setNode, if_neg hne.symm,
          lookup_create_of_not_suffix (not_suffix_of_cons List.suffix_rfl), hnone]
      have hchildren : (t₀.incrementActiveChildren above).childNames (parentName :: above) = ∅ := by
        rw [hraises.childNames, childNames_setNode_other counted (by simp),
          ← h.childNames_eq_empty hparent]
        ext name'
        simp only [childNames, Set.mem_ofPred_eq]
        rw [lookup_create_of_not_suffix (not_suffix_of_cons List.suffix_rfl)]
      have hself : (t₀.incrementActiveChildren above).lookup (parentName :: above) =
          some counted := by
        rw [lookup_increment_of_not_suffix hnot', lookup_setNode, if_pos rfl]
      refine CountsBy.congr
        (t := (t₀.incrementActiveChildren above).setNode (name :: parentName :: above) node)
        (countsBy_new_child ?_ hleaf) ?_
      · intro p node' hp hnode'
        by_cases hpp : p = parentName :: above
        · subst hpp
          rw [hself] at hnode'
          cases hnode'
          rw [hchildren, Set.ncard_empty, if_pos rfl]
          exact hone
        · rw [if_neg hpp]
          exact hcounted hpp hnode'
      · intro p
        have hstep : ((t.create (name :: parentName :: above)).setNode
            (name :: parentName :: above) node).incrementActiveChildren (parentName :: above) =
            (((t.create (name :: parentName :: above)).setNode (name :: parentName :: above)
              node).setNode (parentName :: above) counted).incrementActiveChildren above := by
          rw [incrementActiveChildren]
          rw [lookup_setNode, if_neg hne, hcreate, lookup_addNode, if_neg hne, hid]
          rfl
        rw [graft, hstep, lookup_setNode]
        by_cases hsuffix : p <:+ above
        · rw [if_neg (by
            rintro rfl
            exact hnot hsuffix)]
          refine lookup_increment_congr ?_ hsuffix
          intro p' hp'
          have hp'ne : p' ≠ name :: parentName :: above := by
            rintro rfl
            exact hnot hp'
          simp [t₀, hcreate, hp'ne]
        · rw [lookup_increment_of_not_suffix hsuffix, lookup_increment_of_not_suffix hsuffix]
          by_cases hp : p = name :: parentName :: above
          · subst hp
            simp
          · simp [t₀, hcreate, hp]

/-- A new leaf has no children. -/
theorem childNames_created (h : t.WF) (hnone : t.lookup (name :: path) = none)
    (node : NamespaceNode) : (t.graft name path node).childNames (name :: path) = ∅ := by
  rw [graft, (raises_increment _ path).childNames, childNames_setNode_other node (by simp),
    ← h.childNames_eq_empty hnone]
  ext name'
  simp only [childNames, Set.mem_ofPred_eq]
  rw [lookup_create_of_not_suffix (not_suffix_of_cons List.suffix_rfl)]

end Counts

theorem Counted.congr (h : t.Counted) (heq : ∀ p, t'.lookup p = t.lookup p) : t'.Counted := by
  intro p node hp
  rw [childNames_congr heq]
  rw [heq] at hp
  exact h hp

theorem WF.counted_created (h : t.WF) (hnone : t.lookup (name :: path) = none)
    (node : NamespaceNode) : (t.graft name path node).Counted := by
  have hcounts : ∀ ⦃path p node'⦄, (t.lookup path).isSome →
      (t.incrementActiveChildren path).lookup p = some node' →
      (t.childNames p).ncard + (if p = path then 1 else 0) ≤ node'.activeChildCount := by
    intro path p node' hpath hnode'
    by_cases hpp : p = path
    · subst hpp
      obtain ⟨parent, hparent⟩ := Option.isSome_iff_exists.mp hpath
      obtain ⟨count, hlt, hself⟩ := increment_self hparent
      rw [hself] at hnode'
      cases hnode'
      rw [if_pos rfl]
      exact Nat.lt_of_le_of_lt (h.counted hparent) hlt
    · rw [if_neg hpp]
      obtain ⟨node₀, h₀, hle, -⟩ := (raises_increment t path).of_some hnode'
      exact Nat.le_trans (h.counted h₀) hle
  intro p node' hp
  by_cases hleaf : p = name :: path
  · subst hleaf
    rw [childNames_created h hnone, Set.ncard_empty]
    exact Nat.zero_le _
  · exact h.countsBy_created (R := (· ≤ ·)) (Nat.le_refl 1) hcounts hnone node hleaf hp

/-- Nothing recorded is lost, and the nodes that are left differ in their counts only. -/
structure Prunes (t t' : NamespaceTree) : Prop where
  record : ∀ p, t'.record p = t.record p
  kept : ∀ ⦃p node'⦄, t'.lookup p = some node' →
    ∃ node, t.lookup p = some node ∧ node' = { node with
      activeChildCount := node'.activeChildCount }

theorem Prunes.refl (t : NamespaceTree) : t.Prunes t :=
  ⟨fun _ => rfl, fun _ node h => ⟨node, h, rfl⟩⟩

theorem Prunes.trans {t'' : NamespaceTree} (h : t.Prunes t') (h' : t'.Prunes t'') :
    t.Prunes t'' := by
  refine ⟨fun p => (h'.record p).trans (h.record p), ?_⟩
  intro p node'' hp
  obtain ⟨node', hp', heq'⟩ := h'.kept hp
  obtain ⟨node, hp, heq⟩ := h.kept hp'
  refine ⟨node, hp, ?_⟩
  rw [heq', heq]

theorem Raises.prunes (h : t.Raises t') : t.Prunes t' := by
  refine ⟨h.record, ?_⟩
  intro p node' hp
  obtain ⟨node, h₀, -, heq⟩ := h.of_some hp
  exact ⟨node, h₀, heq⟩

theorem prunes_setCount {count : Nat} (h : t.lookup path = some node) :
    t.Prunes (t.setNode path { node with activeChildCount := count }) := by
  constructor
  · intro p
    unfold NamespaceTree.record
    rw [lookup_setNode]
    split
    · next hp =>
      rw [hp, h]
      rfl
    · rfl
  · intro p node' hp
    rw [lookup_setNode] at hp
    split at hp
    · next hpath =>
      cases hp
      exact ⟨node, by rw [hpath, h], rfl⟩
    · exact ⟨node', hp, rfl⟩

theorem prunes_eraseSubtree (h : ∀ p, path <:+ p → t.record p = {}) :
    t.Prunes (t.eraseSubtree path) := by
  constructor
  · intro p
    by_cases hp : path <:+ p
    · rw [h p hp]
      simp [NamespaceTree.record, hp]
    · simp [NamespaceTree.record, hp]
  · intro p node' hp
    rw [lookup_eraseSubtree] at hp
    split at hp
    · cases hp
    · exact ⟨node', hp, rfl⟩

theorem childNames_setNode_of_some (node' : NamespaceNode) (h : t.lookup path = some node) :
    (t.setNode path node').childNames p = t.childNames p := by
  ext name
  simp only [childNames, Set.mem_ofPred_eq, lookup_setNode]
  split
  · next hp =>
    rw [hp, h]
    exact Iff.rfl
  · exact Iff.rfl

/-- Everything but the subtree that is to go is in order, and there nothing is recorded. -/
structure Dropping (t : NamespaceTree) (nodeToRemove : Path) : Prop where
  root : (t.lookup []).isSome
  parent : ∀ ⦃name path⦄, (t.lookup (name :: path)).isSome → (t.lookup path).isSome
  counted : ∀ ⦃p node⦄, t.lookup p = some node → ¬ nodeToRemove <:+ p →
    (t.childNames p).ncard ≤ node.activeChildCount
  present : (t.lookup nodeToRemove).isSome
  empty : ∀ p, nodeToRemove <:+ p → t.record p = {}

/-- The subtree goes, and its parent counts one child less. -/
theorem Dropping.erase (h : t.Dropping (name :: path)) (hp : t.lookup path = some node) :
    ((t.setNode path { node with
      activeChildCount := node.activeChildCount - 1 }).eraseSubtree (name :: path)).WF := by
  have hnot : ¬ (name :: path) <:+ path := not_suffix_of_cons List.suffix_rfl
  have hsub : ∀ p, ((t.setNode path { node with
      activeChildCount := node.activeChildCount - 1 }).eraseSubtree (name :: path)).childNames p ⊆
        t.childNames p := by
    intro p name' hname
    simp only [childNames, Set.mem_ofPred_eq, lookup_eraseSubtree] at hname ⊢
    split at hname
    · cases hname
    · rw [lookup_setNode] at hname
      split at hname
      · next heq =>
        rw [heq, hp]
        rfl
      · exact hname
  refine ⟨?_, ?_, ?_⟩
  · rw [lookup_eraseSubtree, if_neg (by
      intro hs
      simp at hs), lookup_setNode]
    split
    · rfl
    · exact h.root
  · intro name' above hchild
    rw [lookup_eraseSubtree] at hchild ⊢
    split at hchild
    · cases hchild
    · next hs =>
      rw [if_neg fun hs' => hs (hs'.trans (List.suffix_cons name' above))]
      exact Closed.setNode h.parent (Option.isSome_of_eq_some hp) hchild
  · intro p node' hnode'
    rw [lookup_eraseSubtree] at hnode'
    split at hnode'
    · cases hnode'
    · next hs =>
      rw [lookup_setNode] at hnode'
      split at hnode'
      · next heq =>
        subst heq
        cases hnode'
        have hmem : name ∈ t.childNames p := h.present
        have hdiff := Set.ncard_le_ncard (t := t.childNames p \ {name}) (s := childNames
          ((t.setNode p { node with
            activeChildCount := node.activeChildCount - 1 }).eraseSubtree (name :: p)) p) (by
          intro name' hname
          refine ⟨hsub p hname, ?_⟩
          rintro rfl
          simp [childNames] at hname) ((t.finite_childNames p).sdiff)
        rw [Set.ncard_sdiff_singleton_of_mem hmem] at hdiff
        have := h.counted hp hnot
        simp only
        omega
      · exact Nat.le_trans (Set.ncard_le_ncard (hsub p) (t.finite_childNames p))
          (h.counted hnode' hs)

/-- One level up: the parent had no other child and records nothing itself. -/
theorem Dropping.up {parentName : String} (h : t.Dropping (name :: parentName :: path))
    (hp : t.lookup (parentName :: path) = some node) (hone : node.activeChildCount = 1)
    (hcontent : node.hasContent = false) :
    (t.setNode (parentName :: path) { node with activeChildCount := 0 }).Dropping
      (parentName :: path) := by
  have hprunes : t.Prunes (t.setNode (parentName :: path) { node with activeChildCount := 0 }) :=
    prunes_setCount hp
  refine ⟨?_, Closed.setNode h.parent (Option.isSome_of_eq_some hp), ?_, ?_, ?_⟩
  · rw [lookup_setNode, if_neg (by simp)]
    exact h.root
  · intro p node' hnode' hs
    rw [childNames_setNode_of_some _ hp]
    rw [lookup_setNode, if_neg (by
      rintro rfl
      exact hs List.suffix_rfl)] at hnode'
    exact h.counted hnode' fun hs' => hs ((List.suffix_cons name _).trans hs')
  · rw [lookup_setNode, if_pos rfl]
    rfl
  · intro p hs
    rw [hprunes.record]
    by_cases hself : p = parentName :: path
    · subst hself
      unfold NamespaceTree.record
      rw [hp]
      exact NamespaceNode.record_eq_empty hcontent
    · by_cases hbelow : name :: parentName :: path <:+ p
      · exact h.empty p hbelow
      · -- a node below the parent but not below the child to remove would be a second child
        unfold NamespaceTree.record
        cases hl : t.lookup p with
        | none => rfl
        | some found =>
          exfalso
          obtain ⟨other, hother⟩ := child_of_suffix hs hself
          have hcard := h.counted hp (not_suffix_of_cons List.suffix_rfl)
          rw [hone, Set.ncard_le_one (t.finite_childNames _)] at hcard
          have heq : other = name :=
            hcard other (Closed.suffix h.parent (Option.isSome_of_eq_some hl) hother) name h.present
          subst heq
          exact hbelow hother

theorem Dropping.positive (h : t.Dropping (name :: path)) (hp : t.lookup path = some node) :
    node.activeChildCount ≠ 0 := by
  have hcard := h.counted hp (not_suffix_of_cons List.suffix_rfl)
  have hchild : 0 < (t.childNames path).ncard :=
    (Set.ncard_pos (t.finite_childNames path)).mpr ⟨name, h.present⟩
  omega

/-- The walk of `tryPruneChild` goes up while nothing is left of a node, and erases the subtree that
it has come to. -/
theorem pruneFrom_spec {D : NamespaceTree → Path → Prop} (hD : ∀ t path, D t path → t.Dropping path)
    (hup : ∀ ⦃t name parentName above node⦄, D t (name :: parentName :: above) →
      t.lookup (parentName :: above) = some node → node.activeChildCount = 1 →
      node.hasContent = false →
      D (t.setNode (parentName :: above) { node with activeChildCount := 0 }) (parentName :: above))
    (h : D t (name :: path)) :
    ∃ u last above node, t.Prunes u ∧ D u (last :: above) ∧ u.lookup above = some node ∧
      (above ≠ [] → NamespaceNode.shouldKeep { node with
        activeChildCount := node.activeChildCount - 1 } = true) ∧
      t.pruneFrom (name :: path) path = .ok ((u.setNode above { node with
        activeChildCount := node.activeChildCount - 1 }).eraseSubtree (last :: above)) := by
  induction path generalizing t name with
  | nil =>
    have hdrop := hD _ _ h
    obtain ⟨root, hroot⟩ := Option.isSome_iff_exists.mp hdrop.root
    refine ⟨t, name, [], root, .refl t, h, hroot, fun hne => absurd rfl hne, ?_⟩
    unfold pruneFrom
    simp only [hroot, if_neg (hdrop.positive hroot), ite_self]
  | cons parentName above ih =>
    have hdrop := hD _ _ h
    obtain ⟨parent, hparent⟩ := Option.isSome_iff_exists.mp (hdrop.parent hdrop.present)
    have hpos := hdrop.positive hparent
    unfold pruneFrom
    simp only [hparent, if_neg hpos]
    split
    · next hkeep => exact ⟨t, name, _, parent, .refl t, h, hparent, fun _ => hkeep, rfl⟩
    · next hkeep =>
      -- nothing is left of the parent: it goes too, and its own parent is next
      simp only [NamespaceNode.shouldKeep, Bool.or_eq_true, decide_eq_true_eq, not_or,
        Bool.not_eq_true] at hkeep
      have hone : parent.activeChildCount = 1 := by omega
      have hzero : parent.activeChildCount - 1 = 0 := by omega
      rw [hzero]
      obtain ⟨u, last, above', node, hprunes, hrest⟩ := ih (hup h hparent hone hkeep.1)
      exact ⟨u, last, above', node, (prunes_setCount hparent).trans hprunes, hrest⟩

theorem Dropping.prune (h : t.Dropping (name :: path)) :
    ∃ t', t.pruneFrom (name :: path) path = .ok t' ∧ t'.WF ∧ t.Prunes t' := by
  obtain ⟨u, last, above, node, hprunes, hu, hnode, -, heq⟩ :=
    pruneFrom_spec (fun _ _ => id) (fun _ _ _ _ _ hd => hd.up) h
  have hset : u.Prunes (u.setNode above { node with
    activeChildCount := node.activeChildCount - 1 }) := prunes_setCount hnode
  refine ⟨_, heq, hu.erase hnode, hprunes.trans (hset.trans (prunes_eraseSubtree ?_))⟩
  intro p hs
  rw [hset.record]
  exact hu.empty p hs

theorem WF.setNode (h : t.WF) (hp : t.lookup path = some node)
    (hcount : node'.activeChildCount = node.activeChildCount) : (t.setNode path node').WF := by
  refine ⟨?_, Closed.setNode h.parent (Option.isSome_of_eq_some hp), ?_⟩
  · rw [lookup_setNode]
    split
    · rfl
    · exact h.root
  · intro p found hfound
    rw [childNames_setNode_of_some node' hp]
    rw [lookup_setNode] at hfound
    split at hfound
    · next heq =>
      subst heq
      cases hfound
      rw [hcount]
      exact h.counted hp
    · exact h.counted hfound

theorem Raises.wf (h : t.Raises t') (hroot : (t.lookup []).isSome)
    (hparent : ∀ ⦃name path⦄, (t.lookup (name :: path)).isSome → (t.lookup path).isSome)
    (hcounted : t'.Counted) : t'.WF := by
  refine ⟨?_, ?_, hcounted⟩
  · rw [h.isSome]
    exact hroot
  · intro name path hchild
    rw [h.isSome] at hchild ⊢
    exact hparent hchild

/-- A node of which nothing is left to keep can go. -/
theorem WF.dropping (h : t.WF) (hp : t.lookup path = some node)
    (hcount : node'.activeChildCount = node.activeChildCount) (hkeep : node'.shouldKeep = false) :
    (t.setNode path node').Dropping path := by
  simp only [NamespaceNode.shouldKeep, Bool.or_eq_false_iff, decide_eq_false_iff_not] at hkeep
  obtain ⟨hcontent, hzero⟩ := hkeep
  have hset : (t.setNode path node').WF := h.setNode hp hcount
  have hself : (t.setNode path node').lookup path = some node' := by simp
  have hempty : (t.setNode path node').childNames path = ∅ := by
    have hle := hset.counted hself
    rw [← Set.ncard_eq_zero (finite_childNames _ _)]
    omega
  refine ⟨hset.root, hset.parent, fun p found hfound _ => hset.counted hfound,
    by rw [hself]; rfl, ?_⟩
  intro p hs
  by_cases hself' : p = path
  · subst hself'
    rw [record, hself]
    exact NamespaceNode.record_eq_empty hcontent
  · cases hl : (t.setNode path node').lookup p with
    | none => rw [record, hl]; rfl
    | some found =>
      obtain ⟨child, hchild⟩ := child_of_suffix hs hself'
      have hmem : child ∈ (t.setNode path node').childNames path :=
        hset.suffix (Option.isSome_of_eq_some hl) hchild
      rw [hempty] at hmem
      cases hmem

/-- A change of a node in the tree. -/
theorem WF.mutate {change : NamespaceNode → NamespaceNode} (h : t.WF)
    (hp : t.lookup path = some node)
    (hcount : (change node).activeChildCount = node.activeChildCount)
    (hm : t.mutate path change = .ok t') : t'.WF ∧ (t.setNode path (change node)).Prunes t' := by
  have hset : (t.setNode path (change node)).WF := h.setNode hp hcount
  have hself : (t.setNode path (change node)).lookup path = some (change node) := by simp
  cases path with
  | nil =>
    have ht' : t' = t.setNode [] (change node) := by
      simp only [NamespaceTree.mutate, hp, notifyParentIfFirstContent, tryPruneSelf, ite_self] at hm
      cases hm
      rfl
    subst ht'
    exact ⟨hset, .refl _⟩
  | cons name parent =>
    cases hhad : node.hasContent with
    | false =>
      have ht' : t' = t.setNode (name :: parent) (change node) ∨
          t' = (t.setNode (name :: parent) (change node)).incrementActiveChildren parent := by
        simp only [NamespaceTree.mutate, hp, hhad, notifyParentIfFirstContent, tryPruneSelf,
          Bool.false_and, Bool.false_eq_true, if_false] at hm
        cases hm
        split
        · exact .inr rfl
        · exact .inl rfl
      rcases ht' with rfl | rfl
      · exact ⟨hset, .refl _⟩
      · have hraises := raises_increment (t.setNode (name :: parent) (change node)) parent
        exact ⟨hraises.wf hset.root hset.parent (hraises.counted hset.counted), hraises.prunes⟩
    | true =>
      simp only [NamespaceTree.mutate, hp, hhad, notifyParentIfFirstContent, tryPruneSelf,
        Bool.not_true, Bool.false_and, Bool.true_and, Bool.false_eq_true, if_false] at hm
      cases hkeep : (change node).shouldKeep with
      | true =>
        simp only [hkeep, Bool.not_true, Bool.false_eq_true, if_false] at hm
        cases hm
        exact ⟨hset, .refl _⟩
      | false =>
        simp only [hkeep, Bool.not_false, if_true, tryPruneChild, hself, Bool.false_eq_true,
          if_false] at hm
        obtain ⟨_, heq, hpruned⟩ := (h.dropping hp hcount hkeep).prune
        rw [heq] at hm
        cases hm
        exact hpruned

theorem WF.parent_create (h : t.WF) {name : String} {p : Path}
    (hchild : ((t.create path).lookup (name :: p)).isSome) : ((t.create path).lookup p).isSome := by
  cases hp : t.lookup p with
  | some node =>
    rw [lookup_create_of_some hp]
    rfl
  | none =>
    have hchild' : t.lookup (name :: p) = none := by
      cases hl : t.lookup (name :: p) with
      | none => rfl
      | some node =>
        have := h.parent (by rw [hl]; rfl : (t.lookup (name :: p)).isSome)
        rw [hp] at this
        cases this
    have hsuffix : name :: p <:+ path := by
      by_contra hs
      rw [lookup_create_of_not_suffix hs, hchild'] at hchild
      cases hchild
    have hne : p ≠ [] := by
      rintro rfl
      have := h.root
      rw [hp] at this
      cases this
    obtain ⟨id, hid⟩ := lookup_create_new hp ((List.suffix_cons name p).trans hsuffix) hne
    rw [hid]
    rfl

theorem WF.congr (h : t.WF) (heq : ∀ p, t'.lookup p = t.lookup p) : t'.WF := by
  refine ⟨?_, ?_, Counted.congr h.counted heq⟩
  · rw [heq]
    exact h.root
  · intro name path hchild
    rw [heq] at hchild ⊢
    exact h.parent hchild

theorem lookup_increment_eq (h : ∀ p, t'.lookup p = t.lookup p) (p : Path) :
    (t'.incrementActiveChildren path).lookup p = (t.incrementActiveChildren path).lookup p := by
  by_cases hp : p <:+ path
  · exact lookup_increment_congr (fun p _ => h p) hp
  · rw [lookup_increment_of_not_suffix hp, lookup_increment_of_not_suffix hp, h]

/-- A change that gives content to a node, which may be new. -/
theorem WF.mutate_create {u : NamespaceTree} {change : NamespaceNode → NamespaceNode} (h : t.WF)
    (hu : ∀ p, u.lookup p = (t.create path).lookup p) (hp : u.lookup path = some node)
    (hcount : (change node).activeChildCount = node.activeChildCount)
    (hcontent : (change node).hasContent = true) (hm : u.mutate path change = .ok t') :
    t'.WF ∧ (u.setNode path (change node)).Prunes t' := by
  cases hold : t.lookup path with
  | some found =>
    rw [create_eq_self h (by rw [hold]; rfl)] at hu
    exact (h.congr hu).mutate hp hcount hm
  | none =>
    cases path with
    | nil =>
      have := h.root
      rw [hold] at this
      cases this
    | cons name parent =>
      obtain ⟨id, hid⟩ := lookup_create_new hold List.suffix_rfl (List.cons_ne_nil _ _)
      rw [← hu, hp] at hid
      cases hid
      have hnew : NamespaceNode.hasContent { id := id } = false := rfl
      simp only [NamespaceTree.mutate, hp, hnew, notifyParentIfFirstContent, tryPruneSelf, hcontent,
        Bool.not_false, Bool.and_self, Bool.false_and, Bool.false_eq_true, if_true,
        if_false] at hm
      cases hm
      have hraises := raises_increment (u.setNode (name :: parent) (change { id := id })) parent
      refine ⟨hraises.wf ?_ ?_ ?_, hraises.prunes⟩
      · rw [lookup_setNode, if_neg (by simp), hu]
        obtain ⟨root, hroot⟩ := Option.isSome_iff_exists.mp h.root
        rw [lookup_create_of_some hroot]
        rfl
      · refine Closed.setNode ?_ (Option.isSome_of_eq_some hp)
        intro name' above hchild
        rw [hu] at hchild ⊢
        exact h.parent_create hchild
      · refine (h.counted_created hold (change { id := id })).congr (lookup_increment_eq ?_)
        intro p
        rw [lookup_setNode, lookup_setNode, hu]

/-- The tree after a change of one record. -/
structure Edits (t t' : NamespaceTree) (path : Path) (changed : NamespaceRecord) : Prop where
  wf : t'.WF
  record : ∀ p, t'.record p = if p = path then changed else t.record p
  ranking : ∀ p, (t'.lookup p).isSome → ∀ propertyType,
    t'.ranking p propertyType = t.ranking p propertyType

theorem record_setNode (p : Path) :
    (t.setNode path node).record p = if p = path then node.record else t.record p := by
  unfold record
  rw [lookup_setNode]
  split
  · rfl
  · rfl

theorem ranking_create (t : NamespaceTree) (path p : Path) (propertyType : Nat) :
    (t.create path).ranking p propertyType = t.ranking p propertyType :=
  observe_create (f := fun node => node.bind fun node => node.rankings.lookup propertyType)
    (fun _ => rfl) t path p

/-- A node keeps its rankings through a change of its record. -/
theorem Prunes.edits {u : NamespaceTree} (hprunes : (u.setNode path node').Prunes t') (hwf : t'.WF)
    (hrecord : ∀ p, p ≠ path → u.record p = t.record p) (hp : u.lookup path = some node)
    (hrankings : node'.rankings = node.rankings)
    (hranking : ∀ p propertyType, u.ranking p propertyType = t.ranking p propertyType) :
    t.Edits t' path node'.record := by
  refine ⟨hwf, ?_, ?_⟩
  · intro p
    rw [hprunes.record, record_setNode]
    split
    · rfl
    · next hne => exact hrecord p hne
  · intro p hsome propertyType
    obtain ⟨found, hfound⟩ := Option.isSome_iff_exists.mp hsome
    obtain ⟨before, hbefore, heq⟩ := hprunes.kept hfound
    have hsame : t'.ranking p propertyType = u.ranking p propertyType := by
      unfold ranking
      rw [hfound, heq]
      rw [lookup_setNode] at hbefore
      split at hbefore
      · next hpath =>
        cases hbefore
        rw [hpath, hp]
        simp [hrankings]
      · rw [hbefore]
        rfl
    rw [hsame, hranking]

end NamespaceTree

end Moqx
