import Moqx.Relay.FlatMap
import Moqx.Lib.Runs

/-! The counts of active children. A node is counted by its parent when it gets its first content
or its first active child. A node that gets content while it has active children is counted a
second time, and so is a node whose publisher is replaced, if it has nothing else. Where neither
happens, the counts are exact and no node outlives the content of its subtree. -/
namespace Moqx

open Maps Runs

namespace NamespaceTree

variable {t t' : NamespaceTree} {path p : Path} {node node' : NamespaceNode} {name : String}
  {change : NamespaceNode → NamespaceNode}

/-- A node counts no more than the children it has, and every node but the root has content or
children. -/
structure Exact (t : NamespaceTree) : Prop extends t.WF where
  tight : ∀ ⦃path node⦄, t.lookup path = some node →
    node.activeChildCount ≤ (t.childNames path).ncard
  kept : ∀ ⦃name path node⦄, t.lookup (name :: path) = some node → node.shouldKeep = true

theorem Exact.count (h : t.Exact) (hp : t.lookup path = some node) :
    node.activeChildCount = (t.childNames path).ncard :=
  Nat.le_antisymm (h.tight hp) (h.counted hp)

theorem exact_start : ({} : NamespaceTree).Exact where
  toWF := wf_start
  tight := by
    intro path node hp
    rw [lookup_start] at hp
    split at hp <;> cases hp
    exact Nat.zero_le _
  kept := by
    intro name path node hp
    simp [lookup_start] at hp

theorem Exact.setNode (h : t.Exact) (hp : t.lookup path = some node)
    (hcount : node'.activeChildCount = node.activeChildCount)
    (hkeep : path ≠ [] → node'.shouldKeep = true) : (t.setNode path node').Exact where
  toWF := h.toWF.setNode hp hcount
  tight := by
    intro p found hfound
    rw [childNames_setNode_of_some node' hp]
    rw [lookup_setNode] at hfound
    split at hfound
    · next heq =>
      subst heq
      cases hfound
      rw [hcount]
      exact h.tight hp
    · exact h.tight hfound
  kept := by
    intro name above found hfound
    rw [lookup_setNode] at hfound
    split at hfound
    · next heq =>
      cases hfound
      exact hkeep (heq ▸ List.cons_ne_nil _ _)
    · exact h.kept hfound

theorem Exact.congr (h : t.Exact) (heq : ∀ p, t'.lookup p = t.lookup p) : t'.Exact where
  toWF := h.toWF.congr heq
  tight := by
    intro p node hp
    rw [childNames_congr heq]
    rw [heq] at hp
    exact h.tight hp
  kept := by
    intro name path node hp
    rw [heq] at hp
    exact h.kept hp

section Counting

/-- A node that is kept already has been counted, so nothing above it changes. -/
theorem Exact.lookup_increment (h : t.Exact) (hp : t.lookup path = some node) (p : Path) :
    (t.incrementActiveChildren path).lookup p =
      if p = path then some { node with activeChildCount := node.activeChildCount + 1 }
      else t.lookup p := by
  cases path with
  | nil =>
    unfold incrementActiveChildren
    simp only [hp, lookup_setNode]
  | cons name parent =>
    have hkeep := h.kept hp
    have hstop : ¬ (node.activeChildCount + 1 = 1 ∧ (!node.hasContent) = true) := by
      rintro ⟨hzero, hempty⟩
      simp only [NamespaceNode.shouldKeep, Bool.or_eq_true, decide_eq_true_eq] at hkeep
      rcases hkeep with hcontent | hpos
      · rw [hcontent] at hempty
        cases hempty
      · omega
    unfold incrementActiveChildren
    simp only [hp]
    split
    · next hgo => exact absurd hgo hstop
    · rw [lookup_setNode]

theorem Raises.shouldKeep (h : t.Raises t') (hp : t.lookup p = some node)
    (hp' : t'.lookup p = some node') (hkeep : node.shouldKeep = true) :
    node'.shouldKeep = true := by
  obtain ⟨found, hfound, hle, heq⟩ := h.of_some hp'
  rw [hp] at hfound
  cases hfound
  rw [heq]
  simp only [NamespaceNode.shouldKeep, Bool.or_eq_true, decide_eq_true_eq] at hkeep ⊢
  rcases hkeep with hcontent | hpos
  · exact .inl hcontent
  · exact .inr (Nat.lt_of_lt_of_le hpos hle)

/-- A new node with content, and its missing ancestors. -/
theorem Exact.created (h : t.Exact) (hnone : t.lookup (name :: path) = none)
    (hcontent : node.hasContent = true) (hzero : node.activeChildCount = 0)
    (hwf : (t.graft name path node).WF) : (t.graft name path node).Exact := by
  have hraises : NamespaceTree.Raises _ (t.graft name path node) := raises_increment _ path
  have hcounts : ∀ ⦃path p node'⦄, (t.lookup path).isSome →
      (t.incrementActiveChildren path).lookup p = some node' →
      (t.childNames p).ncard + (if p = path then 1 else 0) = node'.activeChildCount := by
    intro path p node' hpath hnode'
    obtain ⟨parent, hparent⟩ := Option.isSome_iff_exists.mp hpath
    rw [h.lookup_increment hparent] at hnode'
    split at hnode'
    · next heq =>
      subst heq
      cases hnode'
      rw [if_pos rfl, ← h.count hparent]
    · next hne => rw [if_neg hne, Nat.add_zero, ← h.count hnode']
  have hexact : ∀ ⦃p node'⦄, p ≠ name :: path → (t.graft name path node).lookup p = some node' →
      _ = node'.activeChildCount :=
    h.toWF.countsBy_created (R := (· = ·)) rfl hcounts hnone node
  have hleaf : (t.graft name path node).lookup (name :: path) = some node := by
    rw [graft, lookup_increment_of_not_suffix (not_suffix_of_cons List.suffix_rfl), lookup_setNode,
      if_pos rfl]
  refine ⟨hwf, ?_, ?_⟩
  · intro p node' hp
    by_cases hpp : p = name :: path
    · subst hpp
      rw [hleaf] at hp
      cases hp
      rw [hzero]
      exact Nat.zero_le _
    · exact Nat.le_of_eq (hexact hpp hp).symm
  · intro name' above node' hp
    by_cases hpp : name' :: above = name :: path
    · rw [hpp, hleaf] at hp
      cases hp
      simp [NamespaceNode.shouldKeep, hcontent]
    · cases hold : t.lookup (name' :: above) with
      | some before =>
        have hset : ((t.create (name :: path)).setNode (name :: path) node).lookup
            (name' :: above) = some before := by
          rw [lookup_setNode, if_neg hpp, lookup_create_of_some hold]
        exact hraises.shouldKeep hset hp (h.kept hold)
      | none =>
        -- a new ancestor has the next node on the way as its child
        have hsuffix : name' :: above <:+ name :: path := by
          by_contra hnot
          have hset : ((t.create (name :: path)).setNode (name :: path) node).lookup
              (name' :: above) = none := by
            rw [lookup_setNode, if_neg hpp, lookup_create_of_not_suffix hnot, hold]
          have hsome := hraises.isSome (name' :: above)
          rw [hp, hset] at hsome
          cases hsome
        obtain ⟨next, hnext⟩ := child_of_suffix hsuffix (Ne.symm hpp)
        have hchild := hwf.suffix (by rw [hleaf]; rfl) hnext
        have hpos := (Set.ncard_pos (finite_childNames _ _)).mpr
          (⟨next, hchild⟩ : (NamespaceTree.childNames _ (name' :: above)).Nonempty)
        rw [hexact hpp hp] at hpos
        simp [NamespaceNode.shouldKeep, hpos]

end Counting

section Pruning

/-- The counts and nodes outside the subtree that is to go. -/
structure Leaving (t : NamespaceTree) (nodeToRemove : Path) : Prop extends
    t.Dropping nodeToRemove where
  tight : ∀ ⦃p node⦄, t.lookup p = some node → ¬ nodeToRemove <:+ p →
    node.activeChildCount ≤ (t.childNames p).ncard
  kept : ∀ ⦃name path node⦄, t.lookup (name :: path) = some node →
    ¬ nodeToRemove <:+ name :: path → node.shouldKeep = true

/-- The subtree goes, and its parent, which stays, counts one child less. -/
theorem Leaving.erase (h : t.Leaving (name :: path)) (hp : t.lookup path = some node)
    (hkeep : path ≠ [] → NamespaceNode.shouldKeep { node with
      activeChildCount := node.activeChildCount - 1 } = true) :
    ((t.setNode path { node with
      activeChildCount := node.activeChildCount - 1 }).eraseSubtree (name :: path)).Exact := by
  have hnot : ¬ (name :: path) <:+ path := not_suffix_of_cons List.suffix_rfl
  have hchildren : ∀ p, ¬ (name :: path) <:+ p → ((t.setNode path { node with
      activeChildCount := node.activeChildCount - 1 }).eraseSubtree (name :: path)).childNames p =
        t.childNames p \ (if p = path then {name} else ∅) := by
    intro p hout
    ext name'
    simp only [childNames, Set.mem_ofPred_eq, lookup_eraseSubtree, Set.mem_sdiff]
    by_cases hpp : p = path
    · subst hpp
      by_cases hname : name' = name
      · subst hname
        simp
      · have hsuffix : ¬ (name :: p) <:+ name' :: p := by
          intro hs
          rcases List.suffix_cons_iff.mp hs with heq | hs
          · cases heq
            exact hname rfl
          · exact hnot hs
        rw [if_neg hsuffix, lookup_setNode, if_neg (by simp)]
        simp [hname]
    · have hsuffix : ¬ (name :: path) <:+ name' :: p := by
        intro hs
        rcases List.suffix_cons_iff.mp hs with heq | hs
        · cases heq
          exact hpp rfl
        · exact hout hs
      rw [if_neg hsuffix, if_neg hpp, lookup_setNode]
      simp only [Set.mem_empty_iff_false, not_false_eq_true, and_true]
      split
      · next heq =>
        rw [heq, hp]
        exact Iff.rfl
      · exact Iff.rfl
  refine ⟨h.toDropping.erase hp, ?_, ?_⟩
  · intro p found hfound
    rw [lookup_eraseSubtree] at hfound
    split at hfound
    · cases hfound
    · next hout =>
      rw [hchildren p hout]
      rw [lookup_setNode] at hfound
      split at hfound
      · next heq =>
        subst heq
        cases hfound
        have hmem : name ∈ t.childNames p := h.present
        rw [if_pos rfl, Set.ncard_sdiff_singleton_of_mem hmem]
        have hle := h.tight hp hout
        change node.activeChildCount - 1 ≤ _
        omega
      · next hne =>
        rw [if_neg hne, Set.sdiff_empty]
        exact h.tight hfound hout
  · intro name' above found hfound
    rw [lookup_eraseSubtree] at hfound
    split at hfound
    · cases hfound
    · next hout =>
      rw [lookup_setNode] at hfound
      split at hfound
      · next heq =>
        cases hfound
        exact hkeep (heq ▸ List.cons_ne_nil _ _)
      · exact h.kept hfound hout

/-- One level up, as far as the rest of the tree goes. -/
theorem Leaving.up {parentName : String} {above : Path}
    (h : t.Leaving (name :: parentName :: above)) (hp : t.lookup (parentName :: above) = some node)
    (hone : node.activeChildCount = 1) (hcontent : node.hasContent = false) :
    (t.setNode (parentName :: above) { node with activeChildCount := 0 }).Leaving
      (parentName :: above) := by
  refine ⟨h.toDropping.up hp hone hcontent, ?_, ?_⟩
  · intro p found hfound hout
    rw [childNames_setNode_of_some _ hp]
    rw [lookup_setNode, if_neg (by
      rintro rfl
      exact hout List.suffix_rfl)] at hfound
    exact h.tight hfound fun hs' => hout ((List.suffix_cons name _).trans hs')
  · intro name' path' found hfound hout
    rw [lookup_setNode, if_neg (by
      intro heq
      exact hout (heq ▸ List.suffix_rfl))] at hfound
    exact h.kept hfound fun hs' => hout ((List.suffix_cons name _).trans hs')

theorem Leaving.prune (h : t.Leaving (name :: path))
    (hs : t.pruneFrom (name :: path) path = .ok t') : t'.Exact := by
  obtain ⟨u, last, above, node, -, hu, hnode, hkeep, heq⟩ :=
    pruneFrom_spec (fun _ _ => Leaving.toDropping) (fun _ _ _ _ _ hl => hl.up) h
  rw [heq] at hs
  cases hs
  exact hu.erase hnode hkeep

end Pruning

/-- A change of a node in the tree that does not give it its first content. -/
theorem Exact.mutate (h : t.Exact) (hp : t.lookup path = some node)
    (hcount : (change node).activeChildCount = node.activeChildCount)
    (hfirst : path ≠ [] → node.hasContent = false → (change node).hasContent = false)
    (hm : t.mutate path change = .ok t') : t'.Exact := by
  cases path with
  | nil =>
    have ht' : t' = t.setNode [] (change node) := by
      simp only [NamespaceTree.mutate, hp, notifyParentIfFirstContent, tryPruneSelf, ite_self] at hm
      cases hm
      rfl
    subst ht'
    exact h.setNode hp hcount fun hne => absurd rfl hne
  | cons name parent =>
    cases hhad : node.hasContent with
    | false =>
      have hnone := hfirst (List.cons_ne_nil _ _) hhad
      have ht' : t' = t.setNode (name :: parent) (change node) := by
        simp only [NamespaceTree.mutate, hp, hhad, hnone, notifyParentIfFirstContent, tryPruneSelf,
          Bool.false_and, Bool.and_false, Bool.false_eq_true, if_false] at hm
        cases hm
        rfl
      subst ht'
      refine h.setNode hp hcount fun _ => ?_
      -- without content it is kept for its children
      have hkeep := h.kept hp
      simp only [NamespaceNode.shouldKeep, hhad, Bool.false_or, decide_eq_true_eq] at hkeep
      simp [NamespaceNode.shouldKeep, hcount, hkeep]
    | true =>
      simp only [NamespaceTree.mutate, hp, hhad, notifyParentIfFirstContent, tryPruneSelf,
        Bool.not_true, Bool.false_and, Bool.true_and, Bool.false_eq_true, if_false] at hm
      cases hkeep : (change node).shouldKeep with
      | true =>
        simp only [hkeep, Bool.not_true, Bool.false_eq_true, if_false] at hm
        cases hm
        exact h.setNode hp hcount fun _ => hkeep
      | false =>
        have hself : (t.setNode (name :: parent) (change node)).lookup (name :: parent) =
            some (change node) := by simp
        simp only [hkeep, Bool.not_false, if_true, tryPruneChild, hself, Bool.false_eq_true,
          if_false] at hm
        refine Leaving.prune ⟨h.toWF.dropping hp hcount hkeep, ?_, ?_⟩ hm
        · intro p found hfound hout
          rw [childNames_setNode_of_some _ hp]
          rw [lookup_setNode, if_neg (by
            rintro rfl
            exact hout List.suffix_rfl)] at hfound
          exact h.tight hfound
        · intro name' path' found hfound hout
          rw [lookup_setNode, if_neg (by
            intro heq
            exact hout (heq ▸ List.suffix_rfl))] at hfound
          exact h.kept hfound

/-- A change that makes a node and gives it content. -/
theorem Exact.mutate_create {u : NamespaceTree} (h : t.Exact) (hnone : t.lookup path = none)
    (hu : ∀ p, u.lookup p = (t.create path).lookup p) (hp : u.lookup path = some node)
    (hcount : (change node).activeChildCount = node.activeChildCount)
    (hcontent : (change node).hasContent = true) (hm : u.mutate path change = .ok t') :
    t'.Exact := by
  have hwf := (h.toWF.mutate_create hu hp hcount hcontent hm).1
  cases path with
  | nil =>
    have := h.root
    rw [hnone] at this
    cases this
  | cons name parent =>
    obtain ⟨id, hid⟩ := lookup_create_new hnone List.suffix_rfl (List.cons_ne_nil _ _)
    rw [← hu, hp] at hid
    cases hid
    have hnew : NamespaceNode.hasContent { id := id } = false := rfl
    simp only [NamespaceTree.mutate, hp, hnew, notifyParentIfFirstContent, tryPruneSelf, hcontent,
      Bool.not_false, Bool.and_self, Bool.false_and, Bool.false_eq_true, if_true,
      if_false] at hm
    cases hm
    have hsame : ∀ p, ((u.setNode (name :: parent) (change { id := id })).incrementActiveChildren
        parent).lookup p = (t.graft name parent (change { id := id })).lookup p := by
      refine lookup_increment_eq ?_
      intro p
      rw [lookup_setNode, lookup_setNode, hu]
    exact (h.created hnone hcontent hcount (hwf.congr fun p => (hsame p).symm)).congr hsame

/-- Content comes to a node that is not in the tree yet, to the root, or to a node that has other
content. A publisher that is replaced does not count as such. -/
def CountsOnce (t : NamespaceTree) (op : Op) : Prop :=
  match op with
  | .setPublisher ns _ _ _ => ∀ node ∈ t.lookup ns.reverse, ns = [] ∨
      NamespaceNode.hasContent { node with publisherSession := none } = true
  | .addPublish ftn _ => ∀ node ∈ t.lookup ftn.trackNamespace.reverse,
      ftn.trackNamespace = [] ∨ node.hasContent = true
  | .addNamespaceSubscriber ns _ _ => ∀ node ∈ t.lookup ns.reverse,
      ns = [] ∨ node.hasContent = true
  | _ => True

instance (t : NamespaceTree) (op : Op) : Decidable (t.CountsOnce op) := by
  induction op using Op.casesOn <;> unfold CountsOnce <;> infer_instance

section Steps

variable {ns : TrackNamespace} {session : SessionId}

/-- Content for a node, which may be new. -/
theorem Exact.give (h : t.Exact) (hnode : (t.create ns.reverse).lookup ns.reverse = some node)
    (honce : ∀ found ∈ t.lookup ns.reverse, ns = [] ∨ found.hasContent = true)
    (hcount : (change node).activeChildCount = node.activeChildCount)
    (hcontent : (change node).hasContent = true)
    (hm : (t.create ns.reverse).mutate ns.reverse change = .ok t') : t'.Exact := by
  cases hold : t.lookup ns.reverse with
  | none => exact h.mutate_create hold (fun _ => rfl) hnode hcount hcontent hm
  | some found =>
    rw [create_eq_self h.toWF (by rw [hold]; rfl)] at hnode hm
    refine h.mutate hnode hcount ?_ hm
    intro hne hnot
    rw [hold] at hnode
    cases hnode
    rcases honce node hold with hnil | hhad
    · exact absurd (congrArg List.reverse hnil) hne
    · rw [hhad] at hnot
      cases hnot

theorem Exact.setPublisher {callback : Option CallbackId} {peerID : String}
    {result : SetPublisherResult} (h : t.Exact)
    (honce : t.CountsOnce (.setPublisher ns session callback peerID))
    (hs : t.setPublisher ns session callback peerID = .ok (t', result)) : t'.Exact := by
  obtain ⟨node, hnode⟩ := lookup_create_self h.toWF ns.reverse
  unfold NamespaceTree.setPublisher at hs
  simp only [findNode_create, hnode] at hs
  obtain ⟨t₁, hm, hs⟩ := bind_ok hs
  cases hs
  have hcleared : ((t.create ns.reverse).setNode ns.reverse
      { node with publisherSession := none }).lookup ns.reverse =
        some { node with publisherSession := none } := by simp
  have hcontent : NamespaceNode.hasContent { node with
      publisherSession := some session
      publisherPeerID := peerID
      publishNamespaceCallback := callback } = true := by simp [NamespaceNode.hasContent]
  cases hold : t.lookup ns.reverse with
  | none =>
    refine h.mutate_create hold ?_ hcleared rfl hcontent hm
    intro p
    rw [lookup_setNode]
    split
    · next hp =>
      -- a new node has no publisher that could go
      by_cases hroot : ns.reverse = []
      · have := h.root
        rw [← hroot, hold] at this
        cases this
      · obtain ⟨id, hid⟩ := lookup_create_new hold List.suffix_rfl hroot
        rw [hid] at hnode
        cases hnode
        rw [hp, hid]
    · rfl
  | some found =>
    rw [create_eq_self h.toWF (by rw [hold]; rfl)] at hnode hm hcleared
    rw [hold] at hnode
    cases hnode
    have hhad := honce node hold
    have hset : (t.setNode ns.reverse { node with publisherSession := none }).Exact := by
      refine h.setNode hold rfl fun hne => ?_
      rcases hhad with hnil | hhad
      · exact absurd (congrArg List.reverse hnil) hne
      · simp [NamespaceNode.shouldKeep, hhad]
    refine hset.mutate hcleared rfl ?_ hm
    intro hne hnot
    rcases hhad with hnil | hhad
    · exact absurd (congrArg List.reverse hnil) hne
    · rw [hhad] at hnot
      cases hnot

/-- A change that takes something away. -/
theorem Exact.take (h : t.Exact) (hp : t.lookup path = some node)
    (hcount : (change node).activeChildCount = node.activeChildCount)
    (hcontent : (change node).hasContent = true → node.hasContent = true)
    (hm : t.mutate path change = .ok t') : t'.Exact := by
  refine h.mutate hp hcount ?_ hm
  intro _ hnot
  cases hgained : (change node).hasContent with
  | false => rfl
  | true =>
    rw [hcontent hgained] at hnot
    cases hnot

theorem keys_erase_ne_nil {α β : Type} [DecidableEq α] {m : AList (fun _ : α => β)} {a : α}
    (h : (m.erase a).keys ≠ []) : m.keys ≠ [] := by
  intro hnil
  rw [AList.keys_erase, hnil] at h
  exact h rfl

theorem Exact.step (h : t.Exact) {op : Op} (honce : t.CountsOnce op) (hs : t.step op = .ok t') :
    t'.Exact := by
  cases op with
  | setPublisher ns session callback peerID =>
    obtain ⟨⟨_, result⟩, hr, rfl⟩ := map_ok hs
    exact h.setPublisher honce hr
  | unpublishNamespace ns session =>
    obtain ⟨⟨_, result⟩, hr, rfl⟩ := map_ok hs
    unfold NamespaceTree.unpublishNamespace at hr
    rw [findExact_eq h.toWF] at hr
    cases hl : t.lookup ns.reverse with
    | none =>
      simp only [hl, Option.isSome_none, Bool.false_eq_true, if_false] at hr
      cases hr
      exact h
    | some node =>
      simp only [hl, Option.isSome_some, if_true] at hr
      split at hr
      · cases hr
        exact h
      · next howner =>
        obtain ⟨t₁, hm, hr⟩ := bind_ok hr
        cases hr
        refine h.take hl ?_ ?_ hm
        · rfl
        · intro _
          rw [not_not] at howner
          simp [NamespaceNode.hasContent, howner]
  | addPublish ftn session =>
    obtain ⟨⟨_, result⟩, hr, rfl⟩ := map_ok hs
    obtain ⟨node, hnode⟩ := lookup_create_self h.toWF ftn.trackNamespace.reverse
    unfold NamespaceTree.addPublish at hr
    simp only [findNode_create] at hr
    obtain ⟨t₁, hm, hr⟩ := bind_ok hr
    cases hr
    exact h.give hnode honce (by rfl) hasContent_of_publish hm
  | unpublishTrack ns trackName =>
    change t.unpublishTrack ns trackName = .ok t' at hs
    unfold NamespaceTree.unpublishTrack at hs
    rw [findExact_eq h.toWF] at hs
    cases hl : t.lookup ns.reverse with
    | none =>
      simp only [hl, Option.isSome_none, Bool.false_eq_true, if_false] at hs
      cases hs
      exact h
    | some node =>
      simp only [hl, Option.isSome_some, if_true] at hs
      refine h.take hl ?_ ?_ hs
      · rfl
      · intro hcontent
        simp only [NamespaceNode.hasContent, Bool.or_eq_true, Bool.not_eq_true',
          List.isEmpty_eq_false_iff] at hcontent ⊢
        exact hcontent.imp_left (Or.imp_left (Or.imp_left keys_erase_ne_nil))
  | addNamespaceSubscriber ns session info =>
    obtain ⟨node, hnode⟩ := lookup_create_self h.toWF ns.reverse
    change t.addNamespaceSubscriber ns session info = .ok t' at hs
    unfold NamespaceTree.addNamespaceSubscriber at hs
    simp only [findNode_create] at hs
    refine h.give hnode honce ?_ ?_ hs
    · split <;> rfl
    · exact hasContent_of_subscriber
  | removeNamespaceSubscriber ns session =>
    obtain ⟨⟨_, result⟩, hr, rfl⟩ := map_ok hs
    unfold NamespaceTree.removeNamespaceSubscriber at hr
    rw [findExact_eq h.toWF] at hr
    cases hl : t.lookup ns.reverse with
    | none =>
      simp only [hl, Option.isSome_none, Bool.false_eq_true, if_false] at hr
      cases hr
      exact h
    | some node =>
      simp only [hl, Option.isSome_some, if_true] at hr
      split at hr
      · cases hr
        exact h
      · obtain ⟨t₁, hm, hr⟩ := bind_ok hr
        cases hr
        refine h.take hl ?_ ?_ hm
        · rfl
        · intro hcontent
          simp only [NamespaceNode.hasContent, Bool.or_eq_true, Bool.not_eq_true',
            List.isEmpty_eq_false_iff] at hcontent ⊢
          exact hcontent.imp_left (Or.imp_left (Or.imp_right keys_erase_ne_nil))

end Steps

/-- A node without content has a child. -/
theorem Exact.child (h : t.Exact) (hp : t.lookup (name :: path) = some node)
    (hcontent : node.hasContent = false) :
    ∃ child found, t.lookup (child :: name :: path) = some found := by
  have hkeep := h.kept hp
  simp only [NamespaceNode.shouldKeep, hcontent, Bool.false_or, decide_eq_true_eq] at hkeep
  rw [h.count hp, Set.ncard_pos (t.finite_childNames _)] at hkeep
  obtain ⟨child, hchild⟩ := hkeep
  exact ⟨child, Option.isSome_iff_exists.mp hchild⟩

/-- Below every node but the root there is content, since the paths of the tree are of bounded
length. -/
theorem Exact.content_below (h : t.Exact) (hp : t.lookup path = some node) (hne : path ≠ []) :
    ∃ p found, path <:+ p ∧ t.lookup p = some found ∧ found.hasContent = true := by
  have hlength : ∀ {p node}, t.lookup p = some node →
      p.length ≤ (t.nodes.keys.map List.length).foldr max 0 := by
    intro p node hp
    have hkey : p ∈ t.nodes.keys := AList.mem_keys.mp (AList.lookup_isSome.mp
      (Option.isSome_of_eq_some hp))
    exact List.le_max_of_le (List.mem_map_of_mem hkey) (Nat.le_refl _)
  induction hn : (t.nodes.keys.map List.length).foldr max 0 - path.length
    using Nat.strong_induction_on generalizing path node with
  | h n ih =>
    obtain ⟨name, above, rfl⟩ := List.exists_cons_of_ne_nil hne
    cases hcontent : node.hasContent with
    | true => exact ⟨_, node, List.suffix_rfl, hp, hcontent⟩
    | false =>
      obtain ⟨child, found, hfound⟩ := h.child hp hcontent
      have hle := hlength hfound
      obtain ⟨p, below, hsuffix, hlookup, hbelow⟩ := ih _ (by
        simp only [List.length_cons] at hle hn ⊢
        omega) hfound (List.cons_ne_nil _ _) rfl
      exact ⟨p, below, (List.suffix_cons child _).trans hsuffix, hlookup, hbelow⟩

/-- The children of a node that have content or active children. -/
def activeChildren (t : NamespaceTree) (path : Path) : Set String :=
  {name | ∃ child, t.lookup (name :: path) = some child ∧ child.shouldKeep = true}

theorem Exact.activeChildren (h : t.Exact) (path : Path) :
    t.activeChildren path = t.childNames path := by
  ext name
  simp only [NamespaceTree.activeChildren, childNames, Set.mem_ofPred_eq,
    Option.isSome_iff_exists]
  constructor
  · rintro ⟨child, hchild, -⟩
    exact ⟨child, hchild⟩
  · rintro ⟨child, hchild⟩
    exact ⟨child, hchild, h.kept hchild⟩

/-- Where no node is counted twice, the counts are exact, every node but the root has content in
its subtree, and a tree without content is its bare root. -/
theorem no_leaked_nodes (h : Reaches step CountsOnce {} t) :
    (∀ path node, t.lookup path = some node →
      node.activeChildCount = (t.activeChildren path).ncard) ∧
    (∀ path node, path ≠ [] → t.lookup path = some node →
      ∃ p found, path <:+ p ∧ t.lookup p = some found ∧ found.hasContent = true) ∧
    ((∀ path node, t.lookup path = some node → node.hasContent = false) →
      (∀ path, path ≠ [] → t.lookup path = none) ∧
        ∀ root, t.lookup [] = some root → root.activeChildCount = 0) := by
  have hexact : t.Exact := h.keeps exact_start fun _ _ _ hi honce hs => hi.step honce hs
  have hcontent := fun path node (hne : path ≠ []) (hp : t.lookup path = some node) =>
    hexact.content_below hp hne
  refine ⟨?_, hcontent, ?_⟩
  · intro path node hp
    rw [hexact.activeChildren, hexact.count hp]
  · intro hempty
    have hnone : ∀ path, path ≠ [] → t.lookup path = none := by
      intro path hne
      cases hp : t.lookup path with
      | none => rfl
      | some node =>
        obtain ⟨p, found, -, hfound, hhas⟩ := hcontent path node hne hp
        rw [hempty p found hfound] at hhas
        cases hhas
    refine ⟨hnone, ?_⟩
    intro root hroot
    have hchildren : t.childNames [] = ∅ := by
      ext name
      simp only [childNames, Set.mem_ofPred_eq, Set.mem_empty_iff_false, iff_false]
      rw [hnone [name] (List.cons_ne_nil _ _)]
      exact Bool.false_ne_true
    rw [hexact.count hroot, hchildren, Set.ncard_empty]

/-- Two tracks come and go, one namespace below the other. -/
theorem no_leaked_nodes_nested : ∃ t,
    runMeets step CountsOnce {} [.addPublish ⟨["live"], "audio"⟩ 1,
      .addPublish ⟨["live", "a"], "video"⟩ 1, .unpublishTrack ["live"] "audio",
      .unpublishTrack ["live", "a"] "video"] = some t ∧ t.lookup ["live"] = none := by
  obtain ⟨t, hreach, hrun, hp⟩ := reaches_of_elim step CountsOnce {}
    [.addPublish ⟨["live"], "audio"⟩ 1, .addPublish ⟨["live", "a"], "video"⟩ 1,
      .unpublishTrack ["live"] "audio", .unpublishTrack ["live", "a"] "video"]
    (fun t => t.nodes.entries.all fun e => !e.2.hasContent) (by decide +kernel)
  refine ⟨t, hrun, ((no_leaked_nodes hreach).2.2 ?_).1 ["live"] (List.cons_ne_nil _ _)⟩
  intro path node hlookup
  have hall := List.all_eq_true.mp hp ⟨path, node⟩ (List.of_mem_dlookup hlookup)
  simpa using hall

/-- A publisher is replaced and goes; and a namespace gets a track while there is one below it, and
both go. In both runs a node stays that has neither content nor children. -/
theorem countedTwice_leaks :
    (runMeets step (fun _ _ => True) {} [.setPublisher ["live", "a"] 1 none "",
      .setPublisher ["live", "a"] 2 none "", .unpublishNamespace ["live", "a"] 2]).map
      (fun t => (t.nodes.keys, (t.lookup ["live"]).map fun node =>
        (node.hasContent, node.activeChildCount))) = some ([["live"], []], some (false, 1)) ∧
    (runMeets step (fun _ _ => True) {} [.addPublish ⟨["live", "a", "b"], "video"⟩ 1,
      .addPublish ⟨["live", "a"], "audio"⟩ 1, .unpublishTrack ["live", "a"] "audio",
      .unpublishTrack ["live", "a", "b"] "video"]).map
      (fun t => (t.nodes.keys, (t.lookup ["live"]).map fun node =>
        (node.hasContent, node.activeChildCount))) = some ([["live"], []], some (false, 1)) := by
  refine ⟨?_, ?_⟩
  · decide +kernel
  · decide +kernel

end NamespaceTree

end Moqx
