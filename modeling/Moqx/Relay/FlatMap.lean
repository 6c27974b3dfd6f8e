import Moqx.Relay.TreeOps

/-! The namespace tree refines a flat map from namespaces to records. Every operation changes one
record, no sequence of operations ends in a failed check or a missing node, and a node with
something recorded in its subtree is never pruned. -/
namespace Moqx

open Maps

namespace NamespaceTree

variable {t t' : NamespaceTree} {path : Path} {node : NamespaceNode}

section Faults

theorem WF.mutate_ok (h : t.WF) (hp : t.lookup path = some node)
    (change : NamespaceNode → NamespaceNode)
    (hcount : (change node).activeChildCount = node.activeChildCount) :
    ∃ t', t.mutate path change = .ok t' := by
  unfold NamespaceTree.mutate
  rw [hp]
  simp only [tryPruneSelf]
  split
  · next hprunes =>
    simp only [Bool.and_eq_true, Bool.not_eq_true'] at hprunes
    cases path with
    | nil => exact ⟨_, rfl⟩
    | cons name parent =>
      simp only [notifyParentIfFirstContent, hprunes.1, Bool.not_true, Bool.false_and,
        Bool.false_eq_true, if_false, tryPruneChild, lookup_setNode, if_true, hprunes.2]
      obtain ⟨t', heq, -⟩ := (h.dropping hp hcount hprunes.2).prune
      exact ⟨t', heq⟩
  · exact ⟨_, rfl⟩

/-- A node that has content after the change is not pruned. -/
theorem mutate_ok_of_content (hp : t.lookup path = some node)
    (change : NamespaceNode → NamespaceNode) (hcontent : (change node).hasContent = true) :
    ∃ t', t.mutate path change = .ok t' := by
  unfold NamespaceTree.mutate
  rw [hp]
  simp only [tryPruneSelf]
  split
  · next hprunes => simp [NamespaceNode.shouldKeep, hcontent] at hprunes
  · exact ⟨_, rfl⟩

end Faults

/-- The calls that change the records of the tree. -/
inductive Op where
  | setPublisher (ns : TrackNamespace) (session : SessionId) (callback : Option CallbackId)
      (peerID : String)
  | unpublishNamespace (ns : TrackNamespace) (session : SessionId)
  | addPublish (ftn : FullTrackName) (session : SessionId)
  | unpublishTrack (ns : TrackNamespace) (trackName : String)
  | addNamespaceSubscriber (ns : TrackNamespace) (session : SessionId)
      (info : NamespaceSubscriberInfo)
  | removeNamespaceSubscriber (ns : TrackNamespace) (session : SessionId)

theorem map_ok {α β : Type} {m : Except Fault α} {f : α → β} {b : β} (h : m.map f = .ok b) :
    ∃ a, m = .ok a ∧ f a = b := by
  cases m with
  | error fault => cases h
  | ok a => exact ⟨a, rfl, Except.ok.inj h⟩

def step (t : NamespaceTree) : Op → Except Fault NamespaceTree
  | .setPublisher ns session callback peerID =>
    (t.setPublisher ns session callback peerID).map Prod.fst
  | .unpublishNamespace ns session => (t.unpublishNamespace ns session).map Prod.fst
  | .addPublish ftn session => (t.addPublish ftn session).map Prod.fst
  | .unpublishTrack ns trackName => t.unpublishTrack ns trackName
  | .addNamespaceSubscriber ns session info => t.addNamespaceSubscriber ns session info
  | .removeNamespaceSubscriber ns session => (t.removeNamespaceSubscriber ns session).map Prod.fst

/-- What an exact lookup finds recorded under a namespace. -/
def found (t : NamespaceTree) (ns : TrackNamespace) : NamespaceRecord :=
  (t.findExact ns).elim {} t.record

/-- A flat map from namespaces to records. -/
abbrev FlatMap := TrackNamespace → NamespaceRecord

def FlatMap.apply (m : FlatMap) : Op → FlatMap
  | .setPublisher ns session _ peerID =>
    Function.update m ns { m ns with publisher := some (session, peerID) }
  | .unpublishNamespace ns session =>
    if (m ns).publisher.map Prod.fst = some session then
      Function.update m ns { m ns with publisher := none, draft14PubNsHandles := ∅ }
    else m
  | .addPublish ftn session =>
    Function.update m ftn.trackNamespace { m ftn.trackNamespace with
      publishes := (m ftn.trackNamespace).publishes.insert ftn.trackName session }
  | .unpublishTrack ns trackName =>
    Function.update m ns { m ns with publishes := (m ns).publishes.erase trackName }
  | .addNamespaceSubscriber ns session info =>
    Function.update m ns { m ns with
      subscribers := if ((m ns).subscribers.lookup session).isSome then (m ns).subscribers
        else (m ns).subscribers.insert session info }
  | .removeNamespaceSubscriber ns session =>
    Function.update m ns { m ns with subscribers := (m ns).subscribers.erase session }

/-- The records of the tree as a flat map. -/
def view (t : NamespaceTree) : FlatMap := fun ns => t.record ns.reverse

theorem found_eq_view (h : t.WF) (ns : TrackNamespace) : t.found ns = t.view ns := by
  unfold found view
  rw [findExact_eq h]
  cases hl : t.lookup ns.reverse with
  | none =>
    rw [record, hl]
    rfl
  | some node => rfl

theorem Edits.view {ns : TrackNamespace} {changed : NamespaceRecord}
    (h : t.Edits t' ns.reverse changed) : t'.view = Function.update t.view ns changed := by
  funext ns'
  rw [Function.update_apply, NamespaceTree.view, h.record]
  by_cases heq : ns' = ns
  · rw [if_pos heq, if_pos (congrArg List.reverse heq)]
  · rw [if_neg heq, if_neg fun hreverse => heq (List.reverse_injective hreverse)]
    rfl

section Steps

variable {ns : TrackNamespace} {session : SessionId}

theorem setPublisher_ok (h : t.WF) (ns : TrackNamespace) (session : SessionId)
    (callback : Option CallbackId) (peerID : String) :
    ∃ r, t.setPublisher ns session callback peerID = .ok r := by
  obtain ⟨node, hnode⟩ := lookup_create_self h ns.reverse
  unfold setPublisher
  simp only [findNode_create, hnode]
  have hreset : ((t.create ns.reverse).setNode ns.reverse
      { node with publisherSession := none }).lookup ns.reverse =
      some { node with publisherSession := none } := by simp
  obtain ⟨t', ht'⟩ := mutate_ok_of_content hreset
    (fun node => { node with
      publisherSession := some session
      publisherPeerID := peerID
      publishNamespaceCallback := callback })
    (by simp [NamespaceNode.hasContent])
  rw [ht']
  exact ⟨_, rfl⟩

theorem unpublishNamespace_ok (h : t.WF) (ns : TrackNamespace) (session : SessionId) :
    ∃ r, t.unpublishNamespace ns session = .ok r := by
  unfold unpublishNamespace
  rw [findExact_eq h]
  cases hl : t.lookup ns.reverse with
  | none => exact ⟨_, rfl⟩
  | some node =>
    simp only [Option.isSome_some, if_true, hl]
    split
    · exact ⟨_, rfl⟩
    · obtain ⟨t', ht'⟩ := h.mutate_ok hl
        (fun node => { node with
          publisherSession := none
          publisherPeerID := ""
          publishNamespaceCallback := none
          draft14PubNsHandles := ∅ }) rfl
      rw [ht']
      exact ⟨_, rfl⟩

theorem addPublish_ok (h : t.WF) (ftn : FullTrackName) (session : SessionId) :
    ∃ r, t.addPublish ftn session = .ok r := by
  obtain ⟨node, hnode⟩ := lookup_create_self h ftn.trackNamespace.reverse
  unfold addPublish
  simp only [findNode_create]
  obtain ⟨t', ht'⟩ := mutate_ok_of_content hnode
    (fun node => { node with
      publishes := node.publishes.insert ftn.trackName session }) hasContent_of_publish
  rw [ht']
  exact ⟨_, rfl⟩

theorem unpublishTrack_ok (h : t.WF) (ns : TrackNamespace) (trackName : String) :
    ∃ t', t.unpublishTrack ns trackName = .ok t' := by
  unfold unpublishTrack
  rw [findExact_eq h]
  cases hl : t.lookup ns.reverse with
  | none => exact ⟨_, rfl⟩
  | some node =>
    simp only [Option.isSome_some, if_true]
    exact h.mutate_ok hl _ rfl

theorem addNamespaceSubscriber_ok (h : t.WF) (ns : TrackNamespace) (session : SessionId)
    (info : NamespaceSubscriberInfo) : ∃ t', t.addNamespaceSubscriber ns session info = .ok t' := by
  obtain ⟨node, hnode⟩ := lookup_create_self h ns.reverse
  unfold addNamespaceSubscriber
  simp only [findNode_create]
  exact mutate_ok_of_content hnode _ hasContent_of_subscriber

theorem removeNamespaceSubscriber_ok (h : t.WF) (ns : TrackNamespace) (session : SessionId) :
    ∃ r, t.removeNamespaceSubscriber ns session = .ok r := by
  unfold removeNamespaceSubscriber
  rw [findExact_eq h]
  cases hl : t.lookup ns.reverse with
  | none => exact ⟨_, rfl⟩
  | some node =>
    simp only [Option.isSome_some, if_true, hl]
    split
    · exact ⟨_, rfl⟩
    · obtain ⟨t', ht'⟩ := h.mutate_ok hl
        (fun node => { node with subscribers := node.subscribers.erase session }) rfl
      rw [ht']
      exact ⟨_, rfl⟩

/-- Every operation succeeds and does to the records what it does to the flat map. -/
theorem step_view (h : t.WF) (op : Op) :
    ∃ t', t.step op = .ok t' ∧ t'.WF ∧ t'.view = t.view.apply op := by
  cases op with
  | setPublisher ns session callback peerID =>
    obtain ⟨⟨t', result⟩, hs⟩ := setPublisher_ok h ns session callback peerID
    obtain ⟨hedits, -⟩ := setPublisher_edits h hs
    exact ⟨t', by rw [step, hs]; rfl, hedits.wf, hedits.view⟩
  | unpublishNamespace ns session =>
    obtain ⟨⟨t', result⟩, hs⟩ := unpublishNamespace_ok h ns session
    refine ⟨t', by rw [step, hs]; rfl, ?_⟩
    rcases unpublishNamespace_edits h hs with ⟨hother, rfl, -⟩ | ⟨howner, hedits, -⟩
    · exact ⟨h, (if_neg hother).symm⟩
    · exact ⟨hedits.wf, hedits.view.trans (if_pos howner).symm⟩
  | addPublish ftn session =>
    obtain ⟨⟨t', result⟩, hs⟩ := addPublish_ok h ftn session
    obtain ⟨hedits, -⟩ := addPublish_edits h hs
    exact ⟨t', by rw [step, hs]; rfl, hedits.wf, hedits.view⟩
  | unpublishTrack ns trackName =>
    obtain ⟨t', hs⟩ := unpublishTrack_ok h ns trackName
    have hedits := unpublishTrack_edits h hs
    exact ⟨t', hs, hedits.wf, hedits.view⟩
  | addNamespaceSubscriber ns session info =>
    obtain ⟨t', hs⟩ := addNamespaceSubscriber_ok h ns session info
    have hedits := addNamespaceSubscriber_edits h hs
    exact ⟨t', hs, hedits.wf, hedits.view⟩
  | removeNamespaceSubscriber ns session =>
    obtain ⟨⟨t', result⟩, hs⟩ := removeNamespaceSubscriber_ok h ns session
    refine ⟨t', by rw [step, hs]; rfl, ?_⟩
    rcases removeNamespaceSubscriber_edits h hs with ⟨hnone, rfl, -⟩ | ⟨info, -, hedits, -⟩
    · refine ⟨h, ?_⟩
      have herase : (t'.view ns).subscribers.erase session = (t'.view ns).subscribers :=
        erase_of_lookup_none hnone
      rw [FlatMap.apply, herase]
      exact (Function.update_eq_self ns t'.view).symm
    · exact ⟨hedits.wf, hedits.view⟩

theorem run_view (ops : List Op) (h : t.WF) :
    ∃ t', ops.foldlM step t = .ok t' ∧ t'.WF ∧ t'.view = ops.foldl FlatMap.apply t.view := by
  induction ops generalizing t with
  | nil => exact ⟨t, rfl, h, rfl⟩
  | cons op ops ih =>
    obtain ⟨t₁, hstep, hwf, hview⟩ := step_view h op
    obtain ⟨t', hrun, hwf', hview'⟩ := ih hwf
    refine ⟨t', ?_, hwf', ?_⟩
    · rw [List.foldlM_cons, hstep]
      exact hrun
    · rw [hview', hview, List.foldl_cons]

end Steps

/-- What the tree has recorded is what the flat map has. No operation fails on the way, the check
of the count before it goes down included, and the nodes on the way to a namespace with a record
are all there. -/
theorem tree_refines_flatMap (ops : List Op) :
    ∃ t, ops.foldlM step {} = .ok t ∧
      (∀ ns, t.found ns = ops.foldl FlatMap.apply (fun _ => {}) ns) ∧
      ∀ ns below, ns <+: below → ops.foldl FlatMap.apply (fun _ => {}) below ≠ {} →
        t.findExact ns = some ns.reverse := by
  have hstart : ({} : NamespaceTree).view = fun _ => {} := by
    funext ns
    exact record_start ns.reverse
  obtain ⟨t, hrun, hwf, hview⟩ := run_view ops wf_start
  rw [hstart] at hview
  refine ⟨t, hrun, ?_, ?_⟩
  · intro ns
    rw [found_eq_view hwf, hview]
  · intro ns below hbelow hcontent
    rw [← hview] at hcontent
    have hlive : (t.lookup below.reverse).isSome = true := by
      cases hl : t.lookup below.reverse with
      | some node => rfl
      | none =>
        refine absurd ?_ hcontent
        rw [view, record, hl]
        rfl
    rw [findExact_eq hwf, if_pos (hwf.suffix hlive (List.reverse_suffix.mpr hbelow))]

end NamespaceTree

end Moqx
