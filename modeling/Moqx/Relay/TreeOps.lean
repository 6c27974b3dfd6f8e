import Moqx.Relay.TreeRecords

/-! What each operation of the tree does to its records, and whom it finds. -/
namespace Moqx

open Maps

namespace NamespaceTree

variable {t t' : NamespaceTree} {path p q : Path} {ns : TrackNamespace} {session : SessionId}

theorem mem_entries_iff {α β : Type} [DecidableEq α] {m : AList (fun _ : α => β)} {a : α} {b : β} :
    (a, b) ∈ m.entries.map (fun e => (e.1, e.2)) ↔ m.lookup a = some b := by
  simp only [List.mem_map, Prod.mk.injEq]
  constructor
  · rintro ⟨⟨a', b'⟩, he, rfl, rfl⟩
    exact List.mem_dlookup m.nodupKeys he
  · intro h
    exact ⟨⟨a, b⟩, List.of_mem_dlookup h, rfl, rfl⟩

variable {node : NamespaceNode}

theorem subscribersAt_addNode (h : t.lookup path = none) (p : Path) :
    (t.addNode path).subscribersAt p = t.subscribersAt p := by
  unfold subscribersAt
  rw [lookup_addNode]
  split
  · next hp =>
    rw [hp, h]
    rfl
  · rfl

theorem Closed.addNode {name : String} (h : t.Closed) (hp : (t.lookup path).isSome) :
    (t.addNode (name :: path)).Closed := by
  intro name' above hchild
  rw [lookup_addNode] at hchild ⊢
  split
  · rfl
  · split at hchild
    · next heq =>
      rw [List.cons.injEq] at heq
      rw [heq.2]
      exact hp
    · exact h hchild

/-- The subscribers of all nodes from the root to that of a namespace. -/
def subscribersAbove (t : NamespaceTree) (ns : TrackNamespace) : SessionSubscriberList :=
  ns.inits.flatMap fun above => t.subscribersAt above.reverse

/-- The walk collects the subscribers of all nodes above the one it looks for. -/
theorem walk_subscribers (createMissingNodes : Bool) (matchType : MatchType) (ns : TrackNamespace)
    (h : t.Closed) (hp : (t.lookup path).isSome) :
    (walk createMissingNodes matchType t path ns).2.2 ++ t.subscribersAt (ns.reverse ++ path) =
      ns.inits.flatMap fun above => t.subscribersAt (above.reverse ++ path) := by
  induction ns generalizing t path with
  | nil => simp [walk]
  | cons name rest ih =>
    have hfull : (name :: rest).reverse ++ path = rest.reverse ++ name :: path := by simp
    have hnext :
        ((name :: rest).inits.flatMap fun above => t.subscribersAt (above.reverse ++ path)) =
        t.subscribersAt path ++
          rest.inits.flatMap fun above => t.subscribersAt (above.reverse ++ name :: path) := by
      simp [List.flatMap_map]
    rw [hfull, hnext]
    simp only [walk]
    split
    · next hsome => rw [List.append_assoc, ih h hsome]
    · next hnone =>
      rw [Bool.not_eq_true, Option.isSome_eq_false_iff, Option.isNone_iff_eq_none] at hnone
      split
      · have hadded := ih (h.addNode hp) (show ((t.addNode (name :: path)).lookup
          (name :: path)).isSome by simp)
        simp only [subscribersAt_addNode hnone] at hadded
        rw [List.append_assoc, hadded]
      · -- nothing is below a node that is missing
        have hbelow : ∀ above : TrackNamespace,
            t.subscribersAt (above.reverse ++ name :: path) = [] := by
          intro above
          unfold subscribersAt
          cases hl : t.lookup (above.reverse ++ name :: path) with
          | none => rfl
          | some node =>
            have hsome := h.suffix (Option.isSome_of_eq_some hl) (List.suffix_append _ _)
            rw [hnone] at hsome
            cases hsome
        split <;> simp [hbelow]

theorem walk_exact (ns : TrackNamespace) (h : t.Closed) (hp : (t.lookup path).isSome) :
    (walk false .exact t path ns).2.1 =
      if (t.lookup (ns.reverse ++ path)).isSome then some (ns.reverse ++ path) else none := by
  induction ns generalizing path with
  | nil => simp [walk, hp]
  | cons name rest ih =>
    have hfull : (name :: rest).reverse ++ path = rest.reverse ++ name :: path := by simp
    rw [hfull]
    simp only [walk]
    split
    · next hnext => exact ih hnext
    · next hnext =>
      have hnone : (t.lookup (rest.reverse ++ name :: path)).isSome = false := by
        rw [← Bool.not_eq_true]
        intro hs
        exact hnext (h.suffix hs (List.suffix_append _ _))
      rw [hnone]
      simp

theorem findExact_eq (h : t.WF) (ns : TrackNamespace) :
    t.findExact ns = if (t.lookup ns.reverse).isSome then some ns.reverse else none := by
  have := walk_exact ns h.parent h.root
  simpa [findExact, findNode] using this

/-- Subscribers of the namespaces above a namespace, and of the namespace itself. -/
theorem findNode_subscribers (createMissingNodes : Bool) (matchType : MatchType) (h : t.WF) :
    (t.findNode ns createMissingNodes matchType).2.2 ++ t.subscribersAt ns.reverse =
      t.subscribersAbove ns := by
  have hwalk := walk_subscribers createMissingNodes matchType ns h.parent h.root
  simp only [List.append_nil] at hwalk
  exact hwalk

theorem lookup_create_self (h : t.WF) (path : Path) :
    ∃ node, (t.create path).lookup path = some node := by
  cases hl : t.lookup path with
  | some node => exact ⟨node, lookup_create_of_some hl⟩
  | none =>
    by_cases hp : path = []
    · subst hp
      have := h.root
      rw [hl] at this
      cases this
    · obtain ⟨id, hid⟩ := lookup_create_new hl List.suffix_rfl hp
      exact ⟨_, hid⟩

/-- The subscribers found before and after missing nodes were created are the same. -/
theorem subscribersAt_create (t : NamespaceTree) (path p : Path) :
    (t.create path).subscribersAt p = t.subscribersAt p := by
  apply observe_create (α := SessionSubscriberList) (f := fun found => found.elim [] _)
  exact fun _ => rfl

theorem record_of_lookup (h : t.lookup p = some node) : t.record p = node.record := by
  unfold record
  rw [h]
  rfl

/-- What a change of a node in the tree does to the records. -/
theorem WF.mutate_edits {change : NamespaceNode → NamespaceNode} (h : t.WF)
    (hl : t.lookup path = some node) (hm : t.mutate path change = .ok t')
    (hcount : (change node).activeChildCount = node.activeChildCount)
    (hrankings : (change node).rankings = node.rankings) :
    t.Edits t' path (change node).record := by
  obtain ⟨hwf, hprunes⟩ := h.mutate hl hcount hm
  exact hprunes.edits hwf (fun _ _ => rfl) hl hrankings (fun _ _ => rfl)

theorem WF.mutate_create_edits {change : NamespaceNode → NamespaceNode} (h : t.WF)
    (hnode : (t.create path).lookup path = some node)
    (hm : (t.create path).mutate path change = .ok t')
    (hcount : (change node).activeChildCount = node.activeChildCount)
    (hrankings : (change node).rankings = node.rankings)
    (hcontent : (change node).hasContent = true) : t.Edits t' path (change node).record := by
  obtain ⟨hwf, hprunes⟩ := h.mutate_create (fun _ => rfl) hnode hcount hcontent hm
  exact hprunes.edits hwf (fun p _ => record_create _ _ p) hnode hrankings (ranking_create _ _)

theorem setPublisher_edits {callback : Option CallbackId} {peerID : String}
    {result : SetPublisherResult} (h : t.WF)
    (hs : t.setPublisher ns session callback peerID = .ok (t', result)) :
    t.Edits t' ns.reverse { t.record ns.reverse with publisher := some (session, peerID) } ∧
      result.replacedSession = (t.record ns.reverse).publisher.map Prod.fst ∧
      result.subscribers = t.subscribersAbove ns := by
  obtain ⟨node, hnode⟩ := lookup_create_self h ns.reverse
  have hrecord : node.record = t.record ns.reverse := by
    rw [← record_of_lookup hnode, record_create]
  have hsubscribers : (t.findNode ns true .exact).2.2 ++
      node.subscribers.entries.map (fun e => (e.1, e.2)) = t.subscribersAbove ns := by
    rw [← findNode_subscribers true .exact h, ← subscribersAt_create t ns.reverse]
    simp [subscribersAt, hnode]
  let cleared : NamespaceNode := { node with publisherSession := none }
  unfold setPublisher at hs
  simp only [findNode_create, hnode] at hs
  obtain ⟨t₁, hm, hs⟩ := bind_ok hs
  cases hs
  have hcleared : ((t.create ns.reverse).setNode ns.reverse cleared).lookup ns.reverse =
      some cleared := by simp
  have hboth : t'.WF ∧ (((t.create ns.reverse).setNode ns.reverse cleared).setNode ns.reverse
      { cleared with
        publisherSession := some session
        publisherPeerID := peerID
        publishNamespaceCallback := callback }).Prunes t' := by
    cases hpublisher : node.publisherSession with
    | none =>
      refine h.mutate_create ?_ hcleared rfl (by simp [NamespaceNode.hasContent]) hm
      intro p
      rw [lookup_setNode]
      split
      · next hp =>
        have : cleared = node := by
          simp only [cleared]
          rw [← hpublisher]
        rw [hp, hnode, this]
      · rfl
    | some old =>
      -- a node with a publisher was in the tree before
      have hin : (t.lookup ns.reverse).isSome := by
        cases hl : t.lookup ns.reverse with
        | some found => rfl
        | none =>
          have hempty : t.record ns.reverse = {} := by simp [record, hl]
          rw [← hrecord] at hempty
          have := congrArg NamespaceRecord.publisher hempty
          simp [NamespaceNode.record, hpublisher] at this
      rw [create_eq_self h hin] at hnode hcleared hm ⊢
      have hwf : (t.setNode ns.reverse cleared).WF := h.setNode hnode rfl
      exact hwf.mutate hcleared rfl hm
  refine ⟨?_, ?_, hsubscribers⟩
  · have hedits := hboth.2.edits (t := t) hboth.1 ?_ hcleared rfl ?_
    · have heq : ({ cleared with
          publisherSession := some session
          publisherPeerID := peerID
          publishNamespaceCallback := callback } : NamespaceNode).record =
          { t.record ns.reverse with publisher := some (session, peerID) } := by
        rw [← hrecord]
        rfl
      rw [← heq]
      exact hedits
    · intro p hp
      rw [record_setNode, if_neg hp, record_create]
    · intro p propertyType
      rw [← ranking_create t ns.reverse]
      unfold ranking
      rw [lookup_setNode]
      split
      · next hp =>
        rw [hp, hnode]
        rfl
      · rfl
  · rw [← hrecord]
    simp [NamespaceNode.record, Option.map_map, Function.comp_def]

/-- An unpublish by the owner, and any other. -/
theorem unpublishNamespace_edits {result : Except TreeError UnpublishNamespaceResult} (h : t.WF)
    (hs : t.unpublishNamespace ns session = .ok (t', result)) :
    ((t.record ns.reverse).publisher.map Prod.fst ≠ some session ∧ t' = t ∧
        ∃ error, result = .error error) ∨
      (t.record ns.reverse).publisher.map Prod.fst = some session ∧
        t.Edits t' ns.reverse
          { t.record ns.reverse with publisher := none, draft14PubNsHandles := ∅ } ∧
        ∃ found, result = .ok found ∧ found.subscribers = t.subscribersAbove ns := by
  unfold unpublishNamespace at hs
  rw [findExact_eq h] at hs
  cases hl : t.lookup ns.reverse with
  | none =>
    simp only [hl, Option.isSome_none, Bool.false_eq_true, if_false] at hs
    cases hs
    exact .inl ⟨by simp [record, hl], rfl, _, rfl⟩
  | some node =>
    have hrecord : node.record = t.record ns.reverse := (record_of_lookup hl).symm
    have hpublisher : (t.record ns.reverse).publisher.map Prod.fst = node.publisherSession := by
      rw [← hrecord]
      simp [NamespaceNode.record, Option.map_map, Function.comp_def]
    simp only [hl, Option.isSome_some, if_true] at hs
    split at hs
    · next hne =>
      cases hs
      exact .inl ⟨by rwa [hpublisher], rfl, _, rfl⟩
    · next howner =>
      obtain ⟨t₁, hm, hs⟩ := bind_ok hs
      cases hs
      refine .inr ⟨by rw [hpublisher]; exact not_not.mp howner, ?_, _, rfl, ?_⟩
      · rw [← hrecord]
        exact h.mutate_edits hl hm rfl rfl
      · rw [← findNode_subscribers false .exact h]
        simp [subscribersAt, hl]

theorem unpublishTrack_edits {trackName : String} (h : t.WF)
    (hs : t.unpublishTrack ns trackName = .ok t') :
    t.Edits t' ns.reverse { t.record ns.reverse with
      publishes := (t.record ns.reverse).publishes.erase trackName } := by
  unfold unpublishTrack at hs
  rw [findExact_eq h] at hs
  cases hl : t.lookup ns.reverse with
  | none =>
    simp only [hl, Option.isSome_none, Bool.false_eq_true, if_false] at hs
    cases hs
    have hempty : t.record ns.reverse = {} := by simp [record, hl]
    have herase : (∅ : AList (fun _ : String => SessionId)).erase trackName = ∅ := rfl
    refine ⟨h, ?_, fun _ _ _ => rfl⟩
    intro p
    split
    · next hp => rw [hp, hempty, herase]
    · rfl
  | some node =>
    have hrecord : node.record = t.record ns.reverse := (record_of_lookup hl).symm
    simp only [hl, Option.isSome_some, if_true] at hs
    rw [← hrecord]
    exact h.mutate_edits hl hs rfl rfl

theorem hasContent_of_publish {trackName : String} {session : SessionId} :
    NamespaceNode.hasContent
      { node with publishes := node.publishes.insert trackName session } = true := by
  simp [NamespaceNode.hasContent, AList.keys_insert]

theorem hasContent_of_subscriber {info : NamespaceSubscriberInfo} :
    NamespaceNode.hasContent (if (node.subscribers.lookup session).isSome then node
      else { node with subscribers := node.subscribers.insert session info }) = true := by
  split
  · next hsome =>
    have hkeys : node.subscribers.keys ≠ [] := by
      intro hnil
      rw [lookup_none_of_keys hnil] at hsome
      cases hsome
    simp [NamespaceNode.hasContent, hkeys]
  · simp [NamespaceNode.hasContent, AList.keys_insert]

theorem addPublish_edits {ftn : FullTrackName} {result : AddPublishResult} (h : t.WF)
    (hs : t.addPublish ftn session = .ok (t', result)) :
    t.Edits t' ftn.trackNamespace.reverse { t.record ftn.trackNamespace.reverse with
      publishes := (t.record ftn.trackNamespace.reverse).publishes.insert ftn.trackName session } ∧
      result.rankings = t'.rankingsFrom ftn.trackNamespace.reverse ∧
      result.subscribers = t.subscribersAbove ftn.trackNamespace := by
  obtain ⟨node, hnode⟩ := lookup_create_self h ftn.trackNamespace.reverse
  have hrecord : node.record = t.record ftn.trackNamespace.reverse := by
    rw [← record_of_lookup hnode, record_create]
  unfold addPublish at hs
  simp only [findNode_create] at hs
  obtain ⟨t₁, hm, hs⟩ := bind_ok hs
  cases hs
  refine ⟨?_, rfl, ?_⟩
  · rw [← hrecord]
    exact h.mutate_create_edits hnode hm rfl rfl hasContent_of_publish
  · simp only [subscribersAt_create]
    exact findNode_subscribers true .exact h

theorem addNamespaceSubscriber_edits {info : NamespaceSubscriberInfo} (h : t.WF)
    (hs : t.addNamespaceSubscriber ns session info = .ok t') :
    t.Edits t' ns.reverse { t.record ns.reverse with
      subscribers := if ((t.record ns.reverse).subscribers.lookup session).isSome then
          (t.record ns.reverse).subscribers
        else (t.record ns.reverse).subscribers.insert session info } := by
  obtain ⟨node, hnode⟩ := lookup_create_self h ns.reverse
  have hrecord : node.record = t.record ns.reverse := by
    rw [← record_of_lookup hnode, record_create]
  unfold addNamespaceSubscriber at hs
  simp only [findNode_create] at hs
  have hedits := h.mutate_create_edits hnode hs (by split <;> rfl) (by split <;> rfl)
    hasContent_of_subscriber
  rw [← hrecord]
  cases hl : (node.subscribers.lookup session).isSome <;>
    simpa [hl, NamespaceNode.record] using hedits

/-- The node of a namespace subscriber is in the tree. -/
theorem lookup_of_addNamespaceSubscriber {info : NamespaceSubscriberInfo} (h : t.WF)
    (hs : t.addNamespaceSubscriber ns session info = .ok t') :
    (t'.lookup ns.reverse).isSome = true := by
  cases hnode : t'.lookup ns.reverse with
  | some node => rfl
  | none =>
    have hrecord := (addNamespaceSubscriber_edits h hs).record ns.reverse
    rw [if_pos rfl, record, hnode] at hrecord
    have hsubscribers := congrArg (fun record => (record.subscribers.lookup session).isSome) hrecord
    split at hsubscribers
    · next hold =>
      rw [hold] at hsubscribers
      cases hsubscribers
    · rw [AList.lookup_insert] at hsubscribers
      cases hsubscribers

/-- The node of a published track is in the tree. -/
theorem lookup_of_addPublish {ftn : FullTrackName} {result : AddPublishResult} (h : t.WF)
    (hs : t.addPublish ftn session = .ok (t', result)) :
    (t'.lookup ftn.trackNamespace.reverse).isSome = true := by
  cases hnode : t'.lookup ftn.trackNamespace.reverse with
  | some node => rfl
  | none =>
    have hrecord := (addPublish_edits h hs).1.record ftn.trackNamespace.reverse
    rw [if_pos rfl, record, hnode] at hrecord
    have hpublish := congrArg (fun record => record.publishes.lookup ftn.trackName) hrecord
    simp only [AList.lookup_insert] at hpublish
    cases hpublish

theorem removeNamespaceSubscriber_edits {result : Except TreeError (Option (RankingId × Nat))}
    (h : t.WF) (hs : t.removeNamespaceSubscriber ns session = .ok (t', result)) :
    ((t.record ns.reverse).subscribers.lookup session = none ∧ t' = t ∧
        ∃ error, result = .error error) ∨
      ∃ info, (t.record ns.reverse).subscribers.lookup session = some info ∧
        t.Edits t' ns.reverse { t.record ns.reverse with
          subscribers := (t.record ns.reverse).subscribers.erase session } ∧
        result = .ok (info.trackFilter.bind fun filter =>
          (t.ranking ns.reverse filter.propertyType).map fun id => (id, filter.maxSelected)) := by
  unfold removeNamespaceSubscriber at hs
  rw [findExact_eq h] at hs
  cases hl : t.lookup ns.reverse with
  | none =>
    simp only [hl, Option.isSome_none, Bool.false_eq_true, if_false] at hs
    cases hs
    exact .inl ⟨by simp [record, hl], rfl, _, rfl⟩
  | some node =>
    have hrecord : node.record = t.record ns.reverse := (record_of_lookup hl).symm
    have hsubscribers : (t.record ns.reverse).subscribers = node.subscribers := by
      rw [← hrecord]
      rfl
    simp only [hl, Option.isSome_some, if_true] at hs
    rw [hsubscribers]
    cases hinfo : node.subscribers.lookup session with
    | none =>
      simp only [hinfo] at hs
      cases hs
      exact .inl ⟨rfl, rfl, _, rfl⟩
    | some info =>
      simp only [hinfo] at hs
      obtain ⟨t₁, hm, hs⟩ := bind_ok hs
      cases hs
      refine .inr ⟨info, rfl, ?_, ?_⟩
      · rw [← hrecord]
        exact h.mutate_edits hl hm rfl rfl
      · simp [ranking, hl]

theorem isSome_setNode {node' : NamespaceNode} (h : t.lookup path = some node) (p : Path) :
    ((t.setNode path node').lookup p).isSome = (t.lookup p).isSome := by
  rw [lookup_setNode]
  split
  · next hp => rw [hp, h]; rfl
  · rfl

/-- A new ranking changes no record and no other ranking. -/
theorem insertRanking_spec (h : t.WF) (path : Path) (propertyType : Nat) (id : RankingId) :
    (t.insertRanking path propertyType id).WF ∧
      (∀ p, (t.insertRanking path propertyType id).record p = t.record p) ∧
      (∀ p, ((t.insertRanking path propertyType id).lookup p).isSome = (t.lookup p).isSome) ∧
      ∀ p propertyType', (t.insertRanking path propertyType id).ranking p propertyType' =
        if p = path ∧ propertyType' = propertyType ∧ (t.lookup path).isSome then some id
        else t.ranking p propertyType' := by
  unfold insertRanking
  cases hnode : t.lookup path with
  | none => exact ⟨h, fun _ => rfl, fun _ => rfl, fun _ _ => by simp⟩
  | some node =>
    refine ⟨h.setNode hnode rfl, ?_, fun p => isSome_setNode hnode p, ?_⟩
    · intro p
      rw [record_setNode]
      split
      · next hp =>
        rw [hp, record_of_lookup hnode]
        rfl
      · rfl
    · intro p propertyType'
      unfold ranking
      rw [lookup_setNode]
      by_cases hp : p = path
      · subst hp
        simp only [if_pos, Option.bind_some, true_and, Option.isSome_some, and_true, hnode]
        split
        · next hT => rw [hT, AList.lookup_insert]
        · next hT => rw [AList.lookup_insert_ne hT]
      · simp [hp]

/-- The handle of a PUBLISH_NAMESPACE changes nothing else. -/
theorem addDraft14PublishNamespaceHandle_spec (h : t.WF) (path : Path) (id : Nat)
    (session : SessionId) (handle : HandleId) :
    (t.addDraft14PublishNamespaceHandle path id session handle).WF ∧
      (∀ p, ∃ handles, (t.addDraft14PublishNamespaceHandle path id session handle).record p =
        { t.record p with draft14PubNsHandles := handles }) ∧
      (∀ p, ((t.addDraft14PublishNamespaceHandle path id session handle).lookup p).isSome =
        (t.lookup p).isSome) ∧
      ∀ p propertyType, (t.addDraft14PublishNamespaceHandle path id session handle).ranking p
        propertyType = t.ranking p propertyType := by
  unfold addDraft14PublishNamespaceHandle
  cases hnode : t.lookup path with
  | none => exact ⟨h, fun _ => ⟨_, rfl⟩, fun _ => rfl, fun _ _ => rfl⟩
  | some node =>
    simp only
    split
    · refine ⟨h.setNode hnode rfl, ?_, fun p => isSome_setNode hnode p, ?_⟩
      · intro p
        rw [record_setNode]
        split
        · next hp =>
          rw [hp, record_of_lookup hnode]
          exact ⟨_, rfl⟩
        · exact ⟨_, rfl⟩
      · intro p propertyType
        unfold ranking
        rw [lookup_setNode]
        split
        · next hp => rw [hp, hnode]; rfl
        · rfl
    · exact ⟨h, fun _ => ⟨_, rfl⟩, fun _ => rfl, fun _ _ => rfl⟩

/-- A change of a record makes no ranking. -/
theorem Edits.refl (h : t.WF) (path : Path) : t.Edits t path (t.record path) := by
  refine ⟨h, fun p => ?_, fun _ _ _ => rfl⟩
  split
  · next hp => rw [hp]
  · rfl

theorem Edits.ranking_of_some {changed : NamespaceRecord} {propertyType : Nat} {id : RankingId}
    (h : t.Edits t' path changed) (hp : t'.ranking p propertyType = some id) :
    t.ranking p propertyType = some id := by
  have hlive : (t'.lookup p).isSome := by
    obtain ⟨node, hnode, -⟩ := Option.bind_eq_some_iff.mp hp
    rw [hnode]
    rfl
  rw [← h.ranking p hlive]
  exact hp

/-- Nothing is recorded at the start. -/
theorem record_start (p : Path) : ({} : NamespaceTree).record p = {} := by
  rw [record, lookup_start]
  split <;> rfl

theorem ranking_start (p : Path) (propertyType : Nat) :
    ({} : NamespaceTree).ranking p propertyType = none := by
  rw [ranking, lookup_start]
  split <;> rfl

theorem mem_children : q ∈ t.children p ↔ (t.lookup q).isSome = true ∧ ∃ name, q = name :: p := by
  unfold children lookup
  rw [List.mem_filter, ← AList.mem_keys, AList.lookup_isSome, decide_eq_true_eq]
  cases q with
  | nil => simp
  | cons name rest => simp

/-- A walk over levels meets nodes below those it starts from. -/
theorem suffix_of_mem_levels {depth : Nat} {level : List Path} (h : q ∈ t.levels depth level) :
    ∃ p ∈ level, p <:+ q := by
  induction depth generalizing level with
  | zero => cases h
  | succ depth ih =>
    rcases List.mem_append.mp h with hmem | hbelow
    · exact ⟨q, hmem, List.suffix_rfl⟩
    · obtain ⟨p', hp', hsuffix⟩ := ih hbelow
      obtain ⟨p, hp, hchild⟩ := List.mem_flatMap.mp hp'
      obtain ⟨-, name, rfl⟩ := mem_children.mp hchild
      exact ⟨p, hp, (List.suffix_cons name p).trans hsuffix⟩

/-- A walk over enough levels meets all of them. -/
theorem mem_levels (h : t.WF) {depth : Nat} {level : List Path} (hp : p ∈ level)
    (hsuffix : p <:+ q) (hlength : q.length < p.length + depth)
    (hlive : q = p ∨ (t.lookup q).isSome = true) : q ∈ t.levels depth level := by
  induction depth generalizing level p with
  | zero =>
    have := hsuffix.length_le
    omega
  | succ depth ih =>
    rw [levels, List.mem_append]
    by_cases heq : q = p
    · exact .inl (heq ▸ hp)
    · -- the node is below a child
      have hlive := hlive.resolve_left heq
      obtain ⟨above, rfl⟩ := hsuffix
      obtain rfl | ⟨above, name, rfl⟩ := above.eq_nil_or_concat
      · exact absurd rfl heq
      · have hsuffix : name :: p <:+ above.concat name ++ p := ⟨above, by simp⟩
        have hchild := mem_children.mpr ⟨h.suffix hlive hsuffix, name, rfl⟩
        refine .inr (ih (List.mem_flatMap.mpr ⟨p, hp, hchild⟩) hsuffix ?_ (.inr hlive))
        rw [List.length_cons]
        omega

theorem suffix_of_mem_subtree (h : q ∈ t.subtree path) : path <:+ q := by
  obtain ⟨p, hp, hbelow⟩ := suffix_of_mem_levels h
  rw [List.mem_singleton] at hp
  subst hp
  exact hbelow

/-- The walk over a subtree meets all its nodes. -/
theorem mem_subtree (h : t.WF) (hsuffix : path <:+ q) (hlive : (t.lookup q).isSome = true) :
    q ∈ t.subtree path := by
  refine mem_levels h (List.mem_singleton_self _) hsuffix ?_ (.inr hlive)
  have hkey : q ∈ t.nodes.keys := AList.mem_keys.mp (AList.lookup_isSome.mp hlive)
  have hle : q.length ≤ (t.nodes.keys.map List.length).foldr max 0 :=
    List.le_max_of_le (List.mem_map_of_mem hkey) (Nat.le_refl _)
  omega

/-- The rankings on the way from a node to the root. -/
theorem mem_rankingsFrom {propertyType : Nat} {id : RankingId} :
    (propertyType, id) ∈ t.rankingsFrom path ↔
      ∃ p, p <:+ path ∧ t.ranking p propertyType = some id := by
  have hnode : ∀ p, (propertyType, id) ∈ ((t.lookup p).elim [] fun node =>
      node.rankings.entries.map fun e => (e.1, e.2)) ↔ t.ranking p propertyType = some id := by
    intro p
    unfold ranking
    cases t.lookup p with
    | none => simp
    | some node => exact mem_entries_iff
  induction path with
  | nil =>
    rw [rankingsFrom, List.append_nil, hnode]
    constructor
    · intro hp
      exact ⟨[], List.suffix_rfl, hp⟩
    · rintro ⟨p, hsuffix, hp⟩
      rwa [List.suffix_nil.mp hsuffix] at hp
  | cons name path ih =>
    simp only [rankingsFrom, List.mem_append, hnode, ih]
    constructor
    · rintro (hp | ⟨p, hsuffix, hp⟩)
      · exact ⟨_, List.suffix_rfl, hp⟩
      · exact ⟨p, hsuffix.trans (List.suffix_cons _ _), hp⟩
    · rintro ⟨p, hsuffix, hp⟩
      rcases List.suffix_cons_iff.mp hsuffix with rfl | hsuffix
      · exact .inl hp
      · exact .inr ⟨p, hsuffix, hp⟩

end NamespaceTree

end Moqx
