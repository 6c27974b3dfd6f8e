import Moqx.Relay.FlatMap

/-! What is looked up along a namespace, against the flat map: the publisher of its longest prefix
and the subscribers of all its prefixes. -/
namespace Moqx

open Maps

namespace NamespaceTree

variable {t : NamespaceTree} {path d : Path} {ns : TrackNamespace} {m : FlatMap}
  {session : SessionId}

/-- The publisher of a namespace, or else that of the longest one above it that has one. -/
def FlatMap.nearestPublisher (m : FlatMap) : Path → Option SessionId
  | [] => (m []).publisher.map Prod.fst
  | name :: parent =>
    ((m (name :: parent).reverse).publisher.map Prod.fst).or (m.nearestPublisher parent)

theorem nearestPublisher_eq_none :
    m.nearestPublisher path = none ↔ ∀ p, p <:+ path → (m p.reverse).publisher = none := by
  induction path with
  | nil => simp [FlatMap.nearestPublisher]
  | cons name parent ih =>
    simp only [FlatMap.nearestPublisher, Option.or_eq_none_iff, Option.map_eq_none_iff, ih,
      List.suffix_cons_iff]
    constructor
    · rintro ⟨hself, habove⟩ p (rfl | hp)
      · exact hself
      · exact habove p hp
    · intro hall
      exact ⟨hall _ (.inl rfl), fun p hp => hall p (.inr hp)⟩

/-- No publisher is nearer than the one that was found. -/
theorem nearestPublisher_eq (hd : d <:+ path) (hfound : (m d.reverse).publisher.isSome)
    (hbelow : ∀ p, p <:+ path → (m p.reverse).publisher.isSome → p <:+ d) :
    m.nearestPublisher path = (m d.reverse).publisher.map Prod.fst := by
  induction path with
  | nil =>
    rw [List.suffix_nil.mp hd]
    rfl
  | cons name parent ih =>
    rcases List.suffix_cons_iff.mp hd with rfl | hparent
    · obtain ⟨publisher, hpublisher⟩ := Option.isSome_iff_exists.mp hfound
      rw [FlatMap.nearestPublisher, hpublisher]
      rfl
    · have hself : (m (name :: parent).reverse).publisher = none := by
        by_contra hsome
        exact not_suffix_of_cons hparent
          (hbelow _ List.suffix_rfl (Option.isSome_iff_ne_none.mpr hsome))
      rw [FlatMap.nearestPublisher, hself]
      exact ih hparent fun p hp => hbelow p (hp.trans (List.suffix_cons name parent))

/-- The walk for the longest prefix ends at the last node on the way, unless that is the root. -/
theorem walk_longest (ns : TrackNamespace) (h : t.Closed) (hp : (t.lookup path).isSome) :
    ∃ d, path <:+ d ∧ d <:+ ns.reverse ++ path ∧ (t.lookup d).isSome ∧
      (∀ p, p <:+ ns.reverse ++ path → (t.lookup p).isSome → p <:+ d) ∧
      (walk false .longest t path ns).2.1 = if d = [] ∧ ns ≠ [] then none else some d := by
  induction ns generalizing path with
  | nil => exact ⟨path, List.suffix_rfl, List.suffix_rfl, hp, fun p hp _ => hp, by simp [walk]⟩
  | cons name rest ih =>
    have hfull : (name :: rest).reverse ++ path = rest.reverse ++ name :: path := by simp
    rw [hfull]
    simp only [walk, Bool.false_eq_true, if_false]
    split
    · next hnext =>
      obtain ⟨d, hbelow, hd, hlive, hlast, heq⟩ := ih hnext
      have hne : d ≠ [] := by
        rintro rfl
        cases List.suffix_nil.mp hbelow
      refine ⟨d, (List.suffix_cons name path).trans hbelow, hd, hlive, hlast, ?_⟩
      simp only [heq, hne, false_and, if_false]
    · next hnext =>
      refine ⟨path, List.suffix_rfl, (List.suffix_cons name path).trans (List.suffix_append _ _),
        hp, ?_, ?_⟩
      · -- a node further down would have the missing one above it
        intro p hp' hlive
        rcases List.suffix_or_suffix_of_suffix hp' (List.suffix_append _ (name :: path)) with
          hs | hs
        · rcases List.suffix_cons_iff.mp hs with rfl | hs
          · exact absurd hlive hnext
          · exact hs
        · exact absurd (h.suffix hlive hs) hnext
      · by_cases hroot : path = [] <;> simp [hroot]

/-- No prefix of the namespace has a publisher; or the longest one that has a node has a publisher
too, and is not the root, unless the root is what is asked for. -/
def EndsAtPublisher (t : NamespaceTree) (ns : TrackNamespace) : Prop :=
  (∀ p, p <:+ ns.reverse → (t.record p).publisher = none) ∨
    ∃ d, d <:+ ns.reverse ∧ (d = [] → ns = []) ∧ (t.record d).publisher.isSome ∧
      ∀ p, p <:+ ns.reverse → (t.lookup p).isSome → p <:+ d

theorem view_reverse (t : NamespaceTree) (p : Path) : t.view p.reverse = t.record p := by
  rw [view, List.reverse_reverse]

theorem lookup_of_publisher (h : (t.record path).publisher.isSome) : (t.lookup path).isSome := by
  cases hl : t.lookup path with
  | none =>
    rw [record, hl] at h
    cases h
  | some node => rfl

/-- A session is found where the last node on the way has one. -/
theorem findPublisherSession_eq (h : t.WF) (ns : TrackNamespace) :
    ∃ d, d <:+ ns.reverse ∧ (t.lookup d).isSome ∧
      (∀ p, p <:+ ns.reverse → (t.lookup p).isSome → p <:+ d) ∧
      t.findPublisherSession ns =
        if d = [] ∧ ns ≠ [] then none else (t.record d).publisher.map Prod.fst := by
  obtain ⟨d, -, hd, hlive, hlast, heq⟩ := walk_longest ns h.parent h.root
  rw [List.append_nil] at hd hlast
  refine ⟨d, hd, hlive, hlast, ?_⟩
  obtain ⟨node, hnode⟩ := Option.isSome_iff_exists.mp hlive
  rw [findPublisherSession, findNode, heq, record_of_lookup hnode]
  split
  · rfl
  · simp [hnode, NamespaceNode.record, Option.map_map, Function.comp_def]

/-- The lookup finds the publisher of the longest prefix that has one exactly if the longest prefix
that has a node has a publisher, or no prefix has. -/
theorem findPublisherSession_longest_iff (ops : List Op) :
    ∃ t, ops.foldlM step {} = .ok t ∧ ∀ ns,
      (t.findPublisherSession ns =
        (ops.foldl FlatMap.apply fun _ => {}).nearestPublisher ns.reverse ↔
        t.EndsAtPublisher ns) := by
  obtain ⟨t, hrun, hwf, hview⟩ := run_view ops wf_start
  rw [show ({} : NamespaceTree).view = fun _ => {} from funext fun ns => record_start _] at hview
  refine ⟨t, hrun, fun ns => ?_⟩
  rw [← hview]
  obtain ⟨d, hd, hlive, hlast, heq⟩ := findPublisherSession_eq hwf ns
  rw [heq]
  by_cases hnone : ∀ p, p <:+ ns.reverse → (t.record p).publisher = none
  · have hnearest : t.view.nearestPublisher ns.reverse = none :=
      nearestPublisher_eq_none.mpr fun p hp => (t.view_reverse p).symm ▸ hnone p hp
    rw [hnearest, hnone d hd, Option.map_none, ite_self]
    exact ⟨fun _ => .inl hnone, fun _ => rfl⟩
  · constructor
    · intro hfound
      -- something is found, so that it is found at the last node
      have hsome : t.view.nearestPublisher ns.reverse ≠ none := by
        intro h
        refine hnone fun p hp => ?_
        rw [← view_reverse]
        exact nearestPublisher_eq_none.mp h p hp
      rw [← hfound] at hsome
      split at hsome
      · exact absurd rfl hsome
      · next hroot =>
        refine .inr ⟨d, hd, ?_, ?_, hlast⟩
        · intro hnil
          by_contra hne
          exact hroot ⟨hnil, hne⟩
        · exact Option.isSome_iff_ne_none.mpr fun h => hsome (by rw [h]; rfl)
    · rintro (h | ⟨e, he, hroot, hpublisher, hlast'⟩)
      · exact absurd h hnone
      · have hed := hlast e he (lookup_of_publisher hpublisher)
        have hde := hlast' d hd hlive
        obtain rfl := hed.eq_of_length (Nat.le_antisymm hed.length_le hde.length_le)
        rw [if_neg fun hc => hc.2 (hroot hc.1), ← view_reverse]
        rw [← view_reverse] at hpublisher
        refine (nearestPublisher_eq he hpublisher fun p hp hsome => ?_).symm
        rw [view_reverse] at hsome
        exact hlast p hp (lookup_of_publisher hsome)

/-- The node of a track below the namespace of a publisher hides the publisher, and so does the
root where the publisher is that of the empty namespace. -/
theorem nearer_node_hides_publisher :
    (([Op.setPublisher ["live"] 1 none "", .addPublish ⟨["live", "a"], "video"⟩ 2].foldlM step
      {}).toOption.map fun t => t.findPublisherSession ["live", "a"]) = some none ∧
    ([Op.setPublisher ["live"] 1 none "", .addPublish ⟨["live", "a"], "video"⟩ 2].foldl
      FlatMap.apply fun _ => {}).nearestPublisher ["a", "live"] = some 1 ∧
    (([Op.setPublisher [] 1 none ""].foldlM step {}).toOption.map fun t =>
      t.findPublisherSession ["live"]) = some none ∧
    ([Op.setPublisher [] 1 none ""].foldl FlatMap.apply fun _ => {}).nearestPublisher ["live"] =
      some 1 := by
  refine ⟨?_, ?_, ?_, ?_⟩ <;> decide +kernel

/-- In how many prefixes of a namespace a session is registered with a record. -/
def FlatMap.registrations (m : FlatMap) (ns : TrackNamespace)
    (x : SessionId × NamespaceSubscriberInfo) : Nat :=
  ns.inits.countP fun above => (m above).subscribers.lookup x.1 = some x.2

theorem subscribersAt_eq (p : Path) :
    t.subscribersAt p = (t.record p).subscribers.entries.map fun e => (e.1, e.2) := by
  unfold subscribersAt record
  cases t.lookup p <;> rfl

theorem count_entries {α β : Type} [DecidableEq α] [DecidableEq β] (m : AList (fun _ : α => β))
    (x : α × β) : (m.entries.map fun e => (e.1, e.2)).count x =
      if m.lookup x.1 = some x.2 then 1 else 0 := by
  have hnodup : (m.entries.map fun e => (e.1, e.2)).Nodup := by
    refine List.Nodup.of_map Prod.fst ?_
    rw [List.map_map]
    exact m.nodupKeys
  split
  · next hl => exact List.count_eq_one_of_mem hnodup (mem_entries_iff.mpr hl)
  · next hl => exact List.count_eq_zero_of_not_mem fun hmem => hl (mem_entries_iff.mp hmem)

theorem count_subscribersAbove (ns : TrackNamespace) (x : SessionId × NamespaceSubscriberInfo) :
    (t.subscribersAbove ns).count x = t.view.registrations ns x := by
  unfold subscribersAbove FlatMap.registrations
  induction ns.inits with
  | nil => rfl
  | cons above rest ih =>
    rw [List.flatMap_cons, List.count_append, ih, subscribersAt_eq, count_entries, List.countP_cons,
      Nat.add_comm]
    simp only [decide_eq_true_eq]
    rfl

/-- The lists of subscribers that the operations answer with have each registration at a prefix of
the namespace once, and nothing else. -/
theorem fanOut_complete (ops : List Op) :
    ∃ t, ops.foldlM step {} = .ok t ∧
      (∀ ns session callback peerID, ∃ t' result,
        t.setPublisher ns session callback peerID = .ok (t', result) ∧
          ∀ x, result.subscribers.count x =
            (ops.foldl FlatMap.apply fun _ => {}).registrations ns x) ∧
      (∀ ns session t' result, t.unpublishNamespace ns session = .ok (t', .ok result) →
        ∀ x, result.subscribers.count x =
          (ops.foldl FlatMap.apply fun _ => {}).registrations ns x) ∧
      ∀ ftn session, ∃ t' result, t.addPublish ftn session = .ok (t', result) ∧
        ∀ x, result.subscribers.count x =
          (ops.foldl FlatMap.apply fun _ => {}).registrations ftn.trackNamespace x := by
  obtain ⟨t, hrun, hwf, hview⟩ := run_view ops wf_start
  rw [show ({} : NamespaceTree).view = fun _ => {} from funext fun ns => record_start _] at hview
  refine ⟨t, hrun, ?_, ?_, ?_⟩
  · intro ns session callback peerID
    obtain ⟨⟨t', result⟩, hs⟩ := setPublisher_ok hwf ns session callback peerID
    obtain ⟨-, -, hsubscribers⟩ := setPublisher_edits hwf hs
    refine ⟨t', result, hs, fun x => ?_⟩
    rw [hsubscribers, count_subscribersAbove, hview]
  · intro ns session t' result hs x
    rcases unpublishNamespace_edits hwf hs with
      ⟨-, -, error, herror⟩ | ⟨-, -, found, hfound, hsubscribers⟩
    · cases herror
    · cases hfound
      rw [hsubscribers, count_subscribersAbove, hview]
  · intro ftn session
    obtain ⟨⟨t', result⟩, hs⟩ := addPublish_ok hwf ftn session
    obtain ⟨-, -, hsubscribers⟩ := addPublish_edits hwf hs
    refine ⟨t', result, hs, fun x => ?_⟩
    rw [hsubscribers, count_subscribersAbove, hview]

end NamespaceTree

end Moqx
