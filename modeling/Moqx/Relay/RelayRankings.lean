import Moqx.Relay.RankingView
import Moqx.Relay.RelayInvariant

/-! The rankings of the relay: each is well formed, and the ranking of a property at a node is
nobody else's. -/
namespace Moqx

open Maps NamespaceTree

namespace MoqxRelay

variable {w w' w'' : MoqxRelay} {op : Op}

structure RankingsOk (w : MoqxRelay) : Prop where
  wf : ∀ ⦃id ranking⦄, w.rankings.lookup id = some ranking → ranking.WF
  ranking_lt : ∀ ⦃id ranking⦄, w.rankings.lookup id = some ranking → id < w.nextId
  there : ∀ ⦃p propertyType id⦄, w.tree.ranking p propertyType = some id →
    ∃ ranking, w.rankings.lookup id = some ranking
  apart : ∀ ⦃p propertyType p' propertyType' id⦄, w.tree.ranking p propertyType = some id →
    w.tree.ranking p' propertyType' = some id → p = p' ∧ propertyType = propertyType'

theorem rankingsOk_start (config : RelayConfig) :
    ({ config := config } : MoqxRelay).RankingsOk where
  wf := fun _ _ h => by cases h
  ranking_lt := fun _ _ h => by cases h
  there := by
    intro p propertyType id h
    rw [ranking_start] at h
    cases h
  apart := by
    intro p propertyType p' propertyType' id h
    rw [ranking_start] at h
    cases h

/-- No ranking is made, in the table or in the tree. -/
theorem RankingsOk.of_eq (h : w.RankingsOk) (hrankings : w'.rankings = w.rankings)
    (htree : ∀ p propertyType id, w'.tree.ranking p propertyType = some id →
      w.tree.ranking p propertyType = some id) (hnext : w.nextId ≤ w'.nextId) :
    w'.RankingsOk := by
  refine ⟨?_, ?_, ?_, ?_⟩
  · rw [hrankings]
    exact h.wf
  · intro id ranking hid
    rw [hrankings] at hid
    exact Nat.lt_of_lt_of_le (h.ranking_lt hid) hnext
  · intro p propertyType id hp
    rw [hrankings]
    exact h.there (htree _ _ _ hp)
  · intro p propertyType p' propertyType' id hp hp'
    exact h.apart (htree _ _ _ hp) (htree _ _ _ hp')

theorem RankingsOk.of_keeps (h : w.RankingsOk) (hkeeps : w.Quiet w')
    (hrankings : w'.rankings = w.rankings) : w'.RankingsOk :=
  h.of_eq hrankings (fun p propertyType id hp => by rwa [hkeeps.tree] at hp) hkeeps.nextId

theorem RankingsOk.works {P : RankingId → PropertyRanking.Op → Prop}
    {F : FilterId → (TopNFilter → TopNFilter) → Prop} (h : w.RankingsOk)
    (hworks : Works P F w w') : w'.RankingsOk := by
  have hobserves := hworks.observes
  have hranking : ∀ id, _ := fun id => hworks.ranking (R := fun r r' => r.WF → r'.WF) id
    (fun _ hwf => hwf) fun _ _ op _ hwf hr => (hwf hr).step op
  have hold : ∀ {id ranking'}, w'.rankings.lookup id = some ranking' →
      ∃ ranking, w.rankings.lookup id = some ranking ∧ (ranking.WF → ranking'.WF) := by
    intro id ranking' hid
    cases hbefore : w.rankings.lookup id with
    | none =>
      rw [(hranking id).1 hbefore] at hid
      cases hid
    | some ranking =>
      obtain ⟨ranking₁, hafter, hwf⟩ := (hranking id).2 ranking hbefore
      rw [hid] at hafter
      cases hafter
      exact ⟨ranking, rfl, hwf⟩
  refine ⟨?_, ?_, ?_, ?_⟩
  · intro id ranking' hid
    obtain ⟨ranking, hbefore, hwf⟩ := hold hid
    exact hwf (h.wf hbefore)
  · intro id ranking' hid
    obtain ⟨ranking, hbefore, -⟩ := hold hid
    exact Nat.lt_of_lt_of_le (h.ranking_lt hbefore) hobserves.nextId
  · intro p propertyType id hp
    rw [hobserves.tree] at hp
    obtain ⟨ranking, hbefore⟩ := h.there hp
    obtain ⟨ranking', hafter, -⟩ := (hranking id).2 ranking hbefore
    exact ⟨ranking', hafter⟩
  · rw [hobserves.tree]
    exact h.apart

theorem emptyRanking_wf (config : RelayConfig) :
    PropertyRanking.WF
      { maxDeselected := config.maxDeselected
        idleTimeout := config.idleTimeout
        sweepThrottle := 0 } where
  tracks := ⟨List.nodup_nil, List.nodup_nil, fun _ he => by cases he⟩
  counts := fun _ => rfl
  groups := fun _ _ h => by cases h

theorem RankingsOk.withRanking (h : w.RankingsOk) (htree : w.tree.WF) (path : Path)
    (propertyType : Nat) : (w.withRanking path propertyType).RankingsOk := by
  obtain ⟨-, -, -, hspec⟩ := insertRanking_spec htree path propertyType w.nextId
  have hcases : ∀ {p T id}, (w.withRanking path propertyType).tree.ranking p T = some id →
      (p = path ∧ T = propertyType ∧ id = w.nextId) ∨ w.tree.ranking p T = some id := by
    intro p T id hp
    have hp' := (hspec p T).symm.trans hp
    split at hp'
    · next hnew =>
      cases hp'
      exact .inl ⟨hnew.1, hnew.2.1, rfl⟩
    · exact .inr hp'
  have hlt : ∀ {p T id}, w.tree.ranking p T = some id → id < w.nextId := by
    intro p T id hp
    obtain ⟨ranking, hid⟩ := h.there hp
    exact h.ranking_lt hid
  refine ⟨?_, ?_, ?_, ?_⟩
  · intro id ranking hid
    rcases lookup_insert_some hid with ⟨-, rfl⟩ | ⟨-, hid⟩
    · exact emptyRanking_wf w.config
    · exact h.wf hid
  · intro id ranking hid
    change id < w.nextId + 1
    rcases lookup_insert_some hid with ⟨rfl, -⟩ | ⟨-, hid⟩
    · exact Nat.lt_succ_self _
    · exact Nat.lt_succ_of_lt (h.ranking_lt hid)
  · intro p T id hp
    rcases hcases hp with ⟨-, -, rfl⟩ | hp
    · exact ⟨_, AList.lookup_insert _⟩
    · obtain ⟨ranking, hid⟩ := h.there hp
      exact ⟨ranking, (AList.lookup_insert_ne (Nat.ne_of_lt (hlt hp))).trans hid⟩
  · intro p T p' T' id hp hp'
    rcases hcases hp with ⟨rfl, rfl, rfl⟩ | hp
    · rcases hcases hp' with ⟨rfl, rfl, -⟩ | hp'
      · exact ⟨rfl, rfl⟩
      · exact absurd (hlt hp') (Nat.lt_irrefl _)
    · rcases hcases hp' with ⟨-, -, rfl⟩ | hp'
      · exact absurd (hlt hp) (Nat.lt_irrefl _)
      · exact h.apart hp hp'

theorem RankingsOk.joinRanking (h : w.RankingsOk) (htree : w.tree.WF) (session : SessionId)
    (path : Path) (forward : Bool) (filter : TrackFilter) :
    (w.joinRanking session path forward filter).RankingsOk := by
  rw [joinRanking_eq]
  have hcall : ∀ (w : MoqxRelay) id op, w.RankingsOk → (w.callRanking id op).RankingsOk :=
    fun w id op hw => hw.works (P := fun _ _ => True) (F := fun _ _ => True)
      (Works.refl.call trivial)
  apply hcall
  cases w.tree.ranking path filter.propertyType with
  | some ranking => exact h
  | none => exact (h.withRanking htree path filter.propertyType).works (works_withRetro _ _)

/-- The relay when a PUBLISH is recorded in the registry and in the tree. -/
theorem RankingsOk.recorded {tree : NamespaceTree} {path : Path} {changed : NamespaceRecord}
    (h : w.RankingsOk) (hedits : w.tree.Edits tree path changed) (session : SessionId)
    (ftn : FullTrackName) (requestID : RequestID) (handle : HandleId)
    (extensions : IntExtensions) :
    (w.recorded session ftn requestID handle extensions tree).RankingsOk := by
  have hkeeps := recorded_keeps (w := w) session ftn requestID handle extensions tree
  refine h.of_eq (endEvicted_attends _).rankings ?_
    (Nat.le_trans (Nat.le_add_right _ 2) hkeeps.nextId)
  intro p T id hp
  rw [hkeeps.tree] at hp
  exact hedits.ranking_of_some hp

theorem RankingsOk.publish {session : SessionId} {ftn : FullTrackName} {requestID : RequestID}
    {handle : HandleId} {extensions : IntExtensions} (h : w.RankingsOk) (hw : w.Base)
    (hs : w.publish session ftn requestID handle extensions = .ok w') : w'.RankingsOk := by
  rcases publish_spec hs with rfl | ⟨tree, added, forward, hadd, -, rfl⟩
  · exact h
  · obtain ⟨hedits, -⟩ := addPublish_edits hw.tree hadd
    have hrecorded := h.recorded hedits session ftn requestID handle extensions
    have hentered := hrecorded.works (works_entered ftn session extensions (w.nextId + 1)
      added.rankings)
    have hpassed := hentered.of_keeps (announces_passOn session w.nextId added.subscribers).toQuiet
      (announces_passOn _ _ _).rankings
    exact hpassed.of_keeps (announces_send _).toQuiet rfl

theorem RankingsOk.step (h : w.RankingsOk) (hw : w.Base) (hs : w.step op = .ok w') :
    w'.RankingsOk := by
  by_cases hidle : op.idles = true
  · have hidle := hw.idle hidle hs
    refine h.of_eq hidle.rankings ?_ hidle.nextId
    intro p T id hp
    rwa [hidle.ranking] at hp
  cases op with
  | publishNamespace session ns callback peerID =>
    rcases doPublishNamespace_spec hs with rfl | ⟨tree, result, hset, hannounces⟩
    · exact h
    · obtain ⟨hedits, -⟩ := setPublisher_edits hw.tree hset
      refine h.of_eq hannounces.rankings ?_ hannounces.nextId
      intro p T id hp
      rw [hannounces.tree] at hp
      exact hedits.ranking_of_some hp
  | publishNamespaceDone session ns =>
    rcases doPublishNamespaceDone_spec hw.tree hs with rfl | ⟨tree, hedits, hannounces⟩
    · exact h
    · refine h.of_eq hannounces.rankings ?_ hannounces.nextId
      intro p T id hp
      rw [hannounces.tree] at hp
      exact hedits.ranking_of_some hp
  | publish session ftn requestID handle extensions => exact h.publish hw hs
  | object filter extensions =>
    obtain ⟨_, observed, -, hworks⟩ := works_object hs
    have hobserved : ({ w with observed := observed } : MoqxRelay).RankingsOk :=
      ⟨h.wf, h.ranking_lt, h.there, h.apart⟩
    exact hobserved.works hworks
  | publishDone filter =>
    obtain ⟨found, tree, -, htree, rfl⟩ := publishDone_spec hs
    have hended := h.works (works_endedInRankings filter found)
    obtain ⟨_, hedits⟩ := publishDone_edits hw.tree htree
    have hquiet := quiet_endedInRankings (w := w) filter found
    have hdone : ({ w.endedInRankings filter found with
        tree := tree
        registry := (w.registry.onPublisherTerminated found.ftn
          (w.endedInRankings filter found).forwarderEmpty).1 } : MoqxRelay).RankingsOk := by
      refine hended.of_eq rfl ?_ (Nat.le_refl _)
      intro p T id hp
      rw [hquiet.tree]
      exact hedits.ranking_of_some hp
    exact hdone.of_keeps (quiet_setForwarder _ _) (rankings_setForwarder _ _)
  | subscribeNamespace session subNs =>
    rcases subscribeNamespace_spec hs with rfl | ⟨tree, hadd, hannounces⟩
    · exact h
    · have hedits := addNamespaceSubscriber_edits hw.tree hadd
      have hadded : ({ w with tree := tree, nextId := w.nextId + 1 } : MoqxRelay).RankingsOk :=
        h.of_eq rfl (fun p T id hp => hedits.ranking_of_some hp) (Nat.le_succ _)
      have hjoined : (w.joined session subNs tree).RankingsOk := by
        unfold joined
        cases subNs.trackFilter with
        | none => exact hadded
        | some filter => exact hadded.joinRanking hedits.wf _ _ _ _
      exact hjoined.of_keeps hannounces.toQuiet hannounces.rankings
  | unsubscribeNamespace session prefix_ =>
    obtain ⟨tree, _, hedits, hcall⟩ := unsubscribeNamespace_edits hw.tree hs
    have hremoved : ({ w with tree := tree } : MoqxRelay).RankingsOk :=
      h.of_eq rfl (fun p T id hp => hedits.ranking_of_some hp) (Nat.le_refl _)
    rcases hcall with rfl | ⟨id, n, rfl⟩
    · exact hremoved
    · exact hremoved.works (P := fun _ _ => True) (F := fun _ _ => True) (Works.refl.call trivial)
  | onEmpty forwarder =>
    rcases onEmpty_spec hs with rfl | ⟨handle, rfl⟩ | ⟨_, _, outputs, -, -, -, rfl⟩
    · exact h
    · exact h.of_keeps (announces_send _).toQuiet rfl
    · exact ⟨h.wf, h.ranking_lt, h.there, h.apart⟩
  | _ => exact absurd rfl hidle

end MoqxRelay

end Moqx
