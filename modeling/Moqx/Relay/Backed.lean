import Moqx.Relay.RelayInvariant

/-! The tracks that are recorded in the namespace tree have entries in the registry, as long as no
publisher of a namespace is replaced that has published tracks under it: the replacement erases
the entries of these tracks and leaves their records. -/
namespace Moqx

open Maps Runs NamespaceTree SubscriptionRegistry

namespace MoqxRelay

variable {w w' : MoqxRelay} {op : Op}

/-- The track that a node records under a name. -/
def publishAt (w : MoqxRelay) (path : Path) (trackName : String) : Option SessionId :=
  (w.tree.record path).publishes.lookup trackName

/-- The entry of a track that a session publishes. -/
def PublishedBy (w : MoqxRelay) (ftn : FullTrackName) (session : SessionId) : Prop :=
  ∃ rsub, w.registry.find ftn = some rsub ∧ rsub.isPublish = true ∧
    rsub.upstream = some session ∧ rsub.handle.isSome = true

/-- Every record of a track is backed by the registry. -/
def Backed (w : MoqxRelay) : Prop :=
  ∀ path trackName session, w.publishAt path trackName = some session →
    w.PublishedBy ⟨path.reverse, trackName⟩ session

/-- A PUBLISH_NAMESPACE never replaces a publisher that has published tracks under the
namespace. -/
def SparesPublishes (w : MoqxRelay) (op : Op) : Prop :=
  match op with
  | .publishNamespace _ ns _ _ => ∀ e ∈ w.registry.subscriptions.entries,
      e.2.isPublish = true → ns.isPrefixOf e.1.trackNamespace = true → e.2.upstream.isSome = true →
        e.2.upstream ≠ (w.tree.record ns.reverse).publisher.map Prod.fst
  | _ => True

instance (w : MoqxRelay) (op : Op) : Decidable (w.SparesPublishes op) := by
  induction op using Op.casesOn <;> unfold SparesPublishes <;> infer_instance

variable {ftn : FullTrackName} {session : SessionId}

theorem PublishedBy.keeps (h : w.PublishedBy ftn session)
    (hkeeps : w.registry.KeepsPublished w'.registry) : w'.PublishedBy ftn session := by
  obtain ⟨rsub, hfind, hpublish, hupstream, hhandle⟩ := h
  obtain ⟨now, hfind'⟩ := hkeeps.kept hfind hpublish
  exact ⟨_, hfind', hpublish, hupstream, hhandle⟩

theorem Backed.keeps (h : w.Backed) (hkeeps : w.registry.KeepsPublished w'.registry)
    (hpublishes : ∀ p, (w'.tree.record p).publishes = (w.tree.record p).publishes) :
    w'.Backed := by
  intro path trackName session hrecord
  unfold publishAt at hrecord
  rw [hpublishes] at hrecord
  exact (h path trackName session hrecord).keeps hkeeps

theorem Backed.steady (h : w.Backed) (hsteady : w.Steady w') : w'.Backed := by
  refine h.keeps hsteady.registry ?_
  intro p
  obtain ⟨handles, hrecord⟩ := hsteady.record p
  rw [hrecord]

theorem backed_start (config : RelayConfig) : ({ config := config } : MoqxRelay).Backed := by
  intro path trackName session hrecord
  unfold publishAt at hrecord
  rw [record_start] at hrecord
  cases hrecord

theorem publishes_of_edits {t t' : NamespaceTree} {path : Path} {changed : NamespaceRecord}
    (h : t.Edits t' path changed) (hchanged : changed.publishes = (t.record path).publishes)
    (p : Path) : (t'.record p).publishes = (t.record p).publishes := by
  rw [h.record]
  split
  · next hp => rw [hp, hchanged]
  · rfl

/-- The entries that go with a replaced publisher are not those of its tracks. -/
theorem withoutReplaced_keepsPublished {ns : TrackNamespace} {callback : Option CallbackId}
    {peerID : String} {replacedSession : Option SessionId}
    (hspares : w.SparesPublishes (.publishNamespace session ns callback peerID))
    (hreplaced : replacedSession = (w.tree.record ns.reverse).publisher.map Prod.fst) :
    w.registry.KeepsPublished (withoutReplaced w.registry ns replacedSession) := by
  cases replacedSession with
  | none => exact .refl _
  | some replaced =>
    rw [withoutReplaced, Option.elim_some]
    refine ⟨?_, ?_⟩
    · intro x rsub hx _
      rw [find_removeIf] at hx
      exact ⟨rsub, (Option.filter_eq_some_iff.mp hx).1, rfl⟩
    · intro x rsub hx hpublish
      refine ⟨rsub.lastObjectTime, ?_⟩
      rw [find_removeIf, hx, Option.filter_some, if_pos]
      have hne := hspares ⟨x, rsub⟩ (List.of_mem_dlookup hx) hpublish
      rw [← hreplaced] at hne
      by_cases hbelow : ns.isPrefixOf x.trackNamespace = true
      · have hupstream : rsub.upstream ≠ some replaced := by
          intro heq
          exact hne hbelow (by rw [heq]; rfl) heq
        simp [hupstream]
      · simp [hbelow]

theorem Backed.publish {requestID : RequestID} {handle : HandleId} {extensions : IntExtensions}
    (h : w.Backed) (hw : w.Base) (hs : w.publish session ftn requestID handle extensions = .ok w') :
    w'.Backed := by
  rcases publish_keeps hs with rfl | ⟨tree, added, hadd, hkeeps⟩
  · exact h
  · intro path trackName recorded hrecord
    obtain ⟨hedits, -⟩ := addPublish_edits hw.tree hadd
    have hfind := find_of_publish hkeeps
    unfold publishAt at hrecord
    rw [hkeeps.tree] at hrecord
    change (tree.record path).publishes.lookup trackName = some recorded at hrecord
    rw [hedits.record] at hrecord
    by_cases hname : (⟨path.reverse, trackName⟩ : FullTrackName) = ftn
    · -- the track itself: its record and its entry are both new
      subst hname
      simp only [List.reverse_reverse, if_true, AList.lookup_insert, Option.some.injEq] at hrecord
      subst hrecord
      exact ⟨_, (hfind _).trans (if_pos rfl), rfl, rfl, rfl⟩
    · have hold : w.publishAt path trackName = some recorded := by
        unfold publishAt
        split at hrecord
        · next hpath =>
          have hne : trackName ≠ ftn.trackName := by
            intro heq
            apply hname
            rw [hpath, heq, List.reverse_reverse]
          rw [AList.lookup_insert_ne hne] at hrecord
          rw [hpath]
          exact hrecord
        · exact hrecord
      obtain ⟨rsub, hx, hpublish⟩ := h path trackName recorded hold
      exact ⟨rsub, (hfind _).trans ((if_neg hname).trans hx), hpublish⟩

/-- The end of a track leaves no record of it. -/
theorem Backed.unpublished {tree : NamespaceTree} (h : w.Backed) (hw : w.Base)
    (htree : (if (w.registry.find ftn).any fun rsub => rsub.isPublish then
        w.tree.unpublishTrack ftn.trackNamespace ftn.trackName
      else .ok w.tree) = .ok tree) (path : Path) (trackName : String) :
    (tree.record path).publishes.lookup trackName =
      if (⟨path.reverse, trackName⟩ : FullTrackName) = ftn then none
      else w.publishAt path trackName := by
  split at htree
  · have hedits := unpublishTrack_edits hw.tree htree
    rw [hedits.record]
    by_cases hname : (⟨path.reverse, trackName⟩ : FullTrackName) = ftn
    · subst hname
      simp [AList.lookup_erase]
    · rw [if_neg hname]
      unfold publishAt
      split
      · next hpath =>
        have hne : trackName ≠ ftn.trackName := by
          intro heq
          apply hname
          rw [hpath, heq, List.reverse_reverse]
        rw [AList.lookup_erase_ne hne, hpath]
      · rfl
  · next hother =>
    cases htree
    split
    · next hname =>
      subst hname
      cases hrecord : (w.tree.record path).publishes.lookup trackName with
      | none => rfl
      | some session =>
        obtain ⟨rsub, hfind, hpublish, -⟩ := h path trackName session hrecord
        exact absurd (by rw [hfind]; exact hpublish) hother
    · rfl

theorem Backed.publishDone {id : FilterId} (h : w.Backed) (hw : w.Base)
    (hs : w.publishDone id = .ok w') :
    w'.Backed ∧ ∀ filter, w.filters.lookup id = some filter →
      w'.publishAt filter.ftn.trackNamespace.reverse filter.ftn.trackName = none := by
  obtain ⟨filter, tree, empty, hfilter, htree, hquiet⟩ := publishDone_keeps hs
  have hrecords := h.unpublished hw htree
  have hlookup : ∀ path trackName, w'.publishAt path trackName =
      (tree.record path).publishes.lookup trackName := by
    intro path trackName
    unfold publishAt
    rw [hquiet.tree]
  refine ⟨?_, ?_⟩
  · intro path trackName session hrecord
    rw [hlookup, hrecords] at hrecord
    split at hrecord
    · cases hrecord
    · next hname =>
      obtain ⟨rsub, hfind, hpublish⟩ := h path trackName session hrecord
      refine ⟨rsub, ?_, hpublish⟩
      rw [hquiet.registry]
      exact (find_onPublisherTerminated hname).trans hfind
  · intro filter' hfilter'
    rw [hfilter] at hfilter'
    cases hfilter'
    rw [hlookup, hrecords, if_pos]
    rw [List.reverse_reverse]

theorem Backed.joined {subNs : SubscribeNamespace} {tree : NamespaceTree} (h : w.Backed)
    (hw : w.Base) (hadd : w.tree.addNamespaceSubscriber subNs.trackNamespacePrefix session
      (SubscribeNamespace.info subNs (w.subscribeHandle subNs)) = .ok tree) :
    (w.joined session subNs tree).Backed := by
  have hedits := addNamespaceSubscriber_edits hw.tree hadd
  refine h.keeps ?_ ?_
  · rw [(joined_quiet session subNs tree).registry]
    exact .refl _
  · intro p
    rw [(joined_quiet _ _ _).tree]
    have hrecord := publishes_of_edits hedits rfl p
    cases subNs.trackFilter with
    | none => exact hrecord
    | some filter =>
      simp only [Option.elim_some]
      split
      · exact hrecord
      · rw [(insertRanking_spec hedits.wf _ _ _).2.1]
        exact hrecord

theorem Backed.of_keeps (h : w.Backed) (hkeeps : w.Quiet w') : w'.Backed := by
  refine h.keeps ?_ fun p => by rw [hkeeps.tree]
  rw [hkeeps.registry]
  exact .refl _

theorem Backed.onEmpty {id : ForwarderId} (h : w.Backed) (hs : w.onEmpty id = .ok w') :
    w'.Backed := by
  rcases onEmpty_spec hs with rfl | ⟨handle, rfl⟩ | ⟨forwarder, rsub, outputs, -, hfind, hended,
    rfl⟩
  · exact h
  · exact h.of_keeps (announces_send _).toQuiet
  · intro path trackName session hrecord
    obtain ⟨rsub', hfind', hpublish, hupstream, hhandle⟩ := h path trackName session hrecord
    refine ⟨rsub', ?_, hpublish, hupstream, hhandle⟩
    change (w.registry.remove forwarder.fullTrackName).find _ = _
    rw [find_remove, if_neg, hfind']
    intro heq
    rw [heq, hfind] at hfind'
    cases hfind'
    rcases hended with hnone | hnot
    · rw [hnone] at hhandle
      cases hhandle
    · rw [hnot] at hpublish
      cases hpublish

theorem Backed.step (h : w.Backed) (hw : w.Base) (hspares : w.SparesPublishes op)
    (hs : w.step op = .ok w') : w'.Backed := by
  by_cases hidle : op.idles = true
  · exact h.steady (hw.idle hidle hs).toSteady
  cases op with
  | publishNamespace session ns callback peerID =>
    rcases doPublishNamespace_spec hs with rfl | ⟨tree, result, hset, hannounces⟩
    · exact h
    · obtain ⟨hedits, hreplaced, -⟩ := setPublisher_edits hw.tree hset
      have hbacked : ({ w with
          tree := tree
          registry := withoutReplaced w.registry ns result.replacedSession } : MoqxRelay).Backed :=
        h.keeps (withoutReplaced_keepsPublished hspares hreplaced) (publishes_of_edits hedits rfl)
      exact hbacked.of_keeps hannounces.toQuiet
  | publishNamespaceDone session ns =>
    rcases doPublishNamespaceDone_spec hw.tree hs with rfl | ⟨tree, hedits, hannounces⟩
    · exact h
    · have hbacked : ({ w with tree := tree } : MoqxRelay).Backed :=
        h.keeps (.refl _) (publishes_of_edits hedits rfl)
      exact hbacked.of_keeps hannounces.toQuiet
  | publish session ftn requestID handle extensions => exact h.publish hw hs
  | object filter extensions =>
    have hobserves := object_observes hs
    exact h.steady hobserves.steady
  | publishDone filter => exact (h.publishDone hw hs).1
  | subscribeNamespace session subNs =>
    rcases subscribeNamespace_spec hs with rfl | ⟨tree, hadd, hannounces⟩
    · exact h
    · exact (h.joined hw hadd).of_keeps hannounces.toQuiet
  | unsubscribeNamespace session prefix_ =>
    obtain ⟨tree, _, hedits, hcall⟩ := unsubscribeNamespace_edits hw.tree hs
    have hbacked : ({ w with tree := tree } : MoqxRelay).Backed :=
      h.keeps (.refl _) (publishes_of_edits hedits rfl)
    rcases hcall with rfl | ⟨id, n, rfl⟩
    · exact hbacked
    · exact hbacked.of_keeps (quiet_callRanking _ _)
  | onEmpty forwarder => exact h.onEmpty hs
  | _ => exact absurd rfl hidle

/-- If no publisher of a namespace is replaced that has published tracks under it, then in every
state each recorded track has the entry of a PUBLISH by the recorded session; a walk of
SUBSCRIBE_NAMESPACE finds a forwarder for each of them; and the end of a track removes its
record. -/
theorem tree_publishes_backed (h : Reached SparesPublishes w) :
    (∀ path trackName session, w.publishAt path trackName = some session →
      ∃ rsub, w.registry.find ⟨path.reverse, trackName⟩ = some rsub ∧ rsub.isPublish = true ∧
        rsub.upstream = some session) ∧
    (∀ session subNs tree w₁, w.tree.addNamespaceSubscriber subNs.trackNamespacePrefix session
        (SubscribeNamespace.info subNs (w.subscribeHandle subNs)) = .ok tree →
      (w.joined session subNs tree).Announces w₁ → ∀ path trackName,
        (w₁.publishAt path trackName).isSome →
        (w₁.registry.getForwarder ⟨path.reverse, trackName⟩).isSome) ∧
    ∀ id filter w', w.filters.lookup id = some filter → w.step (.publishDone id) = .ok w' →
      w'.publishAt filter.ftn.trackNamespace.reverse filter.ftn.trackName = none := by
  obtain ⟨hw, hbacked⟩ := h.keeps (I := Backed) backed_start
    fun _ _ _ hw hbacked hq hs => hbacked.step hw hq hs
  refine ⟨?_, ?_, ?_⟩
  · intro path trackName session hrecord
    obtain ⟨rsub, hfind, hpublish, hupstream, -⟩ := hbacked path trackName session hrecord
    exact ⟨rsub, hfind, hpublish, hupstream⟩
  · intro session subNs tree w₁ hadd hannounces path trackName hsome
    obtain ⟨publisher, hrecord⟩ := Option.isSome_iff_exists.mp hsome
    have hwalk : w₁.Backed := (hbacked.joined hw hadd).of_keeps hannounces.toQuiet
    obtain ⟨rsub, hfind, -⟩ := hwalk path trackName publisher hrecord
    rw [SubscriptionRegistry.getForwarder, hfind]
    rfl
  · intro id filter w' hfilter hs
    exact (hbacked.publishDone hw hs).2 filter hfilter

/-- A session announces a namespace and publishes a track under it. -/
def announcedAndPublished : List Op :=
  [.publishNamespace 1 ["live"] none "", .publish 1 ⟨["live"], "video"⟩ 0 10 fun _ => none]

theorem tree_publishes_backed_published : ∃ w rsub,
    runMeets step SparesPublishes {} announcedAndPublished = some w ∧
      w.publishAt ["live"] "video" = some 1 ∧
      w.registry.find ⟨["live"], "video"⟩ = some rsub ∧ rsub.upstream = some 1 := by
  obtain ⟨w, hreach, hrun, hp⟩ := reaches_of_elim step SparesPublishes {} announcedAndPublished
    (fun w => w.publishAt ["live"] "video" = some 1) (by decide +kernel)
  simp only [decide_eq_true_eq] at hp
  obtain ⟨rsub, hfind, -, hupstream⟩ :=
    (tree_publishes_backed ⟨{}, hreach⟩).1 ["live"] "video" 1 hp
  exact ⟨w, rsub, hrun, hp, hfind, hupstream⟩

/-- If the session announces the namespace once more, the track loses its entry but not its
record. -/
theorem announcedAgain_unbacked :
    (runMeets step (fun _ _ => True) {}
      (announcedAndPublished ++ [.publishNamespace 1 ["live"] none ""])).map
      (fun w => (w.publishAt ["live"] "video", w.registry.find ⟨["live"], "video"⟩)) =
      some (some 1, none) := by
  decide +kernel

end MoqxRelay

end Moqx
