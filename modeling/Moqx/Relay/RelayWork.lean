import Moqx.Relay.RelaySteps

/-! What a step of the relay can do to the entries of the registry, and to the rankings and the
chains that observe for them. -/
namespace Moqx

open Maps SubscriptionRegistry

/-- Two states of one chain. -/
structure TopNFilter.SameChain (filter filter' : TopNFilter) : Prop where
  ftn : filter'.ftn = filter.ftn
  activityTarget : filter'.activityTarget = filter.activityTarget
  publisherSession : filter'.publisherSession = filter.publisherSession
  forwarder : filter'.forwarder = filter.forwarder

theorem TopNFilter.SameChain.refl (filter : TopNFilter) : filter.SameChain filter :=
  ⟨rfl, rfl, rfl, rfl⟩

theorem TopNFilter.SameChain.trans {filter filter' filter'' : TopNFilter}
    (h : filter.SameChain filter') (h' : filter'.SameChain filter'') :
    filter.SameChain filter'' :=
  ⟨h'.ftn.trans h.ftn, h'.activityTarget.trans h.activityTarget,
    h'.publisherSession.trans h.publisherSession, h'.forwarder.trans h.forwarder⟩

namespace SubscriptionRegistry

variable {r r' : SubscriptionRegistry} {ftn : FullTrackName}

/-- Every entry was there before, with the same forwarder and chain and from the same kind of
call. -/
def Survives (r r' : SubscriptionRegistry) : Prop :=
  ∀ ⦃x rsub'⦄, r'.find x = some rsub' → ∃ rsub, r.find x = some rsub ∧
    rsub'.entry = rsub.entry ∧ rsub'.forwarder = rsub.forwarder ∧
    rsub'.isPublish = rsub.isPublish ∧ rsub'.topNFilter = rsub.topNFilter

theorem Survives.refl (r : SubscriptionRegistry) : r.Survives r :=
  fun _ rsub h => ⟨rsub, h, rfl, rfl, rfl, rfl⟩

theorem remove_survives (r : SubscriptionRegistry) (ftn : FullTrackName) :
    r.Survives (r.remove ftn) := by
  intro x rsub' hx
  rw [find_remove] at hx
  split at hx
  · cases hx
  · exact ⟨rsub', hx, rfl, rfl, rfl, rfl⟩

theorem removeIf_survives (r : SubscriptionRegistry)
    (predicate : FullTrackName → RelaySubscription → Bool) : r.Survives (r.removeIf predicate) := by
  intro x rsub' hx
  rw [find_removeIf] at hx
  exact ⟨rsub', (Option.filter_eq_some_iff.mp hx).1, rfl, rfl, rfl, rfl⟩

theorem onPublisherTerminated_survives (r : SubscriptionRegistry) (ftn : FullTrackName)
    (empty : ForwarderId → Bool) : r.Survives (r.onPublisherTerminated ftn empty).1 := by
  unfold onPublisherTerminated
  cases h : r.find ftn with
  | none => exact .refl r
  | some rsub =>
    simp only
    split
    · exact remove_survives r ftn
    · intro x rsub' hx
      rcases lookup_insert_some hx with ⟨rfl, rfl⟩ | ⟨-, hx⟩
      · exact ⟨rsub, h, rfl, rfl, rfl, rfl⟩
      · exact ⟨rsub', hx, rfl, rfl, rfl, rfl⟩

/-- Only the entry of the track changes when its publisher ends. -/
theorem find_onPublisherTerminated {x : FullTrackName} {empty : ForwarderId → Bool}
    (h : x ≠ ftn) : (r.onPublisherTerminated ftn empty).1.find x = r.find x := by
  unfold onPublisherTerminated
  cases hfind : r.find ftn with
  | none => rfl
  | some rsub =>
    simp only
    split
    · rw [find_remove, if_neg h]
    · exact AList.lookup_insert_ne h

theorem Touches.survives (h : r.Touches r') : r.Survives r' := by
  intro x rsub' hx
  obtain ⟨rsub, hx, heq⟩ := h.find hx
  exact ⟨rsub, hx, by rw [heq], by rw [heq], by rw [heq], by rw [heq]⟩

variable {pending : UpstreamSubscribePending} {handle : HandleId} {replaced : Bool}
  {requestID : RequestID} {upstream : SessionId}

theorem failAndRemove_survives (h : r.failAndRemove pending = .ok r') : r.Survives r' := by
  rcases failAndRemove_eq_ok h with rfl | ⟨rsub, hfind, -, hp, rfl⟩
  · exact .refl _
  · rw [fail_eq_remove hfind hp]
    exact remove_survives _ _

theorem completeSubscription_survives
    (h : r.completeSubscription pending handle requestID upstream = .ok (r', replaced)) :
    r.Survives r' := by
  rcases completeSubscription_eq_ok h with rfl | ⟨rsub, hfind, -, -, rfl⟩
  · exact .refl _
  · intro x rsub' hx
    rcases lookup_insert_some hx with ⟨rfl, rfl⟩ | ⟨-, hx⟩
    · exact ⟨rsub, hfind, rfl, rfl, rfl, rfl⟩
    · exact ⟨rsub', hx, rfl, rfl, rfl, rfl⟩

theorem completeSubscription_wf (hr : r.WF)
    (h : r.completeSubscription pending handle requestID upstream = .ok (r', replaced)) :
    r'.WF := by
  rcases completeSubscription_eq_ok h with rfl | ⟨rsub, hfind, -, -, rfl⟩
  · exact hr
  · exact complete_wf hr hfind rfl

/-- The entries of PUBLISHes are the same, up to the times of their last objects. -/
structure KeepsPublished (r r' : SubscriptionRegistry) : Prop where
  find : ∀ ⦃x rsub'⦄, r'.find x = some rsub' → rsub'.isPublish = true →
    ∃ rsub, r.find x = some rsub ∧ rsub' = { rsub with lastObjectTime := rsub'.lastObjectTime }
  kept : ∀ ⦃x rsub⦄, r.find x = some rsub → rsub.isPublish = true →
    ∃ now, r'.find x = some { rsub with lastObjectTime := now }

theorem Touches.keepsPublished (h : r.Touches r') : r.KeepsPublished r' :=
  ⟨fun _ _ hx _ => h.find hx, fun _ _ hx _ => h.kept hx⟩

theorem KeepsPublished.refl (r : SubscriptionRegistry) : r.KeepsPublished r :=
  (Touches.refl r).keepsPublished

theorem KeepsPublished.trans (h : r.KeepsPublished r') (h' : r'.KeepsPublished r'') :
    r.KeepsPublished r'' := by
  refine ⟨?_, ?_⟩
  · intro x rsub'' hx hpublish
    obtain ⟨rsub', hx', heq'⟩ := h'.find hx hpublish
    have hpublish' : rsub'.isPublish = true := by rw [heq'] at hpublish; exact hpublish
    obtain ⟨rsub, hx, heq⟩ := h.find hx' hpublish'
    refine ⟨rsub, hx, ?_⟩
    rw [heq', heq]
  · intro x rsub hx hpublish
    obtain ⟨now, hx'⟩ := h.kept hx hpublish
    obtain ⟨now', hx''⟩ := h'.kept hx' hpublish
    exact ⟨now', hx''⟩

/-- Only an entry that no PUBLISH has made is changed, into one that no PUBLISH has made. -/
theorem keepsPublished_of_ne (ftn : FullTrackName) (hother : ∀ x, x ≠ ftn → r'.find x = r.find x)
    (hbefore : ∀ rsub, r.find ftn = some rsub → rsub.isPublish = false)
    (hafter : ∀ rsub, r'.find ftn = some rsub → rsub.isPublish = false) :
    r.KeepsPublished r' := by
  refine ⟨?_, ?_⟩
  · intro x rsub hx hpublish
    have hne : x ≠ ftn := by
      intro heq
      subst heq
      rw [hafter rsub hx] at hpublish
      cases hpublish
    exact ⟨rsub, (hother x hne).symm.trans hx, rfl⟩
  · intro x rsub hx hpublish
    have hne : x ≠ ftn := by
      intro heq
      subst heq
      rw [hbefore rsub hx] at hpublish
      cases hpublish
    exact ⟨rsub.lastObjectTime, (hother x hne).trans hx⟩

theorem failAndRemove_keepsPublished
    (hapart : ∀ rsub, r.find pending.ftn = some rsub → rsub.isPublish = true →
      rsub.forwarder ≠ pending.weakForwarder) (h : r.failAndRemove pending = .ok r') :
    r.KeepsPublished r' := by
  rcases failAndRemove_eq_ok h with rfl | ⟨rsub, hfind, hforwarder, hp, rfl⟩
  · exact .refl _
  · rw [fail_eq_remove hfind hp]
    refine keepsPublished_of_ne pending.ftn ?_ ?_ ?_
    · intro x hne
      rw [find_remove, if_neg hne]
    · intro rsub' hfind'
      rw [hfind] at hfind'
      cases hfind'
      exact Bool.eq_false_of_not_eq_true fun hpublish => hapart rsub hfind hpublish hforwarder
    · intro rsub' hfind'
      rw [find_remove, if_pos rfl] at hfind'
      cases hfind'

theorem completeSubscription_keepsPublished
    (hapart : ∀ rsub, r.find pending.ftn = some rsub → rsub.isPublish = true →
      rsub.forwarder ≠ pending.weakForwarder)
    (h : r.completeSubscription pending handle requestID upstream = .ok (r', replaced)) :
    r.KeepsPublished r' := by
  rcases completeSubscription_eq_ok h with rfl | ⟨rsub, hfind, hforwarder, -, rfl⟩
  · exact .refl _
  · have hnot : rsub.isPublish = false :=
      Bool.eq_false_of_not_eq_true fun hpublish => hapart rsub hfind hpublish hforwarder
    refine keepsPublished_of_ne pending.ftn ?_ ?_ ?_
    · intro x hne
      exact AList.lookup_insert_ne hne
    · intro rsub' hfind'
      rw [hfind] at hfind'
      cases hfind'
      exact hnot
    · intro rsub' hfind'
      have := (AList.lookup_insert _).symm.trans hfind'
      cases this
      exact hnot

end SubscriptionRegistry

namespace MoqxRelay

variable {w w' w'' : MoqxRelay}

@[simp] theorem rankings_setFilter (id : FilterId) (change : TopNFilter → TopNFilter) :
    (w.setFilter id change).rankings = w.rankings := by
  unfold setFilter
  split <;> rfl

@[simp] theorem lookup_filters_setFilter (id : FilterId) (change : TopNFilter → TopNFilter)
    (id' : FilterId) :
    (w.setFilter id change).filters.lookup id' =
      if id' = id then (w.filters.lookup id).map change else w.filters.lookup id' := by
  unfold setFilter
  split
  · next hnone =>
    split
    · next h => rw [h, hnone, Option.map_none]
    · rfl
  · next filter hsome =>
    split
    · next h => rw [h, hsome, Option.map_some]; exact AList.lookup_insert _
    · next h => exact AList.lookup_insert_ne h

theorem sameExtensions_setFilter (id : FilterId) (change : TopNFilter → TopNFilter) :
    w.SameExtensions (w.setFilter id change) := by
  unfold setFilter
  split
  · exact .of_eq rfl
  · exact .of_eq rfl

/-- The value of a property that a track was published with. -/
def announcedValue (w : MoqxRelay) (propertyType : Nat) (x : FullTrackName) : Option Nat :=
  (w.registry.find x).bind fun rsub =>
    ((w.forwarders.lookup rsub.forwarder).map fun forwarder => forwarder.extensions).bind
      fun extensions => extensions propertyType

theorem announcedValue_eq (hregistry : w'.registry = w.registry) (h : w.SameExtensions w')
    (propertyType : Nat) (x : FullTrackName) :
    w'.announcedValue propertyType x = w.announcedValue propertyType x := by
  unfold announcedValue
  rw [hregistry]
  cases w.registry.find x with
  | none => rfl
  | some rsub => rw [Option.bind_some, Option.bind_some, h]

/-- Work on rankings and chains: calls that meet `P`, changes of chains that meet `F`, and times
written through the pointers of chains. -/
inductive Works (P : RankingId → PropertyRanking.Op → Prop)
    (F : FilterId → (TopNFilter → TopNFilter) → Prop) (w : MoqxRelay) : MoqxRelay → Prop where
  | refl : Works P F w w
  | call {w' : MoqxRelay} {id : RankingId} {op : PropertyRanking.Op} (h : Works P F w w')
      (hP : P id op) : Works P F w (w'.callRanking id op)
  | filter {w' : MoqxRelay} {id : FilterId} {change : TopNFilter → TopNFilter}
      (h : Works P F w w') (hF : F id change) : Works P F w (w'.setFilter id change)
  | touch {w' w'' : MoqxRelay} {target : Option EntryId} (h : Works P F w w')
      (htouch : w'.touchActivityTarget target = .ok w'') : Works P F w w''

section Works

variable {P : RankingId → PropertyRanking.Op → Prop}
  {F : FilterId → (TopNFilter → TopNFilter) → Prop}

theorem Works.trans (h : Works P F w w') (h' : Works P F w' w'') : Works P F w w'' := by
  induction h' with
  | refl => exact h
  | call _ hP ih => exact ih.call hP
  | filter _ hF ih => exact ih.filter hF
  | touch _ htouch ih => exact ih.touch htouch

theorem Works.sameExtensions (h : Works P F w w') : w.SameExtensions w' := by
  induction h with
  | refl => exact .of_eq rfl
  | call _ _ ih => exact ih.trans (sameExtensions_callRanking _ _)
  | filter _ _ ih => exact ih.trans (sameExtensions_setFilter _ _)
  | touch _ htouch ih =>
    obtain ⟨registry, -, rfl⟩ := touchActivityTarget_spec htouch
    exact ih

theorem works_foldl {α : Type} {f : MoqxRelay → α → MoqxRelay} (l : List α) (w : MoqxRelay)
    (hf : ∀ (w : MoqxRelay), ∀ a ∈ l, Works P F w (f w a)) : Works P F w (l.foldl f w) := by
  induction l generalizing w with
  | nil => exact .refl
  | cons a l ih =>
    exact (hf w a List.mem_cons_self).trans
      (ih (f w a) fun w b hb => hf w b (List.mem_cons_of_mem a hb))

/-- What every allowed call does to a ranking, the work does to it. -/
theorem Works.ranking {R : PropertyRanking → PropertyRanking → Prop} (id : RankingId)
    (h : Works P F w w') (hrefl : ∀ r, R r r)
    (hcall : ∀ r r' op, P id op → R r r' → R r (r'.step op).1) :
    (w.rankings.lookup id = none → w'.rankings.lookup id = none) ∧
      ∀ r, w.rankings.lookup id = some r → ∃ r', w'.rankings.lookup id = some r' ∧ R r r' := by
  induction h with
  | refl => exact ⟨fun hnone => hnone, fun r hr => ⟨r, hr, hrefl r⟩⟩
  | @call w' id' op _ hP ih =>
    simp only [lookup_rankings_callRanking]
    split
    · next heq =>
      subst heq
      refine ⟨fun hnone => by rw [ih.1 hnone]; rfl, fun r hr => ?_⟩
      obtain ⟨r', hr', hR⟩ := ih.2 r hr
      exact ⟨_, by rw [hr']; rfl, hcall r r' op hP hR⟩
    · exact ih
  | filter _ _ ih =>
    rw [rankings_setFilter]
    exact ih
  | touch _ htouch ih =>
    obtain ⟨registry, -, rfl⟩ := touchActivityTarget_spec htouch
    exact ih

/-- What every allowed change does to a chain, the work does to it. -/
theorem Works.chain {R : TopNFilter → TopNFilter → Prop} (id : FilterId) (h : Works P F w w')
    (hrefl : ∀ f, R f f) (hchange : ∀ f f' change, F id change → R f f' → R f (change f')) :
    (w.filters.lookup id = none → w'.filters.lookup id = none) ∧
      ∀ f, w.filters.lookup id = some f → ∃ f', w'.filters.lookup id = some f' ∧ R f f' := by
  induction h with
  | refl => exact ⟨fun hnone => hnone, fun f hf => ⟨f, hf, hrefl f⟩⟩
  | call _ _ ih =>
    rw [filters_callRanking]
    exact ih
  | @filter w' id' change _ hF ih =>
    simp only [lookup_filters_setFilter]
    split
    · next heq =>
      subst heq
      refine ⟨fun hnone => by rw [ih.1 hnone]; rfl, fun f hf => ?_⟩
      obtain ⟨f', hf', hR⟩ := ih.2 f hf
      exact ⟨_, by rw [hf']; rfl, hchange f f' change hF hR⟩
    · exact ih
  | touch _ htouch ih =>
    obtain ⟨registry, -, rfl⟩ := touchActivityTarget_spec htouch
    exact ih

/-- Work touches neither the tree nor what is sent. -/
theorem Works.observes (h : Works P F w w') : w.Observes w' := by
  induction h with
  | refl => exact .refl w
  | call _ _ ih => exact ih.trans (quiet_callRanking _ _).observes
  | filter _ _ ih => exact ih.trans (quiet_setFilter _ _).observes
  | touch _ htouch ih =>
    obtain ⟨registry, htouches, rfl⟩ := touchActivityTarget_spec htouch
    exact ih.trans ⟨htouches, rfl, rfl, Nat.le_refl _⟩

theorem Works.mono {P' : RankingId → PropertyRanking.Op → Prop}
    {F' : FilterId → (TopNFilter → TopNFilter) → Prop} (h : Works P F w w')
    (hP : ∀ id op, P id op → P' id op) (hF : ∀ id change, F id change → F' id change) :
    Works P' F' w w' := by
  induction h with
  | refl => exact .refl
  | call _ hp ih => exact ih.call (hP _ _ hp)
  | filter _ hf ih => exact ih.filter (hF _ _ hf)
  | touch _ htouch ih => exact ih.touch htouch

/-- A loop whose turns depend on what the work leaves alone. -/
theorem works_foldl_of {I : MoqxRelay → Prop} {α : Type} {f : MoqxRelay → α → MoqxRelay}
    (l : List α) (w : MoqxRelay) (hw : I w)
    (hf : ∀ w, I w → ∀ a ∈ l, Works P F w (f w a) ∧ I (f w a)) :
    Works P F w (l.foldl f w) := by
  induction l generalizing w with
  | nil => exact .refl
  | cons a l ih =>
    have hturn := hf w hw a List.mem_cons_self
    exact hturn.1.trans
      (ih (f w a) hturn.2 fun w hw b hb => hf w hw b (List.mem_cons_of_mem a hb))

end Works

/-- A chain gets an observer. -/
def Registers (propertyType : Nat) (ranking : RankingId) (change : TopNFilter → TopNFilter) :
    Prop :=
  change = fun filter =>
    { filter with observers := filter.observers.insert propertyType ⟨none, ranking⟩ }

/-- The chain of a recorded track below a node gets an observer. -/
def ObservesEntry (r : SubscriptionRegistry) (t : NamespaceTree) (path : Path)
    (propertyType : Nat) (ranking : RankingId) (id : FilterId)
    (change : TopNFilter → TopNFilter) : Prop :=
  (∃ x rsub, r.find x = some rsub ∧ rsub.topNFilter = some id ∧
    path <:+ x.trackNamespace.reverse ∧
    ((t.record x.trackNamespace.reverse).publishes.lookup x.trackName).isSome = true) ∧
    Registers propertyType ranking change

/-- A recorded track below a node enters a ranking. -/
def RetroCall (t : NamespaceTree) (values : FullTrackName → Option Nat) (path : Path)
    (ranking id : RankingId) (op : PropertyRanking.Op) : Prop :=
  id = ranking ∧ ∃ x session, op = .registerTrack x (values x) session ∧
    path <:+ x.trackNamespace.reverse ∧
    (t.record x.trackNamespace.reverse).publishes.lookup x.trackName = some session

/-- The calls that are made when an object is observed. -/
def ObserveCall (ftn : FullTrackName) (_ : RankingId) (op : PropertyRanking.Op) : Prop :=
  (∃ value activity, op = .updateSortValue ftn value activity) ∨
    ∃ activity, op = .sweepIdle activity

/-- What passes through a chain changes what it has seen. -/
def Passes (chain id : FilterId) (change : TopNFilter → TopNFilter) : Prop :=
  id = chain ∧ ∀ filter : TopNFilter, filter.SameChain (change filter) ∧
    (change filter).ended = filter.ended

/-- The changes of a chain in the course of its life. -/
def KeepsChain (_ : FilterId) (change : TopNFilter → TopNFilter) : Prop :=
  ∀ filter : TopNFilter, filter.SameChain (change filter)

theorem Registers.sameChain {propertyType : Nat} {ranking : RankingId}
    {change : TopNFilter → TopNFilter} (h : Registers propertyType ranking change)
    (filter : TopNFilter) : filter.SameChain (change filter) := by
  subst h
  exact ⟨rfl, rfl, rfl, rfl⟩

variable {extensions : IntExtensions}

variable {P : RankingId → PropertyRanking.Op → Prop}

theorem works_enterRanking {ftn : FullTrackName} {session : SessionId} {filter : FilterId}
    {ranking : Nat × RankingId}
    (hP : P ranking.2 (.registerTrack ftn (extensions ranking.1) session)) :
    Works P (fun id change => id = filter ∧ ∃ propertyType id', Registers propertyType id' change)
      w (enterRanking ftn session extensions filter w ranking) :=
  (Works.refl.call hP).filter ⟨rfl, ranking.1, ranking.2, rfl⟩

/-- A published track enters its rankings, which then observe its chain. -/
theorem works_entered (ftn : FullTrackName) (session : SessionId) (extensions : IntExtensions)
    (filter : FilterId) (rankings : List (Nat × RankingId)) :
    Works (fun id op => ∃ propertyType, (propertyType, id) ∈ rankings ∧
        op = .registerTrack ftn (extensions propertyType) session)
      (fun id change => id = filter ∧ ∃ propertyType id', Registers propertyType id' change) w
      (rankings.foldl (enterRanking ftn session extensions filter) w) :=
  works_foldl _ _ fun _ ranking hmem => works_enterRanking ⟨ranking.1, hmem, rfl⟩

theorem works_observeRetro (path : Path) (propertyType : Nat) (ranking : RankingId)
    (publish : String × SessionId)
    (h : (w.tree.record path).publishes.lookup publish.1 = some publish.2) :
    Works P (ObservesEntry w.registry w.tree path propertyType ranking) w
      (observeRetro path.reverse propertyType ranking w publish) := by
  unfold observeRetro
  split
  · exact .refl
  · next filter hfilter =>
    obtain ⟨view, hview, hchain⟩ := Option.bind_eq_some_iff.mp hfilter
    obtain ⟨rsub, hrsub, rfl⟩ := Option.map_eq_some_iff.mp hview
    refine Works.refl.filter ⟨⟨_, rsub, hrsub, hchain, ?_, ?_⟩, rfl⟩
    · rw [List.reverse_reverse]
    · rw [List.reverse_reverse, h]
      rfl

theorem retroTrack_eq (ns : TrackNamespace) (propertyType : Nat) (publish : String × SessionId) :
    (w.retroTrack ns propertyType publish).trackName = publish.1 ∧
      (w.retroTrack ns propertyType publish).publishSession = publish.2 ∧
      (w.retroTrack ns propertyType publish).initialPropertyValue =
        w.announcedValue propertyType ⟨ns, publish.1⟩ := by
  unfold retroTrack announcedValue getTopNView
  cases w.registry.find ⟨ns, publish.1⟩ with
  | none => exact ⟨rfl, rfl, rfl⟩
  | some rsub => exact ⟨rfl, rfl, rfl⟩

theorem works_registerRetro (propertyType : Nat) (ranking : RankingId) (path : Path) :
    Works (RetroCall w.tree (w.announcedValue propertyType) path ranking)
      (ObservesEntry w.registry w.tree path propertyType ranking) w
      (registerRetro propertyType ranking w path) := by
  unfold registerRetro
  cases hnode : w.tree.lookup path with
  | none => exact .refl
  | some node =>
    have hrecord := NamespaceTree.record_of_lookup hnode
    refine Works.trans (works_foldl_of (I := fun w₁ => w₁.registry = w.registry ∧
      w₁.tree = w.tree) _ _ ⟨rfl, rfl⟩ ?_) (works_foldl _ _ ?_)
    · intro w₁ hw₁ publish hpublish
      have hquiet := quiet_observeRetro (w := w₁) path.reverse propertyType ranking publish
      have hworks := works_observeRetro
        (P := RetroCall w.tree (w.announcedValue propertyType) path ranking) (w := w₁)
        path propertyType ranking publish (by
          rw [hw₁.2, hrecord]
          exact NamespaceTree.mem_entries_iff.mp hpublish)
      rw [hw₁.1, hw₁.2] at hworks
      exact ⟨hworks, hquiet.registry.trans hw₁.1, hquiet.tree.trans hw₁.2⟩
    · intro w₁ track htrack
      obtain ⟨publish, hpublish, rfl⟩ :=
        List.mem_map.mp ((List.mem_insertionSort _).mp htrack)
      obtain ⟨hname, hsession, hvalue⟩ := retroTrack_eq (w := w) path.reverse propertyType publish
      rw [hname, hsession, hvalue]
      refine Works.refl.call ⟨rfl, _, _, rfl, ?_, ?_⟩
      · rw [List.reverse_reverse]
      · rw [List.reverse_reverse, hrecord]
        exact NamespaceTree.mem_entries_iff.mp hpublish

theorem works_observeValue {id : FilterId} {filter : TopNFilter} {propertyType : Nat}
    {entry : ObserverEntry} {value : Nat} {allows : Bool}
    (h : w.observeValue id filter propertyType entry value allows = .ok w') :
    Works (ObserveCall filter.ftn) (Passes id) w w' := by
  obtain ⟨w₁, htouch, h⟩ := bind_ok h
  cases h
  have hupdate : Works (ObserveCall filter.ftn) (Passes id) w
      (if entry.lastSeenValue = some value then w₁
      else
        (w₁.setFilter id fun filter => { filter with
          observers := filter.observers.insert propertyType
            { entry with lastSeenValue := some value } }
        ).callRanking entry.ranking (.updateSortValue filter.ftn value w₁.activity)) := by
    have htouched : Works (ObserveCall filter.ftn) (Passes id) w w₁ := Works.refl.touch htouch
    split
    · exact htouched
    · refine Works.call (htouched.filter ?_) (.inl ⟨_, _, rfl⟩)
      exact ⟨rfl, fun _ => ⟨⟨rfl, rfl, rfl, rfl⟩, rfl⟩⟩
  split
  · exact hupdate.call (.inr ⟨_, rfl⟩)
  · exact hupdate

theorem works_observeValues {id : FilterId} {filter : TopNFilter} {allows fired fired' : Bool}
    {entries : List (Nat × ObserverEntry)}
    (h : observeValues id filter extensions allows entries w fired = .ok (w', fired')) :
    Works (ObserveCall filter.ftn) (Passes id) w w' := by
  induction entries generalizing w fired with
  | nil =>
    cases h
    exact .refl
  | cons e rest ih =>
    simp only [observeValues] at h
    split at h
    · exact ih h
    · obtain ⟨w₁, hvalue, h⟩ := bind_ok h
      exact (works_observeValue hvalue).trans (ih h)

/-- An object is recorded in the history, and then there is only work. -/
theorem works_object {id : FilterId} (h : w.object id extensions = .ok w') :
    ∃ filter observed, w.filters.lookup id = some filter ∧
      Works (ObserveCall filter.ftn) (Passes id) { w with observed := observed } w' := by
  unfold object at h
  split at h
  · cases h
  · next filter hfilter =>
    obtain ⟨⟨w₁, fired⟩, hvalues, h⟩ := bind_ok h
    cases h
    refine ⟨filter, _, hfilter, (works_observeValues hvalues).trans ?_⟩
    split
    · exact Works.refl.filter ⟨rfl, fun _ => ⟨⟨rfl, rfl, rfl, rfl⟩, rfl⟩⟩
    · exact .refl

theorem object_observes {id : FilterId} (h : w.object id extensions = .ok w') : w.Observes w' := by
  obtain ⟨filter, observed, -, hworks⟩ := works_object h
  have h := hworks.observes
  exact ⟨h.registry, h.tree, h.firstSubscribes, h.nextId⟩

/-- The end of a chain removes its track from the rankings that observe it. -/
theorem works_endedInRankings (id : FilterId) (filter : TopNFilter) :
    Works (fun ranking op => op = .removeTrack filter.ftn ∧
        ∃ e ∈ filter.observers.entries, e.2.ranking = ranking)
      (fun id' change => id' = id ∧ change = fun filter => { filter with ended := true }) w
      (w.endedInRankings id filter) :=
  (Works.refl.filter ⟨rfl, rfl⟩).trans
    (works_foldl _ _ fun _ e he => Works.refl.call ⟨rfl, e, he, rfl⟩)

theorem filters_endedInRankings (id : FilterId) (filter : TopNFilter) :
    (w.endedInRankings id filter).filters =
      (w.setFilter id fun filter => { filter with ended := true }).filters := by
  unfold endedInRankings
  generalize (w.setFilter id fun filter => { filter with ended := true }) = w₁
  induction filter.observers.entries generalizing w₁ with
  | nil => rfl
  | cons e rest ih =>
    rw [List.foldl_cons, ih, filters_callRanking]

/-- Every chain was there before. -/
def SameChains (w w' : MoqxRelay) : Prop :=
  ∀ ⦃id filter'⦄, w'.filters.lookup id = some filter' →
    ∃ filter, w.filters.lookup id = some filter ∧ filter.SameChain filter'

theorem SameChains.of_eq (h : w'.filters = w.filters) : w.SameChains w' := by
  intro id filter hfilter
  rw [h] at hfilter
  exact ⟨filter, hfilter, .refl _⟩

theorem SameChains.trans (h : w.SameChains w') (h' : w'.SameChains w'') : w.SameChains w'' := by
  intro id filter'' hfilter
  obtain ⟨filter', hfilter', hsame'⟩ := h' hfilter
  obtain ⟨filter, hfilter, hsame⟩ := h hfilter'
  exact ⟨filter, hfilter, hsame.trans hsame'⟩

/-- The chains after some work, from what every allowed change does to them. -/
theorem Works.chain_of_some {F : FilterId → (TopNFilter → TopNFilter) → Prop}
    {R : TopNFilter → TopNFilter → Prop} {id : FilterId} {filter' : TopNFilter}
    (h : Works P F w w') (hfilter' : w'.filters.lookup id = some filter') (hrefl : ∀ f, R f f)
    (hchange : ∀ f f' change, F id change → R f f' → R f (change f')) :
    ∃ filter, w.filters.lookup id = some filter ∧ R filter filter' := by
  have hchain := h.chain (R := R) id hrefl hchange
  cases hfilter : w.filters.lookup id with
  | none =>
    rw [hchain.1 hfilter] at hfilter'
    cases hfilter'
  | some filter =>
    obtain ⟨filter₁, hfilter₁, hsame⟩ := hchain.2 filter hfilter
    rw [hfilter'] at hfilter₁
    cases hfilter₁
    exact ⟨filter, rfl, hsame⟩

theorem Works.sameChains {F : FilterId → (TopNFilter → TopNFilter) → Prop} (h : Works P F w w')
    (hF : ∀ id change, F id change → KeepsChain id change) : w.SameChains w' :=
  fun _ _ hfilter' => h.chain_of_some hfilter' .refl
    fun _ f' change hchange hsame => hsame.trans (hF _ change hchange f')

/-- The relay with a new ranking at a node. -/
def withRanking (w : MoqxRelay) (path : Path) (propertyType : Nat) : MoqxRelay :=
  { w with
    rankings := w.rankings.insert w.nextId
      { maxDeselected := w.config.maxDeselected
        idleTimeout := w.config.idleTimeout
        sweepThrottle := 0 }
    tree := w.tree.insertRanking path propertyType w.nextId
    nextId := w.nextId + 1 }

/-- The relay when a new ranking has been given the tracks that are there already. -/
def withRetro (w : MoqxRelay) (path : Path) (propertyType : Nat) : MoqxRelay :=
  ((w.withRanking path propertyType).tree.subtree path).foldl
    (registerRetro propertyType w.nextId) (w.withRanking path propertyType)

/-- A session joins the ranking of its filter, which is made first if there is none. -/
theorem joinRanking_eq (session : SessionId) (path : Path) (forward : Bool)
    (filter : TrackFilter) :
    w.joinRanking session path forward filter =
      ((w.tree.ranking path filter.propertyType).elim (w.withRetro path filter.propertyType)
        fun _ => w).callRanking ((w.tree.ranking path filter.propertyType).getD w.nextId)
        (.addSessionToTopNGroup filter.maxSelected session forward) := by
  unfold joinRanking getOrCreateRanking
  cases w.tree.ranking path filter.propertyType <;> rfl

/-- A SUBSCRIBE_NAMESPACE that is not refused either has no filter, joins a ranking, or makes one
first. -/
theorem subscribeNamespace_joins {session : SessionId} {subNs : SubscribeNamespace}
    (h : w.subscribeNamespace session subNs = .ok w') :
    w' = w ∨ ∃ tree, w.tree.addNamespaceSubscriber subNs.trackNamespacePrefix session
        (SubscribeNamespace.info subNs (w.subscribeHandle subNs)) = .ok tree ∧
      (({ w with tree := tree, nextId := w.nextId + 1 } : MoqxRelay).Announces w' ∨
        ∃ filter, subNs.trackFilter = some filter ∧
          ((∃ id, (({ w with tree := tree, nextId := w.nextId + 1 } : MoqxRelay).callRanking id
              (.addSessionToTopNGroup filter.maxSelected session subNs.forward)).Announces w') ∨
            tree.ranking subNs.trackNamespacePrefix.reverse filter.propertyType = none ∧
            ((({ w with tree := tree, nextId := w.nextId + 1 } : MoqxRelay).withRetro
              subNs.trackNamespacePrefix.reverse filter.propertyType).callRanking (w.nextId + 1)
              (.addSessionToTopNGroup filter.maxSelected session
                subNs.forward)).Announces w')) := by
  rcases subscribeNamespace_spec h with rfl | ⟨tree, hadd, hannounces⟩
  · exact .inl rfl
  refine .inr ⟨tree, hadd, ?_⟩
  unfold joined at hannounces
  cases hfilter : subNs.trackFilter with
  | none =>
    rw [hfilter] at hannounces
    exact .inl hannounces
  | some filter =>
    rw [hfilter, Option.elim_some, joinRanking_eq] at hannounces
    refine .inr ⟨filter, rfl, ?_⟩
    cases hranking : tree.ranking subNs.trackNamespacePrefix.reverse filter.propertyType with
    | some id =>
      simp only [hranking, Option.elim_some, Option.getD_some] at hannounces
      exact .inl ⟨id, hannounces⟩
    | none =>
      simp only [hranking, Option.elim_none, Option.getD_none] at hannounces
      exact .inr ⟨rfl, hannounces⟩

theorem works_withRetro (path : Path) (propertyType : Nat) :
    Works (RetroCall (w.withRanking path propertyType).tree (w.announcedValue propertyType) path
        w.nextId)
      (ObservesEntry w.registry (w.withRanking path propertyType).tree path propertyType w.nextId)
      (w.withRanking path propertyType) (w.withRetro path propertyType) := by
  refine works_foldl_of (I := fun w₁ => w₁.registry = w.registry ∧
    w₁.tree = (w.withRanking path propertyType).tree ∧ w.SameExtensions w₁) _ _
    ⟨rfl, rfl, .of_eq rfl⟩ ?_
  rintro w₁ ⟨hregistry, htree, hextensions⟩ path' hpath'
  have hquiet := quiet_registerRetro (w := w₁) propertyType w.nextId path'
  have hworks := works_registerRetro (w := w₁) propertyType w.nextId path'
  rw [hregistry, htree] at hworks
  have hbelow := NamespaceTree.suffix_of_mem_subtree hpath'
  refine ⟨hworks.mono ?_ ?_, hquiet.registry.trans hregistry,
    hquiet.tree.trans htree, hextensions.trans hworks.sameExtensions⟩
  · rintro id op ⟨hid, x, session, rfl, hsuffix, hrecord⟩
    refine ⟨hid, x, session, ?_, hbelow.trans hsuffix, hrecord⟩
    rw [announcedValue_eq hregistry hextensions]
  · rintro id change ⟨⟨x, rsub, hx, hid, hsuffix, hrecord⟩, hchange⟩
    exact ⟨⟨x, rsub, hx, hid, hbelow.trans hsuffix, hrecord⟩, hchange⟩

theorem sameChains_joinRanking (session : SessionId) (path : Path) (forward : Bool)
    (filter : TrackFilter) : w.SameChains (w.joinRanking session path forward filter) := by
  refine SameChains.trans ?_ (.of_eq (filters_callRanking _ _))
  cases w.tree.ranking path filter.propertyType with
  | some ranking => exact .of_eq rfl
  | none =>
    have hwithRanking : w.SameChains (w.withRanking path filter.propertyType) := .of_eq rfl
    exact hwithRanking.trans ((works_withRetro path filter.propertyType).sameChains
      fun _ _ h => h.2.sameChain)

theorem sameChains_joined (session : SessionId) (subNs : SubscribeNamespace)
    (tree : NamespaceTree) : w.SameChains (w.joined session subNs tree) := by
  unfold joined
  cases subNs.trackFilter with
  | none => exact .of_eq rfl
  | some filter => exact SameChains.trans (.of_eq rfl) (sameChains_joinRanking _ _ _ _)

theorem forwardChanged_announces {id : ForwarderId} {forward : Bool}
    (h : w.forwardChanged id forward = .ok w') : w.Announces w' := by
  unfold forwardChanged at h
  split at h
  · cases h
  split at h
  · cases h
    exact .refl w
  split at h
  · cases h
    exact .refl w
  split at h
  · cases h
    exact .refl w
  split at h
  · cases h
  · cases h
    exact announces_send _

theorem newGroupRequested_announces {id : ForwarderId} {group : Nat}
    (h : w.newGroupRequested id group = .ok w') : w.Announces w' := by
  unfold newGroupRequested at h
  split at h
  · cases h
  split at h
  · cases h
    exact .refl w
  split at h
  · cases h
    exact .refl w
  split at h
  · cases h
  · cases h
    exact announces_send _

/-- An empty forwarder erases an entry that has ended or that no PUBLISH has made. -/
theorem onEmpty_spec {id : ForwarderId} (h : w.onEmpty id = .ok w') :
    w' = w ∨ (∃ handle, w' = w.send (.subscribeUpdate handle false)) ∨
      ∃ forwarder rsub outputs, w.forwarders.lookup id = some forwarder ∧
        w.registry.find forwarder.fullTrackName = some rsub ∧
        (rsub.handle = none ∨ rsub.isPublish = false) ∧
        w' = { w with
          registry := w.registry.remove forwarder.fullTrackName, outputs := outputs } := by
  unfold onEmpty at h
  split at h
  · cases h
  next forwarder hforwarder =>
  cases hfind : w.registry.find forwarder.fullTrackName with
  | none =>
    simp only [getUpstreamView, hfind, Option.map_none] at h
    cases h
    exact .inl rfl
  | some rsub =>
    simp only [getUpstreamView, hfind, Option.map_some] at h
    cases hhandle : rsub.handle with
    | none =>
      simp only [hhandle] at h
      cases h
      exact .inr (.inr ⟨forwarder, rsub, w.outputs, hforwarder, hfind, .inl hhandle, rfl⟩)
    | some handle =>
      simp only [hhandle] at h
      split at h
      · split at h
        · cases h
        · cases h
          exact .inr (.inl ⟨handle, rfl⟩)
      · next hpublish =>
        cases h
        exact .inr (.inr ⟨forwarder, rsub, w.outputs ++ [.unsubscribe handle], hforwarder, hfind,
          .inr (Bool.eq_false_of_not_eq_true hpublish), rfl⟩)

theorem withoutReplaced_wf {r : SubscriptionRegistry} (hr : r.WF) (ns : TrackNamespace)
    (replacedSession : Option SessionId) : (withoutReplaced r ns replacedSession).WF := by
  cases replacedSession with
  | none => exact hr
  | some session =>
    rw [withoutReplaced, Option.elim_some]
    exact (removeIf_shrinks _ hr).wf hr

theorem withoutReplaced_survives (r : SubscriptionRegistry) (ns : TrackNamespace)
    (replacedSession : Option SessionId) :
    r.Survives (withoutReplaced r ns replacedSession) := by
  cases replacedSession with
  | none => exact .refl r
  | some session =>
    rw [withoutReplaced, Option.elim_some]
    exact removeIf_survives r _

end MoqxRelay

end Moqx
