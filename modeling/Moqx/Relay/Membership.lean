import Moqx.Relay.RelayRankings

/-! The groups of the rankings hold the sessions whose subscriber records carry a track filter. A
second SUBSCRIBE_NAMESPACE with another filter joins a second group and leaves the record as it
is. -/
namespace Moqx

open Maps Runs NamespaceTree PropertyRanking

namespace PropertyRanking

/-- A call that lets nobody in or out. -/
def KeepsMembers (op : Op) : Prop :=
  ∀ r n s, PropertyRanking.WF r → (r.step op).1.member n s = r.member n s

theorem keepsMembers_registerTrack (ftn : FullTrackName) (value : Option Nat)
    (publisher : SessionId) : KeepsMembers (.registerTrack ftn value publisher) :=
  fun _ _ _ hr => member_registerTrack hr value publisher

theorem keepsMembers_removeTrack (ftn : FullTrackName) : KeepsMembers (.removeTrack ftn) :=
  fun _ _ _ hr => member_removeTrack hr

theorem keepsMembers_observe {ftn : FullTrackName} {id : RankingId} {op : Op}
    (h : MoqxRelay.ObserveCall ftn id op) : KeepsMembers op := by
  intro r n s hr
  rcases h with ⟨value, activity, rfl⟩ | ⟨activity, rfl⟩
  · exact member_updateSortValue hr value activity
  · exact member_sweepIdle hr activity

end PropertyRanking

namespace MoqxRelay

variable {w w' w'' : MoqxRelay} {op : Op}

/-- Whether a session is in the group of `n` of the ranking of a property at a node. -/
def memberAt (w : MoqxRelay) (path : Path) (propertyType n : Nat) (session : SessionId) : Bool :=
  ((w.tree.ranking path propertyType).bind fun id => w.rankings.lookup id).any
    fun ranking => ranking.member n session

/-- The track filter in the subscriber record of a session at a node. -/
def filterAt (w : MoqxRelay) (path : Path) (session : SessionId) : Option TrackFilter :=
  ((w.tree.record path).subscribers.lookup session).bind fun info => info.trackFilter

/-- The groups hold exactly the sessions with such a filter. -/
def Mirrors (w : MoqxRelay) : Prop :=
  ∀ path propertyType n session, w.memberAt path propertyType n session = true ↔
    w.filterAt path session = some ⟨propertyType, n⟩

/-- A session that is subscribed to a prefix subscribes to it again only without a filter or with
the filter it has. -/
def KeepsFilter (w : MoqxRelay) (op : Op) : Prop :=
  match op with
  | .subscribeNamespace session subNs =>
    ∀ info ∈ (w.tree.record subNs.trackNamespacePrefix.reverse).subscribers.lookup session,
      ∀ filter ∈ subNs.trackFilter, info.trackFilter = some filter
  | _ => True

instance (w : MoqxRelay) (op : Op) : Decidable (w.KeepsFilter op) := by
  induction op using Op.casesOn <;> unfold KeepsFilter <;> infer_instance

theorem mirrors_start (config : RelayConfig) : ({ config := config } : MoqxRelay).Mirrors := by
  intro path propertyType n session
  unfold memberAt filterAt
  rw [ranking_start, record_start]
  constructor
  · intro h
    cases h
  · intro h
    cases h

theorem Works.memberAt {P : RankingId → PropertyRanking.Op → Prop}
    {F : FilterId → (TopNFilter → TopNFilter) → Prop} (h : Works P F w w') (hok : w.RankingsOk)
    (hP : ∀ id op, P id op → PropertyRanking.KeepsMembers op) (path : Path) (propertyType n : Nat)
    (session : SessionId) :
    w'.memberAt path propertyType n session = w.memberAt path propertyType n session := by
  unfold MoqxRelay.memberAt
  rw [h.observes.tree]
  cases hp : w.tree.ranking path propertyType with
  | none => rfl
  | some id =>
    obtain ⟨ranking, hid⟩ := hok.there hp
    have hranking := h.ranking
      (R := fun r r' => r.WF → r'.WF ∧ r'.member n session = r.member n session) id
      (fun r hr => ⟨hr, rfl⟩) (by
        intro r r' op hop hkeeps hr
        obtain ⟨hr', hmember⟩ := hkeeps hr
        exact ⟨hr'.step op, (hP id op hop r' n session hr').trans hmember⟩)
    obtain ⟨ranking', hid', hmember⟩ := hranking.2 ranking hid
    simp only [Option.bind_some, hid, hid', Option.any_some]
    exact (hmember (hok.wf hid)).2

/-- Neither the records of subscribers nor the groups change. -/
theorem Mirrors.congr (h : w.Mirrors)
    (hmember : ∀ path propertyType n session,
      w'.memberAt path propertyType n session = w.memberAt path propertyType n session)
    (hfilter : ∀ path session, w'.filterAt path session = w.filterAt path session) :
    w'.Mirrors := by
  intro path propertyType n session
  rw [hmember, hfilter]
  exact h path propertyType n session

theorem memberAt_of_eq (htree : w'.tree = w.tree) (hrankings : w'.rankings = w.rankings)
    (path : Path) (propertyType n : Nat) (session : SessionId) :
    w'.memberAt path propertyType n session = w.memberAt path propertyType n session := by
  unfold memberAt
  rw [htree, hrankings]

theorem Mirrors.of_keeps (h : w.Mirrors) (hkeeps : w.Quiet w')
    (hrankings : w'.rankings = w.rankings) : w'.Mirrors := by
  refine h.congr (memberAt_of_eq hkeeps.tree hrankings) ?_
  intro path session
  unfold filterAt
  rw [hkeeps.tree]

theorem Mirrors.works {P : RankingId → PropertyRanking.Op → Prop}
    {F : FilterId → (TopNFilter → TopNFilter) → Prop} (h : w.Mirrors) (hok : w.RankingsOk)
    (hworks : Works P F w w') (hP : ∀ id op, P id op → PropertyRanking.KeepsMembers op) :
    w'.Mirrors := by
  refine h.congr (hworks.memberAt hok hP) ?_
  intro path session
  unfold filterAt
  rw [hworks.observes.tree]

/-- A node that is not in the tree has neither groups nor records. -/
theorem Mirrors.of_live (h : ∀ path, (w.tree.lookup path).isSome = true →
    ∀ propertyType n session, w.memberAt path propertyType n session = true ↔
      w.filterAt path session = some ⟨propertyType, n⟩) : w.Mirrors := by
  intro path propertyType n session
  cases hlive : w.tree.lookup path with
  | some node => exact h path (by rw [hlive]; rfl) propertyType n session
  | none =>
    unfold memberAt filterAt NamespaceTree.ranking NamespaceTree.record
    rw [hlive]
    constructor
    · intro hmember
      cases hmember
    · intro hfilter
      cases hfilter

variable {path : Path} {propertyType : Nat}

variable {tree : NamespaceTree} {session : SessionId}

/-- Where the records of subscribers stay, the groups do too. -/
theorem Mirrors.edits {changed : NamespaceRecord} (h : w.Mirrors)
    (hedits : w.tree.Edits tree path changed) (htree : w'.tree = tree)
    (hrankings : w'.rankings = w.rankings)
    (hchanged : changed.subscribers = (w.tree.record path).subscribers) : w'.Mirrors := by
  subst htree
  apply Mirrors.of_live
  intro p hlive propertyType n session
  have hmember : w'.memberAt p propertyType n session = w.memberAt p propertyType n session := by
    unfold memberAt
    rw [hedits.ranking p hlive, hrankings]
  have hfilter : w'.filterAt p session = w.filterAt p session := by
    unfold filterAt
    rw [hedits.record]
    split
    · next hp => rw [hp, hchanged]
    · rfl
  rw [hmember, hfilter]
  exact h p propertyType n session

/-- A call changes the groups of the ranking it is made on. -/
theorem memberAt_callRanking (id : RankingId) (op : PropertyRanking.Op) (path : Path)
    (propertyType n : Nat) (session : SessionId) :
    (w.callRanking id op).memberAt path propertyType n session =
      if w.tree.ranking path propertyType = some id then
        (w.rankings.lookup id).any fun ranking => (ranking.step op).1.member n session
      else w.memberAt path propertyType n session := by
  unfold memberAt
  rw [(quiet_callRanking (w := w) id op).tree]
  cases hp : w.tree.ranking path propertyType with
  | none => rw [if_neg (by simp)]; rfl
  | some id' =>
    simp only [Option.bind_some, lookup_rankings_callRanking, Option.some.injEq]
    by_cases hid : id' = id
    · rw [if_pos hid, if_pos hid, Option.any_map]
    · rw [if_neg hid, if_neg hid]

theorem memberAt_of_ranking {id : RankingId} (h : w.tree.ranking path propertyType = some id)
    (n : Nat) (session : SessionId) :
    w.memberAt path propertyType n session =
      (w.rankings.lookup id).any fun ranking => ranking.member n session := by
  unfold memberAt
  rw [h]
  rfl

/-- A session that enters a group of the ranking at a node. -/
theorem memberAt_addSession {id : RankingId} {filter : TrackFilter} (hok : w.RankingsOk)
    (h : w.tree.ranking path filter.propertyType = some id) (session : SessionId) (forward : Bool)
    (p : Path) (T n : Nat) (s : SessionId) :
    (w.callRanking id (.addSessionToTopNGroup filter.maxSelected session forward)).memberAt
        p T n s = (w.memberAt p T n s ||
      decide (p = path ∧ filter = ⟨T, n⟩ ∧ s = session)) := by
  rw [memberAt_callRanking]
  by_cases hp : w.tree.ranking p T = some id
  · obtain ⟨rfl, rfl⟩ := hok.apart hp h
    obtain ⟨ranking, hid⟩ := hok.there hp
    rw [if_pos hp, memberAt_of_ranking hp, hid]
    have hadd := member_addSessionToTopNGroup (r := ranking) (n := n) (s := s)
      filter.maxSelected session forward
    rcases filter with ⟨propertyType, maxSelected⟩
    simpa [PropertyRanking.step, eq_comm] using hadd
  · rw [if_neg hp]
    have hother : ¬ (p = path ∧ filter = ⟨T, n⟩ ∧ s = session) := by
      rintro ⟨rfl, rfl, -⟩
      exact hp h
    rw [decide_eq_false hother, Bool.or_false]

/-- A new ranking has no members. -/
theorem memberAt_withRanking (hok : w.RankingsOk) (htree : w.tree.WF)
    (h : w.tree.ranking path propertyType = none) (p : Path) (T n : Nat) (s : SessionId) :
    (w.withRanking path propertyType).memberAt p T n s = w.memberAt p T n s := by
  obtain ⟨-, -, -, hspec⟩ := insertRanking_spec htree path propertyType w.nextId
  have htable : (w.withRanking path propertyType).rankings = w.rankings.insert w.nextId
      { maxDeselected := w.config.maxDeselected
        idleTimeout := w.config.idleTimeout
        sweepThrottle := 0 } := rfl
  unfold memberAt
  rw [show (w.withRanking path propertyType).tree.ranking p T = _ from hspec p T, htable]
  by_cases hnew : p = path ∧ T = propertyType ∧ (w.tree.lookup path).isSome = true
  · obtain ⟨rfl, rfl, -⟩ := id hnew
    rw [if_pos hnew, h, Option.bind_some, AList.lookup_insert]
    rfl
  · rw [if_neg hnew]
    cases hp : w.tree.ranking p T with
    | none => rfl
    | some id =>
      obtain ⟨ranking, hid⟩ := hok.there hp
      rw [Option.bind_some, Option.bind_some,
        AList.lookup_insert_ne (Nat.ne_of_lt (hok.ranking_lt hid))]

theorem memberAt_joinRanking (hok : w.RankingsOk) (htree : w.tree.WF)
    (hlive : (w.tree.lookup path).isSome = true) (session : SessionId) (forward : Bool)
    (filter : TrackFilter) (p : Path) (T n : Nat) (s : SessionId) :
    (w.joinRanking session path forward filter).memberAt p T n s =
      (w.memberAt p T n s || decide (p = path ∧ filter = ⟨T, n⟩ ∧ s = session)) := by
  rw [joinRanking_eq]
  cases hranking : w.tree.ranking path filter.propertyType with
  | some id => exact memberAt_addSession hok hranking session forward p T n s
  | none =>
    have hnew := hok.withRanking htree path filter.propertyType
    have hworks := works_withRetro (w := w) path filter.propertyType
    have hentered : (w.withRetro path filter.propertyType).tree.ranking path
        filter.propertyType = some w.nextId := by
      obtain ⟨-, -, -, hspec⟩ := insertRanking_spec htree path filter.propertyType
        w.nextId
      rw [hworks.observes.tree]
      exact (hspec _ _).trans (if_pos ⟨rfl, rfl, hlive⟩)
    have hretro := hworks.memberAt hnew
      (fun id op hop => by
        obtain ⟨-, x, publisher, rfl, -⟩ := hop
        exact keepsMembers_registerTrack x _ publisher) p T n s
    have hadd := memberAt_addSession (hnew.works hworks) hentered session forward p T n s
    rw [hretro, memberAt_withRanking hok htree hranking] at hadd
    exact hadd

/-- A session that leaves the group of its filter. -/
theorem memberAt_removeSession {id : RankingId} {m : Nat} (hok : w.RankingsOk)
    (htree : ∀ p T id, tree.ranking p T = some id → w.tree.ranking p T = some id)
    (h : w.tree.ranking path propertyType = some id) (session : SessionId) {p : Path} {T : Nat}
    (hp : tree.ranking p T = w.tree.ranking p T) (n : Nat) (s : SessionId) :
    (({ w with tree := tree } : MoqxRelay).callRanking id
        (.removeSessionFromTopNGroup m session)).memberAt p T n s =
      (w.memberAt p T n s && !decide (p = path ∧ T = propertyType ∧ n = m ∧ s = session)) := by
  rw [memberAt_callRanking]
  have hsame : ({ w with tree := tree } : MoqxRelay).memberAt p T n s = w.memberAt p T n s := by
    unfold memberAt
    rw [show ({ w with tree := tree } : MoqxRelay).tree.ranking p T = _ from hp]
  by_cases hid : tree.ranking p T = some id
  · obtain ⟨rfl, rfl⟩ := hok.apart (htree _ _ _ hid) h
    obtain ⟨ranking, hlookup⟩ := hok.there h
    rw [if_pos hid, memberAt_of_ranking h, hlookup]
    have hremove := member_removeSessionFromTopNGroup (r := ranking) (n := n)
      (s := s) m session
    simpa [PropertyRanking.step] using hremove
  · rw [if_neg hid, hsame]
    have hother : ¬ (p = path ∧ T = propertyType ∧ n = m ∧ s = session) := by
      rintro ⟨rfl, rfl, -, -⟩
      exact hid (hp.trans h)
    rw [decide_eq_false hother, Bool.not_false, Bool.and_true]

section Subscribing

variable {session : SessionId} {subNs : SubscribeNamespace} {tree : NamespaceTree}

/-- A subscriber record is made for a session that has none. -/
theorem filterAt_joined (hw : w.Base)
    (hadd : w.tree.addNamespaceSubscriber subNs.trackNamespacePrefix session
      (SubscribeNamespace.info subNs (w.subscribeHandle subNs)) = .ok tree) (p : Path)
    (s : SessionId) :
    (w.joined session subNs tree).filterAt p s =
      if p = subNs.trackNamespacePrefix.reverse ∧ s = session ∧
          (w.tree.record p).subscribers.lookup s = none then subNs.trackFilter
      else w.filterAt p s := by
  have hedits := addNamespaceSubscriber_edits hw.tree hadd
  have hrecord : (w.joined session subNs tree).tree.record p = tree.record p := by
    rw [(joined_quiet _ _ _).tree]
    cases subNs.trackFilter with
    | none => rfl
    | some filter =>
      simp only [Option.elim_some]
      split
      · rfl
      · exact (insertRanking_spec hedits.wf _ _ _).2.1 p
  unfold filterAt
  rw [hrecord, hedits.record]
  by_cases hp : p = subNs.trackNamespacePrefix.reverse
  · subst hp
    rw [if_pos rfl]
    by_cases hs : s = session
    · subst hs
      cases hold : (w.tree.record subNs.trackNamespacePrefix.reverse).subscribers.lookup s with
      | some info => simp [hold]
      | none => simp [SubscribeNamespace.info]
    · simp only [hs, false_and, and_false, if_false]
      split
      · rfl
      · rw [AList.lookup_insert_ne hs]
  · simp only [hp, false_and, if_false]

/-- The session enters the group of its filter. -/
theorem memberAt_joined (h : w.Mirrors) (hw : w.Base) (hok : w.RankingsOk)
    (hadd : w.tree.addNamespaceSubscriber subNs.trackNamespacePrefix session
      (SubscribeNamespace.info subNs (w.subscribeHandle subNs)) = .ok tree) (p : Path)
    (T n : Nat) (s : SessionId) :
    (w.joined session subNs tree).memberAt p T n s = (w.memberAt p T n s ||
      decide (p = subNs.trackNamespacePrefix.reverse ∧ subNs.trackFilter = some ⟨T, n⟩ ∧
        s = session)) := by
  have hedits := addNamespaceSubscriber_edits hw.tree hadd
  have hpath := lookup_of_addNamespaceSubscriber hw.tree hadd
  have hadded : ({ w with tree := tree, nextId := w.nextId + 1 } : MoqxRelay).memberAt p T n s =
      w.memberAt p T n s := by
    cases hlive : tree.lookup p with
    | some node =>
      unfold memberAt
      rw [show ({ w with tree := tree, nextId := w.nextId + 1 } : MoqxRelay).tree.ranking p T = _
        from hedits.ranking p (by rw [hlive]; rfl) T]
    | none =>
      -- a node that goes has had no subscriber, so nobody was in its groups
      have hne : p ≠ subNs.trackNamespacePrefix.reverse := by
        rintro rfl
        rw [hlive] at hpath
        cases hpath
      have hrecord : w.tree.record p = {} := by
        have hrecord := hedits.record p
        rw [if_neg hne, NamespaceTree.record, hlive] at hrecord
        exact hrecord.symm
      have hout : ¬ w.memberAt p T n s = true := by
        rw [h p T n s, filterAt, hrecord]
        simp
      rw [Bool.not_eq_true] at hout
      rw [hout]
      change Option.any _ ((tree.ranking p T).bind _) = false
      rw [NamespaceTree.ranking, hlive]
      rfl
  unfold joined
  cases subNs.trackFilter with
  | none => simpa using hadded
  | some filter =>
    have hadd' : ({ w with tree := tree, nextId := w.nextId + 1 } : MoqxRelay).RankingsOk :=
      hok.of_eq rfl (fun p T id hp => hedits.ranking_of_some hp) (Nat.le_succ _)
    have hjoin := memberAt_joinRanking hadd' hedits.wf hpath session subNs.forward filter p T n s
    rw [hadded] at hjoin
    simpa using hjoin

theorem Mirrors.joined (h : w.Mirrors) (hw : w.Base) (hok : w.RankingsOk)
    (hkeeps : w.KeepsFilter (.subscribeNamespace session subNs))
    (hadd : w.tree.addNamespaceSubscriber subNs.trackNamespacePrefix session
      (SubscribeNamespace.info subNs (w.subscribeHandle subNs)) = .ok tree) :
    (w.joined session subNs tree).Mirrors := by
  intro p T n s
  rw [memberAt_joined h hw hok hadd, filterAt_joined hw hadd, Bool.or_eq_true, h p T n s,
    decide_eq_true_eq]
  split
  · next hnew =>
    obtain ⟨rfl, rfl, hnone⟩ := hnew
    have hold : w.filterAt subNs.trackNamespacePrefix.reverse s = none := by
      rw [filterAt, hnone]
      rfl
    simp [hold]
  · next hold =>
    constructor
    · rintro (hfilter | ⟨rfl, hfilter, rfl⟩)
      · exact hfilter
      · -- the session is subscribed already, with this very filter
        cases hinfo : (w.tree.record subNs.trackNamespacePrefix.reverse).subscribers.lookup s with
        | none => exact absurd ⟨rfl, rfl, hinfo⟩ hold
        | some info =>
          rw [filterAt, hinfo]
          exact hkeeps info hinfo _ hfilter
    · exact .inl

end Subscribing

/-- The record of a session that leaves goes. -/
theorem filterAt_removed (hedits : w.tree.Edits tree path { w.tree.record path with
      subscribers := (w.tree.record path).subscribers.erase session }) (p : Path) (s : SessionId) :
    ({ w with tree := tree } : MoqxRelay).filterAt p s =
      if p = path ∧ s = session then none else w.filterAt p s := by
  unfold filterAt
  rw [show ({ w with tree := tree } : MoqxRelay).tree.record p = _ from hedits.record p]
  by_cases hp : p = path
  · subst hp
    by_cases hs : s = session
    · subst hs
      simp
    · simp [hs]
  · simp [hp]

/-- A session without a filter was in no group. -/
theorem Mirrors.removed (h : w.Mirrors) (hedits : w.tree.Edits tree path { w.tree.record path with
      subscribers := (w.tree.record path).subscribers.erase session })
    (hold : w.filterAt path session = none) : ({ w with tree := tree } : MoqxRelay).Mirrors := by
  apply Mirrors.of_live
  intro p hlive T n s
  have hmember : ({ w with tree := tree } : MoqxRelay).memberAt p T n s = w.memberAt p T n s := by
    unfold memberAt
    rw [show ({ w with tree := tree } : MoqxRelay).tree.ranking p T = _ from
      hedits.ranking p hlive T]
  rw [hmember, filterAt_removed hedits, h p T n s]
  split
  · next heq => rw [heq.1, heq.2, hold]
  · rfl

/-- A session with a filter leaves the group of the filter. -/
theorem Mirrors.left {id : RankingId} {filter : TrackFilter} (h : w.Mirrors) (hok : w.RankingsOk)
    (hedits : w.tree.Edits tree path { w.tree.record path with
      subscribers := (w.tree.record path).subscribers.erase session })
    (hold : w.filterAt path session = some filter)
    (hranking : w.tree.ranking path filter.propertyType = some id) :
    (({ w with tree := tree } : MoqxRelay).callRanking id
      (.removeSessionFromTopNGroup filter.maxSelected session)).Mirrors := by
  have htree := (quiet_callRanking (w := { w with tree := tree }) id
    (.removeSessionFromTopNGroup filter.maxSelected session)).tree
  apply Mirrors.of_live
  intro p hlive T n s
  rw [htree] at hlive
  have hmember := memberAt_removeSession (m := filter.maxSelected) hok
    (fun p T id hp => hedits.ranking_of_some hp) hranking session (hedits.ranking p hlive T) n s
  have hfilter := filterAt_removed hedits p s
  rw [hmember, filterAt, htree, ← filterAt, hfilter, Bool.and_eq_true, h p T n s]
  by_cases heq : p = path ∧ s = session
  · obtain ⟨rfl, rfl⟩ := heq
    rw [hold, if_pos ⟨rfl, rfl⟩]
    constructor
    · rintro ⟨hsome, hother⟩
      cases hsome
      simp at hother
    · intro hnone
      cases hnone
  · rw [if_neg heq]
    have hother : ¬ (p = path ∧ T = filter.propertyType ∧ n = filter.maxSelected ∧ s = session) :=
      fun hsame => heq ⟨hsame.1, hsame.2.2.2⟩
    simp [hother]

theorem Mirrors.unsubscribeNamespace {prefix_ : TrackNamespace} (h : w.Mirrors) (hw : w.Base)
    (hok : w.RankingsOk) (hs : w.unsubscribeNamespace session prefix_ = .ok w') : w'.Mirrors := by
  obtain ⟨tree, result, hremove, rfl⟩ := unsubscribeNamespace_spec hs
  rcases removeNamespaceSubscriber_edits hw.tree hremove with
    ⟨-, rfl, error, rfl⟩ | ⟨info, hinfo, hedits, rfl⟩
  · exact h
  have hold : w.filterAt prefix_.reverse session = info.trackFilter := by
    rw [filterAt, hinfo]
    rfl
  cases hfilter : info.trackFilter with
  | none => exact h.removed hedits (hold.trans hfilter)
  | some filter =>
    cases hranking : w.tree.ranking prefix_.reverse filter.propertyType with
    | some id =>
      simp only [Except.toOption, Option.bind_some, hranking, Option.map_some, id_eq,
        Option.elim_some]
      exact h.left hok hedits (hold.trans hfilter) hranking
    | none =>
      have hin := (h prefix_.reverse filter.propertyType filter.maxSelected session).mpr
        (hold.trans hfilter)
      rw [memberAt, hranking] at hin
      cases hin

theorem Mirrors.publish {ftn : FullTrackName} {requestID : RequestID} {handle : HandleId}
    {extensions : IntExtensions} (h : w.Mirrors) (hw : w.Base) (hok : w.RankingsOk)
    (hs : w.publish session ftn requestID handle extensions = .ok w') : w'.Mirrors := by
  rcases publish_spec hs with rfl | ⟨tree, added, forward, hadd, -, rfl⟩
  · exact h
  · obtain ⟨hedits, -⟩ := addPublish_edits hw.tree hadd
    have hkeeps := recorded_keeps (w := w) session ftn requestID handle extensions tree
    have hrecorded : (w.recorded session ftn requestID handle extensions tree).Mirrors :=
      h.edits hedits hkeeps.tree (endEvicted_attends _).rankings rfl
    have hentered := hrecorded.works (hok.recorded hedits _ _ _ _ _) (works_entered ftn session
      extensions (w.nextId + 1) added.rankings) fun id op hop => by
        obtain ⟨propertyType, -, rfl⟩ := hop
        exact keepsMembers_registerTrack _ _ _
    have hpassed := hentered.of_keeps (announces_passOn session w.nextId added.subscribers).toQuiet
      (announces_passOn _ _ _).rankings
    exact hpassed.of_keeps (announces_send _).toQuiet rfl

theorem Mirrors.publishDone {id : FilterId} (h : w.Mirrors) (hw : w.Base) (hok : w.RankingsOk)
    (hs : w.publishDone id = .ok w') : w'.Mirrors := by
  obtain ⟨found, tree, -, htree, rfl⟩ := publishDone_spec hs
  have hworks := works_endedInRankings (w := w) id found
  have hended := h.works hok hworks fun ranking op hop => by
    rw [hop.1]
    exact keepsMembers_removeTrack found.ftn
  have hquiet := quiet_endedInRankings (w := w) id found
  have hdone : ({ w.endedInRankings id found with
      tree := tree
      registry := (w.registry.onPublisherTerminated found.ftn
        (w.endedInRankings id found).forwarderEmpty).1 } : MoqxRelay).Mirrors := by
    obtain ⟨_, hedits⟩ := publishDone_edits hw.tree htree
    rw [← hquiet.tree] at hedits
    exact hended.edits hedits rfl rfl rfl
  exact hdone.of_keeps (quiet_setForwarder _ _) (rankings_setForwarder _ _)

theorem Mirrors.step (h : w.Mirrors) (hw : w.Base) (hok : w.RankingsOk)
    (hkeeps : w.KeepsFilter op) (hs : w.step op = .ok w') : w'.Mirrors := by
  by_cases hidle : op.idles = true
  · have hidle := hw.idle hidle hs
    refine h.congr ?_ ?_
    · intro p T n s
      unfold memberAt
      rw [hidle.ranking, hidle.rankings]
    · intro p s
      obtain ⟨handles, hrecord⟩ := hidle.record p
      unfold filterAt
      rw [hrecord]
  cases op with
  | publishNamespace session ns callback peerID =>
    rcases doPublishNamespace_spec hs with rfl | ⟨tree, result, hset, hannounces⟩
    · exact h
    · obtain ⟨hedits, -⟩ := setPublisher_edits hw.tree hset
      exact h.edits hedits hannounces.tree hannounces.rankings rfl
  | publishNamespaceDone session ns =>
    rcases doPublishNamespaceDone_spec hw.tree hs with rfl | ⟨tree, hedits, hannounces⟩
    · exact h
    · exact h.edits hedits hannounces.tree hannounces.rankings rfl
  | publish session ftn requestID handle extensions => exact h.publish hw hok hs
  | object filter extensions =>
    obtain ⟨_, observed, -, hworks⟩ := works_object hs
    have hobserved : ({ w with observed := observed } : MoqxRelay).RankingsOk :=
      ⟨hok.wf, hok.ranking_lt, hok.there, hok.apart⟩
    exact Mirrors.works (w := { w with observed := observed }) h hobserved hworks
      fun id op hop => keepsMembers_observe hop
  | publishDone filter => exact h.publishDone hw hok hs
  | subscribeNamespace session subNs =>
    rcases subscribeNamespace_spec hs with rfl | ⟨tree, hadd, hannounces⟩
    · exact h
    · exact (h.joined hw hok hkeeps hadd).of_keeps hannounces.toQuiet hannounces.rankings
  | unsubscribeNamespace session prefix_ => exact h.unsubscribeNamespace hw hok hs
  | onEmpty forwarder =>
    rcases onEmpty_spec hs with rfl | ⟨handle, rfl⟩ | ⟨_, _, outputs, -, -, -, rfl⟩
    · exact h
    · exact h.of_keeps (announces_send _).toQuiet rfl
    · exact h
  | _ => exact absurd rfl hidle

/-- If no session subscribes to a prefix again with another filter, then in every state a session
is in the group of `n` of the ranking of a property at a node iff its record there carries the
filter with this property and `n`. -/
theorem membership_mirrors_filters (h : Reached KeepsFilter w) (path : Path)
    (propertyType n : Nat) (session : SessionId) :
    w.memberAt path propertyType n session = true ↔
      ∃ info, (w.tree.record path).subscribers.lookup session = some info ∧
        info.trackFilter = some ⟨propertyType, n⟩ := by
  obtain ⟨-, -, hmirrors⟩ := h.keeps (I := fun w => w.RankingsOk ∧ w.Mirrors)
    (fun config => ⟨rankingsOk_start config, mirrors_start config⟩)
    fun _ _ _ hw hi hq hs => ⟨hi.1.step hw hs, hi.2.step hw hi.1 hq hs⟩
  rw [hmirrors path propertyType n session, filterAt, Option.bind_eq_some_iff]

/-- A SUBSCRIBE_NAMESPACE for tracks. -/
def liveTracks (filter : Option TrackFilter) : SubscribeNamespace where
  trackNamespacePrefix := ["live"]
  forward := true
  options := .publish
  trackFilter := filter
  hasHandle := false

/-- Two sessions subscribe to a prefix, one of them with a filter. -/
def filteredSubscription : List Op :=
  [.subscribeNamespace 6 (liveTracks none), .subscribeNamespace 5 (liveTracks (some ⟨7, 1⟩))]

theorem membership_mirrors_filters_subscribed : ∃ w info,
    runMeets step KeepsFilter {} filteredSubscription = some w ∧
      w.memberAt ["live"] 7 1 5 = true ∧
      (w.tree.record ["live"]).subscribers.lookup 5 = some info ∧
      info.trackFilter = some ⟨7, 1⟩ := by
  obtain ⟨w, hreach, hrun, hp⟩ := reaches_of_elim step KeepsFilter {} filteredSubscription
    (fun w => w.memberAt ["live"] 7 1 5) (by decide +kernel)
  obtain ⟨info, hinfo, hfilter⟩ := (membership_mirrors_filters ⟨{}, hreach⟩ ["live"] 7 1 5).mp hp
  exact ⟨w, info, hrun, hp, hinfo, hfilter⟩

/-- The session subscribes again with the double maximum and then unsubscribes: it stays in the
second group, which its record never named. -/
theorem resubscribed_stays_member :
    (runMeets step (fun _ _ => True) {} (filteredSubscription ++
      [.subscribeNamespace 5 (liveTracks (some ⟨7, 2⟩)),
        .unsubscribeNamespace 5 ["live"]])).map
      (fun w => (w.memberAt ["live"] 7 2 5,
        ((w.tree.record ["live"]).subscribers.lookup 5).isSome)) = some (true, false) := by
  decide +kernel

end MoqxRelay

end Moqx
