import Moqx.Relay.Backed
import Moqx.Relay.RelayRankings

/-! Which tracks are in which ranking, and what each step of the relay does to them. -/
namespace Moqx

open Maps Runs NamespaceTree PropertyRanking

namespace MoqxRelay

variable {w w' w'' : MoqxRelay} {op : Op}

/-- The value and the owner of a track in a ranking, if it is there. -/
def trackOf (w : MoqxRelay) (id : RankingId) (x : FullTrackName) : Option (Nat × SessionId) :=
  (w.rankings.lookup id).bind fun ranking => ranking.track x

theorem trackOf_eq (h : w'.rankings = w.rankings) (id : RankingId) (x : FullTrackName) :
    w'.trackOf id x = w.trackOf id x := by
  unfold trackOf
  rw [h]

theorem trackOf_callRanking (id : RankingId) (op : PropertyRanking.Op) (id' : RankingId)
    (x : FullTrackName) :
    (w.callRanking id op).trackOf id' x =
      if id' = id then (w.rankings.lookup id).bind fun ranking => (ranking.step op).1.track x
      else w.trackOf id' x := by
  unfold trackOf
  rw [lookup_rankings_callRanking]
  split
  · cases w.rankings.lookup id <;> rfl
  · rfl

section Works

variable {P : RankingId → PropertyRanking.Op → Prop}
  {F : FilterId → (TopNFilter → TopNFilter) → Prop}

/-- What every allowed call does to a track, the work does to it. -/
theorem Works.trackOf {M : Option (Nat × SessionId) → Option (Nat × SessionId) → Prop}
    (h : Works P F w w') (hok : w.RankingsOk) (id : RankingId) (x : FullTrackName)
    (hrefl : ∀ t, M t t)
    (hcall : ∀ t r op, P id op → PropertyRanking.WF r → M t (r.track x) →
      M t ((r.step op).1.track x)) :
    M (w.trackOf id x) (w'.trackOf id x) := by
  have hranking := h.ranking
    (R := fun r r' => r.WF → r'.WF ∧ M (r.track x) (r'.track x)) id
    (fun r hr => ⟨hr, hrefl _⟩) (by
      intro r r' op hop hkeeps hr
      obtain ⟨hr', htrack⟩ := hkeeps hr
      exact ⟨hr'.step op, hcall _ r' op hop hr' htrack⟩)
  unfold MoqxRelay.trackOf
  cases hid : w.rankings.lookup id with
  | none =>
    rw [hranking.1 hid]
    exact hrefl _
  | some r =>
    obtain ⟨r', hid', htrack⟩ := hranking.2 r hid
    rw [hid']
    exact (htrack (hok.wf hid)).2

/-- Calls that leave a track alone. -/
theorem Works.trackOf_eq (h : Works P F w w') (hok : w.RankingsOk) (id : RankingId)
    (x : FullTrackName)
    (hcall : ∀ r op, P id op → PropertyRanking.WF r → (r.step op).1.track x = r.track x) :
    w'.trackOf id x = w.trackOf id x :=
  h.trackOf (M := fun t t' => t' = t) hok id x (fun _ => rfl)
    fun _ r op hop hr ht => (hcall r op hop hr).trans ht

end Works

/-- The rankings of the tree stay, or leave it, with the tracks they have. -/
structure SameTracks (w w' : MoqxRelay) : Prop where
  ranking : ∀ ⦃p T id⦄, w'.tree.ranking p T = some id → w.tree.ranking p T = some id
  track : ∀ id x, w'.trackOf id x = w.trackOf id x

theorem SameTracks.of_edits {tree : NamespaceTree} {path : Path} {changed : NamespaceRecord}
    (hedits : w.tree.Edits tree path changed) (htree : w'.tree = tree)
    (hrankings : w'.rankings = w.rankings) : w.SameTracks w' where
  ranking := by
    intro p T id hp
    rw [htree] at hp
    exact hedits.ranking_of_some hp
  track := trackOf_eq hrankings

theorem SameTracks.of_eq (htree : w'.tree = w.tree) (hrankings : w'.rankings = w.rankings) :
    w.SameTracks w' where
  ranking := by
    intro p T id hp
    rwa [htree] at hp
  track := trackOf_eq hrankings

theorem SameTracks.trans (h : w.SameTracks w') (h' : w'.SameTracks w'') : w.SameTracks w'' where
  ranking := fun _ _ _ hp => h.ranking (h'.ranking hp)
  track := fun id x => (h'.track id x).trans (h.track id x)

/-- Sessions that come and go change no track. -/
theorem track_session {r : PropertyRanking} {x : FullTrackName} {op : PropertyRanking.Op}
    (h : (∃ n session forward, op = .addSessionToTopNGroup n session forward) ∨
      ∃ n session, op = .removeSessionFromTopNGroup n session) :
    (r.step op).1.track x = r.track x := by
  rcases h with ⟨n, session, forward, rfl⟩ | ⟨n, session, rfl⟩
  · exact track_addSessionToTopNGroup n session forward
  · exact track_removeSessionFromTopNGroup n session

theorem sameTracks_call (id : RankingId) {op : PropertyRanking.Op} (hok : w.RankingsOk)
    (hop : (∃ n session forward, op = .addSessionToTopNGroup n session forward) ∨
      ∃ n session, op = .removeSessionFromTopNGroup n session) :
    w.SameTracks (w.callRanking id op) where
  ranking := by
    intro p T id' hp
    rwa [(quiet_callRanking _ _).tree] at hp
  track := fun id' x => Works.trackOf_eq (P := fun _ op' => op' = op) (F := fun _ _ => True)
    (Works.refl.call rfl) hok id' x fun _ _ heq _ => by
      subst heq
      exact track_session hop

/-- The steps that change no track of a ranking. -/
def Op.spares : Op → Bool
  | .publish .. | .object .. | .publishDone .. | .subscribeNamespace .. => false
  | _ => true

theorem sameTracks_step (hw : w.Base) (hok : w.RankingsOk) (hop : op.spares = true)
    (hs : w.step op = .ok w') : w.SameTracks w' := by
  by_cases hidle : op.idles = true
  · have hidle := hw.idle hidle hs
    refine ⟨?_, trackOf_eq hidle.rankings⟩
    intro p T id hp
    rwa [hidle.ranking] at hp
  cases op with
  | publishNamespace session ns callback peerID =>
    rcases doPublishNamespace_spec hs with rfl | ⟨tree, result, hset, hannounces⟩
    · exact .of_eq rfl rfl
    · obtain ⟨hedits, -⟩ := setPublisher_edits hw.tree hset
      exact .of_edits hedits hannounces.tree hannounces.rankings
  | publishNamespaceDone session ns =>
    rcases doPublishNamespaceDone_spec hw.tree hs with rfl | ⟨tree, hedits, hannounces⟩
    · exact .of_eq rfl rfl
    · exact .of_edits hedits hannounces.tree hannounces.rankings
  | unsubscribeNamespace session prefix_ =>
    obtain ⟨tree, _, hedits, hcall⟩ := unsubscribeNamespace_edits hw.tree hs
    have hremoved : w.SameTracks { w with tree := tree } := .of_edits hedits rfl rfl
    have hremovedOk : ({ w with tree := tree } : MoqxRelay).RankingsOk :=
      hok.of_eq rfl (fun p T id hp => hremoved.ranking hp) (Nat.le_refl _)
    rcases hcall with rfl | ⟨id, n, rfl⟩
    · exact hremoved
    · exact hremoved.trans (sameTracks_call id hremovedOk (.inr ⟨_, _, rfl⟩))
  | onEmpty forwarder =>
    rcases onEmpty_spec hs with rfl | ⟨handle, rfl⟩ | ⟨_, _, outputs, -, -, -, rfl⟩
    · exact .of_eq rfl rfl
    · exact .of_eq rfl rfl
    · exact .of_eq rfl rfl
  | publish | object | publishDone | subscribeNamespace => cases hop
  | _ => exact absurd rfl hidle

section Registering

variable {session : SessionId} {ftn : FullTrackName} {extensions : IntExtensions}
  {filter : FilterId}

/-- A ranking has the track that it was told of, and loses none by it. -/
theorem isSome_registerTrack {id id' : RankingId} {x y : FullTrackName} {value : Option Nat}
    (hok : w.RankingsOk) (h : (w.trackOf id' x).isSome = true ∨
      (id' = id ∧ x = y ∧ (w.rankings.lookup id).isSome = true)) :
    ((w.callRanking id (.registerTrack y value session)).trackOf id' x).isSome = true := by
  rw [trackOf_callRanking]
  split
  · next hid =>
    subst hid
    unfold trackOf at h
    cases hlookup : w.rankings.lookup id' with
    | none => simp [hlookup] at h
    | some r =>
      rw [hlookup] at h
      rw [Option.bind_some, PropertyRanking.step, track_registerTrack
        (hok.wf hlookup)]
      split
      · rw [Option.isSome_or]
        simp
      · next hne =>
        rcases h with h | h
        · exact h
        · exact absurd h.2.1 hne
  · next hid => exact h.resolve_right fun h => hid h.1

theorem trackOf_enterRanking (ranking : Nat × RankingId) (id : RankingId) (x : FullTrackName) :
    (enterRanking ftn session extensions filter w ranking).trackOf id x =
      (w.callRanking ranking.2 (.registerTrack ftn (extensions ranking.1) session)).trackOf id x :=
  trackOf_eq (rankings_setFilter _ _) id x

/-- Every ranking that is told of a published track has it then. -/
theorem isSome_entered (ftn : FullTrackName) (session : SessionId) (extensions : IntExtensions)
    (filter : FilterId) (hok : w.RankingsOk) (rankings : List (Nat × RankingId))
    (hthere : ∀ e ∈ rankings, ∃ p T, w.tree.ranking p T = some e.2) :
    ∀ e ∈ rankings, ((rankings.foldl (enterRanking ftn session extensions filter) w).trackOf
      e.2 ftn).isSome = true := by
  refine foldl_visits (I := fun w₁ : MoqxRelay => w₁.RankingsOk ∧ w₁.tree = w.tree)
    (G := fun e (w₁ : MoqxRelay) => (w₁.trackOf e.2 ftn).isSome = true) rankings ⟨hok, rfl⟩
    ?_ ?_ ?_
  · intro w₁ hw₁ e he
    have hworks : Works (fun _ _ => True) _ w₁ (enterRanking ftn session extensions filter w₁ e) :=
      works_enterRanking trivial
    exact ⟨hw₁.1.works hworks, hworks.observes.tree.trans hw₁.2⟩
  · intro w₁ hw₁ e he
    obtain ⟨p, T, hp⟩ := hthere e he
    rw [← hw₁.2] at hp
    obtain ⟨r, hr⟩ := hw₁.1.there hp
    rw [trackOf_enterRanking]
    exact isSome_registerTrack hw₁.1 (.inr ⟨rfl, rfl, by rw [hr]; rfl⟩)
  · intro w₁ hw₁ e he e' hsome
    rw [trackOf_enterRanking]
    exact isSome_registerTrack hw₁.1 (.inl hsome)

/-- A published track is in all rankings on the way to the root; those that had it before keep it
as it was. -/
theorem trackOf_entered (ftn : FullTrackName) (session : SessionId) (extensions : IntExtensions)
    (filter : FilterId) (path : Path) {p : Path} {T : Nat} {id : RankingId} (hok : w.RankingsOk)
    (hp : w.tree.ranking p T = some id) (x : FullTrackName) :
    ((w.tree.rankingsFrom path).foldl (enterRanking ftn session extensions filter) w).trackOf id x =
      if x = ftn ∧ p <:+ path then
        (w.trackOf id x).or (some ((extensions T).getD 0, session))
      else w.trackOf id x := by
  have hmay := (works_entered (w := w) ftn session extensions filter
    (w.tree.rankingsFrom path)).trackOf
    (M := fun t t' => t' = t ∨ (x = ftn ∧ p <:+ path ∧
      t' = t.or (some ((extensions T).getD 0, session)))) hok id x (fun _ => .inl rfl) (by
      rintro t r op ⟨T', hmem, rfl⟩ hr ht
      obtain ⟨p', hsuffix, hp'⟩ := mem_rankingsFrom.mp hmem
      obtain ⟨rfl, rfl⟩ := hok.apart hp' hp
      rw [PropertyRanking.step, track_registerTrack hr]
      split
      · next hx =>
        refine .inr ⟨hx, hsuffix, ?_⟩
        rcases ht with ht | ⟨-, -, ht⟩
        · rw [ht]
        · rw [ht, Option.or_assoc, Option.or_self]
      · exact ht)
  split
  · next hon =>
    obtain ⟨rfl, hsuffix⟩ := hon
    rcases hmay with hsame | ⟨-, -, hnew⟩
    · have hthere : ∀ e ∈ w.tree.rankingsFrom path, ∃ p T, w.tree.ranking p T = some e.2 := by
        intro e he
        obtain ⟨p, -, hp⟩ := mem_rankingsFrom.mp he
        exact ⟨p, e.1, hp⟩
      have hsome := isSome_entered x session extensions filter hok _ hthere (T, id)
        (mem_rankingsFrom.mpr ⟨p, hsuffix, hp⟩)
      rw [hsame] at hsome ⊢
      rw [Option.or_of_isSome hsome]
    · exact hnew
  · next hoff => exact hmay.resolve_right fun hnew => hoff ⟨hnew.1, hnew.2.1⟩

/-- What an accepted PUBLISH does to the rankings: those on the way to the root have the track. -/
theorem publish_tracks {requestID : RequestID} {handle : HandleId} (hw : w.Base)
    (hok : w.RankingsOk) (hs : w.publish session ftn requestID handle extensions = .ok w') :
    w' = w ∨
      (∀ p T id, w'.tree.ranking p T = some id → w.tree.ranking p T = some id) ∧
      (∀ p T, p <:+ ftn.trackNamespace.reverse → w'.tree.ranking p T = w.tree.ranking p T) ∧
      ∀ p T id x, w'.tree.ranking p T = some id → w'.trackOf id x =
        if x = ftn ∧ p <:+ ftn.trackNamespace.reverse then
          (w.trackOf id x).or (some ((extensions T).getD 0, session))
        else w.trackOf id x := by
  rcases publish_keeps hs with rfl | ⟨tree, added, hadd, hkeeps⟩
  · exact .inl rfl
  rcases publish_spec hs with rfl | ⟨tree', added', forward, hadd', -, rfl⟩
  · exact .inl rfl
  rw [hadd] at hadd'
  cases hadd'
  right
  obtain ⟨hedits, hrankings, -⟩ := addPublish_edits hw.tree hadd
  have htree := hkeeps.tree
  have hrecordedTree :=
    (recorded_keeps (w := w) session ftn requestID handle extensions tree).tree
  refine ⟨?_, ?_, ?_⟩
  · intro p T id hp
    rw [htree] at hp
    exact hedits.ranking_of_some hp
  · intro p T hsuffix
    have hlive := lookup_of_addPublish hw.tree hadd
    rw [htree]
    exact hedits.ranking p (hedits.wf.suffix hlive hsuffix) T
  · intro p T id x hp
    rw [htree] at hp
    have hrecorded : (w.recorded session ftn requestID handle extensions tree).tree.ranking p T =
        some id := by
      exact hp
    have hentered := trackOf_entered ftn session extensions (w.nextId + 1)
      ftn.trackNamespace.reverse (hok.recorded hedits session ftn requestID handle extensions)
      hrecorded x
    have hold : (w.recorded session ftn requestID handle extensions tree).trackOf id x =
        w.trackOf id x := trackOf_eq (endEvicted_attends _).rankings id x
    rw [hrecordedTree, hold] at hentered
    change MoqxRelay.trackOf (passOn _ _ _ _) id x = _
    rw [trackOf_eq (announces_passOn _ _ _).rankings, hrankings]
    exact hentered

/-- Tracks are registered with a ranking one after the other. -/
theorem isSome_registerTracks (ns : TrackNamespace) {ranking : RankingId} (hok : w.RankingsOk)
    (hthere : (w.rankings.lookup ranking).isSome = true) (tracks : List RetroTrack) :
    ∀ track ∈ tracks, ((tracks.foldl (fun w track => w.callRanking ranking
      (.registerTrack ⟨ns, track.trackName⟩ track.initialPropertyValue track.publishSession))
      w).trackOf ranking ⟨ns, track.trackName⟩).isSome = true := by
  refine foldl_visits (I := fun w₁ : MoqxRelay => w₁.RankingsOk ∧
      (w₁.rankings.lookup ranking).isSome = true)
    (G := fun track (w₁ : MoqxRelay) =>
      (w₁.trackOf ranking ⟨ns, track.trackName⟩).isSome = true) tracks ⟨hok, hthere⟩ ?_ ?_ ?_
  · intro w₁ hw₁ track _
    refine ⟨hw₁.1.works (P := fun _ _ => True) (F := fun _ _ => True) (Works.refl.call trivial), ?_⟩
    rw [lookup_rankings_callRanking, if_pos rfl, Option.isSome_map]
    exact hw₁.2
  · intro w₁ hw₁ track _
    exact isSome_registerTrack hw₁.1 (.inr ⟨rfl, rfl, hw₁.2⟩)
  · intro w₁ hw₁ track _ track' hsome
    exact isSome_registerTrack hw₁.1 (.inl hsome)

/-- A recorded track enters a new ranking when the walk comes to its node. -/
theorem isSome_registerRetro {propertyType : Nat} {ranking : RankingId} {path : Path}
    {trackName : String} (hok : w.RankingsOk) (hthere : (w.rankings.lookup ranking).isSome = true)
    (hrecord : (w.publishAt path trackName).isSome = true) :
    ((registerRetro propertyType ranking w path).trackOf ranking
      ⟨path.reverse, trackName⟩).isSome = true := by
  unfold publishAt at hrecord
  unfold registerRetro
  cases hnode : w.tree.lookup path with
  | none =>
    rw [NamespaceTree.record, hnode] at hrecord
    cases hrecord
  | some node =>
    rw [record_of_lookup hnode] at hrecord
    obtain ⟨publisher, hpublisher⟩ := Option.isSome_iff_exists.mp hrecord
    have hpublish := mem_entries_iff.mpr hpublisher
    have hobserved : Works (fun _ _ => False) (fun _ _ => True) w
        ((node.publishes.entries.map fun e => (e.1, e.2)).foldl
          (observeRetro path.reverse propertyType ranking) w) := by
      refine works_foldl _ _ fun w₁ publish _ => ?_
      unfold observeRetro
      split
      · exact .refl
      · exact Works.refl.filter trivial
    have hthere' := (hobserved.ranking (R := fun _ _ => True) ranking (fun _ => trivial)
      fun _ _ _ _ _ => trivial).2
    obtain ⟨r, hr⟩ := Option.isSome_iff_exists.mp hthere
    obtain ⟨r', hr', -⟩ := hthere' r hr
    have hregistered := isSome_registerTracks path.reverse (hok.works hobserved)
      (by rw [hr']; rfl)
      ((node.publishes.entries.map fun e => (e.1, e.2)).map
        (w.retroTrack path.reverse propertyType)
        |>.insertionSort fun a b => a.lastObjectTime ≤ b.lastObjectTime)
      (w.retroTrack path.reverse propertyType (trackName, publisher))
      ((List.mem_insertionSort _).mpr (List.mem_map_of_mem hpublish))
    rw [(retroTrack_eq path.reverse propertyType (trackName, publisher)).1] at hregistered
    exact hregistered

theorem trackOf_withRanking (path : Path) (propertyType : Nat) (id : RankingId)
    (x : FullTrackName) :
    (w.withRanking path propertyType).trackOf id x =
      if id = w.nextId then none else w.trackOf id x := by
  unfold trackOf
  change ((w.rankings.insert w.nextId _).lookup id).bind _ = _
  split
  · next hid =>
    rw [hid, AList.lookup_insert]
    rfl
  · next hid => rw [AList.lookup_insert_ne hid]

/-- The walk after the creation of a ranking comes to the nodes of all recorded tracks. -/
theorem mem_subtree_of_publishAt {path p : Path} (propertyType : Nat) {trackName : String}
    (htree : w.tree.WF) (hsuffix : path <:+ p)
    (hrecord : (w.publishAt p trackName).isSome = true) :
    p ∈ (w.withRanking path propertyType).tree.subtree path := by
  obtain ⟨hwf, -, hlive, -⟩ :=
    insertRanking_spec htree path propertyType w.nextId
  refine mem_subtree hwf hsuffix ((hlive _).trans ?_)
  cases hnode : w.tree.lookup p with
  | some node => rfl
  | none =>
    rw [publishAt, NamespaceTree.record, hnode] at hrecord
    cases hrecord

/-- Every recorded track below its node enters a new ranking. -/
theorem isSome_withRetro {path : Path} (propertyType : Nat) {x : FullTrackName}
    (hok : w.RankingsOk) (htree : w.tree.WF) (hsuffix : path <:+ x.trackNamespace.reverse)
    (hx : (w.publishAt x.trackNamespace.reverse x.trackName).isSome = true) :
    ((w.withRetro path propertyType).trackOf w.nextId x).isSome = true := by
  obtain ⟨-, hrecord, -, -⟩ :=
    insertRanking_spec htree path propertyType w.nextId
  have hmem := mem_subtree_of_publishAt propertyType htree hsuffix hx
  have hvisited := foldl_visits (I := fun w₁ : MoqxRelay => w₁.RankingsOk ∧
      w₁.tree = (w.withRanking path propertyType).tree ∧
      (w₁.rankings.lookup w.nextId).isSome = true)
    (f := registerRetro propertyType w.nextId)
    (G := fun p (w₁ : MoqxRelay) => ∀ trackName, (w.publishAt p trackName).isSome = true →
      (w₁.trackOf w.nextId ⟨p.reverse, trackName⟩).isSome = true)
    ((w.withRanking path propertyType).tree.subtree path)
    ⟨hok.withRanking htree path propertyType, rfl, by
      change ((w.rankings.insert w.nextId _).lookup w.nextId).isSome = true
      rw [AList.lookup_insert]
      rfl⟩ ?_ ?_ ?_ _ hmem x.trackName hx
  · rw [List.reverse_reverse] at hvisited
    exact hvisited
  · rintro w₁ ⟨hok₁, htree₁, hthere⟩ p _
    have hworks := works_registerRetro (w := w₁) propertyType w.nextId p
    refine ⟨hok₁.works hworks, hworks.observes.tree.trans htree₁, ?_⟩
    obtain ⟨r, hr⟩ := Option.isSome_iff_exists.mp hthere
    obtain ⟨r', hr', -⟩ := (hworks.ranking (R := fun _ _ => True) w.nextId (fun _ => trivial)
      fun _ _ _ _ _ => trivial).2 r hr
    rw [hr']
    rfl
  · rintro w₁ ⟨hok₁, htree₁, hthere⟩ p _ trackName hp
    refine isSome_registerRetro hok₁ hthere ?_
    rw [publishAt, htree₁]
    change (((w.tree.insertRanking _ _ _).record p).publishes.lookup trackName).isSome = true
    rw [hrecord]
    exact hp
  · rintro w₁ ⟨hok₁, htree₁, hthere⟩ p _ p' hdone trackName hp'
    refine (works_registerRetro (w := w₁) propertyType w.nextId p).trackOf
      (M := fun t t' => t.isSome = true → t'.isSome = true) hok₁ w.nextId _ (fun _ hsome => hsome)
      ?_ (hdone trackName hp')
    rintro t r op ⟨-, y, publisher, rfl, -⟩ hr ht hsome
    rw [PropertyRanking.step, track_registerTrack hr]
    split
    · rw [Option.isSome_or]
      simp
    · exact ht hsome

/-- A new ranking has the recorded tracks below its node, with the values they were published
with. -/
theorem trackOf_withRetro {path : Path} {propertyType : Nat} (hok : w.RankingsOk)
    (htree : w.tree.WF) (x : FullTrackName) :
    (w.withRetro path propertyType).trackOf w.nextId x =
      if path <:+ x.trackNamespace.reverse then
        (w.publishAt x.trackNamespace.reverse x.trackName).map fun publisher =>
          ((w.announcedValue propertyType x).getD 0, publisher)
      else none := by
  have hspec := insertRanking_spec htree path propertyType w.nextId
  have hrecord : ∀ p, (w.withRanking path propertyType).tree.record p = w.tree.record p := hspec.2.1
  have hnew := hok.withRanking htree path propertyType
  have hmay := (works_withRetro (w := w) path propertyType).trackOf
    (M := fun t t' => t' = t ∨ (path <:+ x.trackNamespace.reverse ∧ ∃ publisher,
      w.publishAt x.trackNamespace.reverse x.trackName = some publisher ∧
        t' = t.or (some ((w.announcedValue propertyType x).getD 0, publisher)))) hnew w.nextId x
    (fun _ => .inl rfl) (by
      rintro t r op ⟨-, y, publisher, rfl, hsuffix, hy⟩ hr ht
      rw [hrecord] at hy
      rw [PropertyRanking.step, track_registerTrack hr]
      split
      · next hx =>
        subst hx
        refine .inr ⟨hsuffix, publisher, hy, ?_⟩
        rcases ht with ht | ⟨-, publisher', hy', ht⟩
        · rw [ht]
        · rw [publishAt, hy] at hy'
          cases hy'
          rw [ht, Option.or_assoc, Option.or_self]
      · exact ht)
  rw [trackOf_withRanking, if_pos rfl] at hmay
  by_cases hsuffix : path <:+ x.trackNamespace.reverse
  · rw [if_pos hsuffix]
    cases hx : w.publishAt x.trackNamespace.reverse x.trackName with
    | none =>
      refine hmay.resolve_right ?_
      rintro ⟨-, publisher, hpublisher, -⟩
      rw [hx] at hpublisher
      cases hpublisher
    | some publisher =>
      rcases hmay with hnone | ⟨-, publisher', hpublisher, hsome⟩
      · have hsome := isSome_withRetro propertyType hok htree hsuffix (by rw [hx]; rfl)
        rw [hnone] at hsome
        cases hsome
      · rw [hx] at hpublisher
        cases hpublisher
        exact hsome
  · rw [if_neg hsuffix]
    exact hmay.resolve_right fun hnew => hsuffix hnew.1

end Registering

/-- A ranking is made, with the tracks that are recorded below its node. -/
structure MakesRanking (w w' : MoqxRelay) (path : Path) (propertyType : Nat) (id : RankingId) :
    Prop where
  none_before : w.tree.ranking path propertyType = none
  there : w'.tree.ranking path propertyType = some id
  ranking : ∀ ⦃p T id'⦄, w'.tree.ranking p T = some id' →
    (p = path ∧ T = propertyType ∧ id' = id) ∨ (id' ≠ id ∧ w.tree.ranking p T = some id')
  old : ∀ ⦃id'⦄, id' ≠ id → ∀ x, w'.trackOf id' x = w.trackOf id' x
  new : ∀ x, w'.trackOf id x =
    if path <:+ x.trackNamespace.reverse then
      (w.publishAt x.trackNamespace.reverse x.trackName).map fun publisher =>
        ((w.announcedValue propertyType x).getD 0, publisher)
    else none

theorem MakesRanking.sameTracks {path : Path} {propertyType : Nat} {id : RankingId}
    (h : w.MakesRanking w' path propertyType id) (htree : w''.tree = w'.tree)
    (htrack : ∀ id x, w''.trackOf id x = w'.trackOf id x) :
    w.MakesRanking w'' path propertyType id where
  none_before := h.none_before
  there := by
    rw [htree]
    exact h.there
  ranking := by
    rw [htree]
    exact h.ranking
  old := fun id' hne x => (htrack id' x).trans (h.old hne x)
  new := fun x => (htrack id x).trans (h.new x)

theorem makesRanking_withRetro {path : Path} {propertyType : Nat} (hok : w.RankingsOk)
    (htree : w.tree.WF) (hlive : (w.tree.lookup path).isSome = true)
    (hnone : w.tree.ranking path propertyType = none) :
    w.MakesRanking (w.withRetro path propertyType) path propertyType w.nextId := by
  obtain ⟨-, -, -, hranking⟩ :=
    insertRanking_spec htree path propertyType w.nextId
  have hworks := works_withRetro (w := w) path propertyType
  have hspec : ∀ p T, (w.withRetro path propertyType).tree.ranking p T =
      if p = path ∧ T = propertyType ∧ (w.tree.lookup path).isSome = true then some w.nextId
      else w.tree.ranking p T := by
    intro p T
    rw [hworks.observes.tree]
    exact hranking p T
  refine ⟨hnone, ?_, ?_, ?_, trackOf_withRetro hok htree⟩
  · rw [hspec, if_pos ⟨rfl, rfl, hlive⟩]
  · intro p T id' hp
    rw [hspec] at hp
    split at hp
    · next hnew =>
      cases hp
      exact .inl ⟨hnew.1, hnew.2.1, rfl⟩
    · obtain ⟨ranking, hid'⟩ := hok.there hp
      exact .inr ⟨Nat.ne_of_lt (hok.ranking_lt hid'), hp⟩
  · intro id' hne x
    refine (hworks.trackOf_eq (hok.withRanking htree path propertyType) id' x ?_).trans ?_
    · rintro r op ⟨rfl, -⟩ hr
      exact absurd rfl hne
    · rw [trackOf_withRanking, if_neg hne]

theorem RankingsOk.withRetro (h : w.RankingsOk) (htree : w.tree.WF) (path : Path)
    (propertyType : Nat) : (w.withRetro path propertyType).RankingsOk :=
  (h.withRanking htree path propertyType).works (works_withRetro path propertyType)

section Subscribing

variable {session : SessionId} {subNs : SubscribeNamespace} {tree : NamespaceTree}

theorem RankingsOk.subscribed (hok : w.RankingsOk) {path : Path} {changed : NamespaceRecord}
    (hedits : w.tree.Edits tree path changed) :
    ({ w with tree := tree, nextId := w.nextId + 1 } : MoqxRelay).RankingsOk :=
  hok.of_eq rfl (fun _ _ _ hp => hedits.ranking_of_some hp) (Nat.le_succ _)

/-- A subscriber whose ranking is there joins it. -/
theorem sameTracks_subscribe {id : RankingId} {n : Nat} {forward : Bool} {path : Path}
    {changed : NamespaceRecord} (hok : w.RankingsOk) (hedits : w.tree.Edits tree path changed)
    (hannounces : (({ w with tree := tree, nextId := w.nextId + 1 } : MoqxRelay).callRanking id
      (.addSessionToTopNGroup n session forward)).Announces w') : w.SameTracks w' := by
  have hadded : w.SameTracks { w with tree := tree, nextId := w.nextId + 1 } :=
    .of_edits hedits rfl rfl
  have hjoined := hadded.trans (sameTracks_call id (hok.subscribed hedits)
    (.inl ⟨n, session, forward, rfl⟩))
  exact hjoined.trans (.of_eq hannounces.tree hannounces.rankings)

/-- A subscriber whose ranking is not there makes it. -/
theorem makesRanking_subscribe {filter : TrackFilter} (hw : w.Base) (hok : w.RankingsOk)
    (hadd : w.tree.addNamespaceSubscriber subNs.trackNamespacePrefix session
      (SubscribeNamespace.info subNs (w.subscribeHandle subNs)) = .ok tree)
    (hranking : tree.ranking subNs.trackNamespacePrefix.reverse filter.propertyType = none)
    (hannounces : ((({ w with tree := tree, nextId := w.nextId + 1 } : MoqxRelay).withRetro
      subNs.trackNamespacePrefix.reverse filter.propertyType).callRanking (w.nextId + 1)
      (.addSessionToTopNGroup filter.maxSelected session subNs.forward)).Announces w') :
    w.MakesRanking w' subNs.trackNamespacePrefix.reverse filter.propertyType (w.nextId + 1) := by
  have hedits := addNamespaceSubscriber_edits hw.tree hadd
  have hlive := lookup_of_addNamespaceSubscriber hw.tree hadd
  have haddedOk := hok.subscribed hedits
  have hmade := makesRanking_withRetro haddedOk hedits.wf hlive hranking
  have hsession := sameTracks_call (w.nextId + 1)
    (haddedOk.withRetro hedits.wf subNs.trackNamespacePrefix.reverse filter.propertyType)
    (.inl ⟨filter.maxSelected, session, subNs.forward, rfl⟩)
  have hjoined := hmade.sameTracks
    (hannounces.tree.trans (quiet_callRanking _ _).tree)
    fun id x => (trackOf_eq hannounces.rankings id x).trans (hsession.track id x)
  refine ⟨?_, hjoined.there, ?_, hjoined.old, ?_⟩
  · rw [← hedits.ranking _ hlive]
    exact hranking
  · intro p T id' hp
    rcases hjoined.ranking hp with hnew | ⟨hne, hold⟩
    · exact .inl hnew
    · exact .inr ⟨hne, hedits.ranking_of_some hold⟩
  · intro x
    have hpublishes := publishes_of_edits hedits rfl x.trackNamespace.reverse
    rw [publishAt, ← hpublishes]
    exact hjoined.new x

/-- What a SUBSCRIBE_NAMESPACE does to the rankings. -/
theorem subscribe_tracks (hw : w.Base) (hok : w.RankingsOk)
    (hs : w.subscribeNamespace session subNs = .ok w') :
    w.SameTracks w' ∨ ∃ filter : TrackFilter, ∃ id,
      w.MakesRanking w' subNs.trackNamespacePrefix.reverse filter.propertyType id := by
  rcases subscribeNamespace_joins hs with rfl | ⟨tree, hadd, hjoins⟩
  · exact .inl (.of_eq rfl rfl)
  have hedits := addNamespaceSubscriber_edits hw.tree hadd
  rcases hjoins with hannounces | ⟨filter, hfilter, ⟨id, hannounces⟩ | ⟨hranking, hannounces⟩⟩
  · exact .inl (.of_edits hedits hannounces.tree hannounces.rankings)
  · exact .inl (sameTracks_subscribe hok hedits hannounces)
  · exact .inr ⟨filter, _, makesRanking_subscribe hw hok hadd hranking hannounces⟩

end Subscribing

theorem trackOf_removeTrack (hok : w.RankingsOk) (id : RankingId) (x : FullTrackName) :
    (w.callRanking id (.removeTrack x)).trackOf id x = none := by
  rw [trackOf_callRanking, if_pos rfl]
  cases hlookup : w.rankings.lookup id with
  | none => rfl
  | some r =>
    rw [Option.bind_some, PropertyRanking.step, track_removeTrack (hok.wf hlookup),
      if_pos rfl]

/-- The rankings that a chain tells of its end lose its track. -/
theorem trackOf_endedInRankings (hok : w.RankingsOk) (id : FilterId) (filter : TopNFilter)
    (ranking : RankingId) (x : FullTrackName) :
    (w.endedInRankings id filter).trackOf ranking x =
      if x = filter.ftn ∧ ∃ e ∈ filter.observers.entries, e.2.ranking = ranking then none
      else w.trackOf ranking x := by
  have hmay := (works_endedInRankings (w := w) id filter).trackOf
    (M := fun t t' => t' = t ∨ ((x = filter.ftn ∧
      ∃ e ∈ filter.observers.entries, e.2.ranking = ranking) ∧ t' = none)) hok ranking x
    (fun _ => .inl rfl) (by
      rintro t r op ⟨rfl, hobserved⟩ hr ht
      rw [PropertyRanking.step, track_removeTrack hr]
      split
      · next hx => exact .inr ⟨⟨hx, hobserved⟩, rfl⟩
      · exact ht)
  split
  · next hon =>
    obtain ⟨rfl, e, he, rfl⟩ := hon
    have hok' : (w.setFilter id fun filter => { filter with ended := true }).RankingsOk :=
      hok.works (P := fun _ _ => True) (F := fun _ _ => True) (Works.refl.filter trivial)
    refine foldl_visits (I := fun w₁ : MoqxRelay => w₁.RankingsOk)
      (G := fun (e : (_ : Nat) × ObserverEntry) (w₁ : MoqxRelay) =>
        w₁.trackOf e.2.ranking filter.ftn = none) filter.observers.entries hok' ?_ ?_ ?_ e he
    · intro w₁ hw₁ e _
      exact hw₁.works (P := fun _ _ => True) (F := fun _ _ => True) (Works.refl.call trivial)
    · intro w₁ hw₁ e _
      exact trackOf_removeTrack hw₁ _ _
    · intro w₁ hw₁ e _ e' hnone
      by_cases hsame : e'.2.ranking = e.2.ranking
      · rw [hsame]
        exact trackOf_removeTrack hw₁ _ _
      · rw [trackOf_callRanking, if_neg hsame]
        exact hnone
  · next hoff => exact hmay.resolve_right fun hgone => hoff hgone.1

/-- What the end of a chain does to the rankings. -/
theorem publishDone_tracks {id : FilterId} (hw : w.Base) (hok : w.RankingsOk)
    (hs : w.publishDone id = .ok w') :
    ∃ filter, w.filters.lookup id = some filter ∧
      (∀ p T ranking, w'.tree.ranking p T = some ranking → w.tree.ranking p T = some ranking) ∧
      ∀ ranking x, w'.trackOf ranking x =
        if x = filter.ftn ∧ ∃ e ∈ filter.observers.entries, e.2.ranking = ranking then none
        else w.trackOf ranking x := by
  obtain ⟨filter, tree, hfilter, htree, rfl⟩ := publishDone_spec hs
  refine ⟨filter, hfilter, ?_, ?_⟩
  · intro p T ranking hp
    rw [drain, (quiet_setForwarder _ _).tree] at hp
    obtain ⟨_, hedits⟩ := publishDone_edits hw.tree htree
    exact hedits.ranking_of_some hp
  · intro ranking x
    rw [drain, trackOf_eq (rankings_setForwarder _ _)]
    exact trackOf_endedInRankings hok id filter ranking x

/-- Objects neither bring a track into a ranking nor remove one. -/
theorem isSome_object {id : FilterId} {extensions : IntExtensions} (hok : w.RankingsOk)
    (hs : w.object id extensions = .ok w') (ranking : RankingId) (x : FullTrackName) :
    (w'.trackOf ranking x).isSome = (w.trackOf ranking x).isSome := by
  obtain ⟨filter, observed, -, hworks⟩ := works_object hs
  have hobserved : ({ w with observed := observed } : MoqxRelay).RankingsOk :=
    ⟨hok.wf, hok.ranking_lt, hok.there, hok.apart⟩
  refine hworks.trackOf (M := fun t t' => t'.isSome = t.isSome) hobserved ranking x
    (fun _ => rfl) ?_
  rintro t r op (⟨value, activity, rfl⟩ | ⟨activity, rfl⟩) hr ht
  · rw [PropertyRanking.step, track_updateSortValue hr]
    split
    · rw [Option.isSome_map]
      exact ht
    · exact ht
  · rw [PropertyRanking.step, track_sweepIdle]
    exact ht

theorem tree_object {id : FilterId} {extensions : IntExtensions}
    (hs : w.object id extensions = .ok w') : w'.tree = w.tree := by
  obtain ⟨filter, observed, -, hworks⟩ := works_object hs
  exact hworks.observes.tree

/-- A ranking has only tracks below its node. -/
def Scoped (w : MoqxRelay) : Prop :=
  ∀ ⦃p T id x⦄, w.tree.ranking p T = some id → (w.trackOf id x).isSome = true →
    p <:+ x.trackNamespace.reverse

theorem scoped_start (config : RelayConfig) : ({ config := config } : MoqxRelay).Scoped := by
  intro p T id x hp
  rw [ranking_start] at hp
  cases hp

theorem Scoped.step (h : w.Scoped) (hw : w.Base) (hok : w.RankingsOk)
    (hs : w.step op = .ok w') : w'.Scoped := by
  intro p T id x hp hx
  by_cases hspares : op.spares = true
  · have hsame := sameTracks_step hw hok hspares hs
    rw [hsame.track] at hx
    exact h (hsame.ranking hp) hx
  cases op with
  | publish session ftn requestID handle extensions =>
    rcases publish_tracks hw hok hs with rfl | ⟨hranking, -, htrack⟩
    · exact h hp hx
    · rw [htrack p T id x hp] at hx
      split at hx
      · next hon =>
        rw [hon.1]
        exact hon.2
      · exact h (hranking p T id hp) hx
  | object filter extensions =>
    rw [isSome_object hok hs] at hx
    rw [tree_object hs] at hp
    exact h hp hx
  | publishDone filter =>
    obtain ⟨found, -, hranking, htrack⟩ := publishDone_tracks hw hok hs
    rw [htrack] at hx
    split at hx
    · cases hx
    · exact h (hranking p T id hp) hx
  | subscribeNamespace session subNs =>
    rcases subscribe_tracks hw hok hs with hsame | ⟨filter, made, hmade⟩
    · rw [hsame.track] at hx
      exact h (hsame.ranking hp) hx
    · rcases hmade.ranking hp with ⟨rfl, rfl, rfl⟩ | ⟨hne, hold⟩
      · rw [hmade.new] at hx
        split at hx
        · next hsuffix => exact hsuffix
        · cases hx
      · rw [hmade.old hne] at hx
        exact h hold hx
  | _ => exact absurd rfl hspares

end MoqxRelay

end Moqx
