import Moqx.Relay.Reconciled

/-! Sessions that publish are given the best tracks of others. Their selections are reconciled on
most calls, but not on every removal. -/
namespace Moqx

open Maps Ranks

namespace PropertyRanking

variable {r r' : PropertyRanking} {g : TopNGroup} {x : FullTrackName} {i j n : Nat}
  {session : SessionId} {info : SessionInfo}

/-- The tracks of other publishers. -/
def others (tracks : List Entry) (session : SessionId) : List Entry :=
  tracks.filter fun e => e.2.publisherRaw ≠ session

theorem others_sorted (r : PropertyRanking) (session : SessionId) :
    (others r.rankedTracks.entries session).Pairwise fun a b => b.1 < a.1 :=
  r.rankedTracks.sorted.filter _

/-- A selection that is up to date: the `n` best of the others, and the key of the last. -/
structure Settled (r : PropertyRanking) (n : Nat) (session : SessionId) (info : SessionInfo) :
    Prop where
  waterline : info.waterlineKey =
    (others r.rankedTracks.entries session)[n - 1]?.map fun e => e.1
  selected : info.selectedTracks =
    ((others r.rankedTracks.entries session).take n).map fun e => e.2.ftn

theorem waterlineFrom_eq {maxSelected nonSelfCount : Nat} (h : nonSelfCount < maxSelected)
    (tracks : List Entry) : waterlineFrom session maxSelected nonSelfCount tracks =
      (others tracks session)[maxSelected - nonSelfCount - 1]?.map fun e => e.1 := by
  induction tracks generalizing nonSelfCount with
  | nil => simp [waterlineFrom, others]
  | cons e tracks ih =>
    obtain ⟨key, entry⟩ := e
    unfold waterlineFrom
    by_cases hself : entry.publisherRaw = session
    · have hskip : others ((key, entry) :: tracks) session = others tracks session := by
        simp [others, hself]
      rw [if_neg (by simpa using hself), hskip, ih h]
    · have hcons : others ((key, entry) :: tracks) session =
          (key, entry) :: others tracks session := by
        simp [others, hself]
      rw [if_pos hself, hcons]
      split
      · next hlast =>
        have hzero : maxSelected - nonSelfCount - 1 = 0 := by omega
        simp [hzero]
      · next hlast =>
        obtain ⟨k, hk⟩ : ∃ k, maxSelected - nonSelfCount - 1 = k + 1 :=
          ⟨maxSelected - nonSelfCount - 2, by omega⟩
        rw [ih (by omega), hk, List.getElem?_cons_succ]
        congr 3
        omega

theorem aboveWaterline_eq (hn : 1 ≤ n) :
    r.aboveWaterline session (r.computeWaterlineKey session n) =
      ((others r.rankedTracks.entries session).take n).map fun e => e.2.ftn := by
  have hsorted := others_sorted r session
  have hfilter : ∀ waterlineKey : Option RankKey, r.aboveWaterline session waterlineKey =
      ((others r.rankedTracks.entries session).filter fun e =>
        waterlineKey.all (· ≤ e.1)).map fun e => e.2.ftn := by
    intro waterlineKey
    rw [aboveWaterline, others, List.filter_filter]
    congr 2
    funext e
    rw [Bool.decide_and, Bool.decide_eq_true, Bool.and_comm]
  rw [hfilter, computeWaterlineKey, waterlineFrom_eq (by omega), Nat.sub_zero]
  congr 1
  cases hlast : (others r.rankedTracks.entries session)[n - 1]? with
  | none =>
    rw [List.getElem?_eq_none_iff] at hlast
    rw [List.take_of_length_le (by omega)]
    simp
  | some e =>
    have htake := filter_le_eq_take hsorted hlast
    rw [Nat.sub_add_cancel hn] at htake
    rw [← htake]
    simp

/-- Reconciling brings a selection up to date. -/
theorem settled_reconcile (hn : 1 ≤ n) (info : SessionInfo) :
    r.Settled n session (r.reconcilePublisherSelection info n session).1 := by
  refine ⟨?_, aboveWaterline_eq hn⟩
  simp only [reconcilePublisherSelection, computeWaterlineKey]
  rw [waterlineFrom_eq (by omega), Nat.sub_zero]

/-- A selection stays up to date while the best tracks of others do not change. -/
theorem Settled.of_others (h : r.Settled n session info)
    (hat : (others r'.rankedTracks.entries session)[n - 1]? =
      (others r.rankedTracks.entries session)[n - 1]?)
    (htake : (others r'.rankedTracks.entries session).take n =
      (others r.rankedTracks.entries session).take n) : r'.Settled n session info :=
  ⟨by rw [h.waterline, hat], by rw [h.selected, htake]⟩

variable {e : Entry} {l l' : List Entry}

theorem others_placed (h : Placed l i e l') (session : SessionId) :
    others l' session = if e.2.publisherRaw = session then others l session
      else (others l session).insertIdx (others (l.take i) session).length e := by
  rw [others, h.eq, filter_insertIdx _ h.le]
  by_cases hself : e.2.publisherRaw = session <;> simp [hself, others]

/-- A track far enough down is no concern of a publisher. -/
theorem le_others_length (h : Placed l i e l') (session : SessionId) :
    i ≤ (others (l.take i) session).length + ownedIn l session := by
  have hle := le_length_filter_take (fun e : Entry => decide (e.2.publisherRaw ≠ session)) h.le
  simpa [others, ownedIn] using hle

/-- A publisher does not see its own track, nor one that stands below its selection. -/
theorem others_below (h : Placed l i e l') (hn : 1 ≤ n) (hbelow : e.2.publisherRaw = session ∨
      n ≤ (others (l.take i) session).length) :
    (others l' session)[n - 1]? = (others l session)[n - 1]? ∧
      (others l' session).take n = (others l session).take n := by
  rw [others_placed h]
  split
  · exact ⟨rfl, rfl⟩
  · next hself =>
    have hle := hbelow.resolve_left hself
    exact ⟨List.getElem?_insertIdx_of_lt (by omega), List.take_insertIdx_eq_take_of_le _ _ _ _ hle⟩

/-- The condition under which a removal leaves no selection behind: every other publisher in a
group either did not have the track among its selected ones, or is reconciled because a track takes
the free place in the shared selection. -/
def RemovalSeen (r : PropertyRanking) (ftn : FullTrackName) (n : Nat) (session : SessionId) :
    Prop :=
  r.Promotes ftn n ∨ ∀ e ∈ (others r.rankedTracks.entries session).take n, e.2.ftn ≠ ftn

instance (r : PropertyRanking) (ftn : FullTrackName) (n : Nat) (session : SessionId) :
    Decidable (r.RemovalSeen ftn n session) :=
  inferInstanceAs (Decidable (_ ∨ _))

/-- Sessions join groups that select something, and removals are seen by the publishers. -/
def KeepsSettled (r : PropertyRanking) : Op → Prop
  | .addSessionToTopNGroup maxSelected _ _ => 1 ≤ maxSelected
  | .removeTrack ftn => ∀ group ∈ r.topNGroups.entries, ∀ session ∈ group.2.sessions.keys,
      r.Owns session → r.RemovalSeen ftn group.1 session
  | _ => True

instance (r : PropertyRanking) (op : Op) : Decidable (r.KeepsSettled op) := by
  induction op using Op.casesOn <;> unfold KeepsSettled <;> infer_instance

theorem others_take_length (l : List Entry) (i : Nat) (session : SessionId) :
    (others (l.take i) session).length ≤ (others l session).length :=
  ((List.take_sublist i l).filter _).length_le

/-- A removed track that a publisher did not have among its best stood below them. -/
theorem below_of_unseen (h : Placed l i e l')
    (hunseen : ∀ a ∈ (others l' session).take n, a.2.ftn ≠ e.2.ftn) :
    e.2.publisherRaw = session ∨ n ≤ (others (l.take i) session).length := by
  by_cases hself : e.2.publisherRaw = session
  · exact .inl hself
  · refine .inr (Nat.le_of_not_lt fun hlt => ?_)
    rw [others_placed h, if_neg hself] at hunseen
    exact hunseen e (mem_take_insertIdx (others_take_length l i session) hlt) rfl

/-- One call keeps the selections of the publishers up to date. -/
theorem Turn.settled {op : Op} {change : GroupChange} (turn : Turn r n g op r' change) (hw : r.WF)
    (hw' : r'.WF) (hidle : r.idleTimeout = 0) (hn : 1 ≤ n) (hmax : g.maxSelected = n)
    (hshared : g.Shared (best n r.names))
    (hseen : ∀ ftn, op = .removeTrack ftn → ∀ session info, g.sessions.lookup session = some info →
      r.Owns session → r.RemovalSeen ftn n session)
    (h : r.Publishers (r.Settled n) g) : r'.Publishers (r'.Settled n) change.1 := by
  refine turn.publishers hw hw' hidle hmax hshared (fun session info => settled_reconcile hn info)
    (fun session info forward h => ⟨h.waterline, h.selected⟩)
    fun session info hl hpub _ hspared => ?_
  have hbefore := h session info hl hpub
  cases hspared with
  | same tracks => exact hbefore.of_others (by rw [tracks]) (by rw [tracks])
  | moved placed placed' below =>
    have hi := le_others_length placed session
    have hj := le_others_length placed' session
    obtain ⟨hat, htake⟩ := others_below placed hn (below.imp_right fun _ => by omega)
    obtain ⟨hat', htake'⟩ := others_below placed' hn (below.imp_right fun _ => by omega)
    exact hbefore.of_others (hat'.trans hat.symm) (htake'.trans htake.symm)
  | ended call placed tracks stays =>
    have hunseen := (hseen _ call session info hl (hw.isPublisher_iff.mp hpub)).resolve_left stays
    obtain ⟨hat, htake⟩ := others_below placed hn (below_of_unseen placed hunseen)
    refine hbefore.of_others ?_ ?_
    · rw [tracks, hat]
    · rw [tracks, htake]

section
variable {sweepThrottle : Milliseconds} {history : List Event}

/-- In a group of a run that keeps the selections up to date they are, and no session is in a group
that selects nothing. -/
theorem Reaches.settled (h : Reaches KeepsSettled (create 0 0 sweepThrottle) history r) (n : Nat) :
    r.Publishers (r.Settled n) (r.groupOf n) ∧
      ∀ session info, (r.groupOf n).sessions.lookup session = some info → 1 ≤ n := by
  induction h generalizing n with
  | start =>
    refine ⟨fun session info hl => ?_, fun session info hl => ?_⟩ <;> cases hl
  | @step history r op h ok ih =>
    have hw := h.wf (wf_create 0 0 sweepThrottle)
    have hw' := hw.step op
    cases hg : (r.step op).1.topNGroups.lookup n with
    | none =>
      rw [Publishers, (groupOf_of_none hg).1]
      refine ⟨fun session info hl => ?_, fun session info hl => ?_⟩ <;> cases hl
    | some g =>
      rw [groupOf_eq hg]
      have hturn := step_turn hw hg
      have hpos : ∀ session info, g.sessions.lookup session = some info → 1 ≤ n := by
        intro session info hl
        cases hjoin : op.joins n session with
        | true =>
          cases op with
          | addSessionToTopNGroup m joining forward =>
            obtain ⟨rfl, -⟩ : m = n ∧ joining = session := by simpa [Op.joins] using hjoin
            exact ok
          | _ => cases hjoin
        | false =>
          cases hs₀ : (r.groupOf n).sessions.lookup session with
          | none => exact absurd (hturn.members hw' hjoin hs₀) (by simp [hl])
          | some info₀ => exact (ih n).2 session info₀ hs₀
      refine ⟨fun session info hl => ?_, hpos⟩
      refine hturn.settled hw hw' h.limits.2 (hpos session info hl) (groupOf_maxSelected hw n)
        (h.shared n) ?_ (ih n).1 session info hl
      rintro ftn rfl s info₀ hs howns
      cases hg₀ : r.topNGroups.lookup n with
      | none =>
        rw [(groupOf_of_none hg₀).1] at hs
        cases hs
      | some g₀ =>
        rw [groupOf_eq hg₀] at hs
        exact ok ⟨n, g₀⟩ (AList.mem_lookup_iff.mp hg₀) s
          (AList.mem_keys.mp (AList.lookup_isSome.mp (by rw [hs]; rfl))) howns

/-- Without a queue and without idle eviction, in a run where sessions join groups for at least one
track and no removal goes unseen, every session that owns a track has selected just the `n` best
tracks of others, and its waterline is the key of the last of them. -/
theorem others_selected (h : Reaches KeepsSettled (create 0 0 sweepThrottle) history r)
    (hg : r.topNGroups.lookup n = some g) (hs : g.sessions.lookup session = some info)
    (howns : r.Owns session) :
    (∀ x, x ∈ info.selectedTracks ↔ IsBest (others r.rankedTracks.entries session) n x) ∧
      info.waterlineKey = (others r.rankedTracks.entries session)[n - 1]?.map fun e => e.1 := by
  have hw := h.wf (wf_create 0 0 sweepThrottle)
  have hall := (h.settled n).1
  rw [groupOf_eq hg] at hall
  have hsettled := hall session info hs (hw.isPublisher_iff.mpr howns)
  refine ⟨fun x => ?_, hsettled.waterline⟩
  rw [hsettled.selected, ← mem_best_iff (others_sorted r session), mem_best, List.map_take]

end

/-- A publisher with the best of the others selected, whose third track then ends. -/
theorem others_selected_one :
    let ops := [.registerTrack ⟨[], "a"⟩ (some 5) 0, .registerTrack ⟨[], "b"⟩ (some 4) 1,
      .registerTrack ⟨[], "c"⟩ (some 3) 1, .addSessionToTopNGroup 1 0 true,
      .removeTrack ⟨[], "c"⟩]
    let x := (create 0 0 0).run [] ops
    Reaches KeepsSettled (create 0 0 0) x.2 x.1 ∧ ∃ g info, x.1.topNGroups.lookup 1 = some g ∧
      g.sessions.lookup 0 = some info ∧ x.1.Owns 0 ∧
      ∀ y, y ∈ info.selectedTracks ↔ IsBest (others x.1.rankedTracks.entries 0) 1 y := by
  intro ops x
  have hrun : Reaches KeepsSettled (create 0 0 0) x.2 x.1 := Reaches.start.run (by decide +kernel)
  have howns : x.1.Owns 0 := by decide +kernel
  have hgroup : ((x.1.topNGroups.lookup 1).any fun g => (g.sessions.lookup 0).isSome) = true := by
    decide +kernel
  refine ⟨hrun, ?_⟩
  cases hg : x.1.topNGroups.lookup 1 with
  | none => simp [hg] at hgroup
  | some g =>
    rw [hg, Option.any_some] at hgroup
    obtain ⟨info, hs⟩ := Option.isSome_iff_exists.mp hgroup
    exact ⟨g, info, rfl, hs, howns, (others_selected hrun hg hs howns).1⟩

/-- The best of the others ends while it stands outside the shared selection: the publisher keeps
it selected, and the next one does not take its place. -/
theorem ended_track_stays_selected :
    let ops := [.registerTrack ⟨[], "a"⟩ (some 5) 0, .registerTrack ⟨[], "b"⟩ (some 4) 1,
      .registerTrack ⟨[], "c"⟩ (some 3) 1, .addSessionToTopNGroup 1 0 true,
      .removeTrack ⟨[], "b"⟩]
    let x := (create 0 0 0).run [] ops
    Reaches (fun _ _ => True) (create 0 0 0) x.2 x.1 ∧ x.1.Owns 0 ∧
      ((x.1.topNGroups.lookup 1).bind fun g => g.sessions.lookup 0).map
        (fun info => info.selectedTracks) = some [⟨[], "b"⟩] ∧
      ¬ IsBest (others x.1.rankedTracks.entries 0) 1 ⟨[], "b"⟩ ∧
      IsBest (others x.1.rankedTracks.entries 0) 1 ⟨[], "c"⟩ := by
  refine ⟨Reaches.start.run ⟨trivial, trivial, trivial, trivial, trivial, trivial⟩, ?_⟩
  decide +kernel

end PropertyRanking

end Moqx
