import Moqx.Relay.Turns

/-! Runs of the ranking with what they fired, and the tracks a session has been given after the
callbacks fired for it. -/
namespace Moqx

open Maps Ranks

/-- What a session learns of a track. -/
inductive Notice where
  | select (ftn : FullTrackName)
  | evict (ftn : FullTrackName)
  | ended (ftn : FullTrackName)
deriving DecidableEq, Repr

/-- The delivered tracks after a notice: none if a delivered track is selected or a track that was
not delivered is evicted. -/
def Notice.apply (delivered : Finset FullTrackName) : Notice → Option (Finset FullTrackName)
  | .select ftn => if ftn ∈ delivered then none else some (insert ftn delivered)
  | .evict ftn => if ftn ∈ delivered then some (delivered.erase ftn) else none
  | .ended ftn => some (delivered.erase ftn)

def replay (delivered : Finset FullTrackName) (notices : List Notice) :
    Option (Finset FullTrackName) :=
  notices.foldlM Notice.apply delivered

/-- The notices of one callback for a session. -/
def Callback.heardBy (session : SessionId) : Callback → List Notice
  | .onSelected ftn s _ => if s = session then [.select ftn] else []
  | .onBatchSelected ftn sessions =>
    sessions.flatMap fun s => if s.1 = session then [.select ftn] else []
  | .onEvicted ftn s => if s = session then [.evict ftn] else []

def heard (session : SessionId) (callbacks : List Callback) : List Notice :=
  callbacks.flatMap (Callback.heardBy session)

section
variable {d : Finset FullTrackName} {session : SessionId} {x : FullTrackName}

@[simp] theorem replay_nil : replay d [] = some d := rfl

theorem replay_append (a b : List Notice) :
    replay d (a ++ b) = (replay d a).bind fun d => replay d b := by
  simp [replay, List.foldlM_append, Option.bind_eq_bind]

theorem replay_select (h : x ∉ d) (l : List Notice) :
    replay d (.select x :: l) = replay (insert x d) l := by
  simp [replay, Notice.apply, h]

theorem replay_evict (h : x ∈ d) (l : List Notice) :
    replay d (.evict x :: l) = replay (d.erase x) l := by
  simp [replay, Notice.apply, h]

@[simp] theorem replay_ended (l : List Notice) :
    replay d (.ended x :: l) = replay (d.erase x) l := rfl

/-- Selecting tracks that are new one by one. -/
theorem replay_selects {l : List FullTrackName} (hl : l.Nodup) (h : ∀ x ∈ l, x ∉ d) :
    replay d (l.map .select) = some (d ∪ l.toFinset) := by
  induction l generalizing d with
  | nil => simp
  | cons x l ih =>
    obtain ⟨hx, hl⟩ := List.nodup_cons.mp hl
    rw [List.map_cons, replay_select (h x List.mem_cons_self), ih hl]
    · rw [List.toFinset_cons, Finset.insert_union, Finset.union_insert]
    · intro y hy hmem
      rcases Finset.mem_insert.mp hmem with rfl | hmem
      · exact hx hy
      · exact h y (List.mem_cons_of_mem x hy) hmem

/-- Evicting delivered tracks one by one. -/
theorem replay_evicts {l : List FullTrackName} (hl : l.Nodup) (h : ∀ x ∈ l, x ∈ d) :
    replay d (l.map .evict) = some (d \ l.toFinset) := by
  induction l generalizing d with
  | nil => simp
  | cons x l ih =>
    obtain ⟨hx, hl⟩ := List.nodup_cons.mp hl
    rw [List.map_cons, replay_evict (h x List.mem_cons_self), ih hl]
    · rw [List.toFinset_cons, Finset.sdiff_insert, Finset.erase_sdiff_comm]
    · intro y hy
      refine Finset.mem_erase.mpr ⟨?_, h y (List.mem_cons_of_mem x hy)⟩
      rintro rfl
      exact hx hy

@[simp] theorem heard_nil : heard session [] = [] := rfl

@[simp] theorem heard_append (a b : List Callback) :
    heard session (a ++ b) = heard session a ++ heard session b := List.flatMap_append

theorem heard_evicted {sessions : List SessionId} (h : sessions.Nodup) (x : FullTrackName) :
    heard session (sessions.map (.onEvicted x)) =
      if session ∈ sessions then [.evict x] else [] := by
  induction sessions with
  | nil => rfl
  | cons s sessions ih =>
    obtain ⟨hs, h⟩ := List.nodup_cons.mp h
    have ih := ih h
    simp only [heard, List.map_cons, List.flatMap_cons, Callback.heardBy] at ih ⊢
    rw [ih]
    by_cases heq : s = session
    · subst heq
      simp [hs]
    · simp [heq, Ne.symm heq]

theorem heard_map (f : FullTrackName → Callback) (notice : FullTrackName → Notice)
    (h : ∀ x, (f x).heardBy session = [notice x]) (l : List FullTrackName) :
    heard session (l.map f) = l.map notice := by
  rw [heard, List.flatMap_map, funext h, ← List.map_eq_flatMap]

theorem heard_map_other (f : FullTrackName → Callback) (h : ∀ x, (f x).heardBy session = [])
    (l : List FullTrackName) : heard session (l.map f) = [] := by
  simp [heard, List.flatMap_map, h]

end

namespace PropertyRanking

variable {r : PropertyRanking} {g : TopNGroup} {n : Nat} {session : SessionId}

/-- The notices of a publisher's own selection. -/
theorem heard_reconcile (r : PropertyRanking) (info : SessionInfo) (n : Nat) (session : SessionId) :
    heard session (r.reconcilePublisherSelection info n session).2 =
      (info.selectedTracks.filter
        (· ∉ (r.reconcilePublisherSelection info n session).1.selectedTracks)).map .evict ++
      ((r.reconcilePublisherSelection info n session).1.selectedTracks.filter
        (· ∉ info.selectedTracks)).map .select := by
  simp only [reconcilePublisherSelection, heard_append]
  rw [heard_map _ .evict fun x => by simp [Callback.heardBy],
    heard_map _ .select fun x => by simp [Callback.heardBy]]
  rfl

theorem heard_reconcile_other {other : SessionId} (h : other ≠ session) (info : SessionInfo) :
    heard session (r.reconcilePublisherSelection info n other).2 = [] := by
  simp only [reconcilePublisherSelection, heard_append]
  rw [heard_map_other _ fun x => by simp [Callback.heardBy, h],
    heard_map_other _ fun x => by simp [Callback.heardBy, h], List.append_nil]

/-- A publisher that was given its old selection is given its new one. -/
theorem replay_reconcile (hr : r.names.Nodup) (info : SessionInfo)
    (h : info.selectedTracks.Nodup) (n : Nat) (session : SessionId) :
    replay info.selectedTracks.toFinset
        (heard session (r.reconcilePublisherSelection info n session).2) =
      some (r.reconcilePublisherSelection info n session).1.selectedTracks.toFinset := by
  have hnow : (r.reconcilePublisherSelection info n session).1.selectedTracks.Nodup :=
    aboveWaterline_nodup hr session _
  rw [heard_reconcile]
  generalize (r.reconcilePublisherSelection info n session).1.selectedTracks = now at hnow ⊢
  have hevict := replay_evicts (d := info.selectedTracks.toFinset)
    (h.filter fun x => decide (x ∉ now)) fun x hx => by simpa using List.mem_of_mem_filter hx
  rw [replay_append, hevict, Option.bind_some, replay_selects (hnow.filter _)]
  · congr 1
    ext x
    simp
    tauto
  · intro x hx
    simp at hx ⊢
    tauto

theorem heard_reconcileSessions (p : SessionId → Bool) :
    heard session (r.reconcileSessions n p g).2 =
      ((g.sessions.lookup session).map fun info =>
        if p session then heard session (r.reconcilePublisherSelection info n session).2
        else []).getD [] := by
  have hflat : heard session (r.reconcileSessions n p g).2 = g.sessions.entries.flatMap fun e =>
      heard session (if p e.1 then (r.reconcilePublisherSelection e.2 n e.1).2 else []) := by
    simp only [reconcileSessions, heard, List.flatMap_assoc]
  rw [hflat, flatMap_entries (a := session)]
  · congr 1
    congr 1
    funext info
    split <;> rfl
  · intro e he
    split
    · exact heard_reconcile_other he _
    · rfl

/-- Only viewers hear a batch. -/
theorem heard_batchSelected (x : FullTrackName) :
    heard session (batchSelected x (r.viewers g)) =
      ((g.sessions.lookup session).map fun _ =>
        if r.isPublisher session then [] else [Notice.select x]).getD [] := by
  have hbatch : ∀ viewerBatch : List (SessionId × Bool),
      heard session (batchSelected x viewerBatch) =
      viewerBatch.flatMap fun s => if s.1 = session then [.select x] else [] := by
    intro viewerBatch
    cases viewerBatch <;> simp [batchSelected, heard, Callback.heardBy]
  have hflat : ∀ l : List (Sigma fun _ : SessionId => SessionInfo),
      ((l.filter fun e => !r.isPublisher e.1).map fun e => (e.1, e.2.forward)).flatMap
        (fun s => if s.1 = session then [Notice.select x] else []) = l.flatMap fun e =>
          if e.1 = session then if r.isPublisher e.1 then [] else [.select x] else [] := by
    intro l
    induction l with
    | nil => rfl
    | cons e l ih =>
      rw [List.flatMap_cons, ← ih]
      cases hpub : r.isPublisher e.1 <;> simp [hpub]
  rw [hbatch, viewers, hflat, flatMap_entries (a := session)]
  · simp
  · intro e he
    rw [if_neg he]

section
variable {info : SessionInfo} (hs : g.sessions.lookup session = some info)
include hs

theorem heard_notifyTrackSelected (x : FullTrackName) :
    heard session (r.notifyTrackSelected x g).2 =
      if r.isPublisher session then
        heard session (r.reconcilePublisherSelection info g.maxSelected session).2
      else [.select x] := by
  simp only [notifyTrackSelected, heard_append]
  rw [heard_reconcileSessions, heard_batchSelected, hs]
  cases r.isPublisher session <;> simp

theorem heard_notifyTrackMoved (x : FullTrackName) (entered : Bool)
    (hview : r.isPublisher session = false) :
    heard session (r.notifyTrackMoved x entered n g).2 = if entered then [.select x] else [] := by
  simp only [notifyTrackMoved, heard_append]
  rw [heard_reconcileSessions, hs, hview]
  cases entered with
  | false => simp
  | true => simp [heard_batchSelected, hs, hview]

theorem heard_demoteTrack (hq : g.deselectedQueue = []) (x : FullTrackName) :
    heard session (g.demoteTrack 0 x).2 = [.evict x] := by
  have hfired : (g.demoteTrack 0 x).2 = g.sessions.keys.map (.onEvicted x) := by
    simp [TopNGroup.demoteTrack, TopNGroup.trimDeselectedQueue, TopNGroup.trimQueue, hq]
  have hmem : session ∈ g.sessions.keys :=
    AList.mem_keys.mp (AList.lookup_isSome.mp (by rw [hs]; rfl))
  rw [hfired, heard_evicted g.sessions.keys_nodup, if_pos hmem]

end

/-- The reconciliation of a publisher is not heard by others. -/
theorem reconcilePublisherInGroup_other {publisher : SessionId} (h : session ≠ publisher) :
    (r.reconcilePublisherInGroup publisher n g).1.sessions.lookup session =
        g.sessions.lookup session ∧
      heard session (r.reconcilePublisherInGroup publisher n g).2 = [] := by
  unfold reconcilePublisherInGroup
  split
  · exact ⟨rfl, rfl⟩
  · exact ⟨AList.lookup_insert_ne h, heard_reconcile_other (Ne.symm h) _⟩

section
variable (hs : g.sessions.lookup session = none)
include hs

theorem heard_reconcileSessions_none (p : SessionId → Bool) :
    heard session (r.reconcileSessions n p g).2 = [] := by
  rw [heard_reconcileSessions, hs]
  rfl

theorem heard_notifyTrackSelected_none (x : FullTrackName) :
    heard session (r.notifyTrackSelected x g).2 = [] := by
  simp only [notifyTrackSelected, heard_append]
  rw [heard_reconcileSessions_none hs, heard_batchSelected, hs]
  rfl

theorem heard_notifyTrackMoved_none (x : FullTrackName) (entered : Bool) :
    heard session (r.notifyTrackMoved x entered n g).2 = [] := by
  simp only [notifyTrackMoved, heard_append]
  rw [heard_reconcileSessions_none hs]
  cases entered with
  | false => rfl
  | true =>
    rw [if_pos rfl, heard_batchSelected, hs]
    rfl

theorem heard_demoteTrack_none (maxDeselected : Nat) (x : FullTrackName) :
    heard session (g.demoteTrack maxDeselected x).2 = [] := by
  have hkeys : session ∉ g.sessions.keys := by
    intro hmem
    have hsome := AList.lookup_isSome.mpr (AList.mem_keys.mpr hmem)
    rw [hs] at hsome
    cases hsome
  have htrim : ∀ queue states, heard session
      (TopNGroup.trimQueue maxDeselected g.sessions.keys queue states).2.2 = [] := by
    intro queue
    induction queue with
    | nil => exact fun _ => rfl
    | cons y rest ih =>
      intro states
      unfold TopNGroup.trimQueue
      split
      · simp only [heard_append, ih, heard_evicted g.sessions.keys_nodup, if_neg hkeys,
          List.nil_append]
      · rfl
  exact htrim _ _

theorem heard_demoteTrackAtRank_none : heard session (r.demoteTrackAtRank n g).2 = [] := by
  unfold demoteTrackAtRank
  split
  · split
    · exact heard_demoteTrack_none hs _ _
    · rfl
  · rfl

theorem heard_promoteTrackAtRank_none : heard session (r.promoteTrackAtRank n g).2 = [] := by
  unfold promoteTrackAtRank
  split
  · split
    · rfl
    · exact heard_notifyTrackSelected_none hs _
  · rfl

theorem heard_promoteNextAvailableTrack_none (x : FullTrackName) :
    heard session (r.promoteNextAvailableTrack x g).2 = [] := by
  unfold promoteNextAvailableTrack
  split
  · exact heard_notifyTrackSelected_none hs _
  · rfl

theorem heard_reconcilePublisherInGroup_none (publisher : SessionId) :
    heard session (r.reconcilePublisherInGroup publisher n g).2 = [] := by
  by_cases heq : session = publisher
  · subst heq
    simp [reconcilePublisherInGroup, hs]
  · exact (reconcilePublisherInGroup_other heq).2

theorem heard_removeInGroup_none (x : FullTrackName) :
    heard session (r.removeInGroup x g).2 = [] := by
  unfold removeInGroup
  split
  · rfl
  · dsimp only
    split
    · split
      · exact heard_notifyTrackSelected_none hs _
      · exact heard_promoteNextAvailableTrack_none (by exact hs) _
    · rfl

end

/-- Two changes in a row say nothing to a session outside the group. -/
theorem heard_andThen_none {change : GroupChange} {f : TopNGroup → GroupChange}
    (hs : g.sessions.lookup session = none) (hk : GroupKeeps g change.1)
    (hx : heard session change.2 = [])
    (hf : ∀ g' : TopNGroup, g'.sessions.lookup session = none → heard session (f g').2 = []) :
    heard session (change.andThen f).2 = [] := by
  rw [GroupChange.andThen, heard_append, hx, hf _ (hk.lookup_none.mpr hs), List.nil_append]

/-- One call of a run, with what it fired and the ranking after it. -/
structure Event where
  op : Op
  fired : List (Nat × Callback)
  after : PropertyRanking

/-- The end of a track takes it from everyone. -/
def Op.ends : Op → List Notice
  | .removeTrack ftn => [.ended ftn]
  | _ => []

/-- What the group for `n` tells a session in one call. -/
def Event.heardIn (n : Nat) (session : SessionId) (e : Event) : List Notice :=
  heard session (firedIn n e.fired) ++ e.op.ends

/-- All that a session is told in one call. -/
def Event.heardBy (session : SessionId) (e : Event) : List Notice :=
  heard session (e.fired.map fun c => c.2) ++ e.op.ends

/-- The calls since a session last joined a group, of a history that starts with its last call. -/
def sinceJoined (n : Nat) (session : SessionId) : List Event → List Event
  | [] => []
  | e :: earlier => if e.op.joins n session then [e] else sinceJoined n session earlier ++ [e]

theorem mem_sinceJoined_self (e : Event) (history : List Event) :
    e ∈ sinceJoined n session (e :: history) := by
  unfold sinceJoined
  split <;> simp

variable {e : Event} {history : List Event} {allowed : PropertyRanking → Op → Prop}
  {start : PropertyRanking}

theorem mem_sinceJoined_cons {e' : Event} (h : e'.op.joins n session = false)
    (he : e ∈ sinceJoined n session history) : e ∈ sinceJoined n session (e' :: history) := by
  simp [sinceJoined, h, he]

/-- The tracks a group has given a session since it joined. -/
def deliveredIn (n : Nat) (session : SessionId) (history : List Event) :
    Option (Finset FullTrackName) :=
  replay ∅ ((sinceJoined n session history).flatMap (Event.heardIn n session))

/-- The tracks a session has been given since it joined a group. -/
def deliveredTo (n : Nat) (session : SessionId) (history : List Event) :
    Option (Finset FullTrackName) :=
  replay ∅ ((sinceJoined n session history).flatMap (Event.heardBy session))

theorem deliveredIn_joins (h : e.op.joins n session = true) :
    deliveredIn n session (e :: history) = replay ∅ (e.heardIn n session) := by
  simp [deliveredIn, sinceJoined, h]

theorem deliveredIn_cons (h : e.op.joins n session = false) :
    deliveredIn n session (e :: history) =
      (deliveredIn n session history).bind fun d => replay d (e.heardIn n session) := by
  simp [deliveredIn, sinceJoined, h, replay_append]

/-- Runs whose calls all meet a condition, with their histories. -/
inductive Reaches (allowed : PropertyRanking → Op → Prop) (start : PropertyRanking) :
    List Event → PropertyRanking → Prop
  | start : Reaches allowed start [] start
  | step {history r op} (h : Reaches allowed start history r) (ok : allowed r op) :
      Reaches allowed start (⟨op, (r.step op).2, (r.step op).1⟩ :: history) (r.step op).1

/-- A ranking as it is constructed. -/
def create (maxDeselected : Nat) (idleTimeout sweepThrottle : Milliseconds) : PropertyRanking :=
  { maxDeselected := maxDeselected, idleTimeout := idleTimeout, sweepThrottle := sweepThrottle }

theorem wf_create (maxDeselected : Nat) (idleTimeout sweepThrottle : Milliseconds) :
    (create maxDeselected idleTimeout sweepThrottle).WF := by
  refine ⟨⟨.nil, .nil, fun e he => ?_⟩, fun session => rfl, fun n g h => ?_⟩
  · cases he
  · cases h

theorem Reaches.wf (h : Reaches allowed start history r) (hs : start.WF) : r.WF := by
  induction h with
  | start => exact hs
  | step _ _ ih => exact ih.step _

/-- No call changes the limits. -/
theorem step_limits (r : PropertyRanking) (op : Op) :
    (r.step op).1.maxDeselected = r.maxDeselected ∧ (r.step op).1.idleTimeout = r.idleTimeout := by
  have hsweep : ∀ (r : PropertyRanking) (activity : Activity),
      (r.sweepIdle activity).1.maxDeselected = r.maxDeselected ∧
        (r.sweepIdle activity).1.idleTimeout = r.idleTimeout := by
    intro r activity
    rcases r.sweepIdle_cases activity with h | ⟨-, h⟩ <;> rw [h] <;> exact ⟨rfl, rfl⟩
  have hgroup : ∀ n, (r.getOrCreateTopNGroup n).1.maxDeselected = r.maxDeselected ∧
      (r.getOrCreateTopNGroup n).1.idleTimeout = r.idleTimeout := by
    intro n
    unfold getOrCreateTopNGroup
    split <;> exact ⟨rfl, rfl⟩
  cases op with
  | registerTrack ftn value publisher =>
    simp only [step, registerTrack]
    split <;> exact ⟨rfl, rfl⟩
  | updateSortValue ftn value activity =>
    simp only [step, updateSortValue]
    split
    · exact ⟨rfl, rfl⟩
    · split
      · exact ⟨rfl, rfl⟩
      · split
        · exact hsweep _ activity
        · exact ⟨rfl, rfl⟩
  | removeTrack ftn =>
    simp only [step, removeTrack]
    split
    · exact ⟨rfl, rfl⟩
    · simp only [onGroups, eraseTrack, decrementTrackCount]
      split <;> exact ⟨rfl, rfl⟩
  | getOrCreateTopNGroup n => exact hgroup n
  | addSessionToTopNGroup n session forward =>
    simp only [step, addSessionToTopNGroup]
    split <;> exact hgroup n
  | updateSessionForward n session forward =>
    simp only [step, updateSessionForward]
    split
    · exact ⟨rfl, rfl⟩
    · split <;> exact ⟨rfl, rfl⟩
  | removeSessionFromTopNGroup n session =>
    simp only [step, removeSessionFromTopNGroup]
    split
    · exact ⟨rfl, rfl⟩
    · split <;> split <;> exact ⟨rfl, rfl⟩
  | removeTopNGroup n => exact ⟨rfl, rfl⟩
  | sweepIdle activity => exact hsweep r activity

theorem Reaches.limits (h : Reaches allowed start history r) :
    r.maxDeselected = start.maxDeselected ∧ r.idleTimeout = start.idleTimeout := by
  induction h with
  | start => exact ⟨rfl, rfl⟩
  | step _ _ ih =>
    exact ⟨(step_limits _ _).1.trans ih.1, (step_limits _ _).2.trans ih.2⟩

/-- A list of calls, from a ranking and a history. -/
def run (r : PropertyRanking) (history : List Event) : List Op → PropertyRanking × List Event
  | [] => (r, history)
  | op :: ops => run (r.step op).1 (⟨op, (r.step op).2, (r.step op).1⟩ :: history) ops

/-- Every call of a list meets a condition when it is made. -/
def Meets (allowed : PropertyRanking → Op → Prop) (r : PropertyRanking) : List Op → Prop
  | [] => True
  | op :: ops => allowed r op ∧ Meets allowed (r.step op).1 ops

instance (allowed : PropertyRanking → Op → Prop) [∀ r op, Decidable (allowed r op)] :
    ∀ (ops : List Op) (r : PropertyRanking), Decidable (Meets allowed r ops)
  | [], _ => inferInstanceAs (Decidable True)
  | op :: ops, r =>
    have := instDecidableMeets allowed ops (r.step op).1
    inferInstanceAs (Decidable (allowed r op ∧ Meets allowed (r.step op).1 ops))

theorem Reaches.run (h : Reaches allowed start history r) {ops : List Op}
    (ok : Meets allowed r ops) :
    Reaches allowed start (r.run history ops).2 (r.run history ops).1 := by
  induction ops generalizing r history with
  | nil => exact h
  | cons op ops ih => exact ih (h.step ok.1) ok.2

theorem WF.run (hw : r.WF) (history : List Event) (ops : List Op) : (r.run history ops).1.WF := by
  induction ops generalizing r history with
  | nil => exact hw
  | cons op ops ih => exact ih (hw.step op) _

end PropertyRanking

end Moqx
