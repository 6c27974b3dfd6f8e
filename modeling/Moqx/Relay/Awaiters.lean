import Moqx.Relay.Registrations

/-! What a later subscriber finds when its coroutine runs. -/
namespace Moqx

open Maps Runs SubscriptionRegistry

namespace Registrations

variable {s s' : Registrations} {registry : SubscriptionRegistry} {id : Nat}

/-- The track whose entry a call may create as pending. -/
def Op.subscribed : Op → Option FullTrackName
  | .getOrCreateFromSubscribe ftn _ _ => some ftn
  | _ => none

/-- A pending entry is created only when no coroutine that waits for the same track has been woken
with a value and is still to run. -/
def AwaitersRun (s : Registrations) (op : Op) : Prop :=
  ∀ ftn ∈ op.subscribed, s.registry.find ftn = none →
    ∀ e ∈ s.awaiters.entries, e.2.ftn = ftn → s.registry.promises.lookup e.2.future ≠ some .value

instance (s : Registrations) (op : Op) : Decidable (AwaitersRun s op) := by
  unfold AwaitersRun
  infer_instance

/-- A coroutine waits for an entry of its own track; once woken with a value it will find an
established entry. -/
structure AwaitersOk (s : Registrations) : Prop where
  future_lt : ∀ ⦃id task⦄, s.awaiters.lookup id = some task → task.future < s.registry.nextEntry
  name : ∀ ⦃id task x rsub⦄, s.awaiters.lookup id = some task → s.registry.find x = some rsub →
    rsub.entry = task.future → x = task.ftn
  established : ∀ ⦃id task rsub⦄, s.awaiters.lookup id = some task →
    s.registry.promises.lookup task.future = some .value →
    s.registry.find task.ftn = some rsub → s.registry.promises.lookup rsub.entry = some .value

theorem awaitersOk_start : ({} : Registrations).AwaitersOk := by
  refine ⟨?_, ?_, ?_⟩ <;> intros <;> simp_all

theorem AwaitersOk.shrinks (h : s.AwaitersOk) (hr : s.registry.Shrinks registry) :
    { s with registry := registry }.AwaitersOk := by
  refine ⟨?_, ?_, ?_⟩
  · intro id task ht
    change task.future < registry.nextEntry
    rw [hr.nextEntry]
    exact h.future_lt ht
  · intro id task x rsub ht hx he
    obtain ⟨rsub₀, hx₀, he₀, -⟩ := hr.find hx
    exact h.name ht hx₀ (he₀.trans he)
  · intro id task rsub ht hv hx
    obtain ⟨rsub₀, hx₀, he₀, -⟩ := hr.find hx
    have hv₀ : s.registry.promises.lookup task.future = some .value := by
      rcases hr.promise task.future with same | ⟨-, hbroken, -⟩
      · exact same.symm.trans hv
      · simp only at hv
        rw [hbroken] at hv
        cases hv
    have := keepsSettled_of_shrinks hr rsub₀.entry .value (h.established ht hv₀ hx₀) (by decide)
    rwa [he₀] at this

/-- A coroutine that starts to wait for an entry. -/
theorem AwaitersOk.await {ftn : FullTrackName} {rsub : RelaySubscription} (h : s.AwaitersOk)
    (hwf : s.registry.WF) (hfind : s.registry.find ftn = some rsub) :
    AwaitersOk { s with
      awaiters := s.awaiters.insert s.nextId ⟨ftn, rsub.entry⟩, nextId := s.nextId + 1 } := by
  refine ⟨?_, ?_, ?_⟩
  · intro id task ht
    rcases lookup_insert_some ht with ⟨-, rfl⟩ | ⟨-, ht⟩
    · exact hwf.entry_lt hfind
    · exact h.future_lt ht
  · intro id task x sub ht hx he
    rcases lookup_insert_some ht with ⟨-, rfl⟩ | ⟨-, ht⟩
    · exact hwf.apart hx hfind he
    · exact h.name ht hx he
  · intro id task sub ht hv hx
    rcases lookup_insert_some ht with ⟨-, rfl⟩ | ⟨-, ht⟩
    · simp only at hx
      rw [hfind] at hx
      cases hx
      exact hv
    · exact h.established ht hv hx

/-- An entry gets a value: those who wait for it find it established. -/
theorem AwaitersOk.settle {ftn : FullTrackName} {rsub rsub' : RelaySubscription}
    (h : s.AwaitersOk) (hfind : s.registry.find ftn = some rsub)
    (hentry : rsub'.entry = rsub.entry) :
    AwaitersOk { s with
      registry := { s.registry with
        subscriptions := s.registry.subscriptions.insert ftn rsub'
        promises := s.registry.promises.insert rsub.entry .value } } := by
  have hsame : ∀ {x sub}, (s.registry.subscriptions.insert ftn rsub').lookup x = some sub →
      ∃ sub₀, s.registry.find x = some sub₀ ∧ sub₀.entry = sub.entry := by
    intro x sub hx
    rcases lookup_insert_some hx with ⟨rfl, rfl⟩ | ⟨-, hx⟩
    · exact ⟨rsub, hfind, hentry.symm⟩
    · exact ⟨sub, hx, rfl⟩
  have hvalue : ∀ {e}, s.registry.promises.lookup e = some .value →
      (s.registry.promises.insert rsub.entry .value).lookup e = some .value := by
    intro e he
    by_cases h : e = rsub.entry
    · subst h
      exact AList.lookup_insert _
    · rwa [AList.lookup_insert_ne h]
  refine ⟨h.future_lt, ?_, ?_⟩
  · intro id task x sub ht hx he
    obtain ⟨sub₀, hx₀, he₀⟩ := hsame hx
    exact h.name ht hx₀ (he₀.trans he)
  · intro id task sub ht hv hx
    obtain ⟨sub₀, hx₀, he₀⟩ := hsame hx
    change (s.registry.promises.insert rsub.entry .value).lookup sub.entry = some .value
    rw [← he₀]
    rcases lookup_insert_some hv with ⟨hfuture, -⟩ | ⟨-, hv⟩
    · have hname : ftn = task.ftn := h.name ht hfind hfuture.symm
      rw [← hname, hfind] at hx₀
      cases hx₀
      exact AList.lookup_insert _
    · exact hvalue (h.established ht hv hx₀)

/-- A new entry, where no coroutine woken with a value will look. -/
theorem AwaitersOk.emplace {ftn : FullTrackName} {rsub : EntryId → RelaySubscription}
    (h : s.AwaitersOk) (hwf : s.registry.WF) (hentry : ∀ e, (rsub e).entry = e)
    (hnone : ∀ id task, s.awaiters.lookup id = some task → task.ftn = ftn →
      s.registry.promises.lookup task.future ≠ some .value) :
    { s with registry := s.registry.emplace ftn rsub }.AwaitersOk := by
  have hold : ∀ {e}, e < s.registry.nextEntry →
      (s.registry.emplace ftn rsub).promises.lookup e = s.registry.promises.lookup e := by
    intro e he
    exact AList.lookup_insert_ne (by lia)
  refine ⟨?_, ?_, ?_⟩
  · intro id task ht
    exact Nat.lt_succ_of_lt (h.future_lt ht)
  · intro id task x sub ht hx he
    simp only [find_emplace] at hx
    split at hx
    · cases hx
      have := h.future_lt ht
      rw [hentry] at he
      lia
    · exact h.name ht hx he
  · intro id task sub ht hv hx
    simp only [hold (h.future_lt ht)] at hv
    simp only [find_emplace] at hx
    split at hx
    · next hname => exact absurd hv (hnone id task ht hname)
    · simp only [hold (hwf.entry_lt hx)]
      exact h.established ht hv hx

theorem AwaitersOk.publish {ftn : FullTrackName} {session : SessionId} {requestID : RequestID}
    {handle : HandleId} {topNFilter : FilterId} {now : TimePoint} {evicted : Option Evicted}
    (h : s.AwaitersOk) (hok : s.TokensOk)
    (hcreate : s.registry.createFromPublish ftn s.nextForwarder session requestID handle topNFilter
      now = .ok (registry, evicted)) :
    { s with registry := registry, nextForwarder := s.nextForwarder + 1 }.AwaitersOk := by
  rw [createFromPublish_eq] at hcreate
  cases hcreate
  have hremoved : s.registry.Shrinks (s.registry.remove ftn) :=
    remove_shrinks ftn hok.wf
  obtain ⟨future_lt, name, established⟩ := h.shrinks hremoved
  simp only at future_lt name established
  have hwf₀ : (s.registry.remove ftn).WF := hremoved.wf hok.wf
  generalize s.registry.remove ftn = r at future_lt name established hwf₀ ⊢
  have hold : ∀ {e}, e < r.nextEntry →
      ((r.promises.insert r.nextEntry .pending).insert r.nextEntry .value).lookup e =
        r.promises.lookup e := by
    intro e he
    rw [AList.lookup_insert_ne (by lia), AList.lookup_insert_ne (by lia)]
  refine ⟨?_, ?_, ?_⟩
  · intro id task ht
    exact Nat.lt_succ_of_lt (future_lt ht)
  · intro id task x sub ht hx he
    change (r.emplace ftn _).find x = some sub at hx
    rw [find_emplace] at hx
    split at hx
    · cases hx
      have := future_lt ht
      change r.nextEntry = task.future at he
      lia
    · exact name ht hx he
  · intro id task sub ht hv hx
    change (r.emplace ftn _).find task.ftn = some sub at hx
    rw [find_emplace] at hx
    split at hx
    · cases hx
      exact AList.lookup_insert _
    · simp only [hold (future_lt ht)] at hv
      simp only [hold (hwf₀.entry_lt hx)]
      exact established ht hv hx

theorem AwaitersOk.step {op : Op} (h : s.AwaitersOk) (hok : s.TokensOk) (hq : AwaitersRun s op)
    (hs : s.step op = .ok s') : s'.AwaitersOk := by
  cases op with
  | getOrCreateFromSubscribe ftn topNFilter now =>
    cases hfind : s.registry.find ftn with
    | none =>
      simp only [Registrations.step, SubscriptionRegistry.getOrCreateFromSubscribe, hfind] at hs
      cases hs
      have hnone : ∀ id task, s.awaiters.lookup id = some task → task.ftn = ftn →
          s.registry.promises.lookup task.future ≠ some .value := by
        intro id task ht hname
        exact hq ftn rfl hfind ⟨id, task⟩ (List.of_mem_dlookup ht) hname
      obtain ⟨future_lt, name, established⟩ := h.emplace hok.wf (fun _ => rfl : ∀ e,
        (({ entry := e, forwarder := s.nextForwarder, upstream := none
            topNFilter := some topNFilter, lastObjectTime := now : RelaySubscription })).entry = e)
        hnone
      exact ⟨future_lt, name, established⟩
    | some rsub =>
      simp only [Registrations.step, SubscriptionRegistry.getOrCreateFromSubscribe, hfind] at hs
      cases hs
      exact h.await hok.wf hfind
  | complete id handle requestID upstream =>
    cases ht : s.tokens.lookup id with
    | none => simp [Registrations.step, ht] at hs
    | some token =>
      simp only [Registrations.step, ht] at hs
      obtain ⟨⟨registry, completed⟩, hc, hs⟩ := bind_ok hs
      cases hs
      rcases completeSubscription_eq_ok hc with rfl | ⟨rsub, hfind, -, -, rfl⟩
      · exact ⟨h.future_lt, h.name, h.established⟩
      · obtain ⟨future_lt, name, established⟩ := h.settle hfind
          (rfl : ({ rsub with handle := some handle, requestID := requestID
                              upstream := some upstream }).entry = rsub.entry)
        exact ⟨future_lt, name, established⟩
  | drop id =>
    cases ht : s.tokens.lookup id with
    | none => simp [Registrations.step, ht] at hs
    | some token =>
      simp only [Registrations.step, ht] at hs
      obtain ⟨registry, hfail, hs⟩ := bind_ok hs
      cases hs
      obtain ⟨future_lt, name, established⟩ :=
        h.shrinks (failAndRemove_shrinks hok.wf hfail)
      exact ⟨future_lt, name, established⟩
  | resume id =>
    simp only [Registrations.step] at hs
    split at hs
    · cases hs
    · split at hs
      · cases hs
      · cases hs
        exact ⟨fun _ _ ht => h.future_lt (lookup_erase_some ht).2,
          fun _ _ _ _ ht => h.name (lookup_erase_some ht).2,
          fun _ _ _ ht => h.established (lookup_erase_some ht).2⟩
  | createFromPublish ftn session requestID handle topNFilter now =>
    simp only [Registrations.step] at hs
    obtain ⟨⟨registry, evicted⟩, hcreate, hs⟩ := bind_ok hs
    cases hs
    exact h.publish hok hcreate
  | onPublisherTerminated ftn empty =>
    cases hs
    exact h.shrinks (onPublisherTerminated_shrinks empty hok.wf)
  | remove ftn =>
    cases hs
    exact h.shrinks (remove_shrinks _ hok.wf)
  | removeIf predicate =>
    cases hs
    exact h.shrinks (removeIf_shrinks predicate hok.wf)

theorem Reached.awaitersOk (h : Reached AwaitersRun s) : s.AwaitersOk := by
  have hboth : s.TokensOk ∧ s.AwaitersOk :=
    h.keeps (I := fun s => s.TokensOk ∧ s.AwaitersOk) ⟨tokensOk_start, awaitersOk_start⟩
      fun _ _ _ hs hq hstep => ⟨hs.1.step hstep, hs.2.step hs.1 hq hstep⟩
  exact hboth.2

/-- If no pending entry is created over the head of a coroutine that is about to run, a later
subscriber only ever gets the forwarder of an established entry. -/
theorem awaitSubsequent_established {task : AwaitSubsequent} {forwarder : ForwarderId}
    (h : Reached AwaitersRun s) (hawait : s.awaiters.lookup id = some task)
    (hreturn : s.registry.awaitSubsequent task = some (.ok forwarder)) :
    ∃ rsub, s.registry.find task.ftn = some rsub ∧ rsub.forwarder = forwarder ∧
      s.registry.promises.lookup rsub.entry = some .value := by
  unfold SubscriptionRegistry.awaitSubsequent at hreturn
  split at hreturn
  · next hvalue =>
    split at hreturn
    · cases hreturn
    · next rsub hfind =>
      cases hreturn
      exact ⟨rsub, hfind, rfl, h.awaitersOk.established hawait hvalue hfind⟩
  · cases hreturn
  · cases hreturn

/-- Two subscribers of a track, the first of which gets its answer. -/
def answered : List Op :=
  [.getOrCreateFromSubscribe ⟨["live"], "video"⟩ 0 0,
    .getOrCreateFromSubscribe ⟨["live"], "video"⟩ 1 0,
    .complete 0 0 0 7]

theorem awaitSubsequent_established_answered : ∃ s task forwarder rsub,
    runMeets step AwaitersRun {} answered = some s ∧ s.awaiters.lookup 1 = some task ∧
      s.registry.awaitSubsequent task = some (.ok forwarder) ∧
      s.registry.find task.ftn = some rsub ∧ rsub.forwarder = forwarder ∧
      s.registry.promises.lookup rsub.entry = some .value := by
  obtain ⟨s, hreach, hrun, hp⟩ := reaches_of_elim step AwaitersRun {} answered
    (fun s => (s.awaiters.lookup 1).bind s.registry.awaitSubsequent = some (.ok 0))
    (by decide +kernel)
  simp only [decide_eq_true_eq, Option.bind_eq_some_iff] at hp
  obtain ⟨task, hawait, hreturn⟩ := hp
  obtain ⟨rsub, hfind, hforwarder, hvalue⟩ := awaitSubsequent_established hreach hawait hreturn
  exact ⟨s, task, 0, rsub, hrun, hawait, hreturn, hfind, hforwarder, hvalue⟩

/-- The entry is removed and created again before the second subscriber runs. -/
def answeredRecreated : List Op :=
  answered ++
    [.remove ⟨["live"], "video"⟩, .getOrCreateFromSubscribe ⟨["live"], "video"⟩ 2 0]

/-- The second subscriber then gets the new forwarder, whose upstream subscription is still
pending. -/
theorem answeredRecreated_pending :
    (runMeets step (fun _ _ => True) {} answeredRecreated).map
      (fun s => ((s.awaiters.lookup 1).bind s.registry.awaitSubsequent,
        (s.registry.find ⟨["live"], "video"⟩).map fun rsub =>
          (rsub.forwarder, s.registry.promises.lookup rsub.entry))) =
      some (some (.ok 1), some (1, some .pending)) := by
  decide +kernel

end Registrations

end Moqx
