import Moqx.CrossExec.Filters

/-! The filter outlives the lambdas that have its raw pointer, and does not outlive its use. -/
namespace Moqx.CrossExec

open Runs

variable {C : Type} [Consumer C] {f f' : Filter C}

/-- The lambda drops the self-reference when it runs. -/
def Lambda.deactivates : Lambda C → Bool
  | .forward c => (Consumer.handling c).fin
  | .reset _ => true
  | _ => false

/-- The lambda gives up what keeps the filter alive when it runs. -/
def Lambda.releases : Lambda C → Bool
  | .guard => true
  | lambda => lambda.deactivates

/-- The lambda has the raw pointer. -/
def Lambda.IsForward (lambda : Lambda C) : Prop := ∃ c, lambda = .forward c

/-- The raw pointers in the queue are covered: the self-reference or a guard behind them is there
until they have run. -/
structure Covered (f : Filter C) : Prop where
  /-- Nothing is forwarded behind a lambda that releases. -/
  order : f.queue.Pairwise fun a b => a.releases = true → ¬ b.IsForward
  held : ∀ lambda ∈ f.queue, lambda.IsForward → f.selfGuard = true ∨ .guard ∈ f.queue
  accepted : ∀ c, .forward c ∈ f.queue → .call c ∈ f.accepted
  open_ : f.deferredError = none → (∀ sent ∈ f.accepted, sent.terminal = false) →
    f.selfGuard = true ∧ ∀ lambda ∈ f.queue, lambda.releases = false

namespace Covered

theorem enqueueDeactivate (h : Covered f) (herror : f.deferredError ≠ none) :
    Covered f.enqueueDeactivate := by
  unfold Filter.enqueueDeactivate
  split_ifs with hguard
  · refine ⟨?_, ?_, ?_, fun hnone => absurd hnone herror⟩
    · refine List.pairwise_append.mpr ⟨h.order, List.pairwise_singleton _ _, ?_⟩
      rintro a _ b hb _ ⟨c, rfl⟩
      cases List.mem_singleton.mp hb
    · intro lambda _ _
      exact .inr (List.mem_append_right _ List.mem_cons_self)
    · intro c hc
      rcases List.mem_append.mp hc with hc | hc
      · exact h.accepted c hc
      · cases List.mem_singleton.mp hc
  · exact h

/-- A call is forwarded only before the last call. -/
theorem call (h : Covered f) (hopen : ∀ sent ∈ f.accepted, sent.terminal = false) (c : C) :
    Covered (f.called c) := by
  by_cases herror : f.deferredError = none
  · rw [Filter.called_accepted herror]
    obtain ⟨hguard, hqueue⟩ := h.open_ herror hopen
    refine ⟨?_, fun _ _ _ => .inl hguard, ?_, ?_⟩
    · refine List.pairwise_append.mpr ⟨h.order, List.pairwise_singleton _ _, ?_⟩
      intro a ha b _ hreleases
      rw [hqueue a ha] at hreleases
      cases hreleases
    · intro c' hc'
      rcases List.mem_append.mp hc' with hc' | hc'
      · exact List.mem_append_left _ (h.accepted c' hc')
      · cases List.mem_singleton.mp hc'
        exact List.mem_append_right _ List.mem_cons_self
    · intro _ hlast
      refine ⟨hguard, fun lambda hlambda => ?_⟩
      rcases List.mem_append.mp hlambda with hlambda | hlambda
      · exact hqueue lambda hlambda
      · cases List.mem_singleton.mp hlambda
        exact hlast (.call c) (List.mem_append_right _ List.mem_cons_self)
  · rw [Filter.called_refused herror]
    have hmade : Covered { f with made := f.made ++ [.call c] } :=
      ⟨h.order, h.held, h.accepted, h.open_⟩
    exact hmade.enqueueDeactivate herror

theorem reset (h : Covered f) (error : Nat) :
    Covered ((f.reset error).record (.reset error) true) := by
  refine ⟨?_, ?_, ?_, fun hnone => by cases hnone⟩
  · refine List.pairwise_append.mpr ⟨h.order, List.pairwise_singleton _ _, ?_⟩
    rintro a _ b hb _ ⟨c, rfl⟩
    cases List.mem_singleton.mp hb
  · intro lambda hlambda hforward
    rcases List.mem_append.mp hlambda with hlambda | hlambda
    · exact (h.held lambda hlambda hforward).imp_right (List.mem_append_left _)
    · cases List.mem_singleton.mp hlambda
      obtain ⟨c, hc⟩ := hforward
      cases hc
  · intro c hc
    rcases List.mem_append.mp hc with hc | hc
    · exact List.mem_append_left _ (h.accepted c hc)
    · cases List.mem_singleton.mp hc

/-- What is left when the next lambda has been taken from the queue. -/
theorem pop {lambda : Lambda C} {queue : List (Lambda C)} (h : Covered f)
    (hqueue : f.queue = lambda :: queue) :
    queue.Pairwise (fun a b => a.releases = true → ¬ b.IsForward) ∧
      (lambda.releases = true → ∀ b ∈ queue, ¬ b.IsForward) ∧
      (∀ b ∈ queue, b.IsForward → f.selfGuard = true ∨ .guard ∈ queue) ∧
      ∀ c, .forward c ∈ queue → .call c ∈ f.accepted := by
  have horder := h.order
  rw [hqueue, List.pairwise_cons] at horder
  refine ⟨horder.2, fun hreleases b hb => horder.1 b hb hreleases, ?_, ?_⟩
  · intro b hb hforward
    have hheld := h.held b (by rw [hqueue]; exact List.mem_cons_of_mem _ hb) hforward
    rw [hqueue] at hheld
    refine hheld.imp_right fun hguard => ?_
    rcases List.mem_cons.mp hguard with rfl | hguard
    · exact absurd hforward (horder.1 b hb rfl)
    · exact hguard
  · intro c hc
    exact h.accepted c (by rw [hqueue]; exact List.mem_cons_of_mem _ hc)

/-- What the run of a lambda may change without the raw pointers losing their cover. -/
theorem ran {lambda : Lambda C} {queue : List (Lambda C)} (h : Covered f)
    (hqueue : f.queue = lambda :: queue) (hrest : f'.queue = queue)
    (haccepted : f'.accepted = f.accepted)
    (hguard : f'.selfGuard = f.selfGuard ∨ lambda.releases = true)
    (herror : f'.deferredError = none → f.deferredError = none) : Covered f' := by
  obtain ⟨horder, hlast, hheld, hcalls⟩ := h.pop hqueue
  refine ⟨hrest ▸ horder, ?_, ?_, ?_⟩
  · intro b hb hforward
    rw [hrest] at hb ⊢
    rcases hguard with hguard | hreleases
    · rw [hguard]
      exact hheld b hb hforward
    · exact absurd hforward (hlast hreleases b hb)
  · intro c hc
    rw [hrest] at hc
    rw [haccepted]
    exact hcalls c hc
  · intro hnone hterminal
    rw [haccepted] at hterminal
    obtain ⟨hself, hquiet⟩ := h.open_ (herror hnone) hterminal
    rw [hqueue] at hquiet
    refine ⟨?_, ?_⟩
    · rcases hguard with hguard | hreleases
      · rw [hguard, hself]
      · rw [hquiet lambda List.mem_cons_self] at hreleases
        cases hreleases
    · intro b hb
      rw [hrest] at hb
      exact hquiet b (List.mem_cons_of_mem _ hb)

end Covered

/-- What the run of a lambda leaves alone, and what only some lambdas change. -/
structure Ran (f f' : Filter C) (lambda : Lambda C) : Prop where
  queue : f'.queue = f.queue
  accepted : f'.accepted = f.accepted
  made : f'.made = f.made
  source : f'.sourceHolds = f.sourceHolds
  selfGuard : f'.selfGuard = if lambda.deactivates then false else f.selfGuard
  error : f'.deferredError = none → f.deferredError = none

variable {lambda : Lambda C} {answer : Option PublishErrorCode}

theorem ran_deliver (f : Filter C) (c : C) (answer : Option PublishErrorCode)
    (hlambda : lambda.deactivates = false) : Ran f (f.deliver c answer) lambda := by
  have hsame : f.selfGuard = if lambda.deactivates then false else f.selfGuard := by
    rw [hlambda]
    rfl
  unfold Filter.deliver
  cases Consumer.handling c with
  | close fin =>
    cases answer with
    | none => exact ⟨rfl, rfl, rfl, rfl, hsame, id⟩
    | some error => exact ⟨rfl, rfl, rfl, rfl, hsame, fun h => by cases h⟩
  | log | ignore => exact ⟨rfl, rfl, rfl, rfl, hsame, id⟩

theorem Ran.deactivate {lambda' : Lambda C} (h : Ran f f' lambda)
    (hlambda : lambda'.deactivates = true) : Ran f f'.deactivate lambda' :=
  ⟨h.queue, h.accepted, h.made, h.source, by rw [hlambda]; rfl, h.error⟩

theorem ran_run (h : f.run answer lambda = .ok f') : Ran f f' lambda := by
  have hnothing : Ran f f .begin := ⟨rfl, rfl, rfl, rfl, rfl, id⟩
  cases lambda with
  | begin =>
    cases h
    cases answer with
    | none => exact ⟨rfl, rfl, rfl, rfl, rfl, id⟩
    | some error => exact ⟨rfl, rfl, rfl, rfl, rfl, fun h => by cases h⟩
  | forward c =>
    simp only [Filter.run] at h
    split_ifs at h
    cases h
    have hdelivered : Ran f (if f.downstream then f.deliver c answer else f) .begin := by
      split
      · exact ran_deliver f c answer rfl
      · exact hnothing
    unfold Filter.runForward
    cases hfin : (Consumer.handling c).fin with
    | true => exact hdelivered.deactivate hfin
    | false =>
      refine ⟨hdelivered.queue, hdelivered.accepted, hdelivered.made, hdelivered.source, ?_,
        hdelivered.error⟩
      rw [Lambda.deactivates, hfin]
      exact hdelivered.selfGuard
  | guard =>
    cases h
    exact ⟨rfl, rfl, rfl, rfl, rfl, id⟩
  | reset error =>
    cases h
    unfold Filter.runReset
    have hreceived : Ran f (if f.downstream then
        { f with received := f.received ++ [(.reset error, none)] } else f) .begin := by
      split
      · exact ⟨rfl, rfl, rfl, rfl, rfl, id⟩
      · exact hnothing
    exact hreceived.deactivate rfl

/-- The next lambda is taken from the queue and runs. -/
theorem step_run (h : f.step (.run answer) = .ok f') :
    ∃ lambda queue, f.queue = lambda :: queue ∧
      Filter.run { f with queue := queue } answer lambda = .ok f' := by
  simp only [Filter.step] at h
  cases hqueue : f.queue with
  | nil =>
    rw [hqueue] at h
    cases h
  | cons lambda queue =>
    rw [hqueue] at h
    exact ⟨lambda, queue, rfl, h⟩

theorem Covered.run (h : Covered f) (hstep : f.step (.run answer) = .ok f') : Covered f' := by
  obtain ⟨lambda, queue, hqueue, hrun⟩ := step_run hstep
  have hran := ran_run hrun
  refine h.ran hqueue hran.queue hran.accepted ?_ hran.error
  rw [hran.selfGuard]
  cases lambda with
  | begin => exact .inl rfl
  | forward c =>
    cases hfin : (Consumer.handling c).fin with
    | true => exact .inr hfin
    | false =>
      rw [Lambda.deactivates, hfin]
      exact .inl rfl
  | guard => exact .inl rfl
  | reset error => exact .inr rfl

/-- A lambda with the raw pointer finds the filter alive. -/
theorem Covered.alive (h : Covered f) (answer : Option PublishErrorCode) :
    f.step (.run answer) ≠ .error .useAfterFree := by
  simp only [Filter.step]
  cases hqueue : f.queue with
  | nil => simp
  | cons lambda queue =>
    cases lambda with
    | begin | guard | reset error => simp [Filter.run]
    | forward c =>
      have hheld := h.held (.forward c) (by rw [hqueue]; exact List.mem_cons_self) ⟨c, rfl⟩
      have hreferences : Filter.references { f with queue := queue } ≠ 0 := by
        unfold Filter.references
        rcases hheld with hguard | hguard
        · simp [hguard]
        · rw [hqueue] at hguard
          rcases List.mem_cons.mp hguard with hguard | hguard
          · cases hguard
          · have hcount : 0 < queue.countP Lambda.holds :=
              List.countP_pos_iff.mpr ⟨.guard, hguard, rfl⟩
            dsimp only
            omega
      simp [Filter.run, hreferences]

/-- The source makes one terminal call, after which there is at most a reset, and keeps its
reference until then. -/
def OneTerminalCall (f : Filter C) : Event C → Prop
  | .call _ => ∀ sent ∈ f.made, sent.terminal = false
  | .awaitReadyToConsume => ∀ sent ∈ f.made, sent.terminal = false
  | .reset _ => f.made.countP Sent.terminal ≤ 1
  | .drop => ∃ sent ∈ f.made, sent.terminal = true
  | .run _ => True

instance (f : Filter C) (event : Event C) : Decidable (OneTerminalCall f event) := by
  induction event using Event.casesOn <;> unfold OneTerminalCall <;> infer_instance

/-- The self-reference is there as long as it is needed, and no longer. -/
structure Guarded (f : Filter C) : Prop where
  covered : Covered f
  subset : ∀ sent ∈ f.accepted, sent ∈ f.made
  released : (∃ sent ∈ f.made, sent.terminal = true) →
    f.selfGuard = false ∨ ∃ lambda ∈ f.queue, lambda.deactivates = true
  dropped : f.sourceHolds = false → ∃ sent ∈ f.made, sent.terminal = true

namespace Guarded

omit [Consumer C] in
theorem enqueueDeactivate_selfGuard : f.enqueueDeactivate.selfGuard = false := by
  unfold Filter.enqueueDeactivate
  split_ifs with hguard
  · rfl
  · exact Bool.eq_false_iff.mpr hguard

omit [Consumer C] in
theorem enqueueDeactivate_calls :
    f.enqueueDeactivate.accepted = f.accepted ∧ f.enqueueDeactivate.made = f.made ∧
      f.enqueueDeactivate.sourceHolds = f.sourceHolds := by
  unfold Filter.enqueueDeactivate
  split_ifs
  · exact ⟨rfl, rfl, rfl⟩
  · exact ⟨rfl, rfl, rfl⟩

theorem call_source (c : C) : (f.called c).sourceHolds = f.sourceHolds ∧
    (f.called c).made = f.made ++ [.call c] := by
  by_cases herror : f.deferredError = none
  · rw [Filter.called_accepted herror]
    exact ⟨rfl, rfl⟩
  · rw [Filter.called_refused herror, enqueueDeactivate_calls.2.1, enqueueDeactivate_calls.2.2]
    exact ⟨rfl, rfl⟩

theorem call (h : Guarded f) (hopen : ∀ sent ∈ f.made, sent.terminal = false) (c : C) :
    Guarded (f.called c) := by
  have haccepted : ∀ sent ∈ f.accepted, sent.terminal = false := fun sent hsent =>
    hopen sent (h.subset sent hsent)
  refine ⟨h.covered.call haccepted c, ?_, ?_, ?_⟩
  · by_cases herror : f.deferredError = none
    · rw [Filter.called_accepted herror]
      intro sent hsent
      rcases List.mem_append.mp hsent with hsent | hsent
      · exact List.mem_append_left _ (h.subset sent hsent)
      · exact List.mem_append_right _ hsent
    · rw [Filter.called_refused herror, enqueueDeactivate_calls.1, enqueueDeactivate_calls.2.1]
      intro sent hsent
      exact List.mem_append_left _ (h.subset sent hsent)
  · by_cases herror : f.deferredError = none
    · rw [Filter.called_accepted herror]
      rintro ⟨sent, hsent, hterminal⟩
      rcases List.mem_append.mp hsent with hsent | hsent
      · rw [hopen sent hsent] at hterminal
        cases hterminal
      · cases List.mem_singleton.mp hsent
        exact .inr ⟨.forward c, List.mem_append_right _ List.mem_cons_self, hterminal⟩
    · rw [Filter.called_refused herror]
      exact fun _ => .inl enqueueDeactivate_selfGuard
  · rw [(call_source c).1, (call_source c).2]
    intro hdropped
    obtain ⟨sent, hsent, hterminal⟩ := h.dropped hdropped
    exact ⟨sent, List.mem_append_left _ hsent, hterminal⟩

theorem awaitReadyToConsume (h : Guarded f) : Guarded f.awaitReadyToConsume.1 := by
  rcases Filter.awaitReadyToConsume_cases (f := f) with ⟨herror, heq⟩ | heq
  · rw [heq]
    refine ⟨h.covered.enqueueDeactivate herror, ?_,
      fun _ => .inl enqueueDeactivate_selfGuard, ?_⟩
    · rw [enqueueDeactivate_calls.1, enqueueDeactivate_calls.2.1]
      exact h.subset
    · rw [enqueueDeactivate_calls.2.1, enqueueDeactivate_calls.2.2]
      exact h.dropped
  · rw [heq]
    exact h

theorem reset (h : Guarded f) (error : Nat) :
    Guarded ((f.reset error).record (.reset error) true) := by
  refine ⟨h.covered.reset error, ?_, ?_, ?_⟩
  · intro sent hsent
    rcases List.mem_append.mp hsent with hsent | hsent
    · exact List.mem_append_left _ (h.subset sent hsent)
    · exact List.mem_append_right _ hsent
  · exact fun _ => .inr ⟨.reset error, List.mem_append_right _ List.mem_cons_self, rfl⟩
  · exact fun _ => ⟨.reset error, List.mem_append_right _ List.mem_cons_self, rfl⟩

theorem run {answer : Option PublishErrorCode} (h : Guarded f)
    (hstep : f.step (.run answer) = .ok f') : Guarded f' := by
  obtain ⟨lambda, queue, hqueue, hrun⟩ := step_run hstep
  have hran := ran_run hrun
  refine ⟨h.covered.run hstep, ?_, ?_, ?_⟩
  · rw [hran.accepted, hran.made]
    exact h.subset
  · rw [hran.made, hran.selfGuard, hran.queue]
    intro hterminal
    rcases h.released hterminal with hguard | ⟨b, hb, hdeactivates⟩
    · rw [hguard]
      exact .inl (ite_self false)
    · rw [hqueue] at hb
      rcases List.mem_cons.mp hb with rfl | hb
      · rw [hdeactivates]
        exact .inl rfl
      · exact .inr ⟨b, hb, hdeactivates⟩
  · rw [hran.made, hran.source]
    exact h.dropped

theorem step {event : Event C} (h : Guarded f) (hone : OneTerminalCall f event)
    (hstep : f.step event = .ok f') : Guarded f' := by
  cases event with
  | call c =>
    simp only [Filter.step] at hstep
    split_ifs at hstep
    cases hstep
    exact h.call hone c
  | awaitReadyToConsume =>
    simp only [Filter.step] at hstep
    split_ifs at hstep
    cases hstep
    exact h.awaitReadyToConsume
  | reset error =>
    simp only [Filter.step] at hstep
    split_ifs at hstep
    cases hstep
    exact h.reset error
  | drop =>
    simp only [Filter.step] at hstep
    split_ifs at hstep
    cases hstep
    have hcovered := h.covered
    exact ⟨⟨hcovered.order, hcovered.held, hcovered.accepted, hcovered.open_⟩, h.subset,
      h.released, fun _ => hone⟩
  | run answer => exact h.run hstep

end Guarded

/-- When the source has dropped its reference and the queue has drained, no reference is left. -/
theorem Guarded.gone (h : Guarded f) (hqueue : f.queue = []) (hdropped : f.sourceHolds = false) :
    f.selfGuard = false ∧ f.references = 0 := by
  have hguard : f.selfGuard = false := by
    rcases h.released (h.dropped hdropped) with hguard | ⟨lambda, hlambda, -⟩
    · exact hguard
    · rw [hqueue] at hlambda
      cases hlambda
  exact ⟨hguard, by simp [Filter.references, hqueue, hdropped, hguard]⟩

theorem guarded_of_reaches {start : Filter C} (hstart : Guarded start)
    (h : Reaches Filter.step OneTerminalCall start f) : Guarded f :=
  h.keeps hstart fun _ _ _ hf hone hstep => hf.step hone hstep

theorem guarded_create (downstream : Bool) (queue : List (Lambda C))
    (hqueue : ∀ lambda ∈ queue, lambda = .begin) :
    Guarded { downstream := downstream, queue := queue } := by
  have hforward : ∀ lambda ∈ queue, ¬ lambda.IsForward := by
    rintro lambda hlambda ⟨c, rfl⟩
    cases hqueue _ hlambda
  refine ⟨⟨?_, ?_, ?_, ?_⟩, ?_, ?_, ?_⟩
  · exact List.pairwise_of_forall_mem_list fun a _ b hb _ => hforward b hb
  · exact fun lambda hlambda hisForward => absurd hisForward (hforward lambda hlambda)
  · exact fun c hc => absurd ⟨c, rfl⟩ (hforward _ hc)
  · refine fun _ _ => ⟨rfl, fun lambda hlambda => ?_⟩
    rw [hqueue lambda hlambda]
    rfl
  · exact fun sent hsent => hsent
  · rintro ⟨sent, hsent, -⟩
    cases hsent
  · intro hdropped
    cases hdropped

variable {Ext : Type}

/-- Whatever the order of the events, no lambda with the raw pointer finds the filter gone, and when
the source has dropped its reference and the queue has drained, there is no reference left. -/
theorem filters_live_exactly :
    (∀ f : Filter (SubgroupCall Ext),
      Reaches Filter.step OneTerminalCall CrossExecSubgroupFilter.create f →
      (∀ answer, f.step (.run answer) ≠ .error .useAfterFree) ∧
        (f.queue = [] → f.sourceHolds = false → f.selfGuard = false ∧ f.references = 0)) ∧
    ∀ f : Filter (FetchCall Ext),
      Reaches Filter.step OneTerminalCall FetchCrossExecFilter.create f →
      (∀ answer, f.step (.run answer) ≠ .error .useAfterFree) ∧
        (f.queue = [] → f.sourceHolds = false → f.selfGuard = false ∧ f.references = 0) := by
  constructor
  · intro f h
    have hstart : Guarded (CrossExecSubgroupFilter.create : Filter (SubgroupCall Ext)) :=
      guarded_create false [.begin] fun lambda hlambda => List.mem_singleton.mp hlambda
    have hguarded := guarded_of_reaches hstart h
    exact ⟨hguarded.covered.alive, hguarded.gone⟩
  · intro f h
    have hstart : Guarded (FetchCrossExecFilter.create : Filter (FetchCall Ext)) :=
      guarded_create true [] fun lambda hlambda => absurd hlambda List.not_mem_nil
    have hguarded := guarded_of_reaches hstart h
    exact ⟨hguarded.covered.alive, hguarded.gone⟩

/-- An object fails on the target while the next one is queued. The end of the subgroup is refused.
-/
def failedObject : List (Event (SubgroupCall Unit)) :=
  [.call (.object 0 none () false), .run none, .call (.object 1 none () false),
    .run (some .blocked), .call .endOfSubgroup, .drop, .run none, .run none]

theorem filters_live_exactly_failedObject :
    ∃ f : Filter (SubgroupCall Unit),
      runMeets Filter.step OneTerminalCall CrossExecSubgroupFilter.create failedObject = some f ∧
        f.queue = [] ∧ f.selfGuard = false ∧ f.references = 0 := by
  obtain ⟨f, hreach, hrun, hdrained⟩ := reaches_of_elim Filter.step OneTerminalCall
    CrossExecSubgroupFilter.create failedObject
    (fun f => decide (f.queue = [] ∧ f.sourceHolds = false)) (by decide +kernel)
  obtain ⟨hqueue, hdropped⟩ := of_decide_eq_true hdrained
  exact ⟨f, hrun, hqueue, (filters_live_exactly.1 f hreach).2 hqueue hdropped⟩

end Moqx.CrossExec
