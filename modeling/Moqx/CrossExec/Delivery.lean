import Moqx.CrossExec.References

/-! The downstream consumer gets the calls of the source in order, up to its first error. -/
namespace Moqx.CrossExec

open Runs

variable {C : Type} [Consumer C] {f f' : Filter C}

/-- The source makes no call after the first terminal call that was not refused. -/
def EndsAtTerminal (f : Filter C) : Event C → Prop
  | .call _ => ∀ sent ∈ f.accepted, sent.terminal = false
  | .awaitReadyToConsume => ∀ sent ∈ f.accepted, sent.terminal = false
  | .reset _ => ∀ sent ∈ f.accepted, sent.terminal = false
  | .drop => True
  | .run _ => True

instance (f : Filter C) (event : Event C) : Decidable (EndsAtTerminal f event) := by
  induction event using Event.casesOn <;> unfold EndsAtTerminal <;> infer_instance

/-- The calls that wait in the queue. -/
def Filter.waiting (f : Filter C) : List (Sent C) := f.queue.filterMap Lambda.sent

/-- Where the delivery stands. -/
inductive Phase (f : Filter C) : Prop where
  /-- `beginSubgroup` has not run. -/
  | before (queue : List (Lambda C)) (hqueue : f.queue = .begin :: queue)
      (hbegin : .begin ∉ queue) (hdownstream : f.downstream = false)
      (hreceived : f.received = []) (hok : f.beginFailed = false)
      (hwaiting : f.waiting = f.accepted)
  /-- What was accepted has been delivered or waits. Only a last call may have got an error. -/
  | open_ (hbegin : .begin ∉ f.queue) (hdownstream : f.downstream = true)
      (hok : f.beginFailed = false)
      (hwaiting : f.accepted = f.received.map Prod.fst ++ f.waiting)
      (hlast : ∀ x ∈ f.received.getLast?, x.2 ≠ none → x.1.terminal = true)
  /-- The last call that was delivered got an error. -/
  | failed (hbegin : .begin ∉ f.queue) (hdownstream : f.downstream = false)
      (hok : f.beginFailed = false) (hreceived : f.received.map Prod.fst <+: f.accepted)
      (hlast : ∃ x ∈ f.received.getLast?, x.2 ≠ none)
  /-- `beginSubgroup` failed. -/
  | never (hbegin : .begin ∉ f.queue) (hdownstream : f.downstream = false)
      (hfailed : f.beginFailed = true) (hreceived : f.received = [])

structure Delivering (f : Filter C) : Prop where
  covered : Covered f
  terminal : ∀ sent ∈ f.accepted.dropLast, sent.terminal = false
  clean : ∀ x ∈ f.received.dropLast, x.2 = none
  phase : Phase f

omit [Consumer C] in
theorem waiting_append (queue : List (Lambda C)) (lambda : Lambda C) :
    (queue ++ [lambda]).filterMap Lambda.sent =
      queue.filterMap Lambda.sent ++ lambda.sent.toList := by
  cases lambda with
  | begin | forward c | guard | reset error => simp [Lambda.sent]

theorem Phase.congr (h : Phase f) (hqueue : f'.queue = f.queue)
    (haccepted : f'.accepted = f.accepted) (hreceived : f'.received = f.received)
    (hdownstream : f'.downstream = f.downstream) (hfailed : f'.beginFailed = f.beginFailed) :
    Phase f' := by
  have hwaiting : f'.waiting = f.waiting := by rw [Filter.waiting, hqueue, Filter.waiting]
  cases h with
  | before queue hq hbegin hdown hrec hok hwait =>
    exact .before queue (hqueue.trans hq) hbegin (hdownstream.trans hdown) (hreceived.trans hrec)
      (hfailed.trans hok) (by rw [hwaiting, hwait, haccepted])
  | open_ hbegin hdown hok hwait hlast =>
    exact .open_ (hqueue ▸ hbegin) (hdownstream.trans hdown) (hfailed.trans hok)
      (by rw [haccepted, hwait, hwaiting, hreceived]) (hreceived ▸ hlast)
  | failed hbegin hdown hok hrec hlast =>
    exact .failed (hqueue ▸ hbegin) (hdownstream.trans hdown) (hfailed.trans hok)
      (by rw [haccepted, hreceived]; exact hrec) (hreceived ▸ hlast)
  | never hbegin hdown hfail hrec =>
    exact .never (hqueue ▸ hbegin) (hdownstream.trans hdown) (hfailed.trans hfail)
      (hreceived.trans hrec)

/-- More is accepted and waits. -/
theorem Phase.enqueue (h : Phase f) (lambda : Lambda C) (hlambda : lambda ≠ .begin)
    (hqueue : f'.queue = f.queue ++ [lambda])
    (haccepted : f'.accepted = f.accepted ++ lambda.sent.toList)
    (hreceived : f'.received = f.received) (hdownstream : f'.downstream = f.downstream)
    (hfailed : f'.beginFailed = f.beginFailed) : Phase f' := by
  have hwaiting : f'.waiting = f.waiting ++ lambda.sent.toList := by
    rw [Filter.waiting, hqueue, waiting_append]
    rfl
  have hnotBegin : ∀ queue : List (Lambda C), .begin ∉ queue → .begin ∉ queue ++ [lambda] := by
    intro queue hbegin hmem
    rcases List.mem_append.mp hmem with hmem | hmem
    · exact hbegin hmem
    · exact hlambda (List.mem_singleton.mp hmem).symm
  cases h with
  | before queue hq hbegin hdown hrec hok hwait =>
    refine .before (queue ++ [lambda]) ?_ (hnotBegin queue hbegin) (hdownstream.trans hdown)
      (hreceived.trans hrec) (hfailed.trans hok) ?_
    · rw [hqueue, hq, List.cons_append]
    · rw [hwaiting, hwait, haccepted]
  | open_ hbegin hdown hok hwait hlast =>
    refine .open_ (hqueue ▸ hnotBegin _ hbegin) (hdownstream.trans hdown) (hfailed.trans hok) ?_ ?_
    · rw [haccepted, hwait, hwaiting, hreceived, List.append_assoc]
    · rw [hreceived]
      exact hlast
  | failed hbegin hdown hok hrec hlast =>
    refine .failed (hqueue ▸ hnotBegin _ hbegin) (hdownstream.trans hdown) (hfailed.trans hok) ?_ ?_
    · rw [haccepted, hreceived]
      exact hrec.trans (List.prefix_append _ _)
    · rw [hreceived]
      exact hlast
  | never hbegin hdown hfail hrec =>
    exact .never (hqueue ▸ hnotBegin _ hbegin) (hdownstream.trans hdown) (hfailed.trans hfail)
      (hreceived.trans hrec)

theorem dropLast_append_of_terminal {accepted : List (Sent C)} (sent : Sent C)
    (h : ∀ sent ∈ accepted, sent.terminal = false) :
    ∀ sent' ∈ (accepted ++ [sent]).dropLast, sent'.terminal = false := by
  rw [List.dropLast_concat]
  exact h

namespace Delivering

theorem enqueueDeactivate (h : Delivering f) (herror : f.deferredError ≠ none) :
    Delivering f.enqueueDeactivate := by
  refine ⟨h.covered.enqueueDeactivate herror, ?_, ?_, ?_⟩
  all_goals unfold Filter.enqueueDeactivate
  · split_ifs
    · exact h.terminal
    · exact h.terminal
  · split_ifs
    · exact h.clean
    · exact h.clean
  · split_ifs
    · exact h.phase.enqueue .guard (by simp) rfl (by simp [Lambda.sent]) rfl rfl rfl
    · exact h.phase

theorem call (h : Delivering f) (hopen : ∀ sent ∈ f.accepted, sent.terminal = false) (c : C) :
    Delivering (f.called c) := by
  by_cases herror : f.deferredError = none
  · have hcovered := h.covered.call hopen c
    rw [Filter.called_accepted herror] at hcovered ⊢
    exact ⟨hcovered, dropLast_append_of_terminal _ hopen, h.clean,
      h.phase.enqueue (.forward c) (by simp) rfl rfl rfl rfl rfl⟩
  · rw [Filter.called_refused herror]
    have hmade : Delivering { f with made := f.made ++ [.call c] } := by
      have hcovered := h.covered
      refine ⟨⟨hcovered.order, hcovered.held, hcovered.accepted, hcovered.open_⟩, h.terminal,
        h.clean, ?_⟩
      exact h.phase.congr rfl rfl rfl rfl rfl
    exact hmade.enqueueDeactivate herror

theorem reset (h : Delivering f) (hopen : ∀ sent ∈ f.accepted, sent.terminal = false)
    (error : Nat) : Delivering ((f.reset error).record (.reset error) true) :=
  ⟨h.covered.reset error, dropLast_append_of_terminal _ hopen, h.clean,
    h.phase.enqueue (.reset error) (by simp) rfl rfl rfl rfl rfl⟩

/-- As long as a call waits, what was delivered got no error. -/
theorem clean_of_waiting (h : Delivering f) {sent : Sent C} {rest : List (Sent C)}
    (hwaiting : f.accepted = f.received.map Prod.fst ++ sent :: rest)
    (hlast : ∀ x ∈ f.received.getLast?, x.2 ≠ none → x.1.terminal = true) :
    ∀ x ∈ f.received, x.2 = none := by
  rcases List.eq_nil_or_concat f.received with hnil | ⟨earlier, last, hreceived⟩
  · rw [hnil]
    exact fun x hx => absurd hx List.not_mem_nil
  · intro x hx
    have hclean := h.clean
    rw [hreceived, List.concat_eq_append] at hx hwaiting hlast hclean
    rw [List.dropLast_concat] at hclean
    rcases List.mem_append.mp hx with hx | hx
    · exact hclean x hx
    · cases List.mem_singleton.mp hx
      by_contra hne
      have hterminal := hlast last (by simp) hne
      have hfalse := h.terminal last.1 (by
        rw [hwaiting, List.dropLast_append_of_ne_nil (by simp)]
        simp)
      rw [hfalse] at hterminal
      cases hterminal

/-- The next call is delivered. -/
theorem delivers (h : Delivering f) (hcovered : Covered f') {sent : Sent C} {rest : List (Sent C)}
    {answer : Option PublishErrorCode} (hok : f.beginFailed = false)
    (hwaiting : f.accepted = f.received.map Prod.fst ++ sent :: rest)
    (hlast : ∀ x ∈ f.received.getLast?, x.2 ≠ none → x.1.terminal = true)
    (hbegin : .begin ∉ f'.queue) (hrest : f'.waiting = rest)
    (haccepted : f'.accepted = f.accepted) (hfailed : f'.beginFailed = f.beginFailed)
    (hreceived : f'.received = f.received ++ [(sent, answer)])
    (hanswer : f'.downstream = true ∧ (answer ≠ none → sent.terminal = true) ∨
      f'.downstream = false ∧ answer ≠ none) : Delivering f' := by
  refine ⟨hcovered, haccepted ▸ h.terminal, ?_, ?_⟩
  · rw [hreceived, List.dropLast_concat]
    exact h.clean_of_waiting hwaiting hlast
  · have hsplit : f'.accepted = f'.received.map Prod.fst ++ f'.waiting := by
      rw [haccepted, hwaiting, hreceived, hrest]
      simp
    rcases hanswer with ⟨hdown, hterminal⟩ | ⟨hdown, herror⟩
    · refine .open_ hbegin hdown (hfailed.trans hok) hsplit ?_
      rw [hreceived, List.getLast?_concat]
      rintro x ⟨⟩
      exact hterminal
    · refine .failed hbegin hdown (hfailed.trans hok) ?_ ?_
      · rw [hsplit]
        exact List.prefix_append _ _
      · rw [hreceived, List.getLast?_concat]
        exact ⟨_, rfl, herror⟩

end Delivering

variable {lambda : Lambda C} {queue : List (Lambda C)}

/-- Without a downstream consumer nothing is delivered any more. -/
theorem Phase.drained (h : Phase f) (hqueue : f.queue = lambda :: queue)
    (hlambda : lambda ≠ .begin) (hdown : f.downstream = false) (hrest : f'.queue = queue)
    (haccepted : f'.accepted = f.accepted) (hreceived : f'.received = f.received)
    (hdownstream : f'.downstream = f.downstream) (hfailed : f'.beginFailed = f.beginFailed) :
    Phase f' := by
  have hnotBegin : .begin ∉ f.queue → .begin ∉ f'.queue := by
    intro hbegin hmem
    rw [hrest] at hmem
    exact hbegin (by rw [hqueue]; exact List.mem_cons_of_mem _ hmem)
  cases h with
  | before queue' hq hbegin _ hrec hok hwait =>
    rw [hqueue] at hq
    cases hq
    exact absurd rfl hlambda
  | open_ hbegin hopen hok hwait hlast =>
    rw [hdown] at hopen
    cases hopen
  | failed hbegin _ hok hrec hlast =>
    exact .failed (hnotBegin hbegin) (hdownstream.trans hdown) (hfailed.trans hok)
      (by rw [haccepted, hreceived]; exact hrec) (hreceived ▸ hlast)
  | never hbegin _ hfail hrec =>
    exact .never (hnotBegin hbegin) (hdownstream.trans hdown) (hfailed.trans hfail)
      (hreceived.trans hrec)

/-- A lambda that delivers nothing. -/
theorem Phase.skip (h : Phase f) (hqueue : f.queue = lambda :: queue) (hsent : lambda.sent = none)
    (hlambda : lambda ≠ .begin) : Phase { f with queue := queue } := by
  have hnotBegin : .begin ∉ f.queue → .begin ∉ queue := by
    intro hbegin hmem
    exact hbegin (by rw [hqueue]; exact List.mem_cons_of_mem _ hmem)
  have hwaiting : f.waiting = queue.filterMap Lambda.sent := by
    rw [Filter.waiting, hqueue, List.filterMap_cons_none hsent]
  cases h with
  | before queue' hq hbegin _ hrec hok hwait =>
    rw [hqueue] at hq
    cases hq
    exact absurd rfl hlambda
  | open_ hbegin hdown hok hwait hlast =>
    exact .open_ (hnotBegin hbegin) hdown hok (hwait.trans (by rw [hwaiting]; rfl)) hlast
  | failed hbegin hdown hok hrec hlast => exact .failed (hnotBegin hbegin) hdown hok hrec hlast
  | never hbegin hdown hfail hrec => exact .never (hnotBegin hbegin) hdown hfail hrec

/-- A call that waits goes to the downstream consumer, or nowhere when there is none. -/
theorem Delivering.deliver_or_drop {sent : Sent C} (answer : Option PublishErrorCode)
    (h : Delivering f) (hcovered : Covered f') (hqueue : f.queue = lambda :: queue)
    (hsent : lambda.sent = some sent) (hrest : f'.queue = queue)
    (haccepted : f'.accepted = f.accepted) (hfailed : f'.beginFailed = f.beginFailed)
    (hdelivered : f.downstream = true → f'.received = f.received ++ [(sent, answer)] ∧
      (f'.downstream = true ∧ (answer ≠ none → sent.terminal = true) ∨
        f'.downstream = false ∧ answer ≠ none))
    (hdropped : f.downstream = false → f'.received = f.received ∧ f'.downstream = false) :
    Delivering f' := by
  have hlambda : lambda ≠ .begin := by
    rintro rfl
    cases hsent
  cases hdown : f.downstream with
  | true =>
    obtain ⟨hreceived, hanswer⟩ := hdelivered hdown
    cases h.phase with
    | before queue' hq _ hnone _ _ _ =>
      rw [hdown] at hnone
      cases hnone
    | open_ hbegin _ hok hwait hlast =>
      have hwaiting : f.waiting = sent :: f'.waiting := by
        rw [Filter.waiting, hqueue, List.filterMap_cons_some hsent, Filter.waiting, hrest]
      refine h.delivers hcovered hok (hwait.trans (by rw [hwaiting])) hlast ?_ rfl haccepted
        hfailed hreceived hanswer
      intro hmem
      rw [hrest] at hmem
      exact hbegin (by rw [hqueue]; exact List.mem_cons_of_mem _ hmem)
    | failed _ hnone _ _ _ | never _ hnone _ _ =>
      rw [hdown] at hnone
      cases hnone
  | false =>
    obtain ⟨hreceived, hdown'⟩ := hdropped hdown
    refine ⟨hcovered, haccepted ▸ h.terminal, hreceived ▸ h.clean, ?_⟩
    exact h.phase.drained hqueue hlambda hdown hrest haccepted hreceived (hdown'.trans hdown.symm)
      hfailed

/-- The answer to a call, where there is one. -/
def recorded (c : C) (answer : Option PublishErrorCode) : Option PublishErrorCode :=
  match Consumer.handling c with
  | .ignore => none
  | _ => answer

theorem deliver_recorded (hdown : f.downstream = true) (c : C)
    (answer : Option PublishErrorCode) :
    (f.deliver c answer).received = f.received ++ [(.call c, recorded c answer)] ∧
      (f.deliver c answer).beginFailed = f.beginFailed ∧
      ((f.deliver c answer).downstream = true ∧
          (recorded c answer ≠ none → (Sent.call c).terminal = true) ∨
        (f.deliver c answer).downstream = false ∧ recorded c answer ≠ none) := by
  unfold Filter.deliver recorded
  cases hhandling : Consumer.handling c with
  | close fin =>
    cases answer with
    | none => exact ⟨rfl, rfl, .inl ⟨hdown, fun h => absurd rfl h⟩⟩
    | some error => exact ⟨rfl, rfl, .inr ⟨rfl, by simp⟩⟩
  | log => exact ⟨rfl, rfl, .inl ⟨hdown, fun _ => by simp [Sent.terminal, hhandling, Handling.fin]⟩⟩
  | ignore => exact ⟨rfl, rfl, .inl ⟨hdown, fun h => absurd rfl h⟩⟩

/-- The lambda of a call leaves what it delivered. -/
theorem runForward_eq (c : C) (answer : Option PublishErrorCode) :
    (f.runForward c answer).received =
        (if f.downstream then f.deliver c answer else f).received ∧
      (f.runForward c answer).downstream =
        (if f.downstream then f.deliver c answer else f).downstream ∧
      (f.runForward c answer).beginFailed =
        (if f.downstream then f.deliver c answer else f).beginFailed := by
  unfold Filter.runForward
  cases (Consumer.handling c).fin with
  | true => exact ⟨rfl, rfl, rfl⟩
  | false => exact ⟨rfl, rfl, rfl⟩

theorem Delivering.run {answer : Option PublishErrorCode} (h : Delivering f)
    (hstep : f.step (.run answer) = .ok f') : Delivering f' := by
  have hcovered := h.covered.run hstep
  obtain ⟨lambda, queue, hqueue, hrun⟩ := step_run hstep
  have hran := ran_run hrun
  cases lambda with
  | begin =>
    cases hrun
    cases h.phase with
    | before queue' hq hbegin hdown hrec hok hwait =>
      rw [hqueue] at hq
      cases hq
      have hwaiting : f.waiting = queue.filterMap Lambda.sent := by
        rw [Filter.waiting, hqueue]
        rfl
      refine ⟨hcovered, ?_, ?_, ?_⟩
      · rw [hran.accepted]
        exact h.terminal
      all_goals cases answer
      · exact h.clean
      · exact h.clean
      · refine .open_ hbegin rfl hok ?_ ?_
        · change f.accepted = f.received.map Prod.fst ++ queue.filterMap Lambda.sent
          rw [hrec, ← hwait, hwaiting]
          rfl
        · change ∀ x ∈ f.received.getLast?, _
          rw [hrec]
          exact fun x hx => by cases hx
      · exact .never hbegin rfl rfl hrec
    | open_ hbegin _ _ _ _ | failed hbegin _ _ _ _ | never hbegin _ _ _ =>
      exact absurd (by rw [hqueue]; exact List.mem_cons_self) hbegin
  | forward c =>
    simp only [Filter.run] at hrun
    split_ifs at hrun
    cases hrun
    obtain ⟨hreceived, hdownstream, hfailed⟩ :=
      runForward_eq (f := { f with queue := queue }) c answer
    refine h.deliver_or_drop (recorded c answer) hcovered hqueue rfl hran.queue hran.accepted
      ?_ ?_ ?_
    · rw [hfailed]
      split
      · next hdown => exact (deliver_recorded hdown c answer).2.1
      · rfl
    · intro hdown
      rw [hreceived, hdownstream, if_pos hdown]
      obtain ⟨hrecorded, -, hanswer⟩ :=
        deliver_recorded (f := { f with queue := queue }) hdown c answer
      exact ⟨hrecorded, hanswer⟩
    · intro hdown
      rw [hreceived, hdownstream, if_neg (by simp [hdown])]
      exact ⟨rfl, hdown⟩
  | guard =>
    cases hrun
    exact ⟨hcovered, h.terminal, h.clean, h.phase.skip hqueue rfl (by simp)⟩
  | reset error =>
    cases hrun
    refine h.deliver_or_drop none hcovered hqueue rfl hran.queue hran.accepted ?_
      (fun hdown => ⟨?_, .inl ⟨?_, fun _ => rfl⟩⟩) fun hdown => ⟨?_, ?_⟩
    all_goals unfold Filter.runReset
    · split <;> rfl
    · rw [if_pos hdown]
      rfl
    · rw [if_pos hdown]
      exact hdown
    · rw [if_neg (by simp [hdown])]
      rfl
    · rw [if_neg (by simp [hdown])]
      exact hdown

theorem Delivering.awaitReadyToConsume (h : Delivering f) :
    Delivering f.awaitReadyToConsume.1 := by
  rcases Filter.awaitReadyToConsume_cases (f := f) with ⟨herror, heq⟩ | heq
  · rw [heq]
    exact h.enqueueDeactivate herror
  · rw [heq]
    exact h

theorem Delivering.step {event : Event C} (h : Delivering f) (hends : EndsAtTerminal f event)
    (hstep : f.step event = .ok f') : Delivering f' := by
  cases event with
  | call c =>
    simp only [Filter.step] at hstep
    split_ifs at hstep
    cases hstep
    exact h.call hends c
  | awaitReadyToConsume =>
    simp only [Filter.step] at hstep
    split_ifs at hstep
    cases hstep
    exact h.awaitReadyToConsume
  | reset error =>
    simp only [Filter.step] at hstep
    split_ifs at hstep
    cases hstep
    exact h.reset hends error
  | drop =>
    simp only [Filter.step] at hstep
    split_ifs at hstep
    cases hstep
    have hcovered := h.covered
    exact ⟨⟨hcovered.order, hcovered.held, hcovered.accepted, hcovered.open_⟩, h.terminal, h.clean,
      h.phase.congr rfl rfl rfl rfl rfl⟩
  | run answer => exact h.run hstep

/-- The calls that the downstream consumer got are the first ones of those that were accepted. Only
the last of them may have got an error. Once the queue has drained, they are all that was accepted,
unless the last of them got an error or there was never a downstream consumer, and then there is
none. -/
structure DeliveredInOrder (f : Filter C) : Prop where
  order : f.received.map Prod.fst <+: f.accepted
  cut : ∀ x ∈ f.received.dropLast, x.2 = none
  last : ∀ sent ∈ f.accepted.dropLast, sent.terminal = false
  nothing : f.beginFailed = true → f.received = []
  drained : f.queue = [] → f.received.map Prod.fst = f.accepted ∨
    (∃ x ∈ f.received.getLast?, x.2 ≠ none) ∨ f.beginFailed = true

theorem Delivering.inOrder (h : Delivering f) : DeliveredInOrder f := by
  cases h.phase with
  | before queue hq hbegin hdown hrec hok hwait =>
    refine ⟨by simp [hrec], h.clean, h.terminal, fun _ => hrec, fun hempty => ?_⟩
    rw [hempty] at hq
    cases hq
  | open_ hbegin hdown hok hwait hlast =>
    refine ⟨?_, h.clean, h.terminal, ?_, fun hempty => .inl ?_⟩
    · rw [hwait]
      exact List.prefix_append _ _
    · intro hfail
      rw [hok] at hfail
      cases hfail
    · rw [hwait, Filter.waiting, hempty, List.filterMap_nil, List.append_nil]
  | failed hbegin hdown hok hrec hlast =>
    refine ⟨hrec, h.clean, h.terminal, ?_, fun _ => .inr (.inl hlast)⟩
    intro hfail
    rw [hok] at hfail
    cases hfail
  | never hbegin hdown hfail hrec =>
    exact ⟨by simp [hrec], h.clean, h.terminal, fun _ => hrec, fun _ => .inr (.inr hfail)⟩

/-- The target executor can always run the next lambda. -/
theorem Delivering.progress (h : Delivering f) (hqueue : f.queue ≠ [])
    (answer : Option PublishErrorCode) : ∃ f', f.step (.run answer) = .ok f' := by
  have halive := h.covered.alive answer
  simp only [Filter.step] at halive ⊢
  cases hq : f.queue with
  | nil => exact absurd hq hqueue
  | cons lambda queue =>
    rw [hq] at halive
    cases lambda with
    | begin | guard | reset error => exact ⟨_, rfl⟩
    | forward c =>
      simp only [Filter.run] at halive ⊢
      split_ifs at halive ⊢ with hreferences
      · exact absurd rfl halive
      · exact ⟨_, rfl⟩

theorem delivering_of_reaches {start : Filter C} (hstart : Delivering start)
    (h : Reaches Filter.step EndsAtTerminal start f) : Delivering f :=
  h.keeps hstart fun _ _ _ hf hends hstep => hf.step hends hstep

variable {Ext : Type}

/-- The calls of the source reach the downstream consumer in order and unchanged, up to the first
one that it answers with an error. -/
theorem calls_delivered_in_order :
    (∀ f : Filter (SubgroupCall Ext),
      Reaches Filter.step EndsAtTerminal CrossExecSubgroupFilter.create f →
      DeliveredInOrder f ∧
        (f.queue ≠ [] → ∀ answer, ∃ f', f.step (.run answer) = .ok f')) ∧
    ∀ f : Filter (FetchCall Ext),
      Reaches Filter.step EndsAtTerminal FetchCrossExecFilter.create f →
      DeliveredInOrder f ∧
        (f.queue ≠ [] → ∀ answer, ∃ f', f.step (.run answer) = .ok f') := by
  constructor
  · intro f h
    have hcovered := (guarded_create (C := SubgroupCall Ext) false [.begin]
      fun lambda hlambda => List.mem_singleton.mp hlambda).covered
    have hstart : Delivering (CrossExecSubgroupFilter.create : Filter (SubgroupCall Ext)) :=
      ⟨hcovered, fun sent hsent => absurd hsent List.not_mem_nil,
        fun x hx => absurd hx List.not_mem_nil,
        .before [] rfl List.not_mem_nil rfl rfl rfl rfl⟩
    have hdelivering := delivering_of_reaches hstart h
    exact ⟨hdelivering.inOrder, hdelivering.progress⟩
  · intro f h
    have hcovered := (guarded_create (C := FetchCall Ext) true []
      fun lambda hlambda => absurd hlambda List.not_mem_nil).covered
    have hstart : Delivering (FetchCrossExecFilter.create : Filter (FetchCall Ext)) :=
      ⟨hcovered, fun sent hsent => absurd hsent List.not_mem_nil,
        fun x hx => absurd hx List.not_mem_nil,
        .open_ List.not_mem_nil rfl rfl rfl fun x hx => by cases hx⟩
    have hdelivering := delivering_of_reaches hstart h
    exact ⟨hdelivering.inOrder, hdelivering.progress⟩

/-- Two objects and a reset, where the second object fails on the target. -/
def resetAfterError : List (Event (FetchCall Unit)) :=
  [.call (.object 0 0 0 none () false false), .call (.object 0 0 1 none () false false),
    .call .checkpoint, .reset 0, .run none, .run (some .blocked), .run none, .run none]

theorem calls_delivered_in_order_resetAfterError : ∃ f : Filter (FetchCall Unit),
    runMeets Filter.step EndsAtTerminal FetchCrossExecFilter.create resetAfterError = some f ∧
      f.queue = [] ∧ f.accepted.length = 4 ∧ f.received.length = 2 ∧ DeliveredInOrder f := by
  obtain ⟨f, hreach, hmeets, hrun⟩ := reaches_of_elim Filter.step EndsAtTerminal
    FetchCrossExecFilter.create resetAfterError
    (fun f => decide (f.queue = [] ∧ f.accepted.length = 4 ∧ f.received.length = 2))
    (by decide +kernel)
  obtain ⟨hqueue, haccepted, hreceived⟩ := of_decide_eq_true hrun
  exact ⟨f, hmeets, hqueue, haccepted, hreceived, (calls_delivered_in_order.2 f hreach).1⟩

end Moqx.CrossExec
