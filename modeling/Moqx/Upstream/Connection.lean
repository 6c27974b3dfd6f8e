import Moqx.Upstream.UpstreamProvider

/-! One connect at a time: what holds of the upstream connection as long as no session closes and no
GOAWAY arrives during a connect. -/
namespace Moqx.Upstream

open Runs

variable {p p' : Provider}

/-- No session that calls back closes, and no GOAWAY arrives, while a connect is in flight. -/
def Undisturbed (p : Provider) : Event → Prop
  | .closed s => s ∈ p.registered → p.connecting = []
  | .goaway _ => p.connecting = []
  | _ => True

instance (p : Provider) (event : Event) : Decidable (Undisturbed p event) := by
  induction event using Event.casesOn <;> unfold Undisturbed <;> infer_instance

/-- The connection is in one piece. -/
structure Steady (p : Provider) : Prop where
  one : p.connecting = [] ∨ ∃ a, p.connecting = [a]
  state : p.state = .connecting ↔ p.connecting ≠ []
  pending : ∀ a ∈ p.connecting, p.connectPromise = some a.number ∧
    a.number ∉ p.fulfilled.map Prod.fst ∧ p.client = some a.number
  settled : p.connecting = [] → ∀ q, p.connectPromise = some q → q ∈ p.fulfilled.map Prod.fst
  fresh : ∀ q ∈ p.fulfilled.map Prod.fst, q < p.next
  numbered : ∀ a ∈ p.connecting, a.number < p.next
  once : (p.fulfilled.map Prod.fst).Nodup
  kept : p.discarded = []
  called : ∀ s ∈ p.registered, s ∈ p.live → p.session = some s
  disconnected : p.state = .disconnected → p.session = none
  setup : ∀ a ∈ p.connecting, a.stage = .setup → p.session = none
  onConnect : ∀ a ∈ p.connecting, a.stage = .onConnect →
    p.session = some a.number ∧ a.number ∈ p.live ∧ a.number ∈ p.registered
  connected : p.state = .connected → ∃ s, p.session = some s ∧ p.latest = some s ∧ s ∈ p.live ∧
    s ∈ p.registered

/-- The connection is the same. -/
structure SameConnection (p p' : Provider) : Prop where
  state : p'.state = p.state
  client : p'.client = p.client
  session : p'.session = p.session
  connectPromise : p'.connectPromise = p.connectPromise
  connecting : p'.connecting = p.connecting
  live : p'.live = p.live
  registered : p'.registered = p.registered
  next : p'.next = p.next
  fulfilled : p'.fulfilled = p.fulfilled
  discarded : p'.discarded = p.discarded
  latest : p'.latest = p.latest

theorem sameConnection_answer (caller : Caller) (result : Option Nat) :
    SameConnection p (p.answer caller result) := by
  cases caller with
  | request => exact ⟨rfl, rfl, rfl, rfl, rfl, rfl, rfl, rfl, rfl, rfl, rfl⟩
  | loop =>
    unfold Provider.answer
    dsimp only
    split
    · exact ⟨rfl, rfl, rfl, rfl, rfl, rfl, rfl, rfl, rfl, rfl, rfl⟩
    · exact ⟨rfl, rfl, rfl, rfl, rfl, rfl, rfl, rfl, rfl, rfl, rfl⟩
  | gate => exact ⟨rfl, rfl, rfl, rfl, rfl, rfl, rfl, rfl, rfl, rfl, rfl⟩

namespace Steady

theorem congr (h : Steady p) (hsame : SameConnection p p') : Steady p' := by
  obtain ⟨h₁, h₂, h₃, h₄, h₅, h₆, h₇, h₈, h₉, h₁₀, h₁₁⟩ := hsame
  refine ⟨?_, ?_, ?_, ?_, ?_, ?_, ?_, ?_, ?_, ?_, ?_, ?_, ?_⟩
  all_goals simp only [h₁, h₂, h₃, h₄, h₅, h₆, h₇, h₈, h₉, h₁₀, h₁₁]
  · exact h.one
  · exact h.state
  · exact h.pending
  · exact h.settled
  · exact h.fresh
  · exact h.numbered
  · exact h.once
  · exact h.kept
  · exact h.called
  · exact h.disconnected
  · exact h.setup
  · exact h.onConnect
  · exact h.connected

theorem answer (h : Steady p) (caller : Caller) (result : Option Nat) :
    Steady (p.answer caller result) :=
  h.congr (sameConnection_answer caller result)

/-- Without a session there is little to keep. -/
theorem idle (hstate : p.state = .disconnected) (hidle : p.connecting = [])
    (hsession : p.session = none) (hquiet : ∀ s ∈ p.registered, s ∉ p.live)
    (hsettled : ∀ q, p.connectPromise = some q → q ∈ p.fulfilled.map Prod.fst)
    (hfresh : ∀ q ∈ p.fulfilled.map Prod.fst, q < p.next) (honce : (p.fulfilled.map Prod.fst).Nodup)
    (hkept : p.discarded = []) : Steady p := by
  have hnone : ∀ a, a ∉ p.connecting := by
    intro a ha
    rw [hidle] at ha
    cases ha
  refine ⟨.inl hidle, ?_, fun a ha => absurd ha (hnone a), fun _ => hsettled, hfresh,
    fun a ha => absurd ha (hnone a), honce, hkept, fun s hs hlive => absurd hlive (hquiet s hs),
    fun _ => hsession, fun a ha => absurd ha (hnone a), fun a ha => absurd ha (hnone a), ?_⟩
  · rw [hstate]
    constructor
    · intro hconnecting
      cases hconnecting
    · exact fun hne => absurd hidle hne
  · rw [hstate]
    intro hconnected
    cases hconnected

/-- The session is given up. Of the sessions only some are left. -/
theorem reset (h : Steady p) (hidle : p.connecting = []) {live : List Nat}
    (hlive : ∀ s ∈ live, s ∈ p.live) : Steady { p.resetSession with live := live } := by
  have hquiet : ∀ s ∈ p.resetSession.registered, s ∉ live := by
    intro s hs hmem
    unfold Provider.resetSession at hs
    cases hsession : p.session with
    | none =>
      rw [hsession] at hs
      have hcalled := h.called s hs (hlive s hmem)
      rw [hsession] at hcalled
      cases hcalled
    | some old =>
      rw [hsession] at hs
      obtain ⟨hregistered, hne⟩ := List.mem_filter.mp hs
      have hcalled := h.called s hregistered (hlive s hmem)
      rw [hsession] at hcalled
      cases hcalled
      simp at hne
  exact idle rfl hidle rfl hquiet (h.settled hidle) h.fresh h.once h.kept

/-- A session closes that does not call back. -/
theorem close_other (h : Steady p) {s : Nat} (hs : s ∉ p.registered) :
    Steady { p with live := p.live.filter fun l => l ≠ s } := by
  have hkeep : ∀ r ∈ p.registered, r ∈ p.live → r ∈ p.live.filter fun l => l ≠ s := by
    intro r hr hlive
    refine List.mem_filter.mpr ⟨hlive, ?_⟩
    have hne : r ≠ s := by
      rintro rfl
      exact hs hr
    simpa using hne
  refine ⟨h.one, h.state, h.pending, h.settled, h.fresh, h.numbered, h.once, h.kept, ?_,
    h.disconnected, h.setup, ?_, ?_⟩
  · intro r hr hlive
    exact h.called r hr (List.mem_filter.mp hlive).1
  · intro a ha hstage
    obtain ⟨hsession, hlive, hregistered⟩ := h.onConnect a ha hstage
    exact ⟨hsession, hkeep _ hregistered hlive, hregistered⟩
  · intro hstate
    obtain ⟨r, hsession, hlatest, hlive, hregistered⟩ := h.connected hstate
    exact ⟨r, hsession, hlatest, hkeep r hregistered hlive, hregistered⟩

theorem onMoQSessionClosed (h : Steady p) (hidle : p.connecting = []) {live : List Nat}
    (hlive : ∀ s ∈ live, s ∈ p.live) :
    Steady (Provider.onMoQSessionClosed { p with live := live }) :=
  (h.reset hidle hlive).congr ⟨rfl, rfl, rfl, rfl, rfl, rfl, rfl, rfl, rfl, rfl, rfl⟩

theorem goaway (h : Steady p) (hidle : p.connecting = []) (newSessionUri : String) :
    Steady (p.goaway newSessionUri) := by
  refine (h.reset hidle fun s hs => hs).congr ?_
  exact ⟨rfl, rfl, rfl, rfl, rfl, rfl, rfl, rfl, rfl, rfl, rfl⟩

theorem closeSession (h : Steady p) {s : Nat} (hquiet : s ∈ p.registered → p.connecting = []) :
    Steady (p.closeSession s) := by
  unfold Provider.closeSession
  split
  · dsimp only
    split
    · next hregistered =>
      exact h.onMoQSessionClosed (hquiet hregistered) fun r hr => (List.mem_filter.mp hr).1
    · next hregistered => exact h.close_other hregistered
  · exact h

/-- Without a session none that calls back is alive. -/
theorem quiet (h : Steady p) (hsession : p.session = none) : ∀ s ∈ p.registered, s ∉ p.live := by
  intro s hs hlive
  have hcalled := h.called s hs hlive
  rw [hsession] at hcalled
  cases hcalled

end Steady

/-- The destructor of a client whose session does not call back. -/
theorem destroyClient_quiet (hquiet : ∀ s ∈ p.registered, s ∉ p.live) (client : Option Nat) :
    ∃ live, (∀ s ∈ live, s ∈ p.live) ∧ p.destroyClient client = { p with live := live } := by
  cases client with
  | none => exact ⟨p.live, fun s hs => hs, rfl⟩
  | some c =>
    unfold Provider.destroyClient Provider.closeSession
    simp only [Option.elim_some]
    split
    · next hlive =>
      refine ⟨p.live.filter fun l => l ≠ c, fun s hs => (List.mem_filter.mp hs).1, ?_⟩
      exact if_neg fun hregistered => hquiet c hregistered hlive
    · exact ⟨p.live, fun s hs => hs, rfl⟩

theorem emplacePromise_discarded
    (hsettled : ∀ q, p.connectPromise = some q → q ∈ p.fulfilled.map Prod.fst) :
    p.emplacePromise.discarded = p.discarded := by
  unfold Provider.emplacePromise
  cases hpromise : p.connectPromise with
  | none => simp
  | some q =>
    have hq := hsettled q hpromise
    simp only [Option.toList_some, List.filter_cons, hq, not_true_eq_false, decide_false,
      List.filter_nil, List.append_nil, Bool.false_eq_true, if_false]

namespace Steady

theorem connect (h : Steady p) (hidle : p.connecting = []) (hsession : p.session = none)
    (caller : Caller) : Steady (p.connect caller) := by
  have hdiscarded := emplacePromise_discarded (h.settled hidle)
  have hquiet := h.quiet hsession
  obtain ⟨live, hlive, heq⟩ := destroyClient_quiet
    (p := { ({ p with state := .connecting } : Provider).emplacePromise with
      client := some p.next }) hquiet p.client
  have hnew : p.next ∉ p.fulfilled.map Prod.fst := fun hmem => lt_irrefl _ (h.fresh _ hmem)
  unfold Provider.connect
  dsimp only
  rw [heq]
  have hone : ∀ {a : Attempt}, a ∈ p.connecting ++ [⟨p.next, caller, .setup⟩] →
      a = ⟨p.next, caller, .setup⟩ := by
    intro a ha
    rw [hidle] at ha
    exact List.mem_singleton.mp ha
  refine ⟨.inr ⟨_, by rw [show _ = p.connecting from rfl, hidle]; rfl⟩, ?_, ?_, ?_, ?_, ?_, h.once,
    ?_, ?_, ?_, ?_, ?_, ?_⟩
  · exact ⟨fun _ => List.append_ne_nil_of_right_ne_nil _ (List.cons_ne_nil _ _), fun _ => rfl⟩
  · intro a ha
    cases hone ha
    exact ⟨rfl, hnew, rfl⟩
  · intro hnil
    exact absurd hnil (List.append_ne_nil_of_right_ne_nil _ (List.cons_ne_nil _ _))
  · exact fun q hq => (h.fresh q hq).trans (Nat.lt_succ_self _)
  · intro a ha
    cases hone ha
    exact Nat.lt_succ_self _
  · exact hdiscarded.trans h.kept
  · exact fun s hs hmem => absurd (hlive s hmem) (hquiet s hs)
  · exact fun _ => hsession
  · exact fun _ _ _ => hsession
  · intro a ha hstage
    cases hone ha
    cases hstage
  · intro hstate
    cases hstate

/-- The setup has succeeded: the session of the client is stored. -/
theorem opened (h : Steady p) {a : Attempt} (hattempt : p.connecting = [a])
    (hstage : a.stage = .setup) :
    Steady { p with
      established := p.established ++ [a.number]
      live := p.live ++ [a.number]
      session := some a.number
      registered := p.registered ++ [a.number]
      connecting := [{ a with stage := .onConnect }] } := by
  have hmem : a ∈ p.connecting := by
    rw [hattempt]
    exact List.mem_singleton_self a
  have hsession := h.setup a hmem hstage
  have hconnecting : p.state = .connecting := h.state.mpr (List.ne_nil_of_mem hmem)
  have hone : ∀ {b : Attempt}, b ∈ [{ a with stage := Stage.onConnect }] →
      b = { a with stage := .onConnect } := List.mem_singleton.mp
  refine ⟨.inr ⟨_, rfl⟩, ?_, ?_, fun hnil => absurd hnil (List.cons_ne_nil _ _), h.fresh,
    ?_, h.once,
    h.kept, ?_, ?_, ?_, ?_, ?_⟩
  · exact ⟨fun _ => List.cons_ne_nil _ _, fun _ => hconnecting⟩
  · intro b hb
    cases hone hb
    exact h.pending a hmem
  · intro b hb
    cases hone hb
    exact h.numbered a hmem
  · intro s hs hlive
    rcases List.mem_append.mp hs with hs | hs
    · rcases List.mem_append.mp hlive with hlive | hlive
      · exact absurd hlive (h.quiet hsession s hs)
      · exact congrArg some (List.mem_singleton.mp hlive).symm
    · exact congrArg some (List.mem_singleton.mp hs).symm
  · intro hstate
    cases hconnecting.symm.trans hstate
  · intro b hb hsetup
    cases hone hb
    cases hsetup
  · intro b hb _
    cases hone hb
    exact ⟨rfl, List.mem_append_right _ (List.mem_singleton_self _),
      List.mem_append_right _ (List.mem_singleton_self _)⟩
  · intro hstate
    cases hconnecting.symm.trans hstate

/-- The promise of the attempt is still to be fulfilled. -/
theorem fulfil (h : Steady p) {a : Attempt} (ha : a ∈ p.connecting) (p₁ : Provider)
    (hpromise : p₁.connectPromise = p.connectPromise) (hfulfilled : p₁.fulfilled = p.fulfilled)
    (ok : Bool) : p₁.fulfil ok = .ok { p₁ with fulfilled := p.fulfilled ++ [(a.number, ok)] } := by
  obtain ⟨hnumber, hnew, -⟩ := h.pending a ha
  unfold Provider.fulfil
  rw [hpromise, hnumber, hfulfilled]
  exact if_neg hnew

theorem fulfilled_once (h : Steady p) {a : Attempt} (ha : a ∈ p.connecting) (ok : Bool) :
    ((p.fulfilled ++ [(a.number, ok)]).map Prod.fst).Nodup := by
  rw [List.map_append]
  refine List.nodup_append.mpr ⟨h.once, List.nodup_singleton _, ?_⟩
  rintro q hq r hr rfl
  cases List.mem_singleton.mp hr
  exact (h.pending a ha).2.1 hq

theorem fulfilled_fresh (h : Steady p) {a : Attempt} (ha : a ∈ p.connecting) (ok : Bool) :
    ∀ q ∈ (p.fulfilled ++ [(a.number, ok)]).map Prod.fst, q < p.next := by
  intro q hq
  rw [List.map_append] at hq
  rcases List.mem_append.mp hq with hq | hq
  · exact h.fresh q hq
  · cases List.mem_singleton.mp hq
    exact h.numbered a ha

theorem finishConnect (h : Steady p) {a b : Attempt} (hattempt : p.connecting = [b])
    (hstage : b.stage = .onConnect) (hnumber : a.number = b.number) :
    ∃ p', Provider.finishConnect { p with connecting := [] } a = .ok p' ∧ Steady p' := by
  have hmem : b ∈ p.connecting := by
    rw [hattempt]
    exact List.mem_singleton_self b
  obtain ⟨hsession, hlive, hregistered⟩ := h.onConnect b hmem hstage
  unfold Provider.finishConnect
  rw [h.fulfil hmem
    { p with connecting := [], state := .connected, latest := some a.number } rfl rfl
    true]
  refine ⟨_, rfl, Steady.answer ?_ _ _⟩
  refine ⟨.inl rfl, ?_, ?_, ?_, h.fulfilled_fresh hmem true, ?_, h.fulfilled_once hmem true, h.kept,
    h.called, ?_, ?_, ?_, ?_⟩
  · constructor
    · intro hstate
      cases hstate
    · exact fun hne => absurd rfl hne
  · intro c hc
    cases hc
  · intro _ q hq
    cases (h.pending b hmem).1.symm.trans hq
    rw [List.map_append]
    exact List.mem_append_right _ (List.mem_singleton_self _)
  · intro c hc
    cases hc
  · intro hstate
    cases hstate
  · intro c hc
    cases hc
  · intro c hc
    cases hc
  · intro _
    exact ⟨b.number, hsession, congrArg some hnumber, hlive, hregistered⟩

/-- What the destructor of the client of a failed connect leaves. -/
theorem destroyClient (h : Steady p) {a : Attempt} (hattempt : p.connecting = [a]) :
    let p₁ := Provider.destroyClient
      { p with connecting := [], state := .disconnected, client := none }
      p.client
    p₁.state = .disconnected ∧ p₁.connecting = [] ∧ p₁.session = none ∧
      (∀ s ∈ p₁.registered, s ∉ p₁.live) ∧ p₁.connectPromise = p.connectPromise ∧
      p₁.fulfilled = p.fulfilled ∧ p₁.next = p.next ∧ p₁.discarded = p.discarded := by
  have hmem : a ∈ p.connecting := by
    rw [hattempt]
    exact List.mem_singleton_self a
  cases hstage : a.stage with
  | setup =>
    have hsession := h.setup a hmem hstage
    have hquiet := h.quiet hsession
    obtain ⟨live, hlive, heq⟩ := destroyClient_quiet
      (p := { p with connecting := [], state := .disconnected, client := none }) hquiet p.client
    rw [heq]
    exact ⟨rfl, rfl, hsession, fun s hs hmem => hquiet s hs (hlive s hmem), rfl, rfl, rfl, rfl⟩
  | onConnect =>
    -- the session of the client is the one that is stored, and calls back
    obtain ⟨hsession, hlive, hregistered⟩ := h.onConnect a hmem hstage
    obtain ⟨-, -, hclient⟩ := h.pending a hmem
    rw [hclient]
    unfold Provider.destroyClient Provider.closeSession
    simp only [Option.elim_some, hlive, hregistered, if_true]
    refine ⟨rfl, rfl, rfl, ?_, rfl, rfl, rfl, rfl⟩
    intro s hs hmem
    unfold Provider.onMoQSessionClosed Provider.resetSession at hs
    simp only [hsession, Option.elim_some] at hs
    obtain ⟨hs, hne⟩ := List.mem_filter.mp hs
    have hcalled := h.called s hs (List.mem_filter.mp hmem).1
    cases hsession.symm.trans hcalled
    simp at hne

theorem failConnect (h : Steady p) {a : Attempt} (hattempt : p.connecting = [a]) :
    ∃ p', Provider.failConnect { p with connecting := [] } a = .ok p' ∧ Steady p' := by
  have hmem : a ∈ p.connecting := by
    rw [hattempt]
    exact List.mem_singleton_self a
  obtain ⟨hstate, hidle, hsession, hquiet, hpromise, hfulfilled, hnext, hdiscarded⟩ :=
    h.destroyClient hattempt
  unfold Provider.failConnect
  dsimp only
  rw [h.fulfil hmem _ hpromise hfulfilled false]
  refine ⟨_, rfl, Steady.answer ?_ _ _⟩
  refine idle hstate hidle hsession hquiet ?_ ?_ (h.fulfilled_once hmem false)
    (hdiscarded.trans h.kept)
  · intro q hq
    cases hq
  · intro q hq
    exact (h.fulfilled_fresh hmem false q hq).trans_eq hnext.symm

theorem setupSucceeded (h : Steady p) {a : Attempt} (hattempt : p.connecting = [a])
    (hstage : a.stage = .setup) :
    ∃ p', Provider.setupSucceeded { p with connecting := [] } a = .ok p' ∧ Steady p' := by
  have hmem : a ∈ p.connecting := by
    rw [hattempt]
    exact List.mem_singleton_self a
  obtain ⟨-, -, hclient⟩ := h.pending a hmem
  have hopened := h.opened hattempt hstage
  rw [hclient] at hopened
  have hestablished : a.number ∈ p.established ++ [a.number] :=
    List.mem_append_right _ (List.mem_singleton_self _)
  unfold Provider.setupSucceeded
  simp only [hclient, hestablished, not_true_eq_false, if_false]
  split
  · exact ⟨_, rfl, hopened⟩
  · exact hopened.finishConnect rfl rfl rfl

theorem getOrConnectSession (h : Steady p) (caller : Caller) :
    ∃ p', p.getOrConnectSession caller = .ok p' ∧ Steady p' := by
  unfold Provider.getOrConnectSession
  split
  · exact ⟨_, rfl, h.answer _ _⟩
  next hnot =>
  split
  · next hconnecting =>
    obtain hidle | ⟨a, hattempt⟩ := h.one
    · exact absurd hidle (h.state.mp hconnecting)
    · obtain ⟨hpromise, -, -⟩ := h.pending a (by rw [hattempt]; exact List.mem_singleton_self a)
      rw [hpromise]
      exact ⟨_, rfl, h.congr ⟨rfl, rfl, rfl, hpromise.symm, rfl, rfl, rfl, rfl, rfl, rfl, rfl⟩⟩
  next hconnecting =>
  have hidle : p.connecting = [] := not_not.mp fun hne => hconnecting (h.state.mpr hne)
  have hsession : p.session = none := by
    cases hstate : p.state with
    | disconnected => exact h.disconnected hstate
    | connecting => exact absurd hstate hconnecting
    | connected =>
      obtain ⟨s, hsession, -⟩ := h.connected hstate
      exact absurd ⟨hstate, by rw [hsession]; rfl⟩ hnot
  exact ⟨_, rfl, h.connect hidle hsession caller⟩

end Steady

/-- A number picks the attempt that is in flight. -/
theorem Steady.attempt (h : Steady p) {i : Nat} {a : Attempt} (hget : p.connecting[i]? = some a) :
    p.connecting = [a] ∧ p.connecting.eraseIdx i = [] := by
  obtain hidle | ⟨b, hattempt⟩ := h.one
  · rw [hidle] at hget
    cases hget
  · rw [hattempt] at hget ⊢
    obtain ⟨hi, hget⟩ := List.getElem?_eq_some_iff.mp hget
    cases Nat.lt_one_iff.mp hi
    cases hget
    exact ⟨rfl, rfl⟩

/-- An undisturbed event keeps the connection in one piece, unless it cannot happen. -/
theorem Steady.step (h : Steady p) {event : Event} (hcond : Undisturbed p event) :
    p.step event = .error .disabled ∨ ∃ p', p.step event = .ok p' ∧ Steady p' := by
  have hsame : ∀ {p' : Provider}, SameConnection p p' → Steady p' := h.congr
  cases event with
  | start => exact .inr ⟨_, rfl, hsame ⟨rfl, rfl, rfl, rfl, rfl, rfl, rfl, rfl, rfl, rfl, rfl⟩⟩
  | request => exact .inr (h.getOrConnectSession .request)
  | loop =>
    by_cases hloops : p.loops = 0
    · exact .inl (if_pos hloops)
    · have h₁ : Steady { p with loops := p.loops - 1 } :=
        hsame ⟨rfl, rfl, rfl, rfl, rfl, rfl, rfl, rfl, rfl, rfl, rfl⟩
      obtain ⟨p', hconnect, hsteady⟩ := h₁.getOrConnectSession .loop
      exact .inr ⟨p', (if_neg hloops).trans hconnect, hsteady⟩
  | waitForConnected =>
    have hgate : ∀ promise : Option Nat, Steady (promise.elim p fun q =>
        { p with waiting := p.waiting ++ [(q, .gate)] }) := by
      intro promise
      cases promise with
      | none => exact h
      | some q => exact hsame ⟨rfl, rfl, rfl, rfl, rfl, rfl, rfl, rfl, rfl, rfl, rfl⟩
    refine .inr ⟨_, rfl, ?_⟩
    unfold Provider.waitForConnected
    split
    · exact h
    · exact hgate p.connectPromise
  | setupDone i ok =>
    unfold Provider.step
    dsimp only
    cases hget : p.connecting[i]? with
    | none => exact .inl rfl
    | some a =>
      obtain ⟨hattempt, herase⟩ := h.attempt hget
      simp only [herase]
      by_cases hstage : a.stage = .setup
      · rw [if_neg (not_not.mpr hstage)]
        cases ok with
        | true => exact .inr (h.setupSucceeded hattempt hstage)
        | false => exact .inr (h.failConnect hattempt)
      · exact .inl (if_pos hstage)
  | onConnectDone i ok =>
    unfold Provider.step
    dsimp only
    cases hget : p.connecting[i]? with
    | none => exact .inl rfl
    | some a =>
      obtain ⟨hattempt, herase⟩ := h.attempt hget
      simp only [herase]
      by_cases hstage : a.stage = .onConnect
      · rw [if_neg (not_not.mpr hstage)]
        cases ok with
        | true => exact .inr (h.finishConnect hattempt hstage rfl)
        | false => exact .inr (h.failConnect hattempt)
      · exact .inl (if_pos hstage)
  | resume i =>
    unfold Provider.step Provider.resume
    dsimp only
    cases hget : p.waiting[i]? with
    | none => exact .inl rfl
    | some waiter =>
      have h₁ : Steady { p with waiting := p.waiting.eraseIdx i } :=
        hsame ⟨rfl, rfl, rfl, rfl, rfl, rfl, rfl, rfl, rfl, rfl, rfl⟩
      dsimp only
      split
      · exact .inr ⟨_, rfl, h₁.answer _ _⟩
      · split
        · exact .inl rfl
        · exact .inr ⟨_, rfl, h₁.answer _ _⟩
  | timeout i =>
    unfold Provider.step
    dsimp only
    split
    · exact .inr ⟨_, rfl, hsame ⟨rfl, rfl, rfl, rfl, rfl, rfl, rfl, rfl, rfl, rfl, rfl⟩⟩
    · exact .inl rfl
  | closed s =>
    by_cases hlive : s ∈ p.live
    · exact .inr ⟨_, if_pos hlive, h.closeSession hcond⟩
    · exact .inl (if_neg hlive)
  | goaway newSessionUri => exact .inr ⟨_, rfl, h.goaway hcond newSessionUri⟩

/-- An empty provider, with whatever URL and hooks. -/
theorem steady_start (url : String) (onConnect : Bool) :
    Steady { url := url, onConnect := onConnect } := by
  refine Steady.idle rfl rfl rfl ?_ ?_ ?_ List.nodup_nil rfl
  · intro s hs
    cases hs
  · intro q hq
    cases hq
  · intro q hq
    cases hq

theorem steady_of_reaches {url : String} {onConnect : Bool}
    (hreach : Reaches Provider.step Undisturbed { url := url, onConnect := onConnect } p) :
    Steady p := by
  refine hreach.keeps (steady_start url onConnect) fun s event s' hsteady hcond hstep => ?_
  rcases hsteady.step hcond with hdisabled | ⟨p', hok, hkept⟩
  · cases hdisabled.symm.trans hstep
  · cases hok.symm.trans hstep
    exact hkept

/-- As long as no session that calls back closes and no GOAWAY arrives during a connect, there is at
most one connect in flight, each promise is fulfilled at most once and none is discarded before, the
stored session of a connected provider is that of the latest connect and alive, and no event
throws. -/
theorem connection_single_of_undisturbed (url : String) (onConnect : Bool) (p : Provider)
    (hreach : Reaches Provider.step Undisturbed { url := url, onConnect := onConnect } p) :
    p.connecting.length ≤ 1 ∧ (p.fulfilled.map Prod.fst).Nodup ∧ p.discarded = [] ∧
      (p.state = .connected → ∃ s, p.session = some s ∧ p.latest = some s ∧ s ∈ p.live) ∧
      ∀ event fault, Undisturbed p event → p.step event = .error fault → fault = .disabled := by
  have h := steady_of_reaches hreach
  refine ⟨?_, h.once, h.kept, ?_, ?_⟩
  · obtain hidle | ⟨a, hattempt⟩ := h.one
    · rw [hidle]
      exact Nat.zero_le _
    · rw [hattempt]
      exact le_refl _
  · intro hstate
    obtain ⟨s, hsession, hlatest, hlive, -⟩ := h.connected hstate
    exact ⟨s, hsession, hlatest, hlive⟩
  · intro event fault hcond hfault
    rcases h.step hcond with hdisabled | ⟨p', hok, -⟩
    · cases hdisabled.symm.trans hfault
      rfl
    · cases hok.symm.trans hfault

/-- The session closes, the loop connects again and a request waits for it. -/
theorem connection_single_of_undisturbed_reconnect :
    ∃ p, Reaches Provider.step Undisturbed { url := "moqt://up" } p ∧ p.state = .connected ∧
      p.answers = [some 0, some 1] ∧ p.connecting.length ≤ 1 ∧ p.discarded = [] ∧
      ∃ s, p.session = some s ∧ p.latest = some s ∧ s ∈ p.live := by
  obtain ⟨p, hreach, -, hp⟩ := reaches_of_elim Provider.step Undisturbed { url := "moqt://up" }
    [.request, .setupDone 0 true, .onConnectDone 0 true, .closed 0, .loop, .request,
      .setupDone 0 true, .onConnectDone 0 true, .resume 0]
    (fun p => decide (p.state = .connected ∧ p.answers = [some 0, some 1])) (by decide +kernel)
  obtain ⟨hstate, hanswers⟩ := of_decide_eq_true hp
  obtain ⟨hlen, -, hkept, hsession, -⟩ :=
    connection_single_of_undisturbed "moqt://up" true p hreach
  exact ⟨p, hreach, hstate, hanswers, hlen, hkept, hsession hstate⟩

/-- The session closes while its hook runs and the loop starts a second connect, whose promise takes
the place of the first. When the hook returns the provider is connected without a session. -/
theorem connection_closed_in_onConnect :
    ((runMeets Provider.step (fun _ _ => True) {}
      [.request, .setupDone 0 true, .closed 0, .loop]).map
        fun p => (p.connecting.length, p.discarded)) = some (2, [0]) ∧
      ((runMeets Provider.step (fun _ _ => True) {}
          [.request, .setupDone 0 true, .closed 0, .loop, .onConnectDone 0 true]).map
        fun p => (p.state, p.session)) = some (.connected, none) := by
  decide +kernel

end Moqx.Upstream
