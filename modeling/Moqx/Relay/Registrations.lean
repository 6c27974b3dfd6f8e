import Moqx.Lib.Runs
import Moqx.Relay.Registry

/-! The registry with everything that holds on to it: the pending tokens of first subscribers and
the coroutines of later ones, in any interleaving with all other calls. -/
namespace Moqx

open Maps Runs SubscriptionRegistry

/-- A pending token that has not been completed, with the entry it was made for. -/
structure Token where
  pending : UpstreamSubscribePending
  entry : EntryId
deriving DecidableEq, Repr

structure Registrations where
  registry : SubscriptionRegistry := {}
  tokens : AList (fun _ : Nat => Token) := ∅
  awaiters : AList (fun _ : Nat => AwaitSubsequent) := ∅
  nextForwarder : ForwarderId := 0
  nextId : Nat := 0

namespace Registrations

/-- The calls into the registry. A new forwarder is made for every entry, the filter and the time
come from the caller; `empty` says whether a forwarder has subscribers left. -/
inductive Op where
  | getOrCreateFromSubscribe (ftn : FullTrackName) (topNFilter : FilterId) (now : TimePoint)
  | complete (token : Nat) (handle : HandleId) (requestID : RequestID) (upstream : SessionId)
  | drop (token : Nat)
  | resume (awaiter : Nat)
  | createFromPublish (ftn : FullTrackName) (session : SessionId) (requestID : RequestID)
      (handle : HandleId) (topNFilter : FilterId) (now : TimePoint)
  | onPublisherTerminated (ftn : FullTrackName) (empty : ForwarderId → Bool)
  | remove (ftn : FullTrackName)
  | removeIf (predicate : FullTrackName → RelaySubscription → Bool)

/-- The token a call is made on. -/
def Op.token : Op → Option Nat
  | .complete token _ _ _ => some token
  | .drop token => some token
  | _ => none

def step (s : Registrations) : Op → Except Fault Registrations
  | .getOrCreateFromSubscribe ftn topNFilter now =>
    let (registry, result) :=
      s.registry.getOrCreateFromSubscribe ftn s.nextForwarder topNFilter now
    match result with
    | .first pending => .ok { s with
        registry := registry
        tokens := s.tokens.insert s.nextId ⟨pending, s.registry.nextEntry⟩
        nextForwarder := s.nextForwarder + 1
        nextId := s.nextId + 1 }
    | .subsequent task => .ok { s with
        awaiters := s.awaiters.insert s.nextId task
        nextId := s.nextId + 1 }
  | .complete id handle requestID upstream =>
    match s.tokens.lookup id with
    | none => .error .noCaller
    | some token => do
      let (registry, _) ←
        s.registry.completeSubscription token.pending handle requestID upstream
      return { s with registry := registry, tokens := s.tokens.erase id }
  | .drop id =>
    match s.tokens.lookup id with
    | none => .error .noCaller
    | some token => do
      let registry ← s.registry.failAndRemove token.pending
      return { s with registry := registry, tokens := s.tokens.erase id }
  | .resume id =>
    match s.awaiters.lookup id with
    | none => .error .noCaller
    | some task =>
      match s.registry.awaitSubsequent task with
      | none => .error .noCaller
      | some _ => .ok { s with awaiters := s.awaiters.erase id }
  | .createFromPublish ftn session requestID handle topNFilter now => do
    let (registry, _) ← s.registry.createFromPublish ftn s.nextForwarder session requestID handle
      topNFilter now
    return { s with registry := registry, nextForwarder := s.nextForwarder + 1 }
  | .onPublisherTerminated ftn empty =>
    .ok { s with registry := (s.registry.onPublisherTerminated ftn empty).1 }
  | .remove ftn => .ok { s with registry := s.registry.remove ftn }
  | .removeIf predicate => .ok { s with registry := s.registry.removeIf predicate }

variable {s s' : Registrations} {registry : SubscriptionRegistry} {id : Nat} {token : Token}

/-- An entry with the forwarder of a token is the one the token was made for, and its promise is
still to be fulfilled. -/
structure TokensOk (s : Registrations) : Prop where
  wf : s.registry.WF
  forwarder_lt : ∀ ⦃x rsub⦄, s.registry.find x = some rsub → rsub.forwarder < s.nextForwarder
  token_lt : ∀ ⦃id token⦄, s.tokens.lookup id = some token →
    token.entry < s.registry.nextEntry ∧ token.pending.weakForwarder < s.nextForwarder ∧
      id < s.nextId
  identity : ∀ ⦃id token x rsub⦄, s.tokens.lookup id = some token →
    s.registry.find x = some rsub → rsub.forwarder = token.pending.weakForwarder →
    rsub.entry = token.entry
  distinct : ∀ ⦃id id' token token'⦄, s.tokens.lookup id = some token →
    s.tokens.lookup id' = some token' → token.entry = token'.entry → id = id'
  unsettled : ∀ ⦃id token x rsub⦄, s.tokens.lookup id = some token →
    s.registry.find x = some rsub → rsub.entry = token.entry →
    s.registry.promises.lookup token.entry = some .pending

theorem tokensOk_start : ({} : Registrations).TokensOk := by
  refine ⟨⟨?_, ?_, ?_⟩, ?_, ?_, ?_, ?_, ?_⟩ <;> intros <;>
    simp_all [SubscriptionRegistry.find]

/-- Entries that disappear leave the rest as it is. -/
theorem TokensOk.shrinks (h : s.TokensOk) (hr : s.registry.Shrinks registry) :
    { s with registry := registry }.TokensOk := by
  refine ⟨hr.wf h.wf, ?_, ?_, ?_, h.distinct, ?_⟩
  · intro x rsub hx
    obtain ⟨rsub₀, hx₀, -, hf⟩ := hr.find hx
    rw [← hf]
    exact h.forwarder_lt hx₀
  · intro id token ht
    rw [hr.nextEntry]
    exact h.token_lt ht
  · intro id token x rsub ht hx hforwarder
    obtain ⟨rsub₀, hx₀, he, hf⟩ := hr.find hx
    exact he.symm.trans (h.identity ht hx₀ (hf.trans hforwarder))
  · intro id token x rsub ht hx hentry
    obtain ⟨rsub₀, hx₀, he, -⟩ := hr.find hx
    rcases hr.promise token.entry with same | ⟨-, -, hgone⟩
    · exact same.trans (h.unsettled ht hx₀ (he.trans hentry))
    · exact absurd hentry (hgone x rsub hx)

theorem TokensOk.eraseToken (h : s.TokensOk) :
    { s with tokens := s.tokens.erase id }.TokensOk := by
  refine ⟨h.wf, h.forwarder_lt, ?_, ?_, ?_, ?_⟩
  · intro id' token ht
    exact h.token_lt (lookup_erase_some ht).2
  · intro id' token x rsub ht
    exact h.identity (lookup_erase_some ht).2
  · intro id₁ id₂ token₁ token₂ h₁ h₂
    exact h.distinct (lookup_erase_some h₁).2 (lookup_erase_some h₂).2
  · intro id' token x rsub ht
    exact h.unsettled (lookup_erase_some ht).2

/-- An entry without a token gets a value. -/
theorem TokensOk.settle {rsub rsub' : RelaySubscription} {ftn : FullTrackName} (h : s.TokensOk)
    (hfind : s.registry.find ftn = some rsub)
    (hnone : ∀ id token, s.tokens.lookup id = some token → token.entry ≠ rsub.entry)
    (hentry : rsub'.entry = rsub.entry) (hforwarder : rsub'.forwarder = rsub.forwarder) :
    TokensOk { s with
      registry := { s.registry with
        subscriptions := s.registry.subscriptions.insert ftn rsub'
        promises := s.registry.promises.insert rsub.entry .value } } := by
  have hsame : ∀ {x sub}, (s.registry.subscriptions.insert ftn rsub').lookup x = some sub →
      ∃ sub₀, s.registry.find x = some sub₀ ∧ sub₀.entry = sub.entry ∧
        sub₀.forwarder = sub.forwarder := by
    intro x sub hx
    rcases lookup_insert_some hx with ⟨rfl, rfl⟩ | ⟨-, hx⟩
    · exact ⟨rsub, hfind, hentry.symm, hforwarder.symm⟩
    · exact ⟨sub, hx, rfl, rfl⟩
  refine ⟨complete_wf h.wf hfind hentry, ?_, h.token_lt, ?_, h.distinct, ?_⟩
  · intro x sub hx
    obtain ⟨sub₀, hx₀, -, hf⟩ := hsame hx
    rw [← hf]
    exact h.forwarder_lt hx₀
  · intro id token x sub ht hx hf
    obtain ⟨sub₀, hx₀, he, hf₀⟩ := hsame hx
    exact he.symm.trans (h.identity ht hx₀ (hf₀.trans hf))
  · intro id token x sub ht hx he
    obtain ⟨sub₀, hx₀, he₀, -⟩ := hsame hx
    rw [AList.lookup_insert_ne (hnone id token ht)]
    exact h.unsettled ht hx₀ (he₀.trans he)

/-- A new entry has an address and a forwarder that no token knows. -/
theorem TokensOk.emplace (h : s.TokensOk) (ftn : FullTrackName)
    {rsub : EntryId → RelaySubscription} (hentry : ∀ e, (rsub e).entry = e)
    (hforwarder : ∀ e, (rsub e).forwarder = s.nextForwarder) :
    TokensOk { s with
      registry := s.registry.emplace ftn rsub, nextForwarder := s.nextForwarder + 1 } := by
  have hfind : ∀ {x sub}, (s.registry.emplace ftn rsub).find x = some sub →
      sub.entry = s.registry.nextEntry ∧ sub.forwarder = s.nextForwarder ∨
        s.registry.find x = some sub := by
    intro x sub hx
    rw [find_emplace] at hx
    split at hx
    · cases hx
      exact .inl ⟨hentry _, hforwarder _⟩
    · exact .inr hx
  refine ⟨emplace_wf h.wf hentry, ?_, ?_, ?_, h.distinct, ?_⟩
  · intro x sub hx
    rcases hfind hx with ⟨-, hf⟩ | hx
    · lia
    · have := h.forwarder_lt hx
      lia
  · intro id token ht
    change token.entry < s.registry.nextEntry + 1 ∧ _ < s.nextForwarder + 1 ∧ _
    have := h.token_lt ht
    lia
  · intro id token x sub ht hx hf
    have := h.token_lt ht
    rcases hfind hx with ⟨-, hf'⟩ | hx
    · lia
    · exact h.identity ht hx hf
  · intro id token x sub ht hx he
    have := h.token_lt ht
    change (s.registry.promises.insert s.registry.nextEntry .pending).lookup token.entry = _
    rw [AList.lookup_insert_ne (by lia)]
    rcases hfind hx with ⟨he', -⟩ | hx
    · lia
    · exact h.unsettled ht hx he

/-- A token for a pending entry that no other token has. -/
theorem TokensOk.addToken (h : s.TokensOk)
    (hlt : token.entry < s.registry.nextEntry ∧ token.pending.weakForwarder < s.nextForwarder)
    (hidentity : ∀ x rsub, s.registry.find x = some rsub →
      rsub.forwarder = token.pending.weakForwarder → rsub.entry = token.entry)
    (hnone : ∀ id token', s.tokens.lookup id = some token' → token'.entry ≠ token.entry)
    (hpending : s.registry.promises.lookup token.entry = some .pending) :
    { s with tokens := s.tokens.insert s.nextId token, nextId := s.nextId + 1 }.TokensOk := by
  refine ⟨h.wf, h.forwarder_lt, ?_, ?_, ?_, ?_⟩
  · intro id' token' ht
    rcases lookup_insert_some ht with ⟨rfl, rfl⟩ | ⟨-, ht⟩
    · exact ⟨hlt.1, hlt.2, Nat.lt_succ_self _⟩
    · have := h.token_lt ht
      exact ⟨this.1, this.2.1, by lia⟩
  · intro id' token' x rsub ht hx hf
    rcases lookup_insert_some ht with ⟨rfl, rfl⟩ | ⟨-, ht⟩
    · exact hidentity x rsub hx hf
    · exact h.identity ht hx hf
  · intro id₁ id₂ token₁ token₂ h₁ h₂ heq
    rcases lookup_insert_some h₁ with ⟨rfl, rfl⟩ | ⟨-, hold₁⟩
    · rcases lookup_insert_some h₂ with ⟨rfl, -⟩ | ⟨-, hold₂⟩
      · rfl
      · exact absurd heq.symm (hnone id₂ token₂ hold₂)
    · rcases lookup_insert_some h₂ with ⟨rfl, rfl⟩ | ⟨-, hold₂⟩
      · exact absurd heq (hnone id₁ token₁ hold₁)
      · exact h.distinct hold₁ hold₂ heq
  · intro id' token' x rsub ht hx he
    rcases lookup_insert_some ht with ⟨rfl, rfl⟩ | ⟨-, ht⟩
    · exact hpending
    · exact h.unsettled ht hx he

theorem TokensOk.complete {handle : HandleId} {requestID : RequestID} {upstream : SessionId}
    {completed : Bool} (h : s.TokensOk) (ht : s.tokens.lookup id = some token)
    (hc : s.registry.completeSubscription token.pending handle requestID upstream =
      .ok (registry, completed)) :
    { s with registry := registry, tokens := s.tokens.erase id }.TokensOk := by
  rcases completeSubscription_eq_ok hc with
    rfl | ⟨rsub, hfind, hforwarder, hp, rfl⟩
  · exact h.eraseToken
  · refine h.eraseToken.settle hfind ?_ rfl rfl
    intro id' token' ht' heq
    obtain ⟨hne, ht'⟩ := lookup_erase_some ht'
    exact hne (h.distinct ht' ht (heq.trans (h.identity ht hfind hforwarder)))

theorem TokensOk.publish {ftn : FullTrackName} {session : SessionId} {requestID : RequestID}
    {handle : HandleId} {topNFilter : FilterId} {now : TimePoint} {evicted : Option Evicted}
    (h : s.TokensOk)
    (hcreate : s.registry.createFromPublish ftn s.nextForwarder session requestID handle topNFilter
      now = .ok (registry, evicted)) :
    { s with registry := registry, nextForwarder := s.nextForwarder + 1 }.TokensOk := by
  rw [createFromPublish_eq] at hcreate
  cases hcreate
  have hremoved := h.shrinks (remove_shrinks ftn h.wf)
  have hemplaced := hremoved.emplace ftn
    (fun _ => rfl : ∀ e, (SubscriptionRegistry.publishEntry s.nextForwarder session requestID handle
      topNFilter now e).entry = e) (fun _ => rfl)
  have hsettled := hemplaced.settle (find_emplace.trans (if_pos rfl)) (by
    intro id token ht heq
    have hlt := (hremoved.token_lt ht).1
    rw [heq] at hlt
    exact Nat.lt_irrefl _ hlt) rfl rfl
  simpa [SubscriptionRegistry.emplace, SubscriptionRegistry.publishEntry] using hsettled

theorem TokensOk.first {rsub : EntryId → RelaySubscription} {ftn : FullTrackName}
    (h : s.TokensOk) (hentry : ∀ e, (rsub e).entry = e)
    (hforwarder : ∀ e, (rsub e).forwarder = s.nextForwarder) :
    TokensOk { s with
      registry := s.registry.emplace ftn rsub
      tokens := s.tokens.insert s.nextId ⟨⟨ftn, s.nextForwarder⟩, s.registry.nextEntry⟩
      nextForwarder := s.nextForwarder + 1
      nextId := s.nextId + 1 } := by
  refine (h.emplace ftn hentry hforwarder).addToken
    ⟨Nat.lt_succ_self _, Nat.lt_succ_self _⟩ ?_ ?_ (AList.lookup_insert _)
  · intro x sub hx hf
    rw [find_emplace] at hx
    split at hx
    · cases hx
      exact hentry _
    · have := h.forwarder_lt hx
      lia
  · intro id token ht heq
    have := (h.token_lt ht).1
    lia

theorem TokensOk.step {op : Op} (h : s.TokensOk) (hs : s.step op = .ok s') : s'.TokensOk := by
  cases op with
  | getOrCreateFromSubscribe ftn topNFilter now =>
    cases hfind : s.registry.find ftn with
    | none =>
      simp only [Registrations.step, SubscriptionRegistry.getOrCreateFromSubscribe, hfind] at hs
      cases hs
      exact h.first (fun _ => rfl) fun _ => rfl
    | some rsub =>
      simp only [Registrations.step, SubscriptionRegistry.getOrCreateFromSubscribe, hfind] at hs
      cases hs
      refine ⟨h.wf, h.forwarder_lt, ?_, h.identity, h.distinct, h.unsettled⟩
      intro id token ht
      have := h.token_lt ht
      exact ⟨this.1, this.2.1, Nat.lt_succ_of_lt this.2.2⟩
  | complete id handle requestID upstream =>
    cases ht : s.tokens.lookup id with
    | none => simp [Registrations.step, ht] at hs
    | some token =>
      simp only [Registrations.step, ht] at hs
      obtain ⟨⟨registry, completed⟩, hc, hs⟩ := bind_ok hs
      cases hs
      exact h.complete ht hc
  | drop id =>
    cases ht : s.tokens.lookup id with
    | none => simp [Registrations.step, ht] at hs
    | some token =>
      simp only [Registrations.step, ht] at hs
      obtain ⟨registry, hfail, hs⟩ := bind_ok hs
      cases hs
      exact (h.shrinks (failAndRemove_shrinks h.wf hfail)).eraseToken
  | resume id =>
    simp only [Registrations.step] at hs
    split at hs
    · cases hs
    · split at hs
      · cases hs
      · cases hs
        exact ⟨h.wf, h.forwarder_lt, h.token_lt, h.identity, h.distinct, h.unsettled⟩
  | createFromPublish ftn session requestID handle topNFilter now =>
    obtain ⟨⟨registry, evicted⟩, hcreate, hs⟩ := bind_ok hs
    cases hs
    exact h.publish hcreate
  | onPublisherTerminated ftn empty =>
    cases hs
    exact h.shrinks (onPublisherTerminated_shrinks empty h.wf)
  | remove ftn =>
    cases hs
    exact h.shrinks (remove_shrinks _ h.wf)
  | removeIf predicate =>
    cases hs
    exact h.shrinks (removeIf_shrinks predicate h.wf)

/-- The states reached from an empty registry. -/
abbrev Reached (Q : Registrations → Op → Prop) : Registrations → Prop := Reaches step Q {}

theorem Reached.tokensOk {Q : Registrations → Op → Prop} (h : Reached Q s) : s.TokensOk :=
  h.keeps tokensOk_start fun _ _ _ hs _ hstep => hs.step hstep

/-- What a call on a token does to the registry, if it does anything. -/
theorem TokensOk.acts {op : Op} (h : s.TokensOk) (hop : op.token = some id)
    (ht : s.tokens.lookup id = some token) (hs : s.step op = .ok s')
    (hchange : s'.registry ≠ s.registry) :
    ∃ rsub, s.registry.find token.pending.ftn = some rsub ∧ rsub.entry = token.entry ∧
      rsub.forwarder = token.pending.weakForwarder := by
  cases op with
  | complete id handle requestID upstream =>
    cases hop
    simp only [Registrations.step, ht] at hs
    obtain ⟨⟨registry, completed⟩, hc, hs⟩ := bind_ok hs
    cases hs
    rcases completeSubscription_eq_ok hc with rfl | ⟨rsub, hfind, hf, -, -⟩
    · exact absurd rfl hchange
    · exact ⟨rsub, hfind, h.identity ht hfind hf, hf⟩
  | drop id =>
    cases hop
    simp only [Registrations.step, ht] at hs
    obtain ⟨registry, hfail, hs⟩ := bind_ok hs
    cases hs
    rcases failAndRemove_eq_ok hfail with rfl | ⟨rsub, hfind, hf, -, -⟩
    · exact absurd rfl hchange
    · exact ⟨rsub, hfind, h.identity ht hfind hf, hf⟩
  | getOrCreateFromSubscribe | resume | createFromPublish | onPublisherTerminated | remove
  | removeIf => cases hop

/-- The promise a token is about to fulfil is pending. -/
theorem TokensOk.pending {rsub : RelaySubscription} (h : s.TokensOk)
    (ht : s.tokens.lookup id = some token)
    (hfind : s.registry.find token.pending.ftn = some rsub)
    (hf : rsub.forwarder = token.pending.weakForwarder) :
    s.registry.promises.lookup rsub.entry = some .pending := by
  have he : rsub.entry = token.entry := h.identity ht hfind hf
  rw [he]
  exact h.unsettled ht hfind he

/-- No call meets a promise that has been fulfilled before. -/
theorem TokensOk.step_ne_satisfied (h : s.TokensOk) (op : Op) :
    s.step op ≠ .error .promiseAlreadySatisfied := by
  intro hs
  cases op with
  | complete id handle requestID upstream =>
    cases ht : s.tokens.lookup id with
    | none => simp [Registrations.step, ht] at hs
    | some token =>
      simp only [Registrations.step, ht, SubscriptionRegistry.completeSubscription] at hs
      cases hfind : s.registry.find token.pending.ftn with
      | none =>
        rw [hfind] at hs
        cases hs
      | some rsub =>
        rw [hfind] at hs
        simp only at hs
        split at hs
        · cases hs
        · next hf =>
          have hpending : s.registry.promises.lookup rsub.entry = some .pending :=
            h.pending ht hfind (not_not.mp hf)
          simp only [SubscriptionRegistry.settle, hpending, if_true] at hs
          cases hs
  | drop id =>
    cases ht : s.tokens.lookup id with
    | none => simp [Registrations.step, ht] at hs
    | some token =>
      simp only [Registrations.step, ht, SubscriptionRegistry.failAndRemove] at hs
      cases hfind : s.registry.find token.pending.ftn with
      | none =>
        rw [hfind] at hs
        cases hs
      | some rsub =>
        rw [hfind] at hs
        simp only at hs
        split at hs
        · next hf =>
          rw [settle_pending .exception (h.pending ht hfind hf)] at hs
          cases hs
        · cases hs
  | createFromPublish ftn session requestID handle topNFilter now =>
    simp only [Registrations.step, createFromPublish_eq] at hs
    cases hs
  | getOrCreateFromSubscribe ftn topNFilter now =>
    simp only [Registrations.step] at hs
    split at hs <;> cases hs
  | resume id =>
    simp only [Registrations.step] at hs
    split at hs
    · cases hs
    · split at hs <;> cases hs
  | onPublisherTerminated | remove | removeIf => cases hs

/-- A promise that is not pending stays as it is. -/
def KeepsSettled (r r' : SubscriptionRegistry) : Prop :=
  ∀ e state, r.promises.lookup e = some state → state ≠ .pending →
    r'.promises.lookup e = some state

theorem keepsSettled_of_shrinks {r r' : SubscriptionRegistry} (h : r.Shrinks r') :
    KeepsSettled r r' := by
  intro e state he hne
  rcases h.promise e with same | ⟨hpending, -, -⟩
  · exact same.trans he
  · rw [he] at hpending
    cases hpending
    exact absurd rfl hne

theorem TokensOk.keepsSettled {op : Op} (h : s.TokensOk) (hs : s.step op = .ok s') :
    KeepsSettled s.registry s'.registry := by
  cases op with
  | getOrCreateFromSubscribe ftn topNFilter now =>
    intro e state he hne
    cases hfind : s.registry.find ftn with
    | none =>
      simp only [Registrations.step, SubscriptionRegistry.getOrCreateFromSubscribe, hfind] at hs
      cases hs
      have hlt := h.wf.promise_lt he
      change (s.registry.promises.insert s.registry.nextEntry .pending).lookup e = _
      rw [AList.lookup_insert_ne (by lia), he]
    | some rsub =>
      simp only [Registrations.step, SubscriptionRegistry.getOrCreateFromSubscribe, hfind] at hs
      cases hs
      exact he
  | complete id handle requestID upstream =>
    cases ht : s.tokens.lookup id with
    | none => simp [Registrations.step, ht] at hs
    | some token =>
      simp only [Registrations.step, ht] at hs
      obtain ⟨⟨registry, completed⟩, hc, hs⟩ := bind_ok hs
      cases hs
      intro e state he hne
      rcases completeSubscription_eq_ok hc with
        rfl | ⟨rsub, -, -, hp, rfl⟩
      · exact he
      · have hother : e ≠ rsub.entry := by
          rintro rfl
          rw [he] at hp
          cases hp
          exact hne rfl
        exact (AList.lookup_insert_ne hother).trans he
  | drop id =>
    cases ht : s.tokens.lookup id with
    | none => simp [Registrations.step, ht] at hs
    | some token =>
      simp only [Registrations.step, ht] at hs
      obtain ⟨registry, hfail, hs⟩ := bind_ok hs
      cases hs
      exact keepsSettled_of_shrinks (failAndRemove_shrinks h.wf hfail)
  | resume id =>
    simp only [Registrations.step] at hs
    split at hs
    · cases hs
    · split at hs
      · cases hs
      · cases hs
        exact fun e state he _ => he
  | createFromPublish ftn session requestID handle topNFilter now =>
    simp only [Registrations.step, createFromPublish_eq] at hs
    cases hs
    have hremove : s.registry.Shrinks (s.registry.remove ftn) :=
      remove_shrinks _ h.wf
    intro e state he hne
    have hkept := keepsSettled_of_shrinks hremove e state he hne
    have hlt := (hremove.wf h.wf).promise_lt hkept
    rw [AList.lookup_insert_ne (by lia), AList.lookup_insert_ne (by lia), hkept]
  | onPublisherTerminated ftn empty =>
    cases hs
    exact keepsSettled_of_shrinks (onPublisherTerminated_shrinks empty h.wf)
  | remove ftn =>
    cases hs
    exact keepsSettled_of_shrinks (remove_shrinks _ h.wf)
  | removeIf predicate =>
    cases hs
    exact keepsSettled_of_shrinks (removeIf_shrinks predicate h.wf)

/-- Some call on the token would change the registry. -/
def CanTakeEffect (s : Registrations) (id : Nat) : Prop :=
  ∃ op s', op.token = some id ∧ s.step op = .ok s' ∧ s'.registry ≠ s.registry

theorem TokensOk.one_effective {id' : Nat} {token' : Token} (h : s.TokensOk)
    (ht : s.tokens.lookup id = some token) (ht' : s.tokens.lookup id' = some token')
    (hname : token.pending.ftn = token'.pending.ftn) (heffect : s.CanTakeEffect id)
    (heffect' : s.CanTakeEffect id') : id = id' := by
  obtain ⟨op, s₁, hop, hs, hchange⟩ := heffect
  obtain ⟨op', s₂, hop', hs', hchange'⟩ := heffect'
  obtain ⟨rsub, hfind, he, -⟩ := h.acts hop ht hs hchange
  obtain ⟨rsub', hfind', he', -⟩ := h.acts hop' ht' hs' hchange'
  rw [hname, hfind'] at hfind
  cases hfind
  exact h.distinct ht ht' (he.symm.trans he')

/-- In every interleaving a token changes the registry only while the entry it was made for is the
entry of its name, every promise is fulfilled at most once, and of the tokens of a name at most
one can still take effect. -/
theorem registry_identity (h : Reached (fun _ _ => True) s) :
    (∀ op id token s', op.token = some id → s.tokens.lookup id = some token →
      s.step op = .ok s' → s'.registry ≠ s.registry →
      ∃ rsub, s.registry.find token.pending.ftn = some rsub ∧ rsub.entry = token.entry ∧
        rsub.forwarder = token.pending.weakForwarder) ∧
    (∀ op, s.step op ≠ .error .promiseAlreadySatisfied) ∧
    (∀ op s', s.step op = .ok s' → KeepsSettled s.registry s'.registry) ∧
    ∀ id id' token token', s.tokens.lookup id = some token → s.tokens.lookup id' = some token' →
      token.pending.ftn = token'.pending.ftn → s.CanTakeEffect id → s.CanTakeEffect id' →
      id = id' := by
  have hok : s.TokensOk := h.tokensOk
  refine ⟨?_, hok.step_ne_satisfied, ?_, ?_⟩
  · intro op id token s' hop ht hs hchange
    exact hok.acts hop ht hs hchange
  · intro op s' hs
    exact hok.keepsSettled hs
  · intro id id' token token' ht ht' hname heffect heffect'
    exact hok.one_effective ht ht' hname heffect heffect'

/-- A subscriber's entry is replaced by a PUBLISH and, after that has ended, created again by
another subscriber while the first still waits for its answer. -/
def recreated : List Op :=
  [.getOrCreateFromSubscribe ⟨["live"], "video"⟩ 0 0,
    .createFromPublish ⟨["live"], "video"⟩ 1 0 0 1 0,
    .onPublisherTerminated ⟨["live"], "video"⟩ fun _ => true,
    .getOrCreateFromSubscribe ⟨["live"], "video"⟩ 2 0]

theorem registry_identity_recreated : ∃ s,
    runMeets step (fun _ _ => True) {} recreated = some s ∧
      (s.tokens.lookup 0).isSome ∧ (s.tokens.lookup 1).isSome ∧
      ¬ (s.CanTakeEffect 0 ∧ s.CanTakeEffect 1) := by
  obtain ⟨s, hreach, hrun, hp⟩ := reaches_of_elim step (fun _ _ => True) {} recreated
    (fun s =>
      (s.tokens.lookup 0).map (fun token => token.pending.ftn) = some ⟨["live"], "video"⟩ ∧
      (s.tokens.lookup 1).map (fun token => token.pending.ftn) = some ⟨["live"], "video"⟩)
    (by decide +kernel)
  simp only [decide_eq_true_eq, Option.map_eq_some_iff] at hp
  obtain ⟨⟨token, ht, hname⟩, ⟨token', ht', hname'⟩⟩ := hp
  refine ⟨s, hrun, by rw [ht]; rfl, by rw [ht']; rfl, ?_⟩
  rintro ⟨heffect, heffect'⟩
  have := (registry_identity hreach).2.2.2 0 1 token token' ht ht' (hname.trans hname'.symm)
    heffect heffect'
  cases this

end Registrations

end Moqx
