import Moqx.Lib.Maps
import Moqx.Relay.PropertyRanking

/-! `SubscriptionRegistry`: the upstream subscription of every track, made by the first SUBSCRIBE
or by a PUBLISH. Objects behind shared pointers are named by numbers; the number of an entry is
the address of its node in the map. -/
namespace Moqx

open Maps

abbrev ForwarderId := Nat
abbrev FilterId := Nat
abbrev EntryId := Nat
abbrev HandleId := Nat
abbrev RequestID := Nat

/-- Why a call into the relay does not return. -/
inductive Fault where
  /-- `SharedPromise` throws when it is fulfilled a second time. -/
  | promiseAlreadySatisfied
  /-- A time is written through a pointer into an entry that is gone. -/
  | danglingWrite
  /-- A null pointer is dereferenced. -/
  | nullDeref
  /-- A `CHECK` fails and the process stops. -/
  | check
  /-- The caller does not exist, so there is no such call. -/
  | noCaller
deriving DecidableEq, Repr

/-- The state that a promise shares with its futures. -/
inductive PromiseState where
  | pending
  | value
  | exception
deriving DecidableEq, Repr

structure RelaySubscription where
  entry : EntryId
  forwarder : ForwarderId
  upstream : Option SessionId
  requestID : RequestID := 0
  handle : Option HandleId := none
  isPublish : Bool := false
  topNFilter : Option FilterId := none
  lastObjectTime : TimePoint
deriving DecidableEq, Repr

/-- `promises` holds the shared state of the promise of every entry there ever was: futures
outlive the entry. -/
structure SubscriptionRegistry where
  subscriptions : AList (fun _ : FullTrackName => RelaySubscription) := ∅
  promises : AList (fun _ : EntryId => PromiseState) := ∅
  nextEntry : EntryId := 0

/-- Held from the creation of an entry until its upstream subscribe completes or fails. -/
structure UpstreamSubscribePending where
  ftn : FullTrackName
  weakForwarder : ForwarderId
deriving DecidableEq, Repr

/-- The frame of an `awaitSubsequent` coroutine. -/
structure AwaitSubsequent where
  ftn : FullTrackName
  future : EntryId
deriving DecidableEq, Repr

inductive FirstOrSubsequent where
  | first (pending : UpstreamSubscribePending)
  | subsequent (task : AwaitSubsequent)
deriving DecidableEq, Repr

/-- What `createFromPublish` moves out of the entry it replaces. -/
structure Evicted where
  forwarder : ForwarderId
  handle : Option HandleId
deriving DecidableEq, Repr

structure TopNView where
  forwarder : ForwarderId
  topNFilter : Option FilterId
  lastObjectTime : TimePoint
deriving DecidableEq, Repr

structure UpstreamView where
  forwarder : ForwarderId
  upstream : Option SessionId
  handle : Option HandleId
  requestID : RequestID
  isPublish : Bool
  isReady : Bool
deriving DecidableEq, Repr

theorem bind_ok {α β : Type} {m : Except Fault α} {f : α → Except Fault β} {b : β}
    (h : m >>= f = .ok b) : ∃ a, m = .ok a ∧ f a = .ok b := by
  cases m with
  | error fault => cases h
  | ok a => exact ⟨a, rfl, h⟩

namespace SubscriptionRegistry

def find (r : SubscriptionRegistry) (ftn : FullTrackName) : Option RelaySubscription :=
  r.subscriptions.lookup ftn

/-- `promise.setValue` and `promise.setException`. -/
def settle (r : SubscriptionRegistry) (entry : EntryId) (state : PromiseState) :
    Except Fault SubscriptionRegistry :=
  if r.promises.lookup entry = some .pending then
    .ok { r with promises := r.promises.insert entry state }
  else .error .promiseAlreadySatisfied

/-- The promise of an erased entry is destroyed; a future still waiting for it then sees a
broken promise. -/
def breakPromise (r : SubscriptionRegistry) (entry : EntryId) : SubscriptionRegistry :=
  if r.promises.lookup entry = some .pending then
    { r with promises := r.promises.insert entry .exception }
  else r

/-- Erase an entry. -/
def remove (r : SubscriptionRegistry) (ftn : FullTrackName) : SubscriptionRegistry :=
  match r.find ftn with
  | none => r
  | some rsub => { r with subscriptions := r.subscriptions.erase ftn }.breakPromise rsub.entry

/-- Construct an entry at the next address, under a name that has none. -/
def emplace (r : SubscriptionRegistry) (ftn : FullTrackName) (rsub : EntryId → RelaySubscription) :
    SubscriptionRegistry :=
  { subscriptions := r.subscriptions.insert ftn (rsub r.nextEntry)
    promises := r.promises.insert r.nextEntry .pending
    nextEntry := r.nextEntry + 1 }

/-- The first subscriber of a track creates its entry, with a new `forwarder` and the filter of
the chain built for it; a later one gets a coroutine that waits for the first. -/
def getOrCreateFromSubscribe (r : SubscriptionRegistry) (ftn : FullTrackName)
    (forwarder : ForwarderId) (topNFilter : FilterId) (now : TimePoint) :
    SubscriptionRegistry × FirstOrSubsequent :=
  match r.find ftn with
  | none =>
    (r.emplace ftn fun entry =>
      { entry := entry
        forwarder := forwarder
        upstream := none
        topNFilter := some topNFilter
        lastObjectTime := now },
    .first ⟨ftn, forwarder⟩)
  | some rsub => (r, .subsequent ⟨ftn, rsub.entry⟩)

/-- What the coroutine does when it is resumed: nothing while its future is not settled, else
it throws or returns a forwarder. -/
def awaitSubsequent (r : SubscriptionRegistry) (task : AwaitSubsequent) :
    Option (Except String ForwarderId) :=
  match r.promises.lookup task.future with
  | some .value =>
    match r.find task.ftn with
    | none => some (.error "subscription gone")
    | some rsub => some (.ok rsub.forwarder)
  | some .exception => some (.error "upstream subscribe failed")
  | _ => none

/-- `UpstreamSubscribePending::complete`. -/
def completeSubscription (r : SubscriptionRegistry) (pending : UpstreamSubscribePending)
    (handle : HandleId) (requestID : RequestID) (upstreamSession : SessionId) :
    Except Fault (SubscriptionRegistry × Bool) :=
  match r.find pending.ftn with
  | none => .ok (r, false)
  | some rsub =>
    if rsub.forwarder ≠ pending.weakForwarder then .ok (r, false)
    else do
      let rsub' := { rsub with
        handle := some handle, requestID := requestID, upstream := some upstreamSession }
      let r ← { r with subscriptions := r.subscriptions.insert pending.ftn rsub' }.settle
        rsub.entry .value
      return (r, true)

/-- What the destructor of a pending token does that was never completed. -/
def failAndRemove (r : SubscriptionRegistry) (pending : UpstreamSubscribePending) :
    Except Fault SubscriptionRegistry :=
  match r.find pending.ftn with
  | none => .ok r
  | some rsub =>
    if rsub.forwarder = pending.weakForwarder then do
      let r ← r.settle rsub.entry .exception
      return r.remove pending.ftn
    else .ok r

/-- The entry that a PUBLISH makes. -/
def publishEntry (forwarder : ForwarderId) (session : SessionId) (requestID : RequestID)
    (handle : HandleId) (topNFilter : FilterId) (now : TimePoint) (entry : EntryId) :
    RelaySubscription :=
  { entry := entry
    forwarder := forwarder
    upstream := some session
    requestID := requestID
    handle := some handle
    isPublish := true
    topNFilter := some topNFilter
    lastObjectTime := now }

/-- A PUBLISH erases an entry of its name and creates its own, with the promise fulfilled. -/
def createFromPublish (r : SubscriptionRegistry) (ftn : FullTrackName) (forwarder : ForwarderId)
    (session : SessionId) (requestID : RequestID) (handle : HandleId) (topNFilter : FilterId)
    (now : TimePoint) : Except Fault (SubscriptionRegistry × Option Evicted) := do
  let evicted := (r.find ftn).map fun rsub => ⟨rsub.forwarder, rsub.handle⟩
  let r := (r.remove ftn).emplace ftn
    (publishEntry forwarder session requestID handle topNFilter now)
  let r ← r.settle (r.nextEntry - 1) .value
  return (r, evicted)

def getForwarder (r : SubscriptionRegistry) (ftn : FullTrackName) : Option ForwarderId :=
  (r.find ftn).map fun rsub => rsub.forwarder

def getTopNView (r : SubscriptionRegistry) (ftn : FullTrackName) : Option TopNView :=
  (r.find ftn).map fun rsub => ⟨rsub.forwarder, rsub.topNFilter, rsub.lastObjectTime⟩

/-- `promise.isFulfilled()`, which is also true of an exception. -/
def isFulfilled (r : SubscriptionRegistry) (entry : EntryId) : Bool :=
  r.promises.lookup entry ≠ some .pending

def getUpstreamView (r : SubscriptionRegistry) (ftn : FullTrackName) : Option UpstreamView :=
  (r.find ftn).map fun rsub =>
    { forwarder := rsub.forwarder
      upstream := rsub.upstream
      handle := rsub.handle
      requestID := rsub.requestID
      isPublish := rsub.isPublish
      isReady := r.isFulfilled rsub.entry }

/-- Clears handle and upstream, and erases the entry if no subscriber remains. -/
def onPublisherTerminated (r : SubscriptionRegistry) (ftn : FullTrackName)
    (empty : ForwarderId → Bool) : SubscriptionRegistry × Option ForwarderId :=
  match r.find ftn with
  | none => (r, none)
  | some rsub =>
    if empty rsub.forwarder then (r.remove ftn, none)
    else
      let rsub' := { rsub with handle := none, upstream := none }
      ({ r with subscriptions := r.subscriptions.insert ftn rsub' }, some rsub.forwarder)

/-- Erase the entries that a predicate picks. -/
def removeIf (r : SubscriptionRegistry) (predicate : FullTrackName → RelaySubscription → Bool) :
    SubscriptionRegistry :=
  ((r.subscriptions.entries.filter fun e => predicate e.1 e.2).map fun e => e.1).foldl remove r

variable {r r' r'' : SubscriptionRegistry} {ftn x y : FullTrackName}
  {rsub rsub' : RelaySubscription}
  {entry e : EntryId}

/-- Entries have addresses and promises of their own. -/
structure WF (r : SubscriptionRegistry) : Prop where
  entry_lt : ∀ ⦃x rsub⦄, r.find x = some rsub → rsub.entry < r.nextEntry
  promise_lt : ∀ ⦃e state⦄, r.promises.lookup e = some state → e < r.nextEntry
  apart : ∀ ⦃x y rsub rsub'⦄, r.find x = some rsub → r.find y = some rsub' →
    rsub.entry = rsub'.entry → x = y

/-- Some entries are gone, with their promises broken if they were pending; nothing is new. -/
structure Shrinks (r r' : SubscriptionRegistry) : Prop where
  find : ∀ ⦃x rsub'⦄, r'.find x = some rsub' →
    ∃ rsub, r.find x = some rsub ∧ rsub.entry = rsub'.entry ∧ rsub.forwarder = rsub'.forwarder
  promise : ∀ e, r'.promises.lookup e = r.promises.lookup e ∨
    r.promises.lookup e = some .pending ∧ r'.promises.lookup e = some .exception ∧
      ∀ x rsub', r'.find x = some rsub' → rsub'.entry ≠ e
  nextEntry : r'.nextEntry = r.nextEntry

theorem Shrinks.refl (r : SubscriptionRegistry) : r.Shrinks r :=
  ⟨fun _ rsub h => ⟨rsub, h, rfl, rfl⟩, fun _ => .inl rfl, rfl⟩

theorem Shrinks.trans (h : r.Shrinks r') (h' : r'.Shrinks r'') : r.Shrinks r'' := by
  refine ⟨?_, ?_, h'.nextEntry.trans h.nextEntry⟩
  · intro x rsub'' hx
    obtain ⟨rsub', hx', he', hf'⟩ := h'.find hx
    obtain ⟨rsub, hx, he, hf⟩ := h.find hx'
    exact ⟨rsub, hx, he.trans he', hf.trans hf'⟩
  · intro e
    rcases h.promise e with same | ⟨hpending, hbroken, hgone⟩
    · rw [← same]
      exact h'.promise e
    · refine .inr ⟨hpending, ?_, ?_⟩
      · rcases h'.promise e with same | ⟨hpending', -, -⟩
        · exact same.trans hbroken
        · rw [hbroken] at hpending'
          cases hpending'
      · intro x rsub'' hx heq
        obtain ⟨rsub', hx', he', -⟩ := h'.find hx
        exact hgone x rsub' hx' (he'.trans heq)

theorem Shrinks.wf (h : r.Shrinks r') (hr : r.WF) : r'.WF := by
  refine ⟨?_, ?_, ?_⟩
  · intro x rsub' hx
    obtain ⟨rsub, hx, he, -⟩ := h.find hx
    rw [← he, h.nextEntry]
    exact hr.entry_lt hx
  · intro e state he
    rw [h.nextEntry]
    rcases h.promise e with same | ⟨hpending, -, -⟩
    · exact hr.promise_lt (same.symm.trans he)
    · exact hr.promise_lt hpending
  · intro x y rsub rsub' hx hy heq
    obtain ⟨rsub₁, hx₁, he₁, -⟩ := h.find hx
    obtain ⟨rsub₂, hy₂, he₂, -⟩ := h.find hy
    exact hr.apart hx₁ hy₂ (he₁.trans (heq.trans he₂.symm))

theorem find_breakPromise : (r.breakPromise entry).find x = r.find x := by
  unfold breakPromise
  split <;> rfl

@[simp] theorem find_remove :
    (r.remove ftn).find x = if x = ftn then none else r.find x := by
  unfold remove
  cases h : r.find ftn with
  | none =>
    by_cases hx : x = ftn
    · simp [hx, h]
    · simp [hx]
  | some rsub =>
    simp only [find_breakPromise]
    split
    · next hx =>
      subst hx
      exact AList.lookup_erase _ _
    · next hx => exact AList.lookup_erase_ne hx

theorem nextEntry_remove (r : SubscriptionRegistry) (ftn : FullTrackName) :
    (r.remove ftn).nextEntry = r.nextEntry := by
  unfold remove breakPromise
  split
  · rfl
  · split <;> rfl

theorem remove_shrinks (ftn : FullTrackName) (hr : r.WF) : r.Shrinks (r.remove ftn) := by
  refine ⟨?_, ?_, ?_⟩
  · intro x rsub' hx
    rw [find_remove] at hx
    split at hx
    · cases hx
    · exact ⟨rsub', hx, rfl, rfl⟩
  · intro e
    cases h : r.find ftn with
    | none => simp [remove, h]
    | some rsub =>
      by_cases hp : r.promises.lookup rsub.entry = some .pending
      · have hpromises : (r.remove ftn).promises = r.promises.insert rsub.entry .exception := by
          simp [remove, h, breakPromise, hp]
        by_cases he : e = rsub.entry
        · subst he
          refine .inr ⟨hp, by rw [hpromises, AList.lookup_insert], ?_⟩
          intro x rsub' hx heq
          rw [find_remove] at hx
          split at hx
          · cases hx
          · next hne => exact hne (hr.apart hx h heq)
        · left
          rw [hpromises, AList.lookup_insert_ne he]
      · left
        simp [remove, h, breakPromise, hp]
  · exact nextEntry_remove r ftn

theorem foldl_remove_shrinks (names : List FullTrackName) (hr : r.WF) :
    r.Shrinks (names.foldl remove r) := by
  induction names generalizing r with
  | nil => exact .refl r
  | cons ftn names ih =>
    have hremove : r.Shrinks (r.remove ftn) := remove_shrinks _ hr
    exact hremove.trans (ih (hremove.wf hr))

theorem removeIf_shrinks (predicate : FullTrackName → RelaySubscription → Bool) (hr : r.WF) :
    r.Shrinks (r.removeIf predicate) :=
  foldl_remove_shrinks _ hr

theorem find_foldl_remove (names : List FullTrackName) :
    (names.foldl remove r).find x = if x ∈ names then none else r.find x := by
  induction names generalizing r with
  | nil => simp
  | cons ftn names ih =>
    rw [List.foldl_cons, ih, find_remove]
    by_cases h : x = ftn <;> by_cases h' : x ∈ names <;> simp [h, h']

theorem find_removeIf (predicate : FullTrackName → RelaySubscription → Bool) :
    (r.removeIf predicate).find x = (r.find x).filter fun rsub => !predicate x rsub := by
  have hmem : x ∈ ((r.subscriptions.entries.filter fun e => predicate e.1 e.2).map
      fun e => e.1) ↔ ∃ rsub, r.find x = some rsub ∧ predicate x rsub = true := by
    simp only [List.mem_map, List.mem_filter]
    constructor
    · rintro ⟨⟨y, rsub⟩, ⟨he, hp⟩, rfl⟩
      exact ⟨rsub, List.mem_dlookup r.subscriptions.nodupKeys he, hp⟩
    · rintro ⟨rsub, hx, hp⟩
      exact ⟨⟨x, rsub⟩, ⟨List.of_mem_dlookup hx, hp⟩, rfl⟩
  rw [removeIf, find_foldl_remove]
  cases h : r.find x with
  | none => simp
  | some rsub =>
    by_cases hp : predicate x rsub = true
    · rw [if_pos (hmem.mpr ⟨rsub, h, hp⟩)]
      simp [Option.filter, hp]
    · rw [if_neg]
      · simp [Option.filter, hp]
      · rw [hmem]
        rintro ⟨rsub', h', hp'⟩
        rw [h] at h'
        cases h'
        exact hp hp'

theorem onPublisherTerminated_shrinks (empty : ForwarderId → Bool) (hr : r.WF) :
    r.Shrinks (r.onPublisherTerminated ftn empty).1 := by
  unfold onPublisherTerminated
  cases h : r.find ftn with
  | none => exact .refl r
  | some rsub =>
    simp only
    split
    · exact remove_shrinks _ hr
    · refine ⟨?_, fun _ => .inl rfl, rfl⟩
      intro x rsub' hx
      rcases lookup_insert_some hx with ⟨rfl, rfl⟩ | ⟨-, hx⟩
      · exact ⟨rsub, h, rfl, rfl⟩
      · exact ⟨rsub', hx, rfl, rfl⟩

theorem find_emplace {rsub : EntryId → RelaySubscription} :
    (r.emplace ftn rsub).find x = if x = ftn then some (rsub r.nextEntry) else r.find x := by
  split
  · next h =>
    subst h
    exact AList.lookup_insert _
  · next h => exact AList.lookup_insert_ne h

theorem settle_eq_ok {state : PromiseState} (h : r.settle entry state = .ok r') :
    r.promises.lookup entry = some .pending ∧
      r' = { r with promises := r.promises.insert entry state } := by
  unfold settle at h
  split at h
  · next hp =>
    cases h
    exact ⟨hp, rfl⟩
  · cases h

theorem settle_pending (state : PromiseState) (h : r.promises.lookup entry = some .pending) :
    r.settle entry state = .ok { r with promises := r.promises.insert entry state } := by
  simp [settle, h]

theorem emplace_wf {rsub : EntryId → RelaySubscription} (hr : r.WF)
    (hentry : ∀ e, (rsub e).entry = e) : (r.emplace ftn rsub).WF := by
  have hpromise : ∀ e, (r.emplace ftn rsub).promises.lookup e =
      if e = r.nextEntry then some .pending else r.promises.lookup e := by
    intro e
    split
    · next h =>
      subst h
      exact AList.lookup_insert _
    · next h => exact AList.lookup_insert_ne h
  have hold : ∀ {x sub}, x ≠ ftn → (r.emplace ftn rsub).find x = some sub →
      r.find x = some sub := by
    intro x sub hx h
    rwa [find_emplace, if_neg hx] at h
  have hnew : ∀ {sub}, (r.emplace ftn rsub).find ftn = some sub → sub.entry = r.nextEntry := by
    intro sub h
    rw [find_emplace, if_pos rfl] at h
    cases h
    exact hentry _
  refine ⟨?_, ?_, ?_⟩
  · intro x sub h
    change sub.entry < r.nextEntry + 1
    by_cases hx : x = ftn
    · subst hx
      have := hnew h
      lia
    · have := hr.entry_lt (hold hx h)
      lia
  · intro e state h
    change e < r.nextEntry + 1
    rw [hpromise] at h
    split at h
    · lia
    · have := hr.promise_lt h
      lia
  · intro x y sub sub' h h' heq
    by_cases hx : x = ftn
    · by_cases hy : y = ftn
      · rw [hx, hy]
      · subst hx
        have := hr.entry_lt (hold hy h')
        have := hnew h
        lia
    · by_cases hy : y = ftn
      · subst hy
        have := hr.entry_lt (hold hx h)
        have := hnew h'
        lia
      · exact hr.apart (hold hx h) (hold hy h') heq

/-- An entry keeps its address and gets a value. -/
theorem complete_wf (hr : r.WF) (hfind : r.find ftn = some rsub)
    (hentry : rsub'.entry = rsub.entry) :
    WF { r with
      subscriptions := r.subscriptions.insert ftn rsub'
      promises := r.promises.insert rsub.entry .value } := by
  have hsame : ∀ {x sub}, (r.subscriptions.insert ftn rsub').lookup x = some sub →
      ∃ sub₀, r.find x = some sub₀ ∧ sub₀.entry = sub.entry := by
    intro x sub h
    rcases lookup_insert_some h with ⟨rfl, rfl⟩ | ⟨-, h⟩
    · exact ⟨rsub, hfind, hentry.symm⟩
    · exact ⟨sub, h, rfl⟩
  refine ⟨?_, ?_, ?_⟩
  · intro x sub h
    obtain ⟨sub₀, h₀, he⟩ := hsame h
    rw [← he]
    exact hr.entry_lt h₀
  · intro e state h
    rcases lookup_insert_some h with ⟨rfl, -⟩ | ⟨-, h⟩
    · exact hr.entry_lt hfind
    · exact hr.promise_lt h
  · intro x y sub sub' h h' heq
    obtain ⟨sub₀, h₀, he⟩ := hsame h
    obtain ⟨sub₁, h₁, he'⟩ := hsame h'
    exact hr.apart h₀ h₁ (he.trans (heq.trans he'.symm))

theorem completeSubscription_eq_ok {pending : UpstreamSubscribePending} {handle : HandleId}
    {requestID : RequestID} {upstream : SessionId} {replaced : Bool}
    (h : r.completeSubscription pending handle requestID upstream = .ok (r', replaced)) :
    r' = r ∨ ∃ rsub, r.find pending.ftn = some rsub ∧ rsub.forwarder = pending.weakForwarder ∧
      r.promises.lookup rsub.entry = some .pending ∧
      r' = { r with
        subscriptions := r.subscriptions.insert pending.ftn
          { rsub with handle := some handle, requestID := requestID, upstream := some upstream }
        promises := r.promises.insert rsub.entry .value } := by
  unfold completeSubscription at h
  cases hfind : r.find pending.ftn with
  | none =>
    rw [hfind] at h
    cases h
    exact .inl rfl
  | some rsub =>
    rw [hfind] at h
    simp only at h
    split at h
    · cases h
      exact .inl rfl
    · next hforwarder =>
      obtain ⟨r₁, hsettle, h⟩ := bind_ok h
      cases h
      obtain ⟨hp, rfl⟩ := settle_eq_ok hsettle
      exact .inr ⟨rsub, rfl, not_not.mp hforwarder, hp, rfl⟩

theorem failAndRemove_eq_ok {pending : UpstreamSubscribePending}
    (h : r.failAndRemove pending = .ok r') :
    r' = r ∨ ∃ rsub, r.find pending.ftn = some rsub ∧ rsub.forwarder = pending.weakForwarder ∧
      r.promises.lookup rsub.entry = some .pending ∧
      r' = { r with promises := r.promises.insert rsub.entry .exception }.remove pending.ftn := by
  unfold failAndRemove at h
  cases hfind : r.find pending.ftn with
  | none =>
    rw [hfind] at h
    cases h
    exact .inl rfl
  | some rsub =>
    rw [hfind] at h
    simp only at h
    split at h
    · next hforwarder =>
      obtain ⟨r₁, hsettle, h⟩ := bind_ok h
      cases h
      obtain ⟨hp, rfl⟩ := settle_eq_ok hsettle
      exact .inr ⟨rsub, rfl, hforwarder, hp, rfl⟩
    · cases h
      exact .inl rfl

/-- Failing an entry comes to the same as erasing it. -/
theorem fail_eq_remove (hfind : r.find ftn = some rsub)
    (hp : r.promises.lookup rsub.entry = some .pending) :
    { r with promises := r.promises.insert rsub.entry .exception }.remove ftn = r.remove ftn := by
  have hfind' : { r with promises := r.promises.insert rsub.entry .exception }.find ftn =
      some rsub := hfind
  simp [remove, hfind, hfind', breakPromise, hp]

theorem failAndRemove_shrinks {pending : UpstreamSubscribePending} (hr : r.WF)
    (h : r.failAndRemove pending = .ok r') : r.Shrinks r' := by
  rcases failAndRemove_eq_ok h with rfl | ⟨rsub, hfind, -, hp, rfl⟩
  · exact .refl _
  · rw [fail_eq_remove hfind hp]
    exact remove_shrinks _ hr

/-- A PUBLISH never finds its new promise fulfilled. -/
theorem createFromPublish_eq (ftn : FullTrackName) (forwarder : ForwarderId) (session : SessionId)
    (requestID : RequestID) (handle : HandleId) (topNFilter : FilterId) (now : TimePoint) :
    r.createFromPublish ftn forwarder session requestID handle topNFilter now =
      .ok ({ (r.remove ftn).emplace ftn
          (publishEntry forwarder session requestID handle topNFilter now) with
        promises := ((r.remove ftn).promises.insert (r.remove ftn).nextEntry .pending).insert
          (r.remove ftn).nextEntry .value },
        (r.find ftn).map fun rsub => ⟨rsub.forwarder, rsub.handle⟩) := by
  have hp : ((r.remove ftn).emplace ftn
      (publishEntry forwarder session requestID handle topNFilter now)).promises.lookup
        (r.remove ftn).nextEntry = some .pending := AList.lookup_insert _
  have hsettle := settle_pending .value hp
  change (settle _ (r.remove ftn).nextEntry .value >>= _) = _
  rw [hsettle]
  rfl

end SubscriptionRegistry

end Moqx
