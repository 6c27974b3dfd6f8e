import Moqx.Lib.Runs

/-! `UpstreamProvider`: the connection to the upstream relay. The coroutines of the provider are
suspended calls in its state, and each event runs one of them up to its next suspension. -/
namespace Moqx.Upstream

open Runs

inductive State where
  | disconnected
  | connecting
  | connected
deriving DecidableEq, Repr

/-- Who awaits the session: a request, `reconnectLoop` or `waitForConnected`. -/
inductive Caller where
  | request
  | loop
  | gate
deriving DecidableEq, Repr

/-- Where `doConnect` is suspended. -/
inductive Stage where
  | setup
  | onConnect
deriving DecidableEq, Repr

/-- A call of `getOrConnectSession` that is connecting. Its number is also that of its client, of
the session of that client and of the promise that was made for it. -/
structure Attempt where
  number : Nat
  caller : Caller
  stage : Stage
deriving DecidableEq, Repr

/-- The members of the provider, its suspended coroutines and the sessions. `registered` are the
sessions that call the provider back when they close. `fulfilled` lists the promises with whether
they got a value, `discarded` those that were destroyed before, `latest` is the session of the
latest connect that succeeded, and `answers` are the results of requests. -/
structure Provider where
  state : State := .disconnected
  client : Option Nat := none
  session : Option Nat := none
  connectPromise : Option Nat := none
  url : String := ""
  onConnect : Bool := true
  reconnectBackoff : Nat := 0
  connecting : List Attempt := []
  waiting : List (Nat × Caller) := []
  loops : Nat := 0
  established : List Nat := []
  live : List Nat := []
  registered : List Nat := []
  next : Nat := 0
  fulfilled : List (Nat × Bool) := []
  discarded : List Nat := []
  latest : Option Nat := none
  answers : List (Option Nat) := []
deriving DecidableEq, Repr

inductive Fault where
  | check
  | nullClient
  | noPromise
  | alreadySatisfied
  | disabled
deriving DecidableEq, Repr

def kInitialReconnectBackoff : Nat := 1000

def kMaxReconnectBackoff : Nat := 60000

namespace Provider

variable (p : Provider)

def resetSession : Provider :=
  { p with
    registered := p.session.elim p.registered fun s => p.registered.filter fun r => r ≠ s
    session := none
    state := .disconnected }

def onMoQSessionClosed : Provider :=
  { p.resetSession with reconnectBackoff := 0, loops := p.loops + 1 }

def goaway (newSessionUri : String) : Provider :=
  let p := { p with url := if newSessionUri = "" then p.url else newSessionUri }
  { p.resetSession with reconnectBackoff := 0, loops := p.loops + 1 }

/-- A session closes and tells the provider if that is registered. -/
def closeSession (s : Nat) : Provider :=
  if s ∈ p.live then
    let p := { p with live := p.live.filter fun l => l ≠ s }
    if s ∈ p.registered then p.onMoQSessionClosed else p
  else p

/-- The destructor of a client closes its session. -/
def destroyClient (client : Option Nat) : Provider :=
  client.elim p p.closeSession

/-- What a caller does with a session or without one. -/
def answer (caller : Caller) (result : Option Nat) : Provider :=
  match caller with
  | .request => { p with answers := p.answers ++ [result] }
  | .loop =>
    if result.isSome then { p with reconnectBackoff := 0 }
    else { p with
      reconnectBackoff := if p.reconnectBackoff = 0 then kInitialReconnectBackoff
        else min (p.reconnectBackoff * 2) kMaxReconnectBackoff
      loops := p.loops + 1 }
  | .gate => p

/-- A promise for the next connect takes the place of the last one. -/
def emplacePromise : Provider :=
  { p with
    discarded := p.discarded ++ (p.connectPromise.toList.filter fun q =>
      q ∉ p.fulfilled.map Prod.fst)
    connectPromise := some p.next }

/-- `setValue` and `setException`. -/
def fulfil (ok : Bool) : Except Fault Provider :=
  match p.connectPromise with
  | none => .error .noPromise
  | some q =>
    if q ∈ p.fulfilled.map Prod.fst then .error .alreadySatisfied
    else .ok { p with fulfilled := p.fulfilled ++ [(q, ok)] }

/-- `getOrConnectSession` from the disconnected state, up to the suspension in `doConnect`. -/
def connect (caller : Caller) : Provider :=
  let number := p.next
  let old := p.client
  let p := ({ p with state := .connecting } : Provider).emplacePromise
  let p := ({ p with client := some number } : Provider).destroyClient old
  { p with connecting := p.connecting ++ [⟨number, caller, .setup⟩], next := number + 1 }

def getOrConnectSession (caller : Caller) : Except Fault Provider :=
  if p.state = .connected ∧ p.session.isSome then .ok (p.answer caller p.session)
  else if p.state = .connecting then
    match p.connectPromise with
    | none => .error .check
    | some q => .ok { p with waiting := p.waiting ++ [(q, caller)] }
  else .ok (p.connect caller)

/-- The end of a connect that succeeded. -/
def finishConnect (attempt : Attempt) : Except Fault Provider := do
  let p ← ({ p with state := .connected, latest := some attempt.number } : Provider).fulfil true
  .ok (p.answer attempt.caller p.session)

/-- The end of a connect that failed. -/
def failConnect (attempt : Attempt) : Except Fault Provider := do
  let old := p.client
  let p := ({ p with state := .disconnected, client := none } : Provider).destroyClient old
  let p ← p.fulfil false
  .ok (({ p with connectPromise := none } : Provider).answer attempt.caller none)

/-- `setupMoQSession` has succeeded. -/
def setupSucceeded (attempt : Attempt) : Except Fault Provider :=
  let p := { p with
    established := p.established ++ [attempt.number]
    live := p.live ++ [attempt.number] }
  match p.client with
  | none => .error .nullClient
  | some c =>
    -- session_ = client_->moqSession_
    if c ∉ p.established then .error .check
    else
      let p := { p with session := some c, registered := p.registered ++ [c] }
      if p.onConnect then
        .ok { p with connecting := p.connecting ++ [{ attempt with stage := .onConnect }] }
      else p.finishConnect attempt

def waitForConnected : Provider :=
  if p.state = .connected ∧ p.session.isSome then p
  else p.connectPromise.elim p fun q => { p with waiting := p.waiting ++ [(q, .gate)] }

/-- The promise that a coroutine waits for is fulfilled, or broken. -/
def resume (q : Nat) (caller : Caller) : Except Fault Provider :=
  if q ∈ p.discarded then .ok (p.answer caller none)
  else
    match p.fulfilled.find? fun x => x.1 = q with
    | none => .error .disabled
    | some (_, ok) => .ok (p.answer caller (if ok then p.session else none))

end Provider

/-- A request, a loop that runs, the result of a suspended step, a session that closes or a GOAWAY.
-/
inductive Event where
  | start
  | request
  | loop
  | waitForConnected
  | setupDone (i : Nat) (ok : Bool)
  | onConnectDone (i : Nat) (ok : Bool)
  | resume (i : Nat)
  | timeout (i : Nat)
  | closed (s : Nat)
  | goaway (newSessionUri : String)
deriving DecidableEq, Repr

def Provider.step (p : Provider) : Event → Except Fault Provider
  | .start => .ok { p with loops := p.loops + 1 }
  | .request => p.getOrConnectSession .request
  | .loop =>
    if p.loops = 0 then .error .disabled
    else Provider.getOrConnectSession { p with loops := p.loops - 1 } .loop
  | .waitForConnected => .ok p.waitForConnected
  | .setupDone i ok =>
    match p.connecting[i]? with
    | none => .error .disabled
    | some attempt =>
      if attempt.stage ≠ .setup then .error .disabled
      else
        let p := { p with connecting := p.connecting.eraseIdx i }
        if ok then p.setupSucceeded attempt else p.failConnect attempt
  | .onConnectDone i ok =>
    match p.connecting[i]? with
    | none => .error .disabled
    | some attempt =>
      if attempt.stage ≠ .onConnect then .error .disabled
      else
        let p := { p with connecting := p.connecting.eraseIdx i }
        if ok then p.finishConnect attempt else p.failConnect attempt
  | .resume i =>
    match p.waiting[i]? with
    | none => .error .disabled
    | some (q, caller) => Provider.resume { p with waiting := p.waiting.eraseIdx i } q caller
  | .timeout i =>
    match p.waiting[i]? with
    | some (_, .gate) => .ok { p with waiting := p.waiting.eraseIdx i }
    | _ => .error .disabled
  | .closed s => if s ∈ p.live then .ok (p.closeSession s) else .error .disabled
  | .goaway newSessionUri => .ok (p.goaway newSessionUri)

end Moqx.Upstream
