/-
  `src/clerk.rs` as it is written: connections, the loops of `connect` and `retry`, their deadline
  and pause, and which errors end them.

  A clerk is named by a handle and gets its client id when it registers. Its code runs in steps: it
  takes or opens a connection (`current`), sends, waits for the reply, looks at the clock, moves on
  to the next endpoint and sleeps. Which connections succeed, what comes back and when is the
  environment's choice; an error may come back at any time and with any code.

  * `Stands`: a world of clerks stands for a `System`, in which attempts are sent anywhere and given
    up at will; `Stands.step` is the simulation.
  * `clerks_linearizable`: so what users of clerks see is linearizable.
  * `Pacing`, `retry_is_paced`: the loop keeps the deadline set at its start, tries the endpoints in
    turn with a pause in between, makes at most `retryBudget / retryPause + 1` attempts and does not
    time out early.
-/
import Murmur.App.Linearizability

namespace Murmur.App.Client

open Murmur.Raft (Bytes NodeId Instant Duration ClusterConfig)
open Murmur.Basis

/-! ## The clerk -/

/-- How long an operation may go on retrying, in milliseconds. -/
def retryBudget : Duration := 10000

/-- Pause between two attempts. -/
def retryPause : Duration := 50

/-- `tonic::Code`. -/
inductive Code where
  | ok | cancelled | unknown | invalidArgument | deadlineExceeded | notFound | alreadyExists
  | permissionDenied | resourceExhausted | failedPrecondition | aborted | outOfRange
  | unimplemented | internal | unavailable | dataLoss | unauthenticated
deriving DecidableEq, Repr

/-- Worth retrying elsewhere. -/
def retryable : Code → Bool
  | .failedPrecondition | .unavailable => true
  | _ => false

/-- What a clerk is busy with: `connect`, or the `retry` of an operation. -/
inductive Job where
  | register
  | operation (op : Operation)
deriving DecidableEq, Repr

/-- Where its loop is. -/
inductive Stage where
  /-- In `current`. -/
  | connecting
  /-- A client is at hand. -/
  | calling
  /-- The RPC is under way; of an operation, its request. -/
  | awaiting (request : Option Nat)
  /-- The attempt has failed; the deadline is to be looked at. -/
  | checking
  /-- In `rotate`. -/
  | sleeping (till : Instant)
deriving DecidableEq, Repr

inductive Task where
  /-- `connect` has not been called. -/
  | unborn
  /-- `connect` has failed. -/
  | gone
  | idle
  | running (job : Job) (stage : Stage)
deriving DecidableEq, Repr

structure Clerk where
  /-- Which endpoints have a cached client. -/
  clients : List Bool := []
  /-- The endpoint tried first. -/
  leader : Nat := 0
  clientId : UInt64 := 0
  seq : UInt64 := 0
  deadline : Instant := 0
  /-- The clock as last read. -/
  now : Instant := 0
  task : Task := .unborn
  /-- History: when the last loop began. -/
  started : Instant := 0
  /-- History: the endpoints of the attempts of the last loop. -/
  tried : List Nat := []
deriving DecidableEq, Repr

namespace Clerk

/-- A loop begins: its deadline is set. -/
def begin (self : Clerk) (job : Job) (now : Instant) : Clerk :=
  { self with
    deadline := now + retryBudget
    now
    task := .running job .connecting
    started := now
    tried := [] }

/-- `current`: a cached client, or a new one if the endpoint is reachable. -/
def current (self : Clerk) (job : Job) (reachable : Bool) (now : Instant) : Clerk :=
  let tried := self.tried ++ [self.leader]
  if self.clients[self.leader]? = some true then
    { self with now, tried, task := .running job .calling }
  else if reachable then
    { self with
      now, tried, clients := self.clients.set self.leader true, task := .running job .calling }
  else
    { self with now, tried, task := .running job .checking }

/-- `rotate`: on to the next endpoint, after a pause. -/
def rotate (self : Clerk) (job : Job) (endpoints : Nat) (now : Instant) : Clerk :=
  { self with
    now
    leader := (self.leader + 1) % endpoints
    task := .running job (.sleeping (now + retryPause)) }

end Clerk

/-! ## The world -/

/-- A loop that ran into its deadline. -/
structure Expiry where
  clerk : Nat
  started : Instant
  ended : Instant
  tried : List Nat
deriving DecidableEq, Repr

/-- A cluster with its clerks. -/
structure World (σ : Type) where
  kv : KvCluster σ
  clerks : Nat → Clerk := fun _ => {}
  requests : List ClerkRequest := []
  history : List (Event OpId Operation Response) := []
  /-- History: the client ids given out. -/
  given : List UInt64 := []
  /-- History: the loops that timed out. -/
  expired : List Expiry := []

inductive Act where
  | server (act : KvAction)
  /-- A request reaches its node. -/
  | arrive (j : Nat)
  /-- `Clerk::connect` is called. -/
  | connect (h : Nat) (now : Instant)
  /-- `get`, `put`, `append` or `delete` is called. -/
  | invoke (h : Nat) (op : Operation) (now : Instant)
  | current (h : Nat) (reachable : Bool) (now : Instant)
  | send (h : Nat)
  /-- `register` answers with an id drawn from `1..=u64::MAX`. -/
  | registered (h : Nat) (id : UInt64) (now : Instant)
  /-- The handler's answer arrives. -/
  | replied (h : Nat) (now : Instant)
  /-- An error arrives instead, from the node or from the transport. -/
  | error (h : Nat) (code : Code) (now : Instant)
  | check (h : Nat) (now : Instant)
  | wake (h : Nat) (now : Instant)
deriving DecidableEq, Repr

namespace World

variable {σ : Type}

def init (cfg : ClusterConfig) (store : NodeId → σ) : World σ := { kv := .init cfg store }

def setClerk (w : World σ) (h : Nat) (clerk : Clerk) : World σ :=
  { w with clerks := Function.update w.clerks h clerk }

/-- The loop of clerk `h` ends without a result. -/
def stop (w : World σ) (h : Nat) (job : Job) (now : Instant) : World σ :=
  let clerk := w.clerks h
  match job with
  | .register => w.setClerk h { clerk with now, task := .gone }
  | .operation _ =>
    { w.setClerk h { clerk with now, task := .idle } with
      history := w.history ++ [.fail (clerk.clientId, clerk.seq)] }

/-- The attempt of clerk `h` comes back with an error. `connect` tries again whatever it is. -/
def fault (w : World σ) (h : Nat) (job : Job) (code : Code) (now : Instant) : World σ :=
  if job = .register ∨ retryable code then
    w.setClerk h { w.clerks h with now, task := .running job .checking }
  else
    w.stop h job now

/-- One action; `none` if it cannot happen. `endpoints h` are the addresses given to clerk `h`. -/
def step (cfg : ClusterConfig) (db : Db σ) (codec : Codec) (endpoints : Nat → List NodeId)
    (w : World σ) : Act → Option (World σ)
  | .server act => do
    guard act.serverSide
    let kv ← w.kv.step cfg db codec act
    return { w with kv }
  | .arrive j => do
    let request ← w.requests[j]?
    guard (request.call = none)
    let kv ← w.kv.step cfg db codec
      (.execute request.node (request.op.command request.id.1 request.id.2))
    return { w with
      kv, requests := w.requests.set j { request with call := some w.kv.calls.length } }
  | .connect h now => do
    let clerk := w.clerks h
    guard (clerk.task = .unborn ∧ clerk.now ≤ now)
    if endpoints h = [] then
      return w.setClerk h { clerk with now, task := .gone }
    else
      return w.setClerk h
        ({ clerk with clients := (endpoints h).map fun _ => false }.begin .register now)
  | .invoke h op now => do
    let clerk := w.clerks h
    -- A `u64` counted up once an operation does not overflow.
    guard (clerk.task = .idle ∧ clerk.now ≤ now ∧ clerk.seq.toNat + 1 < 2 ^ 64)
    let clerk := { clerk with seq := clerk.seq + 1 }
    return { w.setClerk h (clerk.begin (.operation op) now) with
      history := w.history ++ [.invoke (clerk.clientId, clerk.seq) op] }
  | .current h reachable now => do
    let clerk := w.clerks h
    let .running job .connecting := clerk.task | none
    guard (clerk.now ≤ now)
    return w.setClerk h (clerk.current job reachable now)
  | .send h => do
    let clerk := w.clerks h
    let .running job .calling := clerk.task | none
    match job with
    | .register => return w.setClerk h { clerk with task := .running job (.awaiting none) }
    | .operation op =>
      let node ← (endpoints h)[clerk.leader]?
      let w' := w.setClerk h
        { clerk with task := .running job (.awaiting (some w.requests.length)) }
      return { w' with
        requests := w.requests ++ [{ node, id := (clerk.clientId, clerk.seq), op }] }
  | .registered h id now => do
    let clerk := w.clerks h
    let .running .register (.awaiting _) := clerk.task | none
    guard (clerk.now ≤ now ∧ id ≠ 0)
    return { w.setClerk h { clerk with now, clientId := id, task := .idle } with
      given := w.given ++ [id] }
  | .replied h now => do
    let clerk := w.clerks h
    let .running (.operation op) (.awaiting (some j)) := clerk.task | none
    guard (clerk.now ≤ now)
    let request ← w.requests[j]?
    let call ← w.kv.calls[← request.call]?
    let .returned outcome := call.phase | none
    match op.answer outcome with
    | .ok response =>
      return { w.setClerk h { clerk with now, task := .idle } with
        history := w.history ++ [.respond (clerk.clientId, clerk.seq) response] }
    | .error _ => return w.fault h (.operation op) .internal now
  | .error h code now => do
    let clerk := w.clerks h
    let .running job (.awaiting _) := clerk.task | none
    guard (clerk.now ≤ now)
    return w.fault h job code now
  | .check h now => do
    let clerk := w.clerks h
    let .running job .checking := clerk.task | none
    guard (clerk.now ≤ now)
    if now < clerk.deadline then
      return w.setClerk h (clerk.rotate job (endpoints h).length now)
    else
      let expiry : Expiry :=
        { clerk := h, started := clerk.started, ended := now, tried := clerk.tried }
      return { w.stop h job now with expired := w.expired ++ [expiry] }
  | .wake h now => do
    let clerk := w.clerks h
    let .running job (.sleeping till) := clerk.task | none
    guard (clerk.now ≤ now ∧ till ≤ now)
    return w.setClerk h { clerk with now, task := .running job .connecting }

/-- What an action does, with one constructor for each way it can end. -/
inductive Step (cfg : ClusterConfig) (db : Db σ) (codec : Codec) (endpoints : Nat → List NodeId)
    (w : World σ) : Act → World σ → Prop
  | server {act : KvAction} {kv : KvCluster σ} (hserver : act.serverSide = true)
      (hkv : w.kv.step cfg db codec act = some kv) :
      Step cfg db codec endpoints w (.server act) { w with kv }
  | arrive {j : Nat} {request : ClerkRequest} {kv : KvCluster σ}
      (hj : w.requests[j]? = some request)
      (hcall : request.call = none)
      (hkv : w.kv.step cfg db codec
        (.execute request.node (request.op.command request.id.1 request.id.2)) = some kv) :
      Step cfg db codec endpoints w (.arrive j)
        { w with kv, requests := w.requests.set j { request with call := some w.kv.calls.length } }
  | refuse {h : Nat} {now : Instant} (htask : (w.clerks h).task = .unborn)
      (hnow : (w.clerks h).now ≤ now) (hnone : endpoints h = []) :
      Step cfg db codec endpoints w (.connect h now)
        (w.setClerk h { w.clerks h with now, task := .gone })
  | connect {h : Nat} {now : Instant} (htask : (w.clerks h).task = .unborn)
      (hnow : (w.clerks h).now ≤ now) (hsome : endpoints h ≠ []) :
      Step cfg db codec endpoints w (.connect h now) (w.setClerk h
        ({ w.clerks h with clients := (endpoints h).map fun _ => false }.begin .register now))
  | invoke {h : Nat} {op : Operation} {now : Instant} (htask : (w.clerks h).task = .idle)
      (hnow : (w.clerks h).now ≤ now) (hseq : (w.clerks h).seq.toNat + 1 < 2 ^ 64) :
      Step cfg db codec endpoints w (.invoke h op now)
        { w.setClerk h
            ({ w.clerks h with seq := (w.clerks h).seq + 1 }.begin (.operation op) now) with
          history := w.history ++ [.invoke ((w.clerks h).clientId, (w.clerks h).seq + 1) op] }
  | current {h : Nat} {reachable : Bool} {now : Instant} {job : Job}
      (htask : (w.clerks h).task = .running job .connecting) (hnow : (w.clerks h).now ≤ now) :
      Step cfg db codec endpoints w (.current h reachable now)
        (w.setClerk h ((w.clerks h).current job reachable now))
  | sendRegister {h : Nat} (htask : (w.clerks h).task = .running .register .calling) :
      Step cfg db codec endpoints w (.send h)
        (w.setClerk h { w.clerks h with task := .running .register (.awaiting none) })
  | send {h : Nat} {op : Operation} {node : NodeId}
      (htask : (w.clerks h).task = .running (.operation op) .calling)
      (hnode : (endpoints h)[(w.clerks h).leader]? = some node) :
      Step cfg db codec endpoints w (.send h)
        { w.setClerk h { w.clerks h with
            task := .running (.operation op) (.awaiting (some w.requests.length)) } with
          requests := w.requests ++
            [{ node, id := ((w.clerks h).clientId, (w.clerks h).seq), op }] }
  | registered {h : Nat} {id : UInt64} {now : Instant} {request : Option Nat}
      (htask : (w.clerks h).task = .running .register (.awaiting request))
      (hnow : (w.clerks h).now ≤ now) (hid : id ≠ 0) :
      Step cfg db codec endpoints w (.registered h id now)
        { w.setClerk h { w.clerks h with now, clientId := id, task := .idle } with
          given := w.given ++ [id] }
  | respond {h j k : Nat} {now : Instant} {op : Operation} {request : ClerkRequest} {call : Call}
      {outcome : Outcome} {response : Response}
      (htask : (w.clerks h).task = .running (.operation op) (.awaiting (some j)))
      (hnow : (w.clerks h).now ≤ now) (hj : w.requests[j]? = some request)
      (hcall : request.call = some k) (hk : w.kv.calls[k]? = some call)
      (hphase : call.phase = .returned outcome) (hans : op.answer outcome = .ok response) :
      Step cfg db codec endpoints w (.replied h now)
        { w.setClerk h { w.clerks h with now, task := .idle } with
          history := w.history ++ [.respond ((w.clerks h).clientId, (w.clerks h).seq) response] }
  | retry {h : Nat} {code : Code} {now : Instant} {job : Job} {request : Option Nat}
      (htask : (w.clerks h).task = .running job (.awaiting request))
      (hnow : (w.clerks h).now ≤ now) (hcode : job = .register ∨ retryable code = true) :
      Step cfg db codec endpoints w (.error h code now)
        (w.setClerk h { w.clerks h with now, task := .running job .checking })
  | surface {h : Nat} {act : Act} {now : Instant} {op : Operation} {request : Option Nat}
      (htask : (w.clerks h).task = .running (.operation op) (.awaiting request))
      (hnow : (w.clerks h).now ≤ now) :
      Step cfg db codec endpoints w act (w.stop h (.operation op) now)
  | rotate {h : Nat} {now : Instant} {job : Job}
      (htask : (w.clerks h).task = .running job .checking) (hnow : (w.clerks h).now ≤ now)
      (htime : now < (w.clerks h).deadline) :
      Step cfg db codec endpoints w (.check h now)
        (w.setClerk h ((w.clerks h).rotate job (endpoints h).length now))
  | expire {h : Nat} {now : Instant} {job : Job}
      (htask : (w.clerks h).task = .running job .checking) (hnow : (w.clerks h).now ≤ now)
      (htime : (w.clerks h).deadline ≤ now) :
      Step cfg db codec endpoints w (.check h now)
        { w.stop h job now with
          expired := w.expired ++ [⟨h, (w.clerks h).started, now, (w.clerks h).tried⟩] }
  | wake {h : Nat} {now till : Instant} {job : Job}
      (htask : (w.clerks h).task = .running job (.sleeping till)) (hnow : (w.clerks h).now ≤ now)
      (htill : till ≤ now) :
      Step cfg db codec endpoints w (.wake h now)
        (w.setClerk h { w.clerks h with now, task := .running job .connecting })

theorem step_sound {cfg : ClusterConfig} {db : Db σ} {codec : Codec} {endpoints : Nat → List NodeId}
    {w w' : World σ} {act : Act} (hstep : w.step cfg db codec endpoints act = some w') :
    Step cfg db codec endpoints w act w' := by
  cases act with
  | server act =>
      obtain ⟨hserver, hstep⟩ := of_guard hstep
      obtain ⟨kv, hkv, heq⟩ := Option.bind_eq_some_iff.mp hstep
      cases heq
      exact .server hserver hkv
  | arrive j =>
      obtain ⟨request, hj, hstep⟩ := Option.bind_eq_some_iff.mp hstep
      obtain ⟨hcall, hstep⟩ := of_guard hstep
      obtain ⟨kv, hkv, heq⟩ := Option.bind_eq_some_iff.mp hstep
      cases heq
      exact .arrive hj hcall hkv
  | connect h now =>
      obtain ⟨⟨htask, hnow⟩, hstep⟩ := of_guard hstep
      split at hstep
      · next hnone =>
        cases hstep
        exact .refuse htask hnow hnone
      · next hsome =>
        cases hstep
        exact .connect htask hnow hsome
  | invoke h op now =>
      obtain ⟨⟨htask, hnow, hseq⟩, heq⟩ := of_guard hstep
      cases heq
      exact .invoke htask hnow hseq
  | current h reachable now =>
      unfold step at hstep
      dsimp only at hstep
      split at hstep
      · next job htask =>
        obtain ⟨hnow, heq⟩ := of_guard hstep
        cases heq
        exact .current htask hnow
      · cases hstep
  | send h =>
      unfold step at hstep
      dsimp only at hstep
      split at hstep
      · next job htask =>
        cases job with
        | register =>
            cases hstep
            exact .sendRegister htask
        | operation op =>
            obtain ⟨node, hnode, heq⟩ := Option.bind_eq_some_iff.mp hstep
            cases heq
            exact .send htask hnode
      · cases hstep
  | registered h id now =>
      unfold step at hstep
      dsimp only at hstep
      split at hstep
      · next request htask =>
        obtain ⟨⟨hnow, hid⟩, heq⟩ := of_guard hstep
        cases heq
        exact .registered htask hnow hid
      · cases hstep
  | replied h now =>
      unfold step at hstep
      dsimp only at hstep
      split at hstep
      · next op j htask =>
        obtain ⟨hnow, hstep⟩ := of_guard hstep
        obtain ⟨request, hj, hstep⟩ := Option.bind_eq_some_iff.mp hstep
        obtain ⟨k, hcall, hstep⟩ := Option.bind_eq_some_iff.mp hstep
        obtain ⟨call, hk, hstep⟩ := Option.bind_eq_some_iff.mp hstep
        split at hstep
        · next outcome hphase =>
          split at hstep
          · next response hans =>
            cases hstep
            exact .respond htask hnow hj hcall hk hphase hans
          · cases hstep
            exact .surface htask hnow
        · cases hstep
      · cases hstep
  | error h code now =>
      unfold step at hstep
      dsimp only at hstep
      split at hstep
      · next job request htask =>
        obtain ⟨hnow, heq⟩ := of_guard hstep
        cases heq
        unfold fault
        split
        · next hcode => exact .retry htask hnow hcode
        · next hend =>
          cases job with
          | register => exact absurd (Or.inl rfl) hend
          | operation op => exact .surface htask hnow
      · cases hstep
  | check h now =>
      unfold step at hstep
      dsimp only at hstep
      split at hstep
      · next job htask =>
        obtain ⟨hnow, hstep⟩ := of_guard hstep
        split at hstep
        · next htime =>
          cases hstep
          exact .rotate htask hnow htime
        · next htime =>
          cases hstep
          exact .expire htask hnow (Nat.not_lt.mp htime)
      · cases hstep
  | wake h now =>
      unfold step at hstep
      dsimp only at hstep
      split at hstep
      · next job till htask =>
        obtain ⟨⟨hnow, htill⟩, heq⟩ := of_guard hstep
        cases heq
        exact .wake htask hnow htill
      · cases hstep

end World

/-! ## Clerks are clients of the system -/

variable {σ : Type} {cfg : ClusterConfig} {db : Db σ} {codec : Codec}
  {contents : σ → Bytes → Option Bytes} {endpoints : Nat → List NodeId} {w w' : World σ}
  {s s' : System σ} {act : Act} {h : Nat}

/-- The attempt a clerk waits for. -/
def Stage.request : Stage → Option Nat
  | .awaiting request => request
  | _ => none

/-- The operation under way. -/
def Task.pending : Task → Option Pending
  | .running (.operation op) stage => some { op, request := stage.request }
  | .unborn | .gone | .idle | .running .register _ => none

/-- `connect` has returned a clerk. -/
def Task.known : Task → Bool
  | .idle | .running (.operation _) _ => true
  | .unborn | .gone | .running .register _ => false

/-- What the system keeps of a clerk. -/
def Clerk.view (clerk : Clerk) : App.Clerk := { seq := clerk.seq, pending := clerk.task.pending }

structure Stands (w : World σ) (s : System σ) : Prop where
  kv : s.kv = w.kv
  requests : s.requests = w.requests
  history : s.history = w.history
  clerks : ∀ h, (w.clerks h).task.known = true →
    (w.clerks h).clientId ≠ 0 ∧ s.clerks (w.clerks h).clientId = (w.clerks h).view
  fresh : ∀ h, (w.clerks h).task.known = false → (w.clerks h).clientId = 0 ∧ (w.clerks h).seq = 0
  given : ∀ h, (w.clerks h).clientId ≠ 0 → (w.clerks h).clientId ∈ w.given
  distinct : ∀ h h', (w.clerks h).clientId = (w.clerks h').clientId →
    (w.clerks h).clientId ≠ 0 → h = h'
  unused : ∀ id, id ∉ w.given → s.clerks id = {}

/-- No client id is given out twice, and the nonce counters do not run over. -/
def Fresh (w : World σ) : Act → Prop
  | .registered _ id _ => id ∉ w.given
  | .arrive j => ∀ r ∈ w.requests[j]?, (w.kv.services r.node).nonce < 2 ^ 48
  | _ => True

instance (w : World σ) (act : Act) : Decidable (Fresh w act) := by
  cases act with
  | registered h id now => exact inferInstanceAs (Decidable (id ∉ w.given))
  | arrive j =>
      exact inferInstanceAs
        (Decidable (∀ r ∈ w.requests[j]?, (w.kv.services r.node).nonce < 2 ^ 48))
  | _ => exact isTrue trivial

namespace Stands

/-- Clerk `h` moves on, and the system's client with it. -/
theorem move (hr : Stands w s) (clerk : Clerk)
    (hclerks : w'.clerks = Function.update w.clerks h clerk)
    (hid : clerk.clientId = (w.clerks h).clientId)
    (hknown : clerk.task.known = (w.clerks h).task.known)
    (hseq : clerk.task.known = false → clerk.seq = (w.clerks h).seq)
    (hview : clerk.task.known = true → s'.clerks clerk.clientId = clerk.view)
    (hother : ∀ id, (clerk.task.known = true → id ≠ clerk.clientId) → s'.clerks id = s.clerks id)
    (hkv : s'.kv = w'.kv) (hrequests : s'.requests = w'.requests)
    (hhistory : s'.history = w'.history) (hgiven : w'.given = w.given) : Stands w' s' := by
  have hself : w'.clerks h = clerk := by rw [hclerks, Function.update_self]
  have hrest : ∀ m, m ≠ h → w'.clerks m = w.clerks m := fun m hm => by
    rw [hclerks, Function.update_of_ne hm]
  have hids : ∀ m, (w'.clerks m).clientId = (w.clerks m).clientId := by
    intro m
    by_cases hm : m = h
    · rw [hm, hself, hid]
    · rw [hrest m hm]
  refine ⟨hkv, hrequests, hhistory, fun m hm => ?_, fun m hm => ?_, fun m hne => ?_,
    fun m m' heq hne => ?_, fun id hno => ?_⟩
  · by_cases hmh : m = h
    · subst hmh
      rw [hself] at hm ⊢
      exact ⟨hid ▸ (hr.clerks m (hknown ▸ hm)).1, hview hm⟩
    · rw [hrest m hmh] at hm ⊢
      obtain ⟨hpos, hv⟩ := hr.clerks m hm
      refine ⟨hpos, (hother _ fun _ heq => hmh ?_).trans hv⟩
      exact hr.distinct m h (heq.trans hid) hpos
  · by_cases hmh : m = h
    · subst hmh
      rw [hself] at hm ⊢
      rw [hid, hseq hm]
      exact hr.fresh m (hknown ▸ hm)
    · rw [hrest m hmh] at hm ⊢
      exact hr.fresh m hm
  · rw [hids] at hne ⊢
    rw [hgiven]
    exact hr.given m hne
  · rw [hids] at hne
    rw [hids, hids] at heq
    exact hr.distinct m m' heq hne
  · rw [hgiven] at hno
    rw [hother id ?_]
    · exact hr.unused id hno
    · intro hk heq
      rw [heq, hid] at hno
      exact hno (hr.given h (hr.clerks h (hknown ▸ hk)).1)

/-- The system sees nothing of it. -/
theorem stutter (hr : Stands w s) (clerk : Clerk) (hid : clerk.clientId = (w.clerks h).clientId)
    (hknown : clerk.task.known = (w.clerks h).task.known) (hview : clerk.view = (w.clerks h).view) :
    Stands (w.setClerk h clerk) s := by
  refine hr.move clerk rfl hid hknown (fun _ => congrArg App.Clerk.seq hview) (fun hk => ?_)
    (fun _ _ => rfl) hr.kv hr.requests hr.history rfl
  rw [hid, hview]
  exact (hr.clerks h (hknown ▸ hk)).2

/-- A loop goes on, and what it waits for is as before. -/
theorem proceed (hr : Stands w s) {job : Job} {stage stage' : Stage} (clerk : Clerk)
    (htask : (w.clerks h).task = .running job stage) (htask' : clerk.task = .running job stage')
    (hid : clerk.clientId = (w.clerks h).clientId) (hseq : clerk.seq = (w.clerks h).seq)
    (hsame : job = .register ∨ stage'.request = stage.request) : Stands (w.setClerk h clerk) s := by
  refine hr.stutter clerk hid ?_ ?_
  · rw [htask, htask']
    cases job <;> rfl
  · unfold Clerk.view
    rw [htask, htask', hseq]
    cases job with
    | register => rfl
    | operation op =>
        have hsame : stage'.request = stage.request := hsame.resolve_left nofun
        show ({ seq := _, pending := some ⟨op, stage'.request⟩ } : App.Clerk) = _
        rw [hsame]
        rfl

/-- What the system has for a clerk that runs an operation. -/
theorem pending (hr : Stands w s) {op : Operation} {stage : Stage}
    (htask : (w.clerks h).task = .running (.operation op) stage) :
    (w.clerks h).clientId ≠ 0 ∧ s.clerks (w.clerks h).clientId =
      { seq := (w.clerks h).seq, pending := some { op, request := stage.request } } := by
  have hknown : (w.clerks h).task.known = true := congrArg Task.known htask
  obtain ⟨hpos, hview⟩ := hr.clerks h hknown
  refine ⟨hpos, hview.trans ?_⟩
  unfold Clerk.view
  rw [htask]
  rfl

/-- `w` is followed by runs of the system in which no nonce counter runs over. -/
abbrev Follows (cfg : ClusterConfig) (db : Db σ) (codec : Codec) (s : System σ) (w : World σ) :
    Prop :=
  ∃ s', Within (System.step cfg db codec) ScarceNonce s s' ∧ Stands w s'

theorem server (hr : Stands w s) {act : KvAction} {kv : KvCluster σ}
    (hserver : act.serverSide = true)
    (hkv : w.kv.step cfg db codec act = some kv) : Follows cfg db codec s { w with kv } := by
  have hstep : s.step cfg db codec (.server act) = some { s with kv } := by
    simp [System.step, hserver, hr.kv, hkv]
  exact ⟨{ s with kv }, .step (.server act) .refl trivial hstep,
    rfl, hr.requests, hr.history, hr.clerks, hr.fresh, hr.given, hr.distinct, hr.unused⟩

theorem arrive (hr : Stands w s) {j : Nat} {request : ClerkRequest} {kv : KvCluster σ}
    (hfresh : Fresh w (.arrive j)) (hj : w.requests[j]? = some request)
    (hcall : request.call = none)
    (hkv : w.kv.step cfg db codec
      (.execute request.node (request.op.command request.id.1 request.id.2)) = some kv) :
    Follows cfg db codec s
      { w with
        kv
        requests := w.requests.set j { request with call := some w.kv.calls.length } } := by
  have hscarce : ScarceNonce s (.arrive j) := by
    intro r hmem
    rw [hr.requests] at hmem
    rw [hr.kv]
    exact hfresh r hmem
  have hstep : s.step cfg db codec (.arrive j) = some { s with
      kv
      requests := w.requests.set j { request with call := some w.kv.calls.length }
      issued := s.issued ++ [(request.id, s.stamped request)] } := by
    simp [System.step, hr.requests, hj, hcall, hr.kv, hkv]
  exact ⟨_, .step (.arrive j) .refl hscarce hstep,
    rfl, rfl, hr.history, hr.clerks, hr.fresh, hr.given, hr.distinct, hr.unused⟩

theorem invoke (hr : Stands w s) {op : Operation} {now : Instant}
    (htask : (w.clerks h).task = .idle) (hseq : (w.clerks h).seq.toNat + 1 < 2 ^ 64) :
    Follows cfg db codec s { w.setClerk h
        ({ w.clerks h with seq := (w.clerks h).seq + 1 }.begin (.operation op) now) with
      history := w.history ++ [.invoke ((w.clerks h).clientId, (w.clerks h).seq + 1) op] } := by
  have hknown : (w.clerks h).task.known = true := congrArg Task.known htask
  obtain ⟨hpos, hview⟩ := hr.clerks h hknown
  have hidle : (w.clerks h).view = { seq := (w.clerks h).seq, pending := none } := by
    unfold Clerk.view
    rw [htask]
    rfl
  rw [hidle] at hview
  have hstep : s.step cfg db codec (.invoke (w.clerks h).clientId op) =
      some { s.setClerk (w.clerks h).clientId
          { seq := (w.clerks h).seq + 1, pending := some { op } } with
        history := s.history ++ [.invoke ((w.clerks h).clientId, (w.clerks h).seq + 1) op] } := by
    have hseq : (w.clerks h).seq.toNat + 1 < 18446744073709551616 := hseq
    simp [System.step, hview, hpos, hseq, System.setClerk]
  refine ⟨_, .step (.invoke _ op) .refl trivial hstep,
    hr.move _ rfl rfl hknown.symm nofun (fun _ => ?_)
    (fun id hne => ?_) hr.kv hr.requests ?_ rfl⟩
  · exact Function.update_self ..
  · exact Function.update_of_ne (hne rfl) ..
  · show s.history ++ _ = w.history ++ _
    rw [hr.history]

theorem send (hr : Stands w s) {op : Operation} {node : NodeId}
    (htask : (w.clerks h).task = .running (.operation op) .calling) :
    Follows cfg db codec s
      { w.setClerk h { w.clerks h with
          task := .running (.operation op) (.awaiting (some w.requests.length)) } with
        requests :=
          w.requests ++ [{ node, id := ((w.clerks h).clientId, (w.clerks h).seq), op }] } := by
  obtain ⟨hpos, hview⟩ := hr.pending htask
  have hstep : s.step cfg db codec (.send (w.clerks h).clientId node) =
      some { s.setClerk (w.clerks h).clientId
          { seq := (w.clerks h).seq,
            pending := some { op, request := some w.requests.length } } with
        requests :=
          w.requests ++ [{ node, id := ((w.clerks h).clientId, (w.clerks h).seq), op }] } := by
    simp [System.step, hview, Stage.request, hr.requests, System.setClerk]
  refine ⟨_, .step (.send _ node) .refl trivial hstep, hr.move
    { w.clerks h with task := .running (.operation op) (.awaiting (some w.requests.length)) } rfl
    rfl
    ?_ nofun (fun _ => ?_) (fun id hne => ?_) hr.kv rfl hr.history rfl⟩
  · exact (congrArg Task.known htask).symm
  · exact Function.update_self ..
  · exact Function.update_of_ne (hne rfl) ..

/-- A new client of the system, under an id that nobody has. -/
theorem enrol (hr : Stands w s) (hunknown : (w.clerks h).task.known = false) (clerk : Clerk)
    (hclerks : w'.clerks = Function.update w.clerks h clerk)
    (hgiven : w'.given = w.given ++ [clerk.clientId]) (hfresh : clerk.clientId ∉ w.given)
    (hpos : clerk.clientId ≠ 0) (htask : clerk.task = .idle) (hseq : clerk.seq = (w.clerks h).seq)
    (hkv : s.kv = w'.kv) (hrequests : s.requests = w'.requests)
    (hhistory : s.history = w'.history) :
    Stands w' s := by
  obtain ⟨hzero, hseq₀⟩ := hr.fresh h hunknown
  have hself : w'.clerks h = clerk := by rw [hclerks, Function.update_self]
  have hrest : ∀ m, m ≠ h → w'.clerks m = w.clerks m := fun m hm => by
    rw [hclerks, Function.update_of_ne hm]
  have hnew : ∀ m, (w.clerks m).clientId ≠ clerk.clientId := by
    intro m heq
    rw [← heq] at hfresh hpos
    exact hfresh (hr.given m hpos)
  refine ⟨hkv, hrequests, hhistory, fun m hm => ?_, fun m hm => ?_, fun m hne => ?_,
    fun m m' heq hne => ?_, fun id hno => ?_⟩
  · by_cases hmh : m = h
    · rw [hmh, hself]
      refine ⟨hpos, (hr.unused _ hfresh).trans ?_⟩
      unfold Clerk.view
      rw [htask, hseq, hseq₀]
      rfl
    · rw [hrest m hmh] at hm ⊢
      exact hr.clerks m hm
  · by_cases hmh : m = h
    · rw [hmh, hself, htask] at hm
      cases hm
    · rw [hrest m hmh] at hm ⊢
      exact hr.fresh m hm
  · rw [hgiven]
    by_cases hmh : m = h
    · rw [hmh, hself]
      exact List.mem_append_right _ (List.mem_singleton.mpr rfl)
    · rw [hrest m hmh] at hne ⊢
      exact List.mem_append_left _ (hr.given m hne)
  · by_cases hmh : m = h
    · by_cases hmh' : m' = h
      · rw [hmh, hmh']
      · rw [hmh, hself, hrest m' hmh'] at heq
        exact absurd heq.symm (hnew m')
    · rw [hrest m hmh] at heq hne
      by_cases hmh' : m' = h
      · rw [hmh', hself] at heq
        exact absurd heq (hnew m)
      · rw [hrest m' hmh'] at heq
        exact hr.distinct m m' heq hne
  · rw [hgiven] at hno
    exact hr.unused id fun hold => hno (List.mem_append_left _ hold)

/-- The clerk has its answer. -/
theorem respond (hr : Stands w s) {j k : Nat} {now : Instant} {op : Operation}
    {request : ClerkRequest} {call : Call} {outcome : Outcome} {response : Response}
    (htask : (w.clerks h).task = .running (.operation op) (.awaiting (some j)))
    (hj : w.requests[j]? = some request) (hcall : request.call = some k)
    (hk : w.kv.calls[k]? = some call) (hphase : call.phase = .returned outcome)
    (hans : op.answer outcome = .ok response) :
    Follows cfg db codec s
      { w.setClerk h { w.clerks h with now, task := .idle } with
        history :=
          w.history ++ [.respond ((w.clerks h).clientId, (w.clerks h).seq) response] } := by
  obtain ⟨-, hview⟩ := hr.pending htask
  have hstep : s.step cfg db codec (.finish (w.clerks h).clientId) =
      some { s.setClerk (w.clerks h).clientId { seq := (w.clerks h).seq, pending := none } with
        answers := s.answers ++ [(((w.clerks h).clientId, (w.clerks h).seq), call.command)]
        history :=
          s.history ++ [.respond ((w.clerks h).clientId, (w.clerks h).seq) response] } := by
    simp [System.step, hview, Stage.request, hr.requests, hj, hcall, hr.kv, hk, hphase, hans,
      System.setClerk]
  refine ⟨_, .step (.finish _) .refl trivial hstep, hr.move
    { w.clerks h with now, task := .idle } rfl rfl ?_ nofun (fun _ => ?_) (fun id hne => ?_)
    hr.kv hr.requests ?_ rfl⟩
  · exact (congrArg Task.known htask).symm
  · exact Function.update_self ..
  · exact Function.update_of_ne (hne rfl) ..
  · show s.history ++ _ = w.history ++ _
    rw [hr.history]

/-- The clerk lets an attempt go. -/
theorem retry (hr : Stands w s) {now : Instant} {op : Operation} {request : Option Nat}
    (htask : (w.clerks h).task = .running (.operation op) (.awaiting request)) :
    Follows cfg db codec s
      (w.setClerk h { w.clerks h with now, task := .running (.operation op) .checking }) := by
  obtain ⟨-, hview⟩ := hr.pending htask
  have hstep : s.step cfg db codec (.abandon (w.clerks h).clientId) =
      some (s.setClerk (w.clerks h).clientId
        { seq := (w.clerks h).seq, pending := some { op, request := none } }) := by
    simp [System.step, hview]
  refine ⟨_, .step (.abandon _) .refl trivial hstep, hr.move
    { w.clerks h with now, task := .running (.operation op) .checking } rfl rfl ?_ nofun
    (fun _ => ?_) (fun id hne => ?_) hr.kv hr.requests hr.history rfl⟩
  · exact (congrArg Task.known htask).symm
  · exact Function.update_self ..
  · exact Function.update_of_ne (hne rfl) ..

/-- The clerk gives up between two attempts. -/
theorem stop (hr : Stands w s) {now : Instant} {job : Job}
    (htask : (w.clerks h).task = .running job .checking) :
    Follows cfg db codec s (w.stop h job now) := by
  cases job with
  | register =>
      refine ⟨s, .refl, hr.stutter _ rfl (congrArg Task.known htask).symm ?_⟩
      unfold Clerk.view
      rw [htask]
      rfl
  | operation op =>
      obtain ⟨-, hview⟩ := hr.pending htask
      have hstep : s.step cfg db codec (.giveUp (w.clerks h).clientId) =
          some { s.setClerk (w.clerks h).clientId { seq := (w.clerks h).seq, pending := none } with
            history := s.history ++ [.fail ((w.clerks h).clientId, (w.clerks h).seq)] } := by
        simp [System.step, hview, Stage.request, System.setClerk]
      refine ⟨_, .step (.giveUp _) .refl trivial hstep, hr.move
        { w.clerks h with now, task := .idle } rfl rfl ?_ nofun (fun _ => ?_) (fun id hne => ?_)
        hr.kv hr.requests ?_ rfl⟩
      · exact (congrArg Task.known htask).symm
      · exact Function.update_self ..
      · exact Function.update_of_ne (hne rfl) ..
      · show s.history ++ _ = w.history ++ _
        rw [hr.history]

/-- The clerk passes an error on: it lets the attempt go and gives up. -/
theorem surface (hr : Stands w s) {now : Instant} {op : Operation} {request : Option Nat}
    (htask : (w.clerks h).task = .running (.operation op) (.awaiting request)) :
    Follows cfg db codec s (w.stop h (.operation op) now) := by
  let clerk : Clerk := { w.clerks h with now, task := .running (.operation op) .checking }
  obtain ⟨s₁, hrun₁, hr₁⟩ : Follows cfg db codec s (w.setClerk h clerk) := hr.retry htask
  have hself : (w.setClerk h clerk).clerks h = clerk := Function.update_self ..
  obtain ⟨s₂, hrun₂, hr₂⟩ :
      Follows cfg db codec s₁ ((w.setClerk h clerk).stop h (.operation op) now) :=
    hr₁.stop (by rw [hself])
  refine ⟨s₂, hrun₁.trans hrun₂, ?_⟩
  have heq : (w.setClerk h clerk).stop h (.operation op) now = w.stop h (.operation op) now := by
    unfold World.stop
    dsimp only
    rw [hself]
    unfold World.setClerk
    dsimp only
    rw [Function.update_idem]
  rwa [heq] at hr₂

theorem current (hr : Stands w s) {now : Instant} {job : Job} {reachable : Bool}
    (htask : (w.clerks h).task = .running job .connecting) :
    Stands (w.setClerk h ((w.clerks h).current job reachable now)) s := by
  unfold Clerk.current
  dsimp only
  split
  · exact hr.proceed _ htask rfl rfl rfl (Or.inr rfl)
  · split
    · exact hr.proceed _ htask rfl rfl rfl (Or.inr rfl)
    · exact hr.proceed _ htask rfl rfl rfl (Or.inr rfl)

/-- **A world of clerks is a system with clients.** -/
theorem step (hr : Stands w s) (hfresh : Fresh w act)
    (hstep : w.step cfg db codec endpoints act = some w') : Follows cfg db codec s w' := by
  cases World.step_sound hstep with
  | server hserver hkv => exact hr.server hserver hkv
  | arrive hj hcall hkv => exact hr.arrive hfresh hj hcall hkv
  | refuse htask hnow hnone =>
      refine ⟨s, .refl, hr.stutter _ rfl (congrArg Task.known htask).symm ?_⟩
      unfold Clerk.view
      rw [htask]
      rfl
  | connect htask hnow hsome =>
      refine ⟨s, .refl, hr.stutter _ rfl (congrArg Task.known htask).symm ?_⟩
      unfold Clerk.view
      rw [htask]
      rfl
  | invoke htask hnow hseq => exact hr.invoke htask hseq
  | current htask hnow => exact ⟨s, .refl, hr.current htask⟩
  | sendRegister htask => exact ⟨s, .refl, hr.proceed _ htask rfl rfl rfl (Or.inl rfl)⟩
  | send htask hnode => exact hr.send htask
  | registered htask hnow hid =>
      exact ⟨s, .refl, hr.enrol (congrArg Task.known htask) _ rfl rfl hfresh hid rfl rfl hr.kv
        hr.requests hr.history⟩
  | respond htask hnow hj hcall hk hphase hans => exact hr.respond htask hj hcall hk hphase hans
  | @retry h code now job request htask hnow hcode =>
      cases job with
      | register => exact ⟨s, .refl, hr.proceed _ htask rfl rfl rfl (Or.inl rfl)⟩
      | operation op => exact hr.retry htask
  | surface htask hnow => exact hr.surface htask
  | rotate htask hnow htime => exact ⟨s, .refl, hr.proceed _ htask rfl rfl rfl (Or.inr rfl)⟩
  | expire htask hnow htime =>
      obtain ⟨s', hrun, hr'⟩ : Follows cfg db codec s _ := hr.stop htask
      exact ⟨s', hrun, hr'.kv, hr'.requests, hr'.history, hr'.clerks, hr'.fresh, hr'.given,
        hr'.distinct, hr'.unused⟩
  | wake htask hnow htill => exact ⟨s, .refl, hr.proceed _ htask rfl rfl rfl (Or.inr rfl)⟩

theorem init (store : NodeId → σ) : Stands (.init cfg store) (.init cfg store) where
  kv := rfl
  requests := rfl
  history := rfl
  clerks := nofun
  fresh _ _ := ⟨rfl, rfl⟩
  given _ hne := absurd rfl hne
  distinct _ _ _ hne := absurd rfl hne
  unused _ _ := rfl

/-- Every run of clerks is a run of the system. -/
theorem run {store : NodeId → σ}
    (hrun : Within (World.step cfg db codec endpoints) Fresh (.init cfg store) w) :
    ∃ s, Within (System.step cfg db codec) ScarceNonce (.init cfg store) s ∧ Stands w s :=
  hrun.simulate (fun _ => .refl) (fun _ _ _ hs hs' => hs.trans hs')
    (fun _ _ _ _ hr hfresh hstep => hr.step hfresh hstep) (init store)

end Stands

/-- **Clerks see a linearizable store.** With node ids below 2^16, client ids that do not collide
    and fewer than 2^48 requests a process, the history of all operations of all clerks is that of
    one map, whatever is lost, retried, answered late or given up, as long as no process
    restarts. -/
theorem clerks_linearizable {store : NodeId → σ} (hcodec : codec.Lossless)
    (hdb : Faithful db contents) (hids : ∀ n ∈ cfg.members, n < 2 ^ 16)
    (hempty : ∀ n, contents (store n) = fun _ => none)
    (hrun : Within (World.step cfg db codec endpoints) Fresh (.init cfg store) w) :
    Linearizable kvObject w.history := by
  obtain ⟨s, hs, hr⟩ := Stands.run hrun
  obtain ⟨a, hinv⟩ : ∃ a, SystemInv cfg codec contents s a :=
    (fresh_of_scarce hids hs).invariant (I := fun s => ∃ a, SystemInv cfg codec contents s a)
      (fun _ _ _ ⟨_, h⟩ hfresh hstep => h.step hcodec hdb hfresh hstep)
      ⟨_, SystemInv.init hempty⟩
  rw [← hr.history]
  exact hinv.linearizable_history hcodec

/-- A clerk with a dead endpoint and a live one registers and appends; its first attempt is lost on
    the way back, and both attempts are committed. -/
def persistentRun : List Act :=
  [.server (.raft (.tick 1 1000 0)), .server (.raft (.tick 1 1000 0)), .connect 0 0,
    .current 0 false 0, .check 0 0, .wake 0 50, .current 0 true 50, .send 0, .registered 0 5 60,
    .invoke 0 (.append [7] [1]) 100, .current 0 true 100, .send 0, .arrive 0, .server (.register 0),
    .server (.propose 0), .error 0 .unavailable 200, .check 0 200, .wake 0 250,
      .current 0 false 250,
    .check 0 250, .wake 0 300, .current 0 true 300, .send 0, .arrive 1, .server (.register 1),
    .server (.propose 1), .server (.drain 1), .server (.apply 1 []), .server (.check 1),
    .server (.apply 1 []), .server (.respond 1), .replied 0 400]

theorem persistentRun_isSome :
    (Basis.run (fun w act => if Fresh w act then
      World.step Raft.solo mapDb Protobuf.codec (fun _ => [2, 1]) w act else none)
      (.init Raft.solo fun _ _ => none) persistentRun).isSome = true := by
  decide +kernel

/-- The end of that run. -/
def persistent : World (Bytes → Option Bytes) :=
  (Basis.run (fun w act => if Fresh w act then
    World.step Raft.solo mapDb Protobuf.codec (fun _ => [2, 1]) w act else none)
    (.init Raft.solo fun _ _ => none) persistentRun).get persistentRun_isSome

theorem persistent_within : Within (World.step Raft.solo mapDb Protobuf.codec fun _ => [2, 1]) Fresh
    (.init Raft.solo fun _ _ => none) persistent :=
  Within.of_run (Option.eq_some_of_isSome persistentRun_isSome)

theorem clerks_linearizable_persistent :
    .respond (5, 1) (.appended [1]) ∈ persistent.history ∧
      Linearizable kvObject persistent.history :=
  ⟨by decide +kernel,
    clerks_linearizable Protobuf.codec_lossless mapDb_faithful (by decide) (fun _ => rfl)
      persistent_within⟩

/-! ## The pace of the loop -/

/-- The endpoints in turn, from `first` on. -/
def inTurn (n first k : Nat) : List Nat := (List.range k).map fun i => (first + i) % n

theorem length_inTurn (n first k : Nat) : (inTurn n first k).length = k := by
  unfold inTurn
  rw [List.length_map, List.length_range]

theorem inTurn_succ (n first k : Nat) :
    inTurn n first (k + 1) = inTurn n first k ++ [(first + k) % n] := by
  unfold inTurn
  rw [List.range_succ, List.map_append]
  rfl

/-- As many attempts as there are endpoints reach every endpoint. -/
theorem mem_inTurn {n first k e : Nat} (he : e < n) (hk : n ≤ k) : e ∈ inTurn n first k := by
  have hlt := Nat.mod_lt first (Nat.zero_lt_of_lt he)
  refine List.mem_map.mpr ⟨(e + (n - first % n)) % n, List.mem_range.mpr ?_, ?_⟩
  · exact (Nat.mod_lt _ (Nat.zero_lt_of_lt he)).trans_le hk
  · have hsum : first + (e + (n - first % n)) = e + n * (first / n + 1) := by
      have hsplit := Nat.div_add_mod first n
      rw [Nat.mul_add]
      omega
    rw [Nat.add_mod_mod, hsum, Nat.add_mul_mod_self_left, Nat.mod_eq_of_lt he]

/-- Most attempts a loop makes. -/
def maxAttempts : Nat := retryBudget / retryPause + 1

/-- Attempts of one loop over `n` endpoints. -/
structure TriedInTurn (n : Nat) (tried : List Nat) : Prop where
  few : tried.length ≤ maxAttempts
  order : ∃ first, tried = inTurn n first tried.length
  all : n ≤ tried.length → ∀ e < n, e ∈ tried

theorem TriedInTurn.of_order {n k : Nat} (first : Nat) (hk : k ≤ maxAttempts) :
    TriedInTurn n (inTurn n first k) where
  few := by rwa [length_inTurn]
  order := ⟨first, by rw [length_inTurn]⟩
  all hn e he := mem_inTurn he (by rwa [length_inTurn] at hn)

/-- An attempt has been begun and the loop has not moved on. -/
def Stage.underWay : Stage → Bool
  | .calling | .awaiting _ | .checking => true
  | .connecting | .sleeping _ => false

/-- The time at which the loop goes on, at the earliest. -/
def Stage.time (now : Instant) : Stage → Instant
  | .sleeping till => till
  | .connecting | .calling | .awaiting _ | .checking => now

/-- A loop that began with endpoint `first` has moved on `k` times. -/
structure Pacing (n : Nat) (clerk : Clerk) (stage : Stage) (first k : Nat) : Prop where
  deadline : clerk.deadline = clerk.started + retryBudget
  few : k < maxAttempts
  leader : clerk.leader = (first + k) % n
  tried : clerk.tried = inTurn n first (k + stage.underWay.toNat)
  late : clerk.started + retryPause * k ≤ stage.time clerk.now

/-- What holds of a clerk with `n` endpoints. -/
structure Paced (n : Nat) (clerk : Clerk) : Prop where
  unborn : clerk.task = .unborn → clerk.leader = 0
  leader : clerk.task.known = true → clerk.leader < n
  running : ∀ job stage, clerk.task = .running job stage →
    clerk.leader < n ∧ ∃ first k, Pacing n clerk stage first k
  tried : TriedInTurn n clerk.tried

theorem Pacing.inTurn {n : Nat} {clerk : Clerk} {stage : Stage} {first k : Nat}
    (h : Pacing n clerk stage first k) : TriedInTurn n clerk.tried := by
  rw [h.tried]
  have := stage.underWay.toNat_le
  have := h.few
  exact TriedInTurn.of_order first (by omega)

/-- Attempts are a pause apart. -/
theorem Pacing.spaced {n : Nat} {clerk : Clerk} {stage : Stage} {first k : Nat}
    (h : Pacing n clerk stage first k) :
    clerk.started + retryPause * (clerk.tried.length - 1) ≤ stage.time clerk.now := by
  have hlen : clerk.tried.length - 1 ≤ k := by
    rw [h.tried, length_inTurn]
    have := stage.underWay.toNat_le
    omega
  exact (Nat.add_le_add_left (Nat.mul_le_mul_left _ hlen) _).trans h.late

namespace Paced

variable {n : Nat} {clerk clerk' : Clerk} {now : Instant} {job : Job} {stage : Stage}

/-- A loop goes on. -/
theorem of_pacing (first k : Nat) (htask : clerk.task = .running job stage) (hn : 0 < n)
    (hp : Pacing n clerk stage first k) : Paced n clerk := by
  have hleader : clerk.leader < n := hp.leader ▸ Nat.mod_lt _ hn
  refine ⟨fun hno => ?_, fun _ => hleader, fun job' stage' htask' => ⟨hleader, ?_⟩, hp.inTurn⟩
  · rw [htask] at hno
    cases hno
  · rw [htask] at htask'
    cases htask'
    exact ⟨first, k, hp⟩

/-- No loop is running: `connect` has failed, or a result is there. -/
theorem rest (hp : Paced n clerk) (htask : clerk'.task = .idle ∧ clerk.leader < n ∨
      clerk'.task = .gone) (hleader : clerk'.leader = clerk.leader)
    (htried : clerk'.tried = clerk.tried) : Paced n clerk' := by
  refine ⟨fun hno => ?_, fun hknown => ?_, fun job stage hno => ?_, htried ▸ hp.tried⟩
  · rcases htask with ⟨htask, -⟩ | htask <;> rw [htask] at hno <;> cases hno
  · rcases htask with ⟨-, hlt⟩ | htask
    · rwa [hleader]
    · rw [htask] at hknown
      cases hknown
  · rcases htask with ⟨htask, -⟩ | htask <;> rw [htask] at hno <;> cases hno

theorem begin (hlt : clerk.leader < n) : Paced n (clerk.begin job now) := by
  refine of_pacing clerk.leader 0 rfl (Nat.zero_lt_of_lt hlt)
    ⟨rfl, by decide, ?_, rfl, Nat.le_refl _⟩
  exact (Nat.mod_eq_of_lt hlt).symm

theorem current (hp : Paced n clerk) (htask : clerk.task = .running job .connecting)
    (hnow : clerk.now ≤ now) (reachable : Bool) : Paced n (clerk.current job reachable now) := by
  obtain ⟨hlt, first, k, hpace⟩ := hp.running _ _ htask
  have htried : clerk.tried ++ [clerk.leader] = inTurn n first (k + 1) := by
    rw [inTurn_succ, ← hpace.leader, hpace.tried]
    rfl
  have hlate : clerk.started + retryPause * k ≤ now := hpace.late.trans hnow
  have hn := Nat.zero_lt_of_lt hlt
  unfold Clerk.current
  dsimp only
  split
  · exact of_pacing first k rfl hn
      ⟨hpace.deadline, hpace.few, hpace.leader, htried, hlate⟩
  · split
    · exact of_pacing first k rfl hn
        ⟨hpace.deadline, hpace.few, hpace.leader, htried, hlate⟩
    · exact of_pacing first k rfl hn
        ⟨hpace.deadline, hpace.few, hpace.leader, htried, hlate⟩

/-- Within an attempt. -/
theorem attempt (hp : Paced n clerk) (htask : clerk.task = .running job stage) {stage' : Stage}
    (hstage : stage.underWay = true) (hstage' : stage'.underWay = true)
    (hnow : stage.time clerk.now ≤ stage'.time now) :
    Paced n { clerk with now, task := .running job stage' } := by
  obtain ⟨hlt, first, k, hpace⟩ := hp.running _ _ htask
  refine of_pacing first k rfl (Nat.zero_lt_of_lt hlt)
    ⟨hpace.deadline, hpace.few, hpace.leader, ?_, hpace.late.trans hnow⟩
  rw [hstage', ← hstage]
  exact hpace.tried

/-- Before the deadline there is time for one more attempt. -/
theorem rotate (hp : Paced n clerk) (htask : clerk.task = .running job .checking)
    (hnow : clerk.now ≤ now) (htime : now < clerk.deadline) : Paced n (clerk.rotate job n now) := by
  obtain ⟨hlt, first, k, hpace⟩ := hp.running _ _ htask
  have hlate : clerk.started + retryPause * k ≤ now := hpace.late.trans hnow
  rw [hpace.deadline] at htime
  refine of_pacing first (k + 1) rfl (Nat.zero_lt_of_lt hlt)
    ⟨hpace.deadline, ?_, ?_, hpace.tried, ?_⟩
  · have hroom : 50 * k < 10000 := Nat.lt_of_add_lt_add_left (hlate.trans_lt htime)
    show k + 1 < 201
    omega
  · show (clerk.leader + 1) % n = (first + (k + 1)) % n
    rw [hpace.leader, Nat.mod_add_mod]
    rfl
  · show clerk.started + retryPause * (k + 1) ≤ now + retryPause
    rw [Nat.mul_succ, ← Nat.add_assoc]
    exact Nat.add_le_add_right hlate _

theorem wake (hp : Paced n clerk) {till : Instant}
    (htask : clerk.task = .running job (.sleeping till))
    (htill : till ≤ now) : Paced n { clerk with now, task := .running job .connecting } := by
  obtain ⟨hlt, first, k, hpace⟩ := hp.running _ _ htask
  exact of_pacing first k rfl (Nat.zero_lt_of_lt hlt)
    ⟨hpace.deadline, hpace.few, hpace.leader, hpace.tried, hpace.late.trans htill⟩

end Paced

/-- A loop that ran into its deadline had the whole budget, and made its attempts in turn, a pause
    apart. -/
structure Expiry.Due (n : Nat) (x : Expiry) : Prop where
  whole : x.started + retryBudget ≤ x.ended
  attempted : x.tried ≠ []
  spaced : x.started + retryPause * (x.tried.length - 1) ≤ x.ended
  tried : TriedInTurn n x.tried

/-- The clerks keep their pace, and no loop was ended by its deadline before its time. -/
structure Orderly (endpoints : Nat → List NodeId) (w : World σ) : Prop where
  clerks : ∀ h, Paced (endpoints h).length (w.clerks h)
  expired : ∀ x ∈ w.expired, x.Due (endpoints x.clerk).length

namespace Orderly

theorem set (ho : Orderly endpoints w) (clerk : Clerk)
    (hclerks : w'.clerks = Function.update w.clerks h clerk) (hexpired : w'.expired = w.expired)
    (hp : Paced (endpoints h).length clerk) : Orderly endpoints w' := by
  refine ⟨fun m => ?_, hexpired ▸ ho.expired⟩
  rw [hclerks]
  by_cases hm : m = h
  · subst hm
    rw [Function.update_self]
    exact hp
  · rw [Function.update_of_ne hm]
    exact ho.clerks m

theorem stop (ho : Orderly endpoints w) {job : Job} {stage : Stage} {now : Instant}
    (htask : (w.clerks h).task = .running job stage) : Orderly endpoints (w.stop h job now) := by
  have hlt := ((ho.clerks h).running _ _ htask).1
  cases job with
  | register =>
      exact ho.set { w.clerks h with now, task := .gone } rfl rfl
        ((ho.clerks h).rest (Or.inr rfl) rfl rfl)
  | operation op =>
      exact ho.set { w.clerks h with now, task := .idle } rfl rfl
        ((ho.clerks h).rest (Or.inl ⟨rfl, hlt⟩) rfl rfl)

theorem step (ho : Orderly endpoints w) (hstep : w.step cfg db codec endpoints act = some w') :
    Orderly endpoints w' := by
  cases World.step_sound hstep with
  | server | arrive => exact ⟨ho.clerks, ho.expired⟩
  | @refuse h => exact ho.set _ rfl rfl ((ho.clerks h).rest (Or.inr rfl) rfl rfl)
  | @connect h now htask hnow hsome =>
      refine ho.set _ rfl rfl (Paced.begin ?_)
      show (w.clerks h).leader < _
      rw [(ho.clerks h).unborn htask]
      exact List.length_pos_iff.mpr hsome
  | @invoke h op now htask hnow hseq =>
      exact ho.set _ rfl rfl (Paced.begin ((ho.clerks h).leader (congrArg Task.known htask)))
  | @current h reachable now job htask hnow =>
      exact ho.set _ rfl rfl ((ho.clerks h).current htask hnow reachable)
  | @sendRegister h htask =>
      exact ho.set _ rfl rfl ((ho.clerks h).attempt htask rfl rfl (Nat.le_refl _))
  | @send h op node htask hnode =>
      exact ho.set _ rfl rfl ((ho.clerks h).attempt htask rfl rfl (Nat.le_refl _))
  | @registered h id now request htask hnow hid =>
      have hlt := ((ho.clerks h).running _ _ htask).1
      exact ho.set _ rfl rfl ((ho.clerks h).rest (Or.inl ⟨rfl, hlt⟩) rfl rfl)
  | @respond h _ _ _ _ _ _ _ _ htask =>
      have hlt := ((ho.clerks h).running _ _ htask).1
      exact ho.set _ rfl rfl ((ho.clerks h).rest (Or.inl ⟨rfl, hlt⟩) rfl rfl)
  | @retry h code now job request htask hnow hcode =>
      exact ho.set _ rfl rfl ((ho.clerks h).attempt htask rfl rfl hnow)
  | surface htask hnow => exact ho.stop htask
  | @rotate h now job htask hnow htime =>
      exact ho.set _ rfl rfl ((ho.clerks h).rotate htask hnow htime)
  | @expire h now job htask hnow htime =>
      obtain ⟨hlt, first, k, hpace⟩ := (ho.clerks h).running _ _ htask
      have hstop : Orderly endpoints (w.stop h job now) := ho.stop htask
      refine ⟨hstop.clerks, fun x hx => ?_⟩
      rcases List.mem_append.mp hx with hold | hnew
      · exact ho.expired x hold
      · rw [List.mem_singleton.mp hnew]
        refine ⟨hpace.deadline ▸ htime, ?_, hpace.spaced.trans hnow, hpace.inTurn⟩
        show (w.clerks h).tried ≠ []
        rw [← List.length_pos_iff, hpace.tried, length_inTurn]
        exact Nat.succ_pos k
  | @wake h now till job htask hnow htill => exact ho.set _ rfl rfl ((ho.clerks h).wake htask htill)

theorem init (store : NodeId → σ) : Orderly endpoints (.init cfg store) := by
  exact ⟨fun h => ⟨fun _ => rfl, nofun, nofun, .of_order 0 (Nat.zero_le _)⟩, nofun⟩

end Orderly

/-- **The loop is paced.** A clerk tries its endpoints in turn, so each of them before any of them
    twice, and makes at most `maxAttempts` attempts. Its loop keeps the deadline set at its start,
    with a pause between two attempts; and a loop that ran into its deadline had the whole budget
    from its start on. -/
theorem retry_is_paced {store : NodeId → σ}
    (hrun : Reaches (World.step cfg db codec endpoints) (.init cfg store) w) :
    (∀ h, TriedInTurn (endpoints h).length (w.clerks h).tried) ∧
      (∀ h job stage, (w.clerks h).task = .running job stage →
        (w.clerks h).deadline = (w.clerks h).started + retryBudget ∧
          (w.clerks h).started + retryPause * ((w.clerks h).tried.length - 1) ≤
            stage.time (w.clerks h).now) ∧
      ∀ x ∈ w.expired, x.Due (endpoints x.clerk).length := by
  have ho : Orderly endpoints w :=
    hrun.invariant (fun _ _ _ ho hstep => Orderly.step ho hstep) (Orderly.init store)
  refine ⟨fun h => (ho.clerks h).tried, fun h job stage htask => ?_, ho.expired⟩
  obtain ⟨-, first, k, hpace⟩ := (ho.clerks h).running job stage htask
  exact ⟨hpace.deadline, hpace.spaced⟩

/-- A clerk with two dead endpoints; its second connection takes until the budget is used up. -/
def timedOutRun : List Act :=
  [.connect 0 100, .current 0 false 110, .check 0 110, .wake 0 160, .current 0 false 10100,
    .check 0 10100]

theorem timedOutRun_isSome :
    (Basis.run (World.step Raft.solo mapDb Protobuf.codec fun _ => [2, 3])
      (.init Raft.solo fun _ _ => none) timedOutRun).isSome = true := by
  decide +kernel

def timedOut : World (Bytes → Option Bytes) :=
  (Basis.run (World.step Raft.solo mapDb Protobuf.codec fun _ => [2, 3])
    (.init Raft.solo fun _ _ => none) timedOutRun).get timedOutRun_isSome

theorem retry_is_paced_timed_out :
    (timedOut.clerks 0).task = .gone ∧ ⟨0, 100, 10100, [0, 1]⟩ ∈ timedOut.expired ∧
      Expiry.Due 2 ⟨0, 100, 10100, [0, 1]⟩ := by
  have hmem : ⟨0, 100, 10100, [0, 1]⟩ ∈ timedOut.expired := by decide +kernel
  have hreach : Reaches (World.step Raft.solo mapDb Protobuf.codec fun _ => [2, 3])
      (.init Raft.solo fun _ _ => none) timedOut :=
    ⟨timedOutRun, Option.eq_some_of_isSome timedOutRun_isSome⟩
  exact ⟨by decide +kernel, hmem, (retry_is_paced hreach).2.2 _ hmem⟩

end Murmur.App.Client
