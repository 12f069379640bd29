/-
  `src/clerk.rs` with the request handlers of `src/app.rs`: clients that run one operation at a
  time, and the history they see.

  A clerk's operation is `invoke`; every attempt of `Clerk::retry` is a request that is sent to some
  node, arrives at any later time or never, and becomes a call of `execute` there. The clerk takes
  the answer of the attempt it waits for (`finish`), or gives the attempt up for whatever reason
  (`abandon`: an error, a lost connection) and tries again, or fails (`giveUp`). An abandoned
  request may still arrive and commit. Nodes may stop, which is to take no further step; no process
  is restarted.

  `history` is what the clients see. `issued` and `answers` are history too: the commands that
  reached a node, with their nonces, and those whose outcome was returned.
-/
import Murmur.App.Service
import Murmur.Basis.Linearizable

namespace Murmur.App

open Murmur.Raft (Bytes NodeId ClusterConfig)
open Murmur.Basis

inductive Operation where
  | get (key : Bytes)
  | put (key value : Bytes)
  | append (key value : Bytes)
  | delete (key : Bytes)
deriving DecidableEq, Repr

/-- What the methods of `Clerk` return. -/
inductive Response where
  | found (value : Option Bytes)
  | appended (value : Bytes)
  | done
deriving DecidableEq, Repr

/-- The command of a request: a read goes without client and seq. -/
def Operation.command (op : Operation) (clientId seq : UInt64) : Command :=
  match op with
  | .get key => .get key
  | .put key value => .put key value clientId seq
  | .append key value => .append key value clientId seq
  | .delete key => .delete key clientId seq

/-- The handlers of `Kv` on the outcome of `execute`, and the clerk on their response; `error` is an
    internal error, which is not retried. -/
def Operation.answer : Operation → Outcome → Except String Response
  | .get _, .value v => .ok (.found v)
  | .get _, .done => .ok (.found none)
  | .put .., .done | .put .., .value _ => .ok .done
  | .append .., .value (some v) => .ok (.appended v)
  | .append .., .value none | .append .., .done => .ok (.appended [])
  | .delete .., .done | .delete .., .value _ => .ok .done
  | _, .failed msg => .error msg

/-- An operation: the client and the seq of the operation. -/
abbrev OpId := UInt64 × UInt64

/-- The operation a clerk is running, and the attempt it waits for. -/
structure Pending where
  op : Operation
  request : Option Nat := none
deriving DecidableEq, Repr

structure Clerk where
  seq : UInt64 := 0
  pending : Option Pending := none
deriving DecidableEq, Repr

/-- An attempt: where it is sent, for which operation, and the call it became. -/
structure ClerkRequest where
  node : NodeId
  id : OpId
  op : Operation
  call : Option Nat := none
deriving DecidableEq, Repr

/-- A cluster with its clients. Clients are named by their ids. -/
structure System (σ : Type) where
  kv : KvCluster σ
  clerks : UInt64 → Clerk := fun _ => {}
  requests : List ClerkRequest := []
  issued : List (OpId × Command) := []
  answers : List (OpId × Command) := []
  history : List (Event OpId Operation Response) := []

/-- What can happen next. Requests are named by their position. -/
inductive SystemAction where
  | server (act : KvAction)
  | invoke (client : UInt64) (op : Operation)
  | send (client : UInt64) (node : NodeId)
  | arrive (j : Nat)
  | abandon (client : UInt64)
  | finish (client : UInt64)
  | giveUp (client : UInt64)
deriving DecidableEq, Repr

/-- The actions of running nodes, apart from taking a new request. -/
def KvAction.serverSide : KvAction → Bool
  | .execute .. | .restart .. => false
  | _ => true

namespace System

variable {σ : Type}

def init (cfg : ClusterConfig) (store : NodeId → σ) : System σ := { kv := .init cfg store }

def setClerk (s : System σ) (client : UInt64) (clerk : Clerk) : System σ :=
  { s with clerks := Function.update s.clerks client clerk }

/-- The command of a request as the node that takes it stamps it. -/
def stamped (s : System σ) (request : ClerkRequest) : Command :=
  { request.op.command request.id.1 request.id.2 with
    nonce := nextNonce request.node (s.kv.services request.node).nonce }

/-- One action; `none` if it cannot happen. -/
def step (cfg : ClusterConfig) (db : Db σ) (codec : Codec) (s : System σ) :
    SystemAction → Option (System σ)
  | .server act => do
    guard act.serverSide
    let kv ← s.kv.step cfg db codec act
    return { s with kv }
  | .invoke client op => do
    let clerk := s.clerks client
    -- A `u64` counted up once an operation does not overflow.
    guard (client ≠ 0 ∧ clerk.pending = none ∧ clerk.seq.toNat + 1 < 2 ^ 64)
    let s := s.setClerk client { seq := clerk.seq + 1, pending := some { op } }
    return { s with history := s.history ++ [.invoke (client, clerk.seq + 1) op] }
  | .send client node => do
    let clerk := s.clerks client
    let pending ← clerk.pending
    guard (pending.request = none)
    let s' := s.setClerk client
      { clerk with pending := some { pending with request := some s.requests.length } }
    return { s' with
      requests := s.requests ++ [{ node, id := (client, clerk.seq), op := pending.op }] }
  | .arrive j => do
    let request ← s.requests[j]?
    guard (request.call = none)
    let kv ← s.kv.step cfg db codec
      (.execute request.node (request.op.command request.id.1 request.id.2))
    return { s with
      kv
      requests := s.requests.set j { request with call := some s.kv.calls.length }
      issued := s.issued ++ [(request.id, s.stamped request)] }
  | .abandon client => do
    let clerk := s.clerks client
    let pending ← clerk.pending
    return s.setClerk client { clerk with pending := some { pending with request := none } }
  | .finish client => do
    let clerk := s.clerks client
    let pending ← clerk.pending
    let request ← s.requests[← pending.request]?
    let call ← s.kv.calls[← request.call]?
    let .returned outcome := call.phase | none
    let id := (client, clerk.seq)
    let s := s.setClerk client { clerk with pending := none }
    match pending.op.answer outcome with
    | .ok response =>
      return { s with
        answers := s.answers ++ [(id, call.command)]
        history := s.history ++ [.respond id response] }
    | .error _ => return { s with history := s.history ++ [.fail id] }
  | .giveUp client => do
    let clerk := s.clerks client
    let pending ← clerk.pending
    guard (pending.request = none)
    let s := s.setClerk client { clerk with pending := none }
    return { s with history := s.history ++ [.fail (client, clerk.seq)] }

end System

end Murmur.App
