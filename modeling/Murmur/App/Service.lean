/-
  `src/app.rs`, the replicated service: requests that wait for their entry to be applied, the apply
  loop, and a cluster of such nodes.

  A request of `execute` is a `Call`, a handler task of one process. Its steps, and those of the
  apply loop, are separate actions, so all interleavings of drawing a nonce, registering, proposing,
  applying, timing out and cleaning up are runs. A waiter's one-shot channel is the call's
  `received`. Client requests that are cancelled take no further step.

  Raft is `Raft.Cluster` itself. `restart` stops a process with all its calls and starts a new one:
  the engine and Raft's storage survive, everything else begins anew.

  `performed` is history: the outcome of each command each process has applied.

  `KvCluster.Step` lists what each action can do; whatever holds of every step is proved by cases on
  it.
-/
import Murmur.App.Snapshot
import Murmur.Raft.Node

namespace Murmur.App

open Murmur.Raft (Bytes HashMap NodeId Instant Cluster ClusterConfig Action Apply Applied)
open Murmur.Basis

/-- Log length at which the apply loop takes a snapshot. -/
def snapshotThreshold : Nat := 64

/-- Where `run_apply_loop` is. -/
inductive LoopState where
  /-- Waiting for the next item. -/
  | receiving
  /-- The command at `index` is applied; the log length is to be checked. -/
  | applied (index : Nat)
  /-- A snapshot at `index` is to be captured. -/
  | capturing (index : Nat)
deriving DecidableEq, Repr

/-- One process: `AppState`, the counter of `Inner`, and the apply loop with its channel. -/
structure KvService (σ : Type) where
  replica : Replica σ
  /-- The calls waiting for their entry, by nonce. -/
  waiters : HashMap UInt64 Nat
  nonce : UInt64
  applies : List Apply
  loop : LoopState
  /-- Index of the last item the apply loop has taken. -/
  cursor : Nat

/-- `app::start` over the engine state `store`. -/
def KvService.start {σ : Type} (store : σ) : KvService σ :=
  { replica := .start store, waiters := ∅, nonce := 0, applies := [], loop := .receiving,
    cursor := 0 }

/-- `next_nonce`: the node id in the high bits, a counter in the low bits. -/
def nextNonce (nodeId : NodeId) (counter : UInt64) : UInt64 :=
  (UInt64.ofNat nodeId <<< 48) ||| (counter &&& ((1 : UInt64) <<< 48) - 1)

/-- Where a call of `execute` is. -/
inductive Phase where
  | drawn
  | registered
  /-- Proposed, and waiting on the channel. -/
  | waiting
  /-- Not the leader; the waiter is to be removed. -/
  | refused
  /-- Timed out, or the sender was dropped; the waiter is to be removed. -/
  | expired
  | failed
  | returned (outcome : Outcome)
deriving DecidableEq, Repr

/-- One call of `execute`. -/
structure Call where
  node : NodeId
  epoch : Nat
  /-- The command with its nonce. -/
  command : Command
  phase : Phase := .drawn
  /-- Index and term of the entry it proposed. -/
  entry : Option (Nat × Nat) := none
  /-- What the apply loop sent to it. -/
  received : Option Outcome := none
deriving DecidableEq, Repr

/-- A command some process has applied. -/
structure Performed where
  node : NodeId
  epoch : Nat
  entry : Applied
  command : Command
  outcome : Outcome
deriving DecidableEq, Repr

structure KvCluster (σ : Type) where
  raft : Cluster
  services : NodeId → KvService σ
  calls : List Call := []
  performed : List Performed := []

/-- What can happen next. Calls are named by their position. -/
inductive KvAction where
  /-- Raft's own work: a tick, a request served, a reply folded in. -/
  | raft (act : Action)
  /-- The driver moves what is to be applied into the channel. -/
  | drain (n : NodeId)
  /-- A request arrives and draws its nonce. -/
  | execute (n : NodeId) (command : Command)
  | register (k : Nat)
  | propose (k : Nat)
  | expire (k : Nat)
  | cleanup (k : Nat)
  | respond (k : Nat)
  /-- The apply loop takes the next item; the order in which an install clears the directory. -/
  | apply (n : NodeId) (order : List Bytes)
  | check (n : NodeId)
  /-- The apply loop captures a snapshot; the orders in which the tables are read. -/
  | capture (n : NodeId) (dedup : List DedupEntry) (keys : List Bytes)
  | restart (n : NodeId) (now : Instant) (draw : Nat)
deriving DecidableEq, Repr

/-- The actions Raft takes by itself. -/
def internal : Action → Bool
  | .tick .. | .serve .. | .fold .. => true
  | .propose .. | .snapshot .. | .drain .. | .restart .. => false

namespace KvCluster

variable {σ : Type}

/-- All nodes freshly started, over the engine states `store`. -/
def init (cfg : ClusterConfig) (store : NodeId → σ) : KvCluster σ :=
  { raft := .init cfg, services := fun n => .start (store n) }

/-- The current process of node `n`. -/
def epoch (s : KvCluster σ) (n : NodeId) : Nat := (s.raft.procs n).epoch

def setService (s : KvCluster σ) (n : NodeId) (service : KvService σ) : KvCluster σ :=
  { s with services := Function.update s.services n service }

def setCall (s : KvCluster σ) (k : Nat) (call : Call) : KvCluster σ :=
  { s with calls := s.calls.set k call }

/-- Call `k`, if its process is still running and it is in one of the phases. -/
def callIn (s : KvCluster σ) (k : Nat) (phases : List Phase) : Option Call := do
  let call ← s.calls[k]?
  guard (call.epoch = s.epoch call.node ∧ call.phase ∈ phases)
  return call

/-- Send `outcome` to call `k`. -/
def send (s : KvCluster σ) (k : Nat) (outcome : Outcome) : KvCluster σ :=
  match s.calls[k]? with
  | some call => s.setCall k { call with received := some outcome }
  | none => s

/-- `AppState::apply`: apply one committed command and wake the caller waiting on it. -/
def apply (db : Db σ) (s : KvCluster σ) (n : NodeId) (entry : Applied) (command : Command) :
    KvCluster σ :=
  let service := s.services n
  let (replica, outcome) := service.replica.applyCommitted db command
  let done : Performed := { node := n, epoch := s.epoch n, entry, command, outcome }
  let s : KvCluster σ := { s with performed := s.performed ++ [done] }
  match service.waiters.lookup command.nonce with
  | some k =>
    (s.setService n { service with replica, waiters := service.waiters.erase command.nonce }).send
      k outcome
  | none => s.setService n { service with replica }

/-- One action; `none` if it cannot happen (or panics). -/
def step (cfg : ClusterConfig) (db : Db σ) (codec : Codec) (s : KvCluster σ) :
    KvAction → Option (KvCluster σ)
  | .raft act => do
    guard (internal act)
    let raft ← s.raft.step cfg act
    return { s with raft }
  | .drain n => do
    let raft ← s.raft.step cfg (.drain n)
    let (_, out) ← (s.raft.core n).takeApplies
    let service := s.services n
    let s : KvCluster σ := { s with raft }
    return s.setService n { service with applies := service.applies ++ out }
  | .execute n command => do
    guard (n ∈ cfg.members)
    let service := s.services n
    let call : Call :=
      { node := n, epoch := s.epoch n
        command := { command with nonce := nextNonce n service.nonce } }
    let s : KvCluster σ := { s with calls := s.calls ++ [call] }
    return s.setService n { service with nonce := service.nonce + 1 }
  | .register k => do
    let call ← s.callIn k [.drawn]
    let service := s.services call.node
    return (s.setCall k { call with phase := .registered }).setService call.node
      { service with waiters := service.waiters.insert call.command.nonce k }
  | .propose k => do
    let call ← s.callIn k [.registered]
    let core := s.raft.core call.node
    let bytes := codec.encode call.command
    let raft ← s.raft.step cfg (.propose call.node bytes)
    let s : KvCluster σ := { s with raft }
    match (core.submitCommand bytes).2 with
    | some index =>
      return s.setCall k { call with phase := .waiting, entry := some (index, core.currentTerm) }
    | none => return s.setCall k { call with phase := .refused }
  | .expire k => do
    let call ← s.callIn k [.waiting]
    guard (call.received = none)
    return s.setCall k { call with phase := .expired }
  | .cleanup k => do
    let call ← s.callIn k [.refused, .expired]
    let service := s.services call.node
    return (s.setCall k { call with phase := .failed }).setService call.node
      { service with waiters := service.waiters.erase call.command.nonce }
  | .respond k => do
    let call ← s.callIn k [.waiting]
    let outcome ← call.received
    return s.setCall k { call with phase := .returned outcome }
  | .apply n order => do
    guard (n ∈ cfg.members ∧ (s.services n).loop = .receiving)
    let item ← (s.services n).applies.head?
    let service := { s.services n with applies := (s.services n).applies.tail }
    match item with
    | .command entry =>
      let s := s.setService n { service with loop := .applied entry.index, cursor := entry.index }
      match codec.decode entry.command with
      | some command => return s.apply db n entry command
      | none => return s
    | .snapshot snapshot =>
      let order ← Iter.of order service.replica.keys.val
      return s.setService n
        { service with
          replica := service.replica.installSnapshot db order snapshot.data
          cursor := snapshot.lastIncludedIndex }
  | .check n => do
    let service := s.services n
    let .applied index := service.loop | none
    let loop :=
      if (s.raft.core n).raftLogLen ≥ snapshotThreshold then .capturing index else .receiving
    return s.setService n { service with loop }
  | .capture n dedup keys => do
    let service := s.services n
    let .capturing index := service.loop | none
    let dedup ← Iter.of dedup service.replica.dedup.entries
    let keys ← Iter.of keys service.replica.keys.val
    let data := service.replica.buildSnapshot db dedup keys
    -- A byte vector has fewer than 2^63 elements.
    guard (data.length < 2 ^ 63)
    let raft ← s.raft.step cfg (.snapshot n index data)
    let s : KvCluster σ := { s with raft }
    return s.setService n { service with loop := .receiving }
  | .restart n now draw => do
    let raft ← s.raft.step cfg (.restart n now draw)
    let store := (s.services n).replica.store
    let s : KvCluster σ := { s with raft }
    return s.setService n (.start store)

/-- What an action does, with one constructor for each way it can end. -/
inductive Step (cfg : ClusterConfig) (db : Db σ) (codec : Codec) (s : KvCluster σ) :
    KvAction → KvCluster σ → Prop
  | raft {act : Action} {raft : Cluster} (hact : internal act = true)
      (hraft : s.raft.step cfg act = some raft) : Step cfg db codec s (.raft act) { s with raft }
  | drain {n : NodeId} {raft : Cluster} {core : Raft.ConsensusModule} {out : List Apply}
      (hraft : s.raft.step cfg (.drain n) = some raft)
      (htake : (s.raft.core n).takeApplies = some (core, out)) :
      Step cfg db codec s (.drain n) (setService { s with raft } n
        { s.services n with applies := (s.services n).applies ++ out })
  | execute {n : NodeId} {command : Command} (hn : n ∈ cfg.members) :
      Step cfg db codec s (.execute n command) (setService
        { s with
          calls := s.calls ++ [
            { node := n, epoch := s.epoch n
              command := { command with nonce := nextNonce n (s.services n).nonce } }] } n
        { s.services n with nonce := (s.services n).nonce + 1 })
  | register {k : Nat} {call : Call} (hin : s.callIn k [.drawn] = some call) :
      Step cfg db codec s (.register k) ((s.setCall k { call with phase := .registered }).setService
        call.node { s.services call.node with
          waiters := (s.services call.node).waiters.insert call.command.nonce k })
  | accepted {k index : Nat} {call : Call} {raft : Cluster}
      (hin : s.callIn k [.registered] = some call)
      (hraft : s.raft.step cfg (.propose call.node (codec.encode call.command)) = some raft)
      (hindex : ((s.raft.core call.node).submitCommand (codec.encode call.command)).2 =
        some index) :
      Step cfg db codec s (.propose k) (setCall { s with raft } k
        { call with phase := .waiting, entry := some (index, (s.raft.core call.node).currentTerm) })
  | refused {k : Nat} {call : Call} {raft : Cluster} (hin : s.callIn k [.registered] = some call)
      (hraft : s.raft.step cfg (.propose call.node (codec.encode call.command)) = some raft)
      (hindex : ((s.raft.core call.node).submitCommand (codec.encode call.command)).2 = none) :
      Step cfg db codec s (.propose k) (setCall { s with raft } k { call with phase := .refused })
  | expire {k : Nat} {call : Call} (hin : s.callIn k [.waiting] = some call)
      (hnone : call.received = none) :
      Step cfg db codec s (.expire k) (s.setCall k { call with phase := .expired })
  | cleanup {k : Nat} {call : Call} (hin : s.callIn k [.refused, .expired] = some call) :
      Step cfg db codec s (.cleanup k) ((s.setCall k { call with phase := .failed }).setService
        call.node { s.services call.node with
          waiters := (s.services call.node).waiters.erase call.command.nonce })
  | respond {k : Nat} {call : Call} {outcome : Outcome} (hin : s.callIn k [.waiting] = some call)
      (hout : call.received = some outcome) :
      Step cfg db codec s (.respond k) (s.setCall k { call with phase := .returned outcome })
  | applied {n : NodeId} {order : List Bytes} {entry : Applied} {command : Command}
      (hn : n ∈ cfg.members) (hloop : (s.services n).loop = .receiving)
      (hitem : (s.services n).applies.head? = some (.command entry))
      (hdec : codec.decode entry.command = some command) :
      Step cfg db codec s (.apply n order) ((s.setService n
        { s.services n with
          applies := (s.services n).applies.tail
          loop := .applied entry.index
          cursor := entry.index }).apply db n entry command)
  | skipped {n : NodeId} {order : List Bytes} {entry : Applied} (hn : n ∈ cfg.members)
      (hloop : (s.services n).loop = .receiving)
      (hitem : (s.services n).applies.head? = some (.command entry))
      (hdec : codec.decode entry.command = none) :
      Step cfg db codec s (.apply n order) (s.setService n
        { s.services n with
          applies := (s.services n).applies.tail
          loop := .applied entry.index
          cursor := entry.index })
  | installed {n : NodeId} {choice : List Bytes} {snapshot : Raft.Snapshot}
      {order : Iter (s.services n).replica.keys.val} (hn : n ∈ cfg.members)
      (hloop : (s.services n).loop = .receiving)
      (hitem : (s.services n).applies.head? = some (.snapshot snapshot)) :
      Step cfg db codec s (.apply n choice) (s.setService n
        { s.services n with
          applies := (s.services n).applies.tail
          replica := (s.services n).replica.installSnapshot db order snapshot.data
          cursor := snapshot.lastIncludedIndex })
  | check {n : NodeId} {index : Nat} (hloop : (s.services n).loop = .applied index) :
      Step cfg db codec s (.check n) (s.setService n
        { s.services n with
          loop := if (s.raft.core n).raftLogLen ≥ snapshotThreshold then .capturing index
            else .receiving })
  | capture {n : NodeId} {index : Nat} {entries : List DedupEntry} {choice : List Bytes}
      {dedup : Iter (s.services n).replica.dedup.entries}
      {keys : Iter (s.services n).replica.keys.val}
      {raft : Cluster} (hloop : (s.services n).loop = .capturing index)
      (hfit : ((s.services n).replica.buildSnapshot db dedup keys).length < 2 ^ 63)
      (hraft : s.raft.step cfg
        (.snapshot n index ((s.services n).replica.buildSnapshot db dedup keys)) = some raft) :
      Step cfg db codec s (.capture n entries choice) (setService { s with raft } n
        { s.services n with loop := .receiving })
  | restart {n : NodeId} {now : Instant} {draw : Nat} {raft : Cluster}
      (hraft : s.raft.step cfg (.restart n now draw) = some raft) :
      Step cfg db codec s (.restart n now draw) (setService { s with raft } n
        (.start (s.services n).replica.store))

theorem step_sound {cfg : ClusterConfig} {db : Db σ} {codec : Codec} {s s' : KvCluster σ}
    {act : KvAction} (h : s.step cfg db codec act = some s') : Step cfg db codec s act s' := by
  cases act with
  | raft act =>
      obtain ⟨hact, h⟩ := of_guard h
      obtain ⟨raft, hraft, heq⟩ := Option.bind_eq_some_iff.mp h
      cases heq
      exact .raft hact hraft
  | drain n =>
      obtain ⟨raft, hraft, h⟩ := Option.bind_eq_some_iff.mp h
      obtain ⟨⟨core, out⟩, htake, heq⟩ := Option.bind_eq_some_iff.mp h
      cases heq
      exact .drain hraft htake
  | execute n command =>
      obtain ⟨hn, heq⟩ := of_guard h
      cases heq
      exact .execute hn
  | register k =>
      obtain ⟨call, hin, heq⟩ := Option.bind_eq_some_iff.mp h
      cases heq
      exact .register hin
  | propose k =>
      obtain ⟨call, hin, h⟩ := Option.bind_eq_some_iff.mp h
      obtain ⟨raft, hraft, h⟩ := Option.bind_eq_some_iff.mp h
      dsimp only at h
      split at h
      · next index hindex =>
        cases h
        exact .accepted hin hraft hindex
      · next hindex =>
        cases h
        exact .refused hin hraft hindex
  | expire k =>
      obtain ⟨call, hin, h⟩ := Option.bind_eq_some_iff.mp h
      obtain ⟨hnone, heq⟩ := of_guard h
      cases heq
      exact .expire hin hnone
  | cleanup k =>
      obtain ⟨call, hin, heq⟩ := Option.bind_eq_some_iff.mp h
      cases heq
      exact .cleanup hin
  | respond k =>
      obtain ⟨call, hin, h⟩ := Option.bind_eq_some_iff.mp h
      obtain ⟨outcome, hout, heq⟩ := Option.bind_eq_some_iff.mp h
      cases heq
      exact .respond hin hout
  | apply n order =>
      obtain ⟨⟨hn, hloop⟩, h⟩ := of_guard h
      obtain ⟨item, hitem, h⟩ := Option.bind_eq_some_iff.mp h
      cases item with
      | command entry =>
          dsimp only at h
          split at h
          · next command hdec =>
            cases h
            exact .applied hn hloop hitem hdec
          · next hdec =>
            cases h
            exact .skipped hn hloop hitem hdec
      | snapshot snapshot =>
          obtain ⟨order, -, heq⟩ := Option.bind_eq_some_iff.mp h
          cases heq
          exact .installed hn hloop hitem
  | check n =>
      unfold step at h
      dsimp only at h
      split at h
      · next index hloop =>
        cases h
        exact .check hloop
      · cases h
  | capture n entries choice =>
      unfold step at h
      dsimp only at h
      split at h
      · next index hloop =>
        obtain ⟨dedup, -, h⟩ := Option.bind_eq_some_iff.mp h
        obtain ⟨keys, -, h⟩ := Option.bind_eq_some_iff.mp h
        obtain ⟨hfit, h⟩ := of_guard h
        obtain ⟨raft, hraft, heq⟩ := Option.bind_eq_some_iff.mp h
        cases heq
        exact .capture hloop hfit hraft
      · cases h
  | restart n now draw =>
      obtain ⟨raft, hraft, heq⟩ := Option.bind_eq_some_iff.mp h
      cases heq
      exact .restart hraft

end KvCluster

end Murmur.App
