/-
  `src/raft/node.rs`: the driver of one node, and the cluster it is part of.

  Every lock acquisition of the source is one action. A spawned RPC is a `Rpc` in `requests`; its
  handler's answer is recorded beside it in `replies`; the task that awaits it folds the
  answer in, provided the process that sent the request is still the one running (`epoch`).
  Requests and replies stay where they are: they can be lost (never used), delayed and
  reordered without bound. A node that is down takes no action; `restart` is a crash followed
  by a start from storage. Messages cross the wire in their protobuf form.

  `delivered` and `taken` are history: what the apply streams have carried, and the snapshots
  that took effect, each with the log and the snapshot it replaced.
-/
import Murmur.Basis.Run
import Murmur.Raft.Consensus
import Murmur.Raft.Transport
import Mathlib.Logic.Function.Basic

namespace Murmur.Raft

/-- What a peer can be asked. -/
inductive Request where
  | vote (args : RequestVoteArgs)
  | append (args : AppendEntriesArgs)
  | install (args : InstallSnapshotArgs)
deriving DecidableEq, Repr

/-- What it can answer. -/
inductive Reply where
  | vote (reply : RequestVoteReply)
  | append (reply : AppendEntriesReply)
  | install (reply : InstallSnapshotReply)
deriving DecidableEq, Repr

/-- One call: who sent it in which incarnation, to whom, and what. -/
structure Rpc where
  sender : NodeId
  epoch : Nat
  peer : NodeId
  request : Request
deriving DecidableEq, Repr

/-- A running node: its core, the driver's heartbeat clock, and its incarnation. -/
structure Process where
  core : ConsensusModule
  lastHeartbeat : Instant
  epoch : Nat

/-- A snapshot that took effect, with what it was taken from. -/
structure Taken where
  node : NodeId
  index : Nat
  data : Bytes
  log : Log
  previous : Option Bytes
deriving DecidableEq, Repr

structure Cluster where
  procs : NodeId → Process
  requests : List Rpc := []
  replies : List (Rpc × Reply) := []
  delivered : List (NodeId × Apply) := []
  taken : List Taken := []

/-! ## The driver -/

/-- `start_node`: a process over what storage holds. -/
def startNode (cfg : ClusterConfig) (n : NodeId) (storage : PersistentState) (epoch : Nat)
    (now : Instant) (draw : Nat) : Process :=
  { core := ConsensusModule.new n (cfg.peers n) storage cfg.timing now draw
    lastHeartbeat := now - cfg.timing.heartbeat
    epoch }

/-- What the leader sends `peer` this tick, if anything. -/
def outgoing (core : ConsensusModule) (heartbeatDue : Bool) (peer : NodeId) : Option Request :=
  if core.needsSnapshot peer then
    if heartbeatDue then some (.install (core.installSnapshotArgs peer)) else none
  else
    let args := core.appendArgsFor peer
    if heartbeatDue ∨ !args.entries.isEmpty then some (.append args) else none

/-- The messages of one leader tick, each with its peer. -/
def replicate (core : ConsensusModule) (heartbeatDue : Bool) : List (NodeId × Request) :=
  core.peers.filterMap fun peer => (outgoing core heartbeatDue peer).map fun r => (peer, r)

/-- One tick of `spawn_driver`, up to the sends. -/
def tick (p : Process) (now : Instant) (draw : Nat) : Process × List (NodeId × Request) :=
  if p.core.isLeader then
    let heartbeatDue : Bool := now - p.lastHeartbeat ≥ p.core.timing.heartbeat
    let messages := replicate p.core heartbeatDue
    if messages.isEmpty then (p, [])
    else (if heartbeatDue then { p with lastHeartbeat := now } else p, messages)
  else if p.core.preVoteSucceeded then
    let (core, args) := p.core.startElection now draw
    ({ p with core }, core.peers.map fun peer => (peer, .vote args))
  else if p.core.electionTimedOut now then
    let (core, args) := p.core.startPreElection now draw
    ({ p with core }, core.peers.map fun peer => (peer, .vote args))
  else
    (p, [])

/-- `RaftService`: answer a request as it comes off the wire. -/
def serve (core : ConsensusModule) (request : Request) (now : Instant) (draw : Nat) :
    ConsensusModule × Reply :=
  match request with
  | .vote args =>
    let (core, reply) := core.handleRequestVote (voteReqFromPb (voteReqToPb args)) now draw
    (core, .vote reply)
  | .append args =>
    let (core, reply) := core.handleAppendEntries (appendReqFromPb (appendReqToPb args)) now draw
    (core, .append reply)
  | .install args =>
    let (core, reply) :=
      core.handleInstallSnapshot (installReqFromPb (installReqToPb args)) now draw
    (core, .install reply)

/-- The awaiting task of `rpc` folds the answer in. -/
def fold (core : ConsensusModule) (rpc : Rpc) (reply : Reply) : ConsensusModule :=
  match rpc.request, reply with
  | .vote args, .vote reply =>
    let reply := voteReplyFromPb (voteReplyToPb reply)
    if args.preVote then core.recordPreVoteReply rpc.peer reply
    else core.recordVoteReply rpc.peer reply
  | .append args, .append reply =>
    core.handleAppendReply rpc.peer (appendReplyFromPb (appendReplyToPb reply))
      (args.prevLogIndex + args.entries.length)
  | .install args, .install reply =>
    core.handleInstallSnapshotReply rpc.peer (installReplyFromPb (installReplyToPb reply))
      args.lastIncludedIndex
  | _, _ => core

/-! ## The cluster -/

/-- What can happen next. Requests and replies are named by their position. -/
inductive Action where
  | tick (n : NodeId) (now : Instant) (draw : Nat)
  | serve (k : Nat) (now : Instant) (draw : Nat)
  | fold (k : Nat)
  | propose (n : NodeId) (command : Bytes)
  | snapshot (n : NodeId) (index : Nat) (data : Bytes)
  | drain (n : NodeId)
  | restart (n : NodeId) (now : Instant) (draw : Nat)
deriving DecidableEq, Repr

namespace Cluster

/-- All nodes freshly started on empty storages. -/
def init (cfg : ClusterConfig) : Cluster :=
  { procs := fun n => startNode cfg n {} 0 (cfg.boot n).1 (cfg.boot n).2 }

/-- The core of node `n`. -/
def core (s : Cluster) (n : NodeId) : ConsensusModule := (s.procs n).core

/-- Replace the core of node `n`. -/
def setCore (s : Cluster) (n : NodeId) (core : ConsensusModule) : Cluster :=
  { s with procs := Function.update s.procs n { s.procs n with core } }

/-- One action; `none` if it cannot happen (or panics). -/
def step (cfg : ClusterConfig) (s : Cluster) : Action → Option Cluster
  | .tick n now draw =>
    if n ∈ cfg.members then
      let (p, messages) := Raft.tick (s.procs n) now draw
      some { s with
        procs := Function.update s.procs n p
        requests := s.requests ++ messages.map fun (peer, request) =>
          { sender := n, epoch := p.epoch, peer, request } }
    else none
  | .serve k now draw =>
    match s.requests[k]? with
    | none => none
    | some rpc =>
      let (core, reply) := Raft.serve (s.core rpc.peer) rpc.request now draw
      some { s.setCore rpc.peer core with replies := s.replies ++ [(rpc, reply)] }
  | .fold k =>
    match s.replies[k]? with
    | none => none
    | some (rpc, reply) =>
      if rpc.epoch = (s.procs rpc.sender).epoch then
        some (s.setCore rpc.sender (Raft.fold (s.core rpc.sender) rpc reply))
      else none
  | .propose n command =>
    if n ∈ cfg.members then some (s.setCore n ((s.core n).submitCommand command).1) else none
  | .snapshot n index data =>
    if n ∈ cfg.members then
      let before := s.core n
      (before.takeSnapshot index data).map fun core =>
        let s' := s.setCore n core
        if index ≤ before.log.snapshotIndex ∨ index > before.lastApplied then s'
        else { s' with taken := s.taken ++
          [{ node := n, index, data, log := before.log, previous := before.snapshot }] }
    else none
  | .drain n =>
    if n ∈ cfg.members then
      (s.core n).takeApplies.map fun (core, out) =>
        { s.setCore n core with delivered := s.delivered ++ out.map fun item => (n, item) }
    else none
  | .restart n now draw =>
    if n ∈ cfg.members then
      let p := startNode cfg n (s.core n).storage ((s.procs n).epoch + 1) now draw
      some { s with procs := Function.update s.procs n p }
    else none

/-- The states of all runs from empty storages. -/
def Reachable (cfg : ClusterConfig) (s : Cluster) : Prop :=
  Basis.Reaches (step cfg) (init cfg) s

/-- `s'` comes after `s` in some run. -/
def Leads (cfg : ClusterConfig) (s s' : Cluster) : Prop :=
  Basis.Reaches (step cfg) s s'

end Cluster

end Murmur.Raft
