/-
  `src/raft/rpc.rs`: the Raft messages as plain values.
-/
import Murmur.Raft.Types

namespace Murmur.Raft

/-- Sent by a candidate to gather votes, and with `preVote` as the pre-election probe. -/
structure RequestVoteArgs where
  term : Nat
  candidateId : NodeId
  lastLogIndex : Nat
  lastLogTerm : Nat
  preVote : Bool
deriving DecidableEq, Repr

structure RequestVoteReply where
  term : Nat
  voteGranted : Bool
deriving DecidableEq, Repr

/-- Sent by the leader to replicate entries and as a heartbeat. -/
structure AppendEntriesArgs where
  term : Nat
  leaderId : NodeId
  prevLogIndex : Nat
  prevLogTerm : Nat
  entries : List LogEntry
  leaderCommit : Nat
deriving DecidableEq, Repr

structure AppendEntriesReply where
  term : Nat
  success : Bool
  conflictIndex : Option Nat
  conflictTerm : Option Nat
deriving DecidableEq, Repr

namespace AppendEntriesReply

/-- A plain success. The source calls it `success`, like the field. -/
def succeeded (term : Nat) : AppendEntriesReply :=
  { term, success := true, conflictIndex := none, conflictTerm := none }

/-- A rejection with no backtracking hint (a stale term). -/
def rejected (term : Nat) : AppendEntriesReply :=
  { term, success := false, conflictIndex := none, conflictTerm := none }

end AppendEntriesReply

/-- Sent by the leader to a follower whose next entry it has compacted away. -/
structure InstallSnapshotArgs where
  term : Nat
  leaderId : NodeId
  lastIncludedIndex : Nat
  lastIncludedTerm : Nat
  data : Bytes
deriving DecidableEq, Repr

/-- The answer to an InstallSnapshot: just the follower's term. -/
structure InstallSnapshotReply where
  term : Nat
deriving DecidableEq, Repr

end Murmur.Raft
