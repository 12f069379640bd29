/-
  `src/raft/transport.rs`: the conversions between the logical messages and their wire form.

  Protobuf itself is taken as lossless, so a wire message is its generated struct. Every
  conversion round-trips exactly except that of an AppendEntries reply, where one flag gates both
  halves of the conflict hint: an index-only hint comes back with conflict term 0
  (`appendReply_over_wire`).
-/
import Murmur.Raft.Rpc

namespace Murmur.Raft

namespace Proto

structure LogEntry where
  term : Nat
  command : Bytes

structure RequestVoteRequest where
  term : Nat
  candidateId : Nat
  lastLogIndex : Nat
  lastLogTerm : Nat
  preVote : Bool

structure RequestVoteResponse where
  term : Nat
  voteGranted : Bool

structure AppendEntriesRequest where
  term : Nat
  leaderId : Nat
  prevLogIndex : Nat
  prevLogTerm : Nat
  entries : List LogEntry
  leaderCommit : Nat

structure AppendEntriesResponse where
  term : Nat
  success : Bool
  hasConflict : Bool
  conflictIndex : Nat
  conflictTerm : Nat

structure InstallSnapshotRequest where
  term : Nat
  leaderId : Nat
  lastIncludedIndex : Nat
  lastIncludedTerm : Nat
  data : Bytes

structure InstallSnapshotResponse where
  term : Nat

end Proto

def entriesToPb (entries : List LogEntry) : List Proto.LogEntry :=
  entries.map fun e => { term := e.term, command := e.command }

def entriesFromPb (entries : List Proto.LogEntry) : List LogEntry :=
  entries.map fun e => { term := e.term, command := e.command }

def voteReqToPb (a : RequestVoteArgs) : Proto.RequestVoteRequest :=
  { term := a.term, candidateId := a.candidateId, lastLogIndex := a.lastLogIndex
    lastLogTerm := a.lastLogTerm, preVote := a.preVote }

def voteReqFromPb (r : Proto.RequestVoteRequest) : RequestVoteArgs :=
  { term := r.term, candidateId := r.candidateId, lastLogIndex := r.lastLogIndex
    lastLogTerm := r.lastLogTerm, preVote := r.preVote }

def voteReplyToPb (r : RequestVoteReply) : Proto.RequestVoteResponse :=
  { term := r.term, voteGranted := r.voteGranted }

def voteReplyFromPb (r : Proto.RequestVoteResponse) : RequestVoteReply :=
  { term := r.term, voteGranted := r.voteGranted }

def appendReqToPb (a : AppendEntriesArgs) : Proto.AppendEntriesRequest :=
  { term := a.term, leaderId := a.leaderId, prevLogIndex := a.prevLogIndex
    prevLogTerm := a.prevLogTerm, entries := entriesToPb a.entries
    leaderCommit := a.leaderCommit }

def appendReqFromPb (r : Proto.AppendEntriesRequest) : AppendEntriesArgs :=
  { term := r.term, leaderId := r.leaderId, prevLogIndex := r.prevLogIndex
    prevLogTerm := r.prevLogTerm, entries := entriesFromPb r.entries
    leaderCommit := r.leaderCommit }

def appendReplyToPb (r : AppendEntriesReply) : Proto.AppendEntriesResponse :=
  { term := r.term, success := r.success, hasConflict := r.conflictIndex.isSome
    conflictIndex := r.conflictIndex.getD 0, conflictTerm := r.conflictTerm.getD 0 }

def appendReplyFromPb (r : Proto.AppendEntriesResponse) : AppendEntriesReply :=
  { term := r.term, success := r.success
    conflictIndex := if r.hasConflict then some r.conflictIndex else none
    conflictTerm := if r.hasConflict then some r.conflictTerm else none }

def installReqToPb (a : InstallSnapshotArgs) : Proto.InstallSnapshotRequest :=
  { term := a.term, leaderId := a.leaderId, lastIncludedIndex := a.lastIncludedIndex
    lastIncludedTerm := a.lastIncludedTerm, data := a.data }

def installReqFromPb (r : Proto.InstallSnapshotRequest) : InstallSnapshotArgs :=
  { term := r.term, leaderId := r.leaderId, lastIncludedIndex := r.lastIncludedIndex
    lastIncludedTerm := r.lastIncludedTerm, data := r.data }

def installReplyToPb (r : InstallSnapshotReply) : Proto.InstallSnapshotResponse :=
  { term := r.term }

def installReplyFromPb (r : Proto.InstallSnapshotResponse) : InstallSnapshotReply :=
  { term := r.term }

/-! ## Round trips -/

@[simp] theorem entriesFromPb_toPb (es : List LogEntry) : entriesFromPb (entriesToPb es) = es := by
  simp [entriesFromPb, entriesToPb, Function.comp_def]

@[simp] theorem voteReqFromPb_toPb (a : RequestVoteArgs) : voteReqFromPb (voteReqToPb a) = a := rfl

@[simp] theorem voteReplyFromPb_toPb (r : RequestVoteReply) :
    voteReplyFromPb (voteReplyToPb r) = r := rfl

@[simp] theorem appendReqFromPb_toPb (a : AppendEntriesArgs) :
    appendReqFromPb (appendReqToPb a) = a := by
  simp [appendReqFromPb, appendReqToPb]

@[simp] theorem installReqFromPb_toPb (a : InstallSnapshotArgs) :
    installReqFromPb (installReqToPb a) = a := rfl

@[simp] theorem installReplyFromPb_toPb (r : InstallSnapshotReply) :
    installReplyFromPb (installReplyToPb r) = r := rfl

/-- What an AppendEntries reply becomes on the wire: the conflict term is present exactly
    when the index is, and `0` stands for a missing one. -/
theorem appendReply_over_wire (r : AppendEntriesReply) :
    appendReplyFromPb (appendReplyToPb r) =
      { r with conflictTerm := r.conflictIndex.map fun _ => r.conflictTerm.getD 0 } := by
  cases h : r.conflictIndex <;> simp [appendReplyFromPb, appendReplyToPb, h]

end Murmur.Raft
