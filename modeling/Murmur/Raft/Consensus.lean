/-
  `src/raft/consensus.rs`: the Raft state machine of one node.

  Every operation of `ConsensusModule` is a function of the state before it, in the source's own
  order of assignments. `storage` is what `load` would return: `persist` overwrites it with the
  four persistent fields (saves succeed). The clock reading and the random draw that arm
  the election timer are arguments. `Option` results stand for the two `expect` calls:
  `none` is the panic.
-/
import Murmur.Raft.Config
import Murmur.Raft.Rpc
import Murmur.Raft.Storage
import Mathlib.Data.Finmap

namespace Murmur.Raft

/-- `std::collections::HashMap`, of which only `get`, `insert` and `clear` are used here. -/
abbrev HashMap (K V : Type) := Finmap fun _ : K => V

structure ConsensusModule where
  -- Identity and membership.
  id : NodeId
  peers : List NodeId
  quorum : Nat
  storage : PersistentState
  timing : Timing
  -- Persistent state, mirrored to `storage` by `persist`.
  currentTerm : Nat
  votedFor : Option NodeId
  log : Log
  snapshot : Option Bytes
  -- Volatile state on all nodes.
  role : Role
  leaderId : Option NodeId
  commitIndex : Nat
  lastApplied : Nat
  -- Volatile state on the leader.
  nextIndex : HashMap NodeId Nat
  matchIndex : HashMap NodeId Nat
  -- Volatile state on a candidate, and while pre-campaigning.
  votes : Finset NodeId
  preCandidate : Bool
  preVotes : Finset NodeId
  lastLeaderContact : Instant
  pendingSnapshot : Option Snapshot
  electionDeadline : Instant

namespace ConsensusModule

/-- The persistent fields, as they are saved. -/
def persistentState (self : ConsensusModule) : PersistentState :=
  { currentTerm := self.currentTerm
    votedFor := self.votedFor
    log := self.log
    snapshot := self.snapshot }

def persist (self : ConsensusModule) : ConsensusModule :=
  { self with storage := self.persistentState }

def resetElectionDeadline (self : ConsensusModule) (now : Instant) (draw : Nat) :
    ConsensusModule :=
  { self with electionDeadline := now + self.timing.randomElectionTimeout draw }

/-- Build a node from what `storage` holds. -/
def new (id : NodeId) (peers : List NodeId) (storage : PersistentState) (timing : Timing)
    (now : Instant) (draw : Nat) : ConsensusModule :=
  let base := storage.log.snapshotIndex
  let cm : ConsensusModule :=
    { id, peers, quorum := (peers.length + 1) / 2 + 1, storage, timing
      currentTerm := storage.currentTerm
      votedFor := storage.votedFor
      log := storage.log
      snapshot := storage.snapshot
      role := .follower
      leaderId := none
      commitIndex := base
      lastApplied := base
      nextIndex := ∅
      matchIndex := ∅
      votes := ∅
      preCandidate := false
      preVotes := ∅
      lastLeaderContact := now
      pendingSnapshot := storage.snapshot.map fun data =>
        { lastIncludedIndex := storage.log.snapshotIndex
          lastIncludedTerm := storage.log.snapshotTerm
          data }
      electionDeadline := now }
  cm.resetElectionDeadline now draw

def isLeader (self : ConsensusModule) : Bool := self.role = .leader

def raftLogLen (self : ConsensusModule) : Nat := self.log.len

/-- Replicating to `peer` takes an InstallSnapshot: its next entry has been compacted away. -/
def needsSnapshot (self : ConsensusModule) (peer : NodeId) : Bool :=
  self.role = .leader ∧ self.snapshot.isSome ∧
    (self.nextIndex.lookup peer).getD 1 ≤ self.log.snapshotIndex

def electionTimedOut (self : ConsensusModule) (now : Instant) : Bool :=
  self.role ≠ .leader ∧ now ≥ self.electionDeadline

/-! ## Role transitions -/

def abandonPreElection (self : ConsensusModule) : ConsensusModule :=
  { self with preCandidate := false, preVotes := ∅ }

/-- Back to follower at `term`; a newer term is adopted, its vote is free, and it is persisted. -/
def stepDown (self : ConsensusModule) (term : Nat) : ConsensusModule :=
  let newer := term > self.currentTerm
  let self := if newer then { self with currentTerm := term, votedFor := none } else self
  let self := { self with role := .follower, votes := ∅ }.abandonPreElection
  if newer then self.persist else self

def becomeLeader (self : ConsensusModule) : ConsensusModule :=
  let self := { self with role := .leader, leaderId := some self.id }.abandonPreElection
  let next := self.log.lastIndex + 1
  { self with
    nextIndex := self.peers.foldl (fun m peer => m.insert peer next) ∅
    matchIndex := self.peers.foldl (fun m peer => m.insert peer 0) ∅ }

def maybeBecomeLeader (self : ConsensusModule) : ConsensusModule :=
  if self.role = .candidate ∧ self.votes.card ≥ self.quorum then self.becomeLeader else self

/-! ## Candidate side -/

/-- Probe for the next term without adopting it. -/
def startPreElection (self : ConsensusModule) (now : Instant) (draw : Nat) :
    ConsensusModule × RequestVoteArgs :=
  let self := { self with preCandidate := true, preVotes := {self.id} }
  let self := self.resetElectionDeadline now draw
  (self,
    { term := self.currentTerm + 1
      candidateId := self.id
      lastLogIndex := self.log.lastIndex
      lastLogTerm := self.log.lastTerm
      preVote := true })

def recordPreVoteReply (self : ConsensusModule) (sender : NodeId) (reply : RequestVoteReply) :
    ConsensusModule :=
  if reply.term > self.currentTerm then
    { self.stepDown reply.term with leaderId := none }
  else if self.preCandidate ∧ reply.voteGranted then
    { self with preVotes := insert sender self.preVotes }
  else
    self

def preVoteSucceeded (self : ConsensusModule) : Bool :=
  self.preCandidate ∧ self.preVotes.card ≥ self.quorum

/-- Campaign in the next term, voting for oneself. -/
def startElection (self : ConsensusModule) (now : Instant) (draw : Nat) :
    ConsensusModule × RequestVoteArgs :=
  let self := self.abandonPreElection
  let self :=
    { self with
      role := .candidate
      currentTerm := self.currentTerm + 1
      votedFor := some self.id
      leaderId := none
      votes := {self.id} }
  let self := (self.resetElectionDeadline now draw).persist.maybeBecomeLeader
  (self,
    { term := self.currentTerm
      candidateId := self.id
      lastLogIndex := self.log.lastIndex
      lastLogTerm := self.log.lastTerm
      preVote := false })

def recordVoteReply (self : ConsensusModule) (sender : NodeId) (reply : RequestVoteReply) :
    ConsensusModule :=
  if reply.term > self.currentTerm then
    { self.stepDown reply.term with leaderId := none }
  else if self.role ≠ .candidate ∨ reply.term ≠ self.currentTerm then
    -- A late reply from an election we have left.
    self
  else if reply.voteGranted then
    { self with votes := insert sender self.votes }.maybeBecomeLeader
  else
    self

/-! ## Voter side -/

def logIsUpToDate (self : ConsensusModule) (lastLogIndex : Nat) (lastLogTerm : Nat) : Bool :=
  lastLogTerm > self.log.lastTerm ∨
    (lastLogTerm = self.log.lastTerm ∧ lastLogIndex ≥ self.log.lastIndex)

/-- The grant decision, once our term is the candidate's: a free vote and an up-to-date log. -/
def castVote (self : ConsensusModule) (args : RequestVoteArgs) (now : Instant) (draw : Nat) :
    ConsensusModule × RequestVoteReply :=
  let upToDate := self.logIsUpToDate args.lastLogIndex args.lastLogTerm
  let freeToVote : Bool := self.votedFor.isNone ∨ self.votedFor = some args.candidateId
  if freeToVote ∧ upToDate then
    let self := { self with votedFor := some args.candidateId }
    let self := (self.resetElectionDeadline now draw).persist
    (self, { term := self.currentTerm, voteGranted := true })
  else
    (self, { term := self.currentTerm, voteGranted := false })

def handleRequestVote (self : ConsensusModule) (args : RequestVoteArgs) (now : Instant)
    (draw : Nat) : ConsensusModule × RequestVoteReply :=
  if args.preVote then
    -- A probe is answered without touching term, vote or timer.
    let leaderIsLive : Bool := self.role = .leader ∨
      now - self.lastLeaderContact < self.timing.electionMin
    let grant : Bool := args.term ≥ self.currentTerm ∧ !leaderIsLive ∧
      self.logIsUpToDate args.lastLogIndex args.lastLogTerm
    (self, { term := self.currentTerm, voteGranted := grant })
  else if args.term < self.currentTerm then
    (self, { term := self.currentTerm, voteGranted := false })
  else if args.term > self.currentTerm then
    (self.stepDown args.term).castVote args now draw
  else
    self.castVote args now draw

/-! ## Follower side -/

/-- The rejection of a failed consistency check, with its backtracking hint. -/
def appendConflict (self : ConsensusModule) (prevLogIndex : Nat) : AppendEntriesReply :=
  match self.log.termAt prevLogIndex with
  | none =>
    { term := self.currentTerm
      success := false
      conflictIndex := some (self.log.lastIndex + 1)
      conflictTerm := none }
  | some conflictTerm =>
    { term := self.currentTerm
      success := false
      conflictIndex := self.log.firstIndexOfTerm conflictTerm
      conflictTerm := some conflictTerm }

/-- One pass of the splice loop: `entry` is the leader's entry at `index`. -/
def spliceEntry (log : Log) (index : Nat) (entry : LogEntry) : Log :=
  if index ≤ log.snapshotIndex then
    log
  else
    match log.termAt index with
    | some term =>
      if term = entry.term then log
      else ((log.truncateAfter (index - 1)).append entry).1
    | none => (log.append entry).1

/-- The splice loop over the entries that follow `index`. -/
def splice (log : Log) (index : Nat) : List LogEntry → Log
  | [] => log
  | entry :: entries => splice (spliceEntry log (index + 1) entry) (index + 1) entries

/-- Yield to a valid leader of `term`: adopt a newer term, or give up a campaign of this one. -/
def yieldTo (self : ConsensusModule) (term : Nat) (leader : NodeId) (now : Instant) (draw : Nat) :
    ConsensusModule :=
  let self :=
    if term > self.currentTerm then self.stepDown term
    else { self with role := .follower, votes := ∅ }.abandonPreElection
  { self with leaderId := some leader, lastLeaderContact := now }.resetElectionDeadline now draw

/-- The consistency check: an entry at `prevLogIndex` of the leader's term there, unless the
    index is covered by our snapshot. -/
def consistent (self : ConsensusModule) (args : AppendEntriesArgs) : Bool :=
  args.prevLogIndex ≤ self.log.snapshotIndex ∨
    self.log.termAt args.prevLogIndex = some args.prevLogTerm

/-- Splice the entries in, and save if there were any. -/
def storeEntries (self : ConsensusModule) (prevLogIndex : Nat) (entries : List LogEntry) :
    ConsensusModule :=
  let self := { self with log := splice self.log prevLogIndex entries }
  if entries.isEmpty then self else self.persist

/-- Follow the leader's commit index as far as our log goes. -/
def followCommit (self : ConsensusModule) (leaderCommit : Nat) : ConsensusModule :=
  if leaderCommit > self.commitIndex then
    { self with commitIndex := min leaderCommit self.log.lastIndex }
  else self

def handleAppendEntries (self : ConsensusModule) (args : AppendEntriesArgs) (now : Instant)
    (draw : Nat) : ConsensusModule × AppendEntriesReply :=
  if args.term < self.currentTerm then
    (self, .rejected self.currentTerm)
  else
    let self := self.yieldTo args.term args.leaderId now draw
    if !self.consistent args then
      (self, self.appendConflict args.prevLogIndex)
    else
      let self := self.storeEntries args.prevLogIndex args.entries
      let self := self.followCommit args.leaderCommit
      (self, .succeeded self.currentTerm)

/-! ## Leader side -/

def appendArgsFor (self : ConsensusModule) (peer : NodeId) : AppendEntriesArgs :=
  let next := (self.nextIndex.lookup peer).getD (self.log.lastIndex + 1)
  let prevLogIndex := next - 1
  { term := self.currentTerm
    leaderId := self.id
    prevLogIndex
    prevLogTerm := (self.log.termAt prevLogIndex).getD 0
    entries := self.log.entriesAfter prevLogIndex
    leaderCommit := self.commitIndex }

/-- `n` is stored on a majority: this leader and every peer matched that far. -/
def isReplicatedOnMajority (self : ConsensusModule) (n : Nat) : Bool :=
  1 + self.peers.countP (fun p => (self.matchIndex.lookup p).getD 0 ≥ n) ≥ self.quorum

/-- The scan of `maybeAdvanceCommit` from `n` down. -/
def advanceCommitFrom (self : ConsensusModule) : Nat → ConsensusModule
  | 0 => self
  | n + 1 =>
    if n + 1 > self.commitIndex then
      if self.log.termAt (n + 1) = some self.currentTerm ∧ self.isReplicatedOnMajority (n + 1) then
        { self with commitIndex := n + 1 }
      else self.advanceCommitFrom n
    else self

/-- Commit the highest index of the current term that is stored on a majority. -/
def maybeAdvanceCommit (self : ConsensusModule) : ConsensusModule :=
  self.advanceCommitFrom self.log.lastIndex

def submitCommand (self : ConsensusModule) (command : Bytes) :
    ConsensusModule × Option Nat :=
  if self.role ≠ .leader then
    (self, none)
  else
    let (log, index) := self.log.append { term := self.currentTerm, command }
    let self := { self with log }.persist
    (self.maybeAdvanceCommit, some index)

/-- Where to resume replicating to a follower that rejected us. -/
def nextIndexAfterConflict (self : ConsensusModule) (peer : NodeId) (reply : AppendEntriesReply) :
    Nat :=
  match reply.conflictTerm, reply.conflictIndex with
  | some term, some conflictIndex =>
    match self.log.lastIndexOfTerm term with
    | some last => last + 1
    | none => conflictIndex
  | none, some conflictIndex => conflictIndex
  | _, none => (self.nextIndex.lookup peer).getD 1 - 1

/-- The leader's view of a peer that holds its log up to `upTo`. -/
def recordMatch (self : ConsensusModule) (peer : NodeId) (upTo : Nat) : ConsensusModule :=
  let matched := max ((self.matchIndex.lookup peer).getD 0) upTo
  { self with
    matchIndex := self.matchIndex.insert peer matched
    nextIndex := self.nextIndex.insert peer (matched + 1) }

def handleAppendReply (self : ConsensusModule) (peer : NodeId) (reply : AppendEntriesReply)
    (matchHint : Nat) : ConsensusModule :=
  if reply.term > self.currentTerm then
    { self.stepDown reply.term with leaderId := none }
  else if self.role ≠ .leader ∨ reply.term ≠ self.currentTerm then
    self
  else if reply.success then
    (self.recordMatch peer matchHint).maybeAdvanceCommit
  else
    let next := self.nextIndexAfterConflict peer reply
    { self with nextIndex := self.nextIndex.insert peer (max next 1) }

/-! ## Snapshots -/

/-- Compact the log against a snapshot of the state machine through `takenAt`. -/
def takeSnapshot (self : ConsensusModule) (takenAt : Nat) (data : Bytes) :
    Option ConsensusModule :=
  if takenAt ≤ self.log.snapshotIndex ∨ takenAt > self.lastApplied then
    some self
  else
    match self.log.termAt takenAt with
    | none => none
    | some term =>
      some { self with log := self.log.compact takenAt term, snapshot := some data }.persist

def installSnapshotArgs (self : ConsensusModule) (_peer : NodeId) : InstallSnapshotArgs :=
  { term := self.currentTerm
    leaderId := self.id
    lastIncludedIndex := self.log.snapshotIndex
    lastIncludedTerm := self.log.snapshotTerm
    data := self.snapshot.getD [] }

/-- Take over a snapshot that is ahead of us: log, cursors and storage, and queue it for the
    state machine. -/
def acceptSnapshot (self : ConsensusModule) (args : InstallSnapshotArgs) : ConsensusModule :=
  let self :=
    { self with
      log := self.log.compact args.lastIncludedIndex args.lastIncludedTerm
      snapshot := some args.data
      commitIndex := args.lastIncludedIndex
      lastApplied := args.lastIncludedIndex }.persist
  { self with
    pendingSnapshot := some
      { lastIncludedIndex := args.lastIncludedIndex
        lastIncludedTerm := args.lastIncludedTerm
        data := args.data } }

def handleInstallSnapshot (self : ConsensusModule) (args : InstallSnapshotArgs) (now : Instant)
    (draw : Nat) : ConsensusModule × InstallSnapshotReply :=
  if args.term < self.currentTerm then
    (self, { term := self.currentTerm })
  else
    let self := self.yieldTo args.term args.leaderId now draw
    if args.lastIncludedIndex ≤ self.commitIndex then
      -- Stale: we already hold everything this snapshot covers.
      (self, { term := self.currentTerm })
    else
      let self := self.acceptSnapshot args
      (self, { term := self.currentTerm })

def handleInstallSnapshotReply (self : ConsensusModule) (peer : NodeId)
    (reply : InstallSnapshotReply) (lastIncludedIndex : Nat) : ConsensusModule :=
  if reply.term > self.currentTerm then
    { self.stepDown reply.term with leaderId := none }
  else if self.role ≠ .leader ∨ reply.term ≠ self.currentTerm then
    self
  else
    (self.recordMatch peer lastIncludedIndex).maybeAdvanceCommit

/-! ## The apply stream -/

/-- The loop of `takeApplies`: deliver committed entries while the cursor is behind. -/
def applyCommitted : Nat → ConsensusModule → Option (ConsensusModule × List Apply)
  | 0, self => some (self, [])
  | fuel + 1, self =>
    if self.lastApplied < self.commitIndex then
      let self := { self with lastApplied := self.lastApplied + 1 }
      match self.log.get self.lastApplied with
      | none => none
      | some entry =>
        (applyCommitted fuel self).map fun (self', out) =>
          (self', .command { index := self.lastApplied, term := entry.term,
                             command := entry.command } :: out)
    else some (self, [])

/-- Drain what the state machine should apply next: a pending snapshot, then commands. -/
def takeApplies (self : ConsensusModule) : Option (ConsensusModule × List Apply) :=
  let pending := self.pendingSnapshot.toList.map Apply.snapshot
  let self := { self with pendingSnapshot := none }
  (applyCommitted (self.commitIndex - self.lastApplied) self).map fun (self, out) =>
    (self, pending ++ out)

end ConsensusModule

end Murmur.Raft
