/-
  The snapshot of a node, and what an operation can do to it.

  A node keeps one snapshot: the boundary of its log, the image of the state machine at that index,
  and the image once more while it waits to be handed to the state machine. Only `snapshot`,
  `handle_install_snapshot` and `take_applies` touch it.

  * `Shelf`: the snapshot of a node; `Shelves`: the ways in which it changes.
  * `Op.shelves`: every operation changes it in one of these ways.
-/
import Murmur.Raft.Compaction
import Murmur.Raft.Steps

namespace Murmur.Raft

open ConsensusModule

/-- What a node holds of a snapshot. -/
structure Shelf where
  index : Nat
  data : Option Bytes
  /-- Still to be handed to the state machine. -/
  pending : Option Snapshot

def ConsensusModule.shelf (self : ConsensusModule) : Shelf :=
  { index := self.log.snapshotIndex, data := self.snapshot, pending := self.pendingSnapshot }

/-- What an operation can do to the snapshot of `c`. -/
inductive Shelves (c : ConsensusModule) : Op → Shelf → Prop
  | keep {o : Op} : Shelves c o c.shelf
  /-- A snapshot of its own state machine, of a state it has applied. -/
  | compact {index : Nat} {data : Bytes} (hnew : c.log.snapshotIndex < index)
      (happlied : index ≤ c.lastApplied) :
      Shelves c (.snapshot index data) { c.shelf with index, data := some data }
  /-- A leader's snapshot, of more than the node knows to be committed. -/
  | accept {args : InstallSnapshotArgs} {now : Instant} {draw : Nat}
      (hterm : ¬ args.term < c.currentTerm) (hnew : c.commitIndex < args.lastIncludedIndex) :
      Shelves c (.handleInstallSnapshot args now draw)
        { index := max c.log.snapshotIndex args.lastIncludedIndex
          data := some args.data
          pending := some
            { lastIncludedIndex := args.lastIncludedIndex
              lastIncludedTerm := args.lastIncludedTerm
              data := args.data } }
  /-- The state machine gets what is pending. -/
  | hand : Shelves c .takeApplies { c.shelf with pending := none }

variable {c c' : ConsensusModule}

/-! ## Role transitions -/

theorem stepDown_shelf (term : Nat) : (c.stepDown term).shelf = c.shelf := by
  unfold stepDown
  dsimp only
  split
  · rfl
  · rfl

theorem yieldTo_shelf (term : Nat) (leader : NodeId) (now : Instant) (draw : Nat) :
    (c.yieldTo term leader now draw).shelf = c.shelf := by
  unfold yieldTo
  dsimp only
  split
  · exact stepDown_shelf term
  · rfl

theorem castVote_shelf (args : RequestVoteArgs) (now : Instant) (draw : Nat) :
    (c.castVote args now draw).1.shelf = c.shelf := by
  unfold castVote
  dsimp only
  split
  · rfl
  · rfl

theorem maybeBecomeLeader_shelf : c.maybeBecomeLeader.shelf = c.shelf := by
  unfold maybeBecomeLeader
  split
  · rfl
  · rfl

theorem maybeAdvanceCommit_shelf : c.maybeAdvanceCommit.shelf = c.shelf := by
  obtain ⟨j, heq⟩ := maybeAdvanceCommit_eq (c := c)
  rw [heq]
  rfl

/-! ## Handlers that leave it alone -/

theorem handleRequestVote_shelf (args : RequestVoteArgs) (now : Instant) (draw : Nat) :
    (c.handleRequestVote args now draw).1.shelf = c.shelf := by
  unfold handleRequestVote
  split
  · rfl
  · split
    · rfl
    · split
      · rw [castVote_shelf, stepDown_shelf]
      · exact castVote_shelf args now draw

theorem storeEntries_shelf (prevLogIndex : Nat) (entries : List LogEntry) :
    (c.storeEntries prevLogIndex entries).shelf = c.shelf := by
  have hindex : (splice c.log prevLogIndex entries).snapshotIndex = c.log.snapshotIndex :=
    (splice_boundary c.log prevLogIndex entries).1
  unfold storeEntries shelf
  dsimp only
  split
  · rw [hindex]
  · show (⟨(splice c.log prevLogIndex entries).snapshotIndex, _, _⟩ : Shelf) = _
    rw [hindex]
    rfl

theorem followCommit_shelf (leaderCommit : Nat) :
    (c.followCommit leaderCommit).shelf = c.shelf := by
  unfold followCommit
  split
  · rfl
  · rfl

theorem handleAppendEntries_shelf (args : AppendEntriesArgs) (now : Instant) (draw : Nat) :
    (c.handleAppendEntries args now draw).1.shelf = c.shelf := by
  unfold handleAppendEntries
  split
  · rfl
  · dsimp only
    split
    · exact yieldTo_shelf _ _ _ _
    · rw [followCommit_shelf, storeEntries_shelf, yieldTo_shelf]

theorem recordPreVoteReply_shelf (sender : NodeId) (reply : RequestVoteReply) :
    (c.recordPreVoteReply sender reply).shelf = c.shelf := by
  unfold recordPreVoteReply
  split
  · exact stepDown_shelf reply.term
  · split
    · rfl
    · rfl

theorem startElection_shelf (now : Instant) (draw : Nat) :
    (c.startElection now draw).1.shelf = c.shelf := by
  unfold startElection
  dsimp only
  rw [maybeBecomeLeader_shelf]
  rfl

theorem recordVoteReply_shelf (sender : NodeId) (reply : RequestVoteReply) :
    (c.recordVoteReply sender reply).shelf = c.shelf := by
  unfold recordVoteReply
  split
  · exact stepDown_shelf reply.term
  · split
    · rfl
    · split
      · exact maybeBecomeLeader_shelf
      · rfl

theorem handleAppendReply_shelf (peer : NodeId) (reply : AppendEntriesReply) (upTo : Nat) :
    (c.handleAppendReply peer reply upTo).shelf = c.shelf := by
  unfold handleAppendReply
  split
  · exact stepDown_shelf reply.term
  · split
    · rfl
    · split
      · exact maybeAdvanceCommit_shelf
      · rfl

theorem handleInstallSnapshotReply_shelf (peer : NodeId) (reply : InstallSnapshotReply)
    (upTo : Nat) : (c.handleInstallSnapshotReply peer reply upTo).shelf = c.shelf := by
  unfold handleInstallSnapshotReply
  split
  · exact stepDown_shelf reply.term
  · split
    · rfl
    · exact maybeAdvanceCommit_shelf

theorem submitCommand_shelf (command : Bytes) :
    (c.submitCommand command).1.shelf = c.shelf := by
  unfold submitCommand
  split
  · rfl
  · dsimp only
    rw [maybeAdvanceCommit_shelf]
    rfl

/-! ## Handlers that change it -/

theorem compact_index (log : Log) (index term : Nat) :
    (log.compact index term).snapshotIndex = max log.snapshotIndex index := by
  by_cases hle : index ≤ log.snapshotIndex
  · rw [Log.compact_stale hle, max_eq_left hle]
  · rw [(compact_boundary log term (by omega)).1, max_eq_right (by omega)]

theorem takeSnapshot_shelves {index : Nat} {data : Bytes}
    (h : c.takeSnapshot index data = some c') :
    Shelves c (.snapshot index data) c'.shelf := by
  unfold takeSnapshot at h
  split at h
  · cases h
    exact .keep
  · next hno =>
    push Not at hno
    split at h
    · cases h
    · next term hterm =>
      cases h
      have hindex := (compact_boundary c.log term hno.1).1
      show Shelves c _ ⟨(c.log.compact index term).snapshotIndex, some data, c.pendingSnapshot⟩
      rw [hindex]
      exact .compact hno.1 hno.2

theorem handleInstallSnapshot_shelves (args : InstallSnapshotArgs) (now : Instant) (draw : Nat) :
    Shelves c (.handleInstallSnapshot args now draw)
      (c.handleInstallSnapshot args now draw).1.shelf := by
  unfold handleInstallSnapshot
  split
  · exact .keep
  · next hterm =>
    obtain ⟨hlog, hcommit, -⟩ := yieldTo_keeps hterm args.leaderId now draw
    dsimp only
    split
    · rw [yieldTo_shelf]
      exact .keep
    · next hnew =>
      rw [hcommit] at hnew
      show Shelves c _ ⟨(Log.compact _ args.lastIncludedIndex _).snapshotIndex, _, _⟩
      rw [compact_index, hlog]
      exact .accept hterm (by omega)

theorem applyCommitted_shelf {fuel : Nat} {out : List Apply}
    (h : applyCommitted fuel c = some (c', out)) : c'.shelf = c.shelf := by
  induction fuel generalizing c out with
  | zero =>
      cases h
      rfl
  | succ fuel ih =>
      unfold applyCommitted at h
      split at h
      · dsimp only at h
        split at h
        · cases h
        · obtain ⟨⟨d, rest⟩, hd, heq⟩ := Option.map_eq_some_iff.mp h
          cases heq
          exact ih (c := { c with lastApplied := c.lastApplied + 1 }) hd
      · cases h
        rfl

theorem takeApplies_shelf {out : List Apply} (h : c.takeApplies = some (c', out)) :
    c'.shelf = { c.shelf with pending := none } := by
  unfold takeApplies at h
  obtain ⟨⟨d, rest⟩, hd, heq⟩ := Option.map_eq_some_iff.mp h
  cases heq
  exact applyCommitted_shelf hd

/-- A process starts with the snapshot that was persisted, and hands it to the state machine. -/
theorem startNode_shelf (hstored : Stored c) (cfg : ClusterConfig) (n : NodeId) (epoch : Nat)
    (now : Instant) (draw : Nat) :
    (startNode cfg n c.storage epoch now draw).core.shelf =
      { c.shelf with
        pending := c.shelf.data.map fun data => ⟨c.shelf.index, c.log.snapshotTerm, data⟩ } := by
  rw [hstored]
  rfl

/-- **What an operation can do to a node's snapshot.** -/
theorem Op.shelves {o : Op} (h : o.run c = some c') : Shelves c o c'.shelf := by
  have hkeep : ∀ {d : ConsensusModule}, d.shelf = c.shelf → Shelves c o d.shelf := by
    intro d hd
    rw [hd]
    exact .keep
  cases o with
  | handleRequestVote args now draw =>
      cases h
      exact hkeep (handleRequestVote_shelf args now draw)
  | handleAppendEntries args now draw =>
      cases h
      exact hkeep (handleAppendEntries_shelf args now draw)
  | handleInstallSnapshot args now draw =>
      cases h
      exact handleInstallSnapshot_shelves args now draw
  | recordPreVoteReply sender reply =>
      cases h
      exact hkeep (recordPreVoteReply_shelf sender reply)
  | recordVoteReply sender reply =>
      cases h
      exact hkeep (recordVoteReply_shelf sender reply)
  | handleAppendReply peer reply upTo =>
      cases h
      exact hkeep (handleAppendReply_shelf peer reply upTo)
  | handleInstallSnapshotReply peer reply upTo =>
      cases h
      exact hkeep (handleInstallSnapshotReply_shelf peer reply upTo)
  | startPreElection now draw =>
      cases h
      exact .keep
  | startElection now draw =>
      cases h
      exact hkeep (startElection_shelf now draw)
  | submitCommand command =>
      cases h
      exact hkeep (submitCommand_shelf command)
  | snapshot index data => exact takeSnapshot_shelves h
  | takeApplies =>
      obtain ⟨⟨d, out⟩, hd, heq⟩ := Option.map_eq_some_iff.mp h
      cases heq
      rw [takeApplies_shelf hd]
      exact .hand

end Murmur.Raft
