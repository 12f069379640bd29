/-
  Storage always holds the persistent fields: after every operation returns, what `load` would
  give back is what is in memory (`Stored`). One lemma an operation; those that change a
  persistent field end in `persist`, and the others leave all four alone.
-/
import Murmur.Raft.Refinement

namespace Murmur.Raft.ConsensusModule

variable {c : ConsensusModule}

theorem persist_stored (c : ConsensusModule) : Stored c.persist := rfl

theorem new_stored (id : NodeId) (peers : List NodeId) (storage : PersistentState)
    (timing : Timing) (now : Instant) (draw : Nat) :
    Stored (new id peers storage timing now draw) := rfl

/-! ## Elections -/

theorem stepDown_stored (h : Stored c) (term : Nat) : Stored (c.stepDown term) := by
  unfold stepDown
  by_cases hnew : term > c.currentTerm
  · simp only [hnew, if_true]
    exact persist_stored _
  · simp only [hnew, if_false]
    exact h

theorem maybeBecomeLeader_stored (h : Stored c) : Stored c.maybeBecomeLeader := by
  unfold maybeBecomeLeader
  split
  · exact h
  · exact h

theorem recordPreVoteReply_stored (h : Stored c) (sender : NodeId) (reply : RequestVoteReply) :
    Stored (c.recordPreVoteReply sender reply) := by
  unfold recordPreVoteReply
  split
  · exact stepDown_stored h reply.term
  · split
    · exact h
    · exact h

theorem startPreElection_stored (h : Stored c) (now : Instant) (draw : Nat) :
    Stored (c.startPreElection now draw).1 := h

theorem startElection_stored (now : Instant) (draw : Nat) : Stored (c.startElection now draw).1 :=
  maybeBecomeLeader_stored (persist_stored _)

theorem recordVoteReply_stored (h : Stored c) (sender : NodeId) (reply : RequestVoteReply) :
    Stored (c.recordVoteReply sender reply) := by
  unfold recordVoteReply
  split
  · exact stepDown_stored h reply.term
  · split
    · exact h
    · split
      · exact maybeBecomeLeader_stored (c := { c with votes := insert sender c.votes }) h
      · exact h

theorem castVote_stored (h : Stored c) (args : RequestVoteArgs) (now : Instant) (draw : Nat) :
    Stored (c.castVote args now draw).1 := by
  unfold castVote
  dsimp only
  split
  · exact persist_stored _
  · exact h

theorem handleRequestVote_stored (h : Stored c) (args : RequestVoteArgs) (now : Instant)
    (draw : Nat) : Stored (c.handleRequestVote args now draw).1 := by
  unfold handleRequestVote
  split
  · exact h
  · split
    · exact h
    · split
      · exact castVote_stored (stepDown_stored h args.term) args now draw
      · exact castVote_stored h args now draw

/-! ## Replication -/

theorem yieldTo_stored (h : Stored c) (term : Nat) (leader : NodeId) (now : Instant) (draw : Nat) :
    Stored (c.yieldTo term leader now draw) := by
  unfold yieldTo
  split
  · exact stepDown_stored h term
  · exact h

theorem storeEntries_stored (h : Stored c) (prevLogIndex : Nat) (entries : List LogEntry) :
    Stored (c.storeEntries prevLogIndex entries) := by
  unfold storeEntries
  dsimp only
  split
  · -- A message without entries leaves the log alone, and only then is nothing saved.
    next hnil =>
    rw [List.isEmpty_iff.mp hnil]
    exact h
  · exact persist_stored _

theorem followCommit_stored (h : Stored c) (leaderCommit : Nat) :
    Stored (c.followCommit leaderCommit) := by
  unfold followCommit
  split
  · exact h
  · exact h

theorem handleAppendEntries_stored (h : Stored c) (args : AppendEntriesArgs) (now : Instant)
    (draw : Nat) : Stored (c.handleAppendEntries args now draw).1 := by
  unfold handleAppendEntries
  have hy := yieldTo_stored h args.term args.leaderId now draw
  split
  · exact h
  · dsimp only
    split
    · exact hy
    · exact followCommit_stored (storeEntries_stored hy _ _) _

theorem advanceCommitFrom_stored (h : Stored c) (n : Nat) : Stored (c.advanceCommitFrom n) := by
  induction n with
  | zero => exact h
  | succ n ih =>
      unfold advanceCommitFrom
      split
      · split
        · exact h
        · exact ih
      · exact h

theorem maybeAdvanceCommit_stored (h : Stored c) : Stored c.maybeAdvanceCommit :=
  advanceCommitFrom_stored h _

theorem submitCommand_stored (h : Stored c) (command : Bytes) :
    Stored (c.submitCommand command).1 := by
  unfold submitCommand
  split
  · exact h
  · exact maybeAdvanceCommit_stored (persist_stored _)

theorem recordMatch_stored (h : Stored c) (peer : NodeId) (upTo : Nat) :
    Stored (c.recordMatch peer upTo) := h

theorem handleAppendReply_stored (h : Stored c) (peer : NodeId) (reply : AppendEntriesReply)
    (matchHint : Nat) : Stored (c.handleAppendReply peer reply matchHint) := by
  unfold handleAppendReply
  split
  · exact stepDown_stored h reply.term
  · split
    · exact h
    · split
      · exact maybeAdvanceCommit_stored (recordMatch_stored h peer matchHint)
      · exact h

/-! ## Snapshots and applying -/

theorem takeSnapshot_stored (h : Stored c) {takenAt : Nat} {data : Bytes} {c' : ConsensusModule}
    (hc : c.takeSnapshot takenAt data = some c') : Stored c' := by
  unfold takeSnapshot at hc
  split at hc
  · cases hc
    exact h
  · split at hc
    · cases hc
    · cases hc
      exact persist_stored _

theorem handleInstallSnapshot_stored (h : Stored c) (args : InstallSnapshotArgs) (now : Instant)
    (draw : Nat) : Stored (c.handleInstallSnapshot args now draw).1 := by
  unfold handleInstallSnapshot
  split
  · exact h
  · dsimp only
    split
    · exact yieldTo_stored h args.term args.leaderId now draw
    · exact persist_stored _

theorem handleInstallSnapshotReply_stored (h : Stored c) (peer : NodeId)
    (reply : InstallSnapshotReply) (upTo : Nat) :
    Stored (c.handleInstallSnapshotReply peer reply upTo) := by
  unfold handleInstallSnapshotReply
  split
  · exact stepDown_stored h reply.term
  · split
    · exact h
    · exact maybeAdvanceCommit_stored (recordMatch_stored h peer upTo)

theorem applyCommitted_stored {fuel : Nat} {c' : ConsensusModule} {out : List Apply}
    (h : Stored c) (hc : applyCommitted fuel c = some (c', out)) : Stored c' := by
  induction fuel generalizing c out with
  | zero =>
      cases hc
      exact h
  | succ fuel ih =>
      unfold applyCommitted at hc
      split at hc
      · dsimp only at hc
        split at hc
        · cases hc
        · obtain ⟨⟨d, rest⟩, hd, heq⟩ := Option.map_eq_some_iff.mp hc
          cases heq
          exact ih (c := { c with lastApplied := c.lastApplied + 1 }) h hd
      · cases hc
        exact h

theorem takeApplies_stored {c' : ConsensusModule} {out : List Apply} (h : Stored c)
    (hc : c.takeApplies = some (c', out)) : Stored c' := by
  unfold takeApplies at hc
  obtain ⟨⟨d, rest⟩, hd, heq⟩ := Option.map_eq_some_iff.mp hc
  cases heq
  exact applyCommitted_stored (c := { c with pendingSnapshot := none }) h hd

end Murmur.Raft.ConsensusModule
