/-
  A node's standing in the cluster: who it is, its role, hint and term, the tally of its
  pre-election, and the tables it keeps as a leader.

  `Shift c o v` says once what an operation can do to it: `o`, called on `c`, leaves the standing
  `v`. Every invariant of these fields is a case analysis over it (`Op.shift`).
-/
import Murmur.Raft.Operation

namespace Murmur.Raft

open ConsensusModule

structure Standing where
  id : NodeId
  peers : List NodeId
  quorum : Nat
  role : Role
  leaderId : Option NodeId
  currentTerm : Nat
  preCandidate : Bool
  preVotes : Finset NodeId
  nextIndex : HashMap NodeId Nat
  matchIndex : HashMap NodeId Nat

def ConsensusModule.standing (c : ConsensusModule) : Standing :=
  { id := c.id
    peers := c.peers
    quorum := c.quorum
    role := c.role
    leaderId := c.leaderId
    currentTerm := c.currentTerm
    preCandidate := c.preCandidate
    preVotes := c.preVotes
    nextIndex := c.nextIndex
    matchIndex := c.matchIndex }

namespace Standing

/-- Follower of `term`, with no pre-election under way. -/
def follow (v : Standing) (term : Nat) (hint : Option NodeId) : Standing :=
  { v with
    role := .follower
    leaderId := hint
    currentTerm := term
    preCandidate := false
    preVotes := ∅ }

/-- Leader of `term`, with fresh tables. -/
def lead (c : ConsensusModule) (term : Nat) : Standing :=
  { id := c.id
    peers := c.peers
    quorum := c.quorum
    role := .leader
    leaderId := some c.id
    currentTerm := term
    preCandidate := false
    preVotes := ∅
    nextIndex := c.peers.foldl (fun m peer => m.insert peer (c.log.lastIndex + 1)) ∅
    matchIndex := c.peers.foldl (fun m peer => m.insert peer 0) ∅ }

end Standing

/-- The standing `o` can leave when it is called on `c`. -/
inductive Shift (c : ConsensusModule) : Op → Standing → Prop
  | keep (o : Op) : Shift c o c.standing
  /-- A newer term in a vote request: the hint stays as it was. -/
  | outdated (args : RequestVoteArgs) (now : Instant) (draw : Nat) (hpre : ¬ args.preVote = true)
      (hnew : c.currentTerm < args.term) :
      Shift c (.handleRequestVote args now draw) (c.standing.follow args.term c.leaderId)
  /-- A newer term in a reply. -/
  | stepDown (o : Op) (term : Nat) (hnew : c.currentTerm < term) :
      Shift c o (c.standing.follow term none)
  | yieldAppend (args : AppendEntriesArgs) (now : Instant) (draw : Nat)
      (hterm : ¬ args.term < c.currentTerm) :
      Shift c (.handleAppendEntries args now draw)
        (c.standing.follow args.term (some args.leaderId))
  | yieldInstall (args : InstallSnapshotArgs) (now : Instant) (draw : Nat)
      (hterm : ¬ args.term < c.currentTerm) :
      Shift c (.handleInstallSnapshot args now draw)
        (c.standing.follow args.term (some args.leaderId))
  | probe (now : Instant) (draw : Nat) :
      Shift c (.startPreElection now draw)
        { c.standing with preCandidate := true, preVotes := {c.id} }
  | preVote (sender : NodeId) (reply : RequestVoteReply) (hterm : ¬ reply.term > c.currentTerm)
      (hpre : c.preCandidate = true) (hgrant : reply.voteGranted = true) :
      Shift c (.recordPreVoteReply sender reply)
        { c.standing with preVotes := insert sender c.preVotes }
  | campaign (now : Instant) (draw : Nat) :
      Shift c (.startElection now draw)
        { c.standing.follow (c.currentTerm + 1) none with role := .candidate }
  /-- A node on its own wins at once. -/
  | acclaim (now : Instant) (draw : Nat) :
      Shift c (.startElection now draw) (Standing.lead c (c.currentTerm + 1))
  | win (sender : NodeId) (reply : RequestVoteReply) (hrole : c.role = .candidate) :
      Shift c (.recordVoteReply sender reply) (Standing.lead c c.currentTerm)
  | matchAppend (peer : NodeId) (reply : AppendEntriesReply) (upTo : Nat) (hrole : c.role = .leader)
      (hterm : reply.term = c.currentTerm) (hok : reply.success = true) :
      Shift c (.handleAppendReply peer reply upTo) (c.recordMatch peer upTo).standing
  | matchInstall (peer : NodeId) (reply : InstallSnapshotReply) (upTo : Nat)
      (hrole : c.role = .leader) (hterm : reply.term = c.currentTerm) :
      Shift c (.handleInstallSnapshotReply peer reply upTo) (c.recordMatch peer upTo).standing
  | backtrack (peer : NodeId) (reply : AppendEntriesReply) (upTo next : Nat)
      (hrole : c.role = .leader) (hterm : reply.term = c.currentTerm) :
      Shift c (.handleAppendReply peer reply upTo)
        { c.standing with nextIndex := c.nextIndex.insert peer next }

variable {c c' : ConsensusModule}

/-! ## The parts of the operations -/

theorem stepDown_standing {term : Nat} (hnew : c.currentTerm < term) :
    (c.stepDown term).standing = c.standing.follow term c.leaderId := by
  unfold stepDown
  simp only [gt_iff_lt, hnew, if_true]
  rfl

theorem castVote_standing (args : RequestVoteArgs) (now : Instant) (draw : Nat) :
    (c.castVote args now draw).1.standing = c.standing := by
  unfold castVote
  dsimp only
  split
  · rfl
  · rfl

theorem yieldTo_standing {term : Nat} (hterm : ¬ term < c.currentTerm) (leader : NodeId)
    (now : Instant) (draw : Nat) :
    (c.yieldTo term leader now draw).standing = c.standing.follow term (some leader) := by
  unfold yieldTo
  split
  · next hnew =>
      simp only [ConsensusModule.stepDown, hnew, if_true]
      rfl
  · have heq : c.currentTerm = term := by omega
    subst heq
    rfl

theorem storeEntries_standing (prev : Nat) (entries : List LogEntry) :
    (c.storeEntries prev entries).standing = c.standing := by
  unfold storeEntries
  dsimp only
  split
  · rfl
  · rfl

theorem followCommit_standing (k : Nat) : (c.followCommit k).standing = c.standing := by
  unfold followCommit
  split
  · rfl
  · rfl

theorem maybeAdvanceCommit_standing : c.maybeAdvanceCommit.standing = c.standing := by
  obtain ⟨j, heq⟩ := maybeAdvanceCommit_eq (c := c)
  rw [heq]
  rfl

theorem applyCommitted_standing {fuel : Nat} {out : List Apply}
    (h : applyCommitted fuel c = some (c', out)) : c'.standing = c.standing := by
  induction fuel generalizing c out with
  | zero =>
      cases h
      rfl
  | succ fuel ih =>
      unfold applyCommitted at h
      split at h
      · dsimp only at h
        split at h
        · cases h
        · obtain ⟨⟨d, rest⟩, hd, heq⟩ := Option.map_eq_some_iff.mp h
          cases heq
          exact ih (c := { c with lastApplied := c.lastApplied + 1 }) hd
      · cases h
        rfl

/-! ## The operations -/

theorem handleRequestVote_shift (args : RequestVoteArgs) (now : Instant) (draw : Nat) :
    Shift c (.handleRequestVote args now draw) (c.handleRequestVote args now draw).1.standing := by
  unfold handleRequestVote
  split
  · exact .keep _
  · next hpre =>
      split
      · exact .keep _
      · split
        · next hnew =>
            rw [castVote_standing, stepDown_standing hnew]
            exact .outdated args now draw hpre hnew
        · rw [castVote_standing]
          exact .keep _

theorem handleAppendEntries_shift (args : AppendEntriesArgs) (now : Instant) (draw : Nat) :
    Shift c (.handleAppendEntries args now draw)
      (c.handleAppendEntries args now draw).1.standing := by
  unfold handleAppendEntries
  split
  · exact .keep _
  · next hterm =>
      have hyield := yieldTo_standing hterm args.leaderId now draw
      dsimp only
      split
      · rw [hyield]
        exact .yieldAppend args now draw hterm
      · rw [followCommit_standing, storeEntries_standing, hyield]
        exact .yieldAppend args now draw hterm

theorem handleInstallSnapshot_shift (args : InstallSnapshotArgs) (now : Instant) (draw : Nat) :
    Shift c (.handleInstallSnapshot args now draw)
      (c.handleInstallSnapshot args now draw).1.standing := by
  unfold handleInstallSnapshot
  split
  · exact .keep _
  · next hterm =>
      have hyield := yieldTo_standing hterm args.leaderId now draw
      dsimp only
      split
      · rw [hyield]
        exact .yieldInstall args now draw hterm
      · show Shift c _ (c.yieldTo args.term args.leaderId now draw).standing
        rw [hyield]
        exact .yieldInstall args now draw hterm

/-- A reply of a newer term. -/
theorem outranked_shift (o : Op) {term : Nat} (hnew : term > c.currentTerm) :
    Shift c o { c.stepDown term with leaderId := none }.standing := by
  have hstep := stepDown_standing hnew
  have heq : { c.stepDown term with leaderId := none }.standing = c.standing.follow term none :=
    congrArg (fun v : Standing => { v with leaderId := none }) hstep
  rw [heq]
  exact .stepDown o term hnew

theorem recordPreVoteReply_shift (sender : NodeId) (reply : RequestVoteReply) :
    Shift c (.recordPreVoteReply sender reply) (c.recordPreVoteReply sender reply).standing := by
  unfold recordPreVoteReply
  split
  · next hnew => exact outranked_shift _ hnew
  · next hterm =>
      split
      · next hpre => exact .preVote sender reply hterm hpre.1 hpre.2
      · exact .keep _

theorem recordVoteReply_shift (sender : NodeId) (reply : RequestVoteReply) :
    Shift c (.recordVoteReply sender reply) (c.recordVoteReply sender reply).standing := by
  unfold recordVoteReply
  split
  · next hnew => exact outranked_shift _ hnew
  · split
    · exact .keep _
    · next hlive =>
        push Not at hlive
        split
        · unfold maybeBecomeLeader
          split
          · exact .win sender reply hlive.1
          · exact .keep _
        · exact .keep _

theorem handleAppendReply_shift (peer : NodeId) (reply : AppendEntriesReply) (upTo : Nat) :
    Shift c (.handleAppendReply peer reply upTo)
      (c.handleAppendReply peer reply upTo).standing := by
  unfold handleAppendReply
  split
  · next hnew => exact outranked_shift _ hnew
  · split
    · exact .keep _
    · next hlive =>
        push Not at hlive
        split
        · next hok =>
            rw [maybeAdvanceCommit_standing]
            exact .matchAppend peer reply upTo hlive.1 hlive.2 hok
        · exact .backtrack peer reply upTo _ hlive.1 hlive.2

theorem handleInstallSnapshotReply_shift (peer : NodeId) (reply : InstallSnapshotReply)
    (upTo : Nat) : Shift c (.handleInstallSnapshotReply peer reply upTo)
      (c.handleInstallSnapshotReply peer reply upTo).standing := by
  unfold handleInstallSnapshotReply
  split
  · next hnew => exact outranked_shift _ hnew
  · split
    · exact .keep _
    · next hlive =>
        push Not at hlive
        rw [maybeAdvanceCommit_standing]
        exact .matchInstall peer reply upTo hlive.1 hlive.2

theorem startElection_shift (now : Instant) (draw : Nat) :
    Shift c (.startElection now draw) (c.startElection now draw).1.standing := by
  unfold startElection maybeBecomeLeader
  dsimp only
  split
  · exact .acclaim now draw
  · exact .campaign now draw

/-- **What an operation can do to a node's standing.** -/
theorem Op.shift {o : Op} (h : o.run c = some c') : Shift c o c'.standing := by
  cases o with
  | handleRequestVote args now draw => cases h; exact handleRequestVote_shift args now draw
  | handleAppendEntries args now draw => cases h; exact handleAppendEntries_shift args now draw
  | handleInstallSnapshot args now draw =>
      cases h
      exact handleInstallSnapshot_shift args now draw
  | recordPreVoteReply sender reply => cases h; exact recordPreVoteReply_shift sender reply
  | recordVoteReply sender reply => cases h; exact recordVoteReply_shift sender reply
  | handleAppendReply peer reply upTo => cases h; exact handleAppendReply_shift peer reply upTo
  | handleInstallSnapshotReply peer reply upTo =>
      cases h
      exact handleInstallSnapshotReply_shift peer reply upTo
  | startPreElection now draw => cases h; exact .probe now draw
  | startElection now draw => cases h; exact startElection_shift now draw
  | submitCommand command =>
      cases h
      unfold ConsensusModule.submitCommand
      split
      · exact .keep _
      · dsimp only
        rw [maybeAdvanceCommit_standing]
        exact .keep _
  | snapshot takenAt data =>
      change c.takeSnapshot takenAt data = some c' at h
      unfold takeSnapshot at h
      split at h
      · cases h
        exact .keep _
      · split at h
        · cases h
        · cases h
          exact .keep _
  | takeApplies =>
      obtain ⟨⟨d, out⟩, hd, heq⟩ := Option.map_eq_some_iff.mp h
      cases heq
      unfold ConsensusModule.takeApplies at hd
      obtain ⟨⟨d', rest⟩, hd', heq⟩ := Option.map_eq_some_iff.mp hd
      cases heq
      rw [applyCommitted_standing hd']
      exact .keep _

/-- What a leader makes of a command. -/
theorem submitCommand_effect (hrole : c.role = .leader) (command : Bytes) :
    (c.submitCommand command).2 = some (c.log.lastIndex + 1) ∧
      (c.submitCommand command).1.log = (c.log.append ⟨c.currentTerm, command⟩).1 ∧
      (c.submitCommand command).1.standing = c.standing := by
  unfold submitCommand
  rw [if_neg (not_not_intro hrole)]
  refine ⟨?_, maybeAdvanceCommit_log, maybeAdvanceCommit_standing⟩
  show some (c.log.snapshotIndex + (c.log.entries ++ [_]).length) = _
  rw [List.length_append]
  rfl

end Murmur.Raft
