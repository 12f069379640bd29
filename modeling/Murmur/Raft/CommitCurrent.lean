/-
  A leader is never behind with its commit index.

  `maybe_advance_commit` runs only where something that counts has changed: after an append and
  after an acknowledgement. That is enough: in every reachable state a leader has committed whatever
  its own tables allow it to commit (`leader_commit_is_current`). A new leader has no entry of its
  term to commit; all other operations leave log and tables as they are, or cut off what is
  committed.
-/
import Murmur.Raft.Completeness
import Murmur.Raft.Standing

namespace Murmur.Raft

open Murmur.Basis Murmur.Protocol ConsensusModule

variable {cfg : ClusterConfig} {s s' : Cluster} {a : Ghost} {n : NodeId} {c c' : ConsensusModule}

namespace ConsensusModule

/-- Nothing above the commit index can be committed. -/
def Current (c : ConsensusModule) : Prop := ∀ i, c.commitIndex < i → ¬ c.Committable i

/-- What a log says about the terms in it: none is ahead of the node, and a candidate has nothing of
    its term yet. -/
structure Aged (c : ConsensusModule) : Prop where
  terms : ∀ {i t}, c.commitIndex < i → c.log.termAt i = some t → t ≤ c.currentTerm
  fresh : c.role = .candidate → ∀ {i t}, c.commitIndex < i → c.log.termAt i = some t →
    t ≠ c.currentTerm

theorem termAt_le {log : Log} {i t : Nat} (h : log.termAt i = some t) : i ≤ log.lastIndex := by
  unfold Log.termAt at h
  split at h
  · unfold Log.lastIndex
    omega
  · split at h
    · next hin => exact hin.2
    · cases h

/-- The scan leaves nothing. -/
theorem maybeAdvanceCommit_current (c : ConsensusModule) : c.maybeAdvanceCommit.Current := by
  rcases advanceCommitFrom_spec (c := c) c.log.lastIndex with ⟨heq, hnone⟩ |
    ⟨j, hj, -, -, hhighest, heq⟩
  · intro i hi hok
    have heq : c.maybeAdvanceCommit = c := heq
    rw [heq] at hi hok
    exact hnone i hi (termAt_le hok.1) hok
  · intro i hi hok
    have heq : c.maybeAdvanceCommit = { c with commitIndex := j } := heq
    rw [heq] at hi hok
    exact hhighest i hi (termAt_le hok.1) hok

/-- A leader has committed what it can. -/
def CaughtUp (c : ConsensusModule) : Prop := c.role = .leader → c.Current

theorem CaughtUp.of_role (h : c.role ≠ .leader) : c.CaughtUp := fun hlead => absurd hlead h

/-- A node wins a term of which its log has nothing. -/
theorem maybeBecomeLeader_caughtUp
    (h : ∀ {i t}, c.commitIndex < i → c.log.termAt i = some t → t ≠ c.currentTerm)
    (hrole : c.role ≠ .leader) : c.maybeBecomeLeader.CaughtUp := by
  unfold maybeBecomeLeader
  split
  · intro _ i hi hok
    exact h hi hok.1 rfl
  · exact .of_role hrole

end ConsensusModule

/-! ## One operation -/

theorem stepDown_role (term : Nat) : (c.stepDown term).role = .follower := by
  unfold stepDown
  dsimp only
  split
  · rfl
  · rfl

theorem castVote_caughtUp (h : c.CaughtUp) (args : RequestVoteArgs) (now : Instant) (draw : Nat) :
    (c.castVote args now draw).1.CaughtUp := by
  unfold castVote
  dsimp only
  split
  · exact h
  · exact h

theorem handleRequestVote_caughtUp (h : c.CaughtUp) (args : RequestVoteArgs) (now : Instant)
    (draw : Nat) : (c.handleRequestVote args now draw).1.CaughtUp := by
  unfold handleRequestVote
  split
  · exact h
  · split
    · exact h
    · split
      · exact castVote_caughtUp (.of_role (by rw [stepDown_role]; exact nofun)) args now draw
      · exact castVote_caughtUp h args now draw

theorem handleAppendEntries_caughtUp (h : c.CaughtUp) (args : AppendEntriesArgs) (now : Instant)
    (draw : Nat) : (c.handleAppendEntries args now draw).1.CaughtUp := by
  unfold handleAppendEntries
  split
  · exact h
  · next hterm =>
      have hrole : (c.yieldTo args.term args.leaderId now draw).role ≠ .leader := by
        rw [yieldTo_role]
        exact nofun
      dsimp only
      split
      · exact .of_role hrole
      · have hkeep := (congrArg Standing.role (followCommit_standing args.leaderCommit)).trans
          (congrArg Standing.role (storeEntries_standing
            (c := c.yieldTo args.term args.leaderId now draw) args.prevLogIndex args.entries))
        exact .of_role fun hlead => hrole (hkeep.symm.trans hlead)

theorem handleInstallSnapshot_caughtUp (h : c.CaughtUp) (args : InstallSnapshotArgs) (now : Instant)
    (draw : Nat) : (c.handleInstallSnapshot args now draw).1.CaughtUp := by
  unfold handleInstallSnapshot
  split
  · exact h
  · next hterm =>
      have hrole : (c.yieldTo args.term args.leaderId now draw).role ≠ .leader := by
        rw [yieldTo_role]
        exact nofun
      dsimp only
      split
      · exact .of_role hrole
      · exact .of_role hrole

/-- A reply of a newer term. -/
theorem outranked_caughtUp (term : Nat) : { c.stepDown term with leaderId := none }.CaughtUp :=
  .of_role fun hlead => absurd ((stepDown_role term).symm.trans hlead) nofun

theorem recordPreVoteReply_caughtUp (h : c.CaughtUp) (sender : NodeId) (reply : RequestVoteReply) :
    (c.recordPreVoteReply sender reply).CaughtUp := by
  unfold recordPreVoteReply
  split
  · exact outranked_caughtUp reply.term
  · split
    · exact h
    · exact h

theorem recordVoteReply_caughtUp (h : c.CaughtUp) (haged : c.Aged) (sender : NodeId)
    (reply : RequestVoteReply) : (c.recordVoteReply sender reply).CaughtUp := by
  unfold recordVoteReply
  split
  · exact outranked_caughtUp reply.term
  · split
    · exact h
    · next hlive =>
        push Not at hlive
        split
        · have hrole : c.role ≠ .leader := by
            rw [hlive.1]
            exact nofun
          exact maybeBecomeLeader_caughtUp (c := { c with votes := insert sender c.votes })
            (haged.fresh hlive.1) hrole
        · exact h

theorem handleAppendReply_caughtUp (h : c.CaughtUp) (peer : NodeId) (reply : AppendEntriesReply)
    (upTo : Nat) : (c.handleAppendReply peer reply upTo).CaughtUp := by
  unfold handleAppendReply
  split
  · exact outranked_caughtUp reply.term
  · split
    · exact h
    · split
      · exact fun _ => maybeAdvanceCommit_current _
      · exact h

theorem handleInstallSnapshotReply_caughtUp (h : c.CaughtUp) (peer : NodeId)
    (reply : InstallSnapshotReply) (upTo : Nat) :
    (c.handleInstallSnapshotReply peer reply upTo).CaughtUp := by
  unfold handleInstallSnapshotReply
  split
  · exact outranked_caughtUp reply.term
  · split
    · exact h
    · exact fun _ => maybeAdvanceCommit_current _

theorem startElection_caughtUp (haged : c.Aged) (now : Instant) (draw : Nat) :
    (c.startElection now draw).1.CaughtUp := by
  rw [startElection_eq]
  refine maybeBecomeLeader_caughtUp (fun {i t} hi ht hterm => ?_) nofun
  have hle := haged.terms hi ht
  have hterm : t = c.currentTerm + 1 := hterm
  omega

theorem submitCommand_caughtUp (h : c.CaughtUp) (command : Bytes) :
    (c.submitCommand command).1.CaughtUp := by
  unfold submitCommand
  split
  · exact h
  · exact fun _ => maybeAdvanceCommit_current _

section Node

variable {lax : Prop} {taken : List Taken}

/-- Compaction cuts off what is committed. -/
theorem takeSnapshot_caughtUp (hnode : NodeInv cfg lax taken a n c) (h : c.CaughtUp) {index : Nat}
    {data : Bytes} (htake : c.takeSnapshot index data = some c') : c'.CaughtUp := by
  by_cases hskip : index ≤ c.log.snapshotIndex ∨ index > c.lastApplied
  · unfold takeSnapshot at htake
    rw [if_pos hskip] at htake
    cases htake
    exact h
  · have hci := hnode.cursors.applied_le
    obtain ⟨d, hd, -, hnode'⟩ := takeSnapshot_node hnode data hskip
    rw [htake] at hd
    cases hd
    obtain ⟨t, ht, -⟩ := termAt_of_applied hnode index (by omega) (by omega)
    have heq := htake.symm.trans (takeSnapshot_effect hskip ht)
    cases heq
    intro hrole i hi hok
    have hi : c.commitIndex < i := hi
    refine h hrole i hi ⟨?_, hok.2⟩
    have hbelow := hnode.cursors.snapshot_le
    have hbelow' := (compact_boundary c.log t (by omega : c.log.snapshotIndex < index)).1
    rw [hnode.mirrors.log.termAt_eq (by omega), ← hnode'.mirrors.log.termAt_eq (by
      show (c.log.compact index t).snapshotIndex ≤ i
      omega)]
    exact hok.1

theorem takeApplies_caughtUp (hnode : NodeInv cfg lax taken a n c) (h : c.CaughtUp)
    {out : List Apply} (htake : c.takeApplies = some (c', out)) : c'.CaughtUp := by
  rw [takeApplies_eq hnode] at htake
  cases htake
  exact h

/-- The terms of a log, by the protocol. -/
theorem NodeInv.aged (hs : Safe cfg a) (hnode : NodeInv cfg lax taken a n c) : c.Aged := by
  have hentry : ∀ {i t}, c.commitIndex < i → c.log.termAt i = some t →
      ∃ e ∈ a.log n, e.term = t := by
    intro i t hi ht
    have hplain := termAt_plain hnode.mirrors.log ht
    obtain ⟨k, rfl⟩ : ∃ k, i = k + 1 := ⟨i - 1, by omega⟩
    rw [plainTerm_succ, Option.map_eq_some_iff] at hplain
    obtain ⟨e, he, het⟩ := hplain
    exact ⟨e, List.mem_of_getElem? he, het⟩
  constructor
  · intro i t hi ht
    obtain ⟨e, he, rfl⟩ := hentry hi ht
    rw [hnode.mirrors.term]
    exact hs.logs.log_le he
  · intro hcand i t hi ht
    obtain ⟨e, he, rfl⟩ := hentry hi ht
    rw [← (hnode.candidacy hcand).log] at he
    have hlt := hs.logs.clog_lt he
    rw [hnode.mirrors.term]
    omega

/-- **No operation leaves a leader behind.** -/
theorem Op.caughtUp (hs : Safe cfg a) (hnode : NodeInv cfg lax taken a n c) (h : c.CaughtUp)
    {o : Op} (hrun : o.run c = some c') : c'.CaughtUp := by
  cases o with
  | handleRequestVote args now draw => cases hrun; exact handleRequestVote_caughtUp h args now draw
  | handleAppendEntries args now draw =>
      cases hrun
      exact handleAppendEntries_caughtUp h args now draw
  | handleInstallSnapshot args now draw =>
      cases hrun
      exact handleInstallSnapshot_caughtUp h args now draw
  | recordPreVoteReply sender reply => cases hrun; exact recordPreVoteReply_caughtUp h sender reply
  | recordVoteReply sender reply =>
      cases hrun
      exact recordVoteReply_caughtUp h (hnode.aged hs) sender reply
  | handleAppendReply peer reply upTo =>
      cases hrun
      exact handleAppendReply_caughtUp h peer reply upTo
  | handleInstallSnapshotReply peer reply upTo =>
      cases hrun
      exact handleInstallSnapshotReply_caughtUp h peer reply upTo
  | startPreElection now draw => cases hrun; exact h
  | startElection now draw => cases hrun; exact startElection_caughtUp (hnode.aged hs) now draw
  | submitCommand command => cases hrun; exact submitCommand_caughtUp h command
  | snapshot takenAt data => exact takeSnapshot_caughtUp hnode h hrun
  | takeApplies =>
      obtain ⟨⟨d, out⟩, hd, heq⟩ := Option.map_eq_some_iff.mp hrun
      cases heq
      exact takeApplies_caughtUp hnode h hd

end Node

/-! ## Whole runs -/

theorem reachable_caughtUp (h : Cluster.Reachable cfg s) :
    ∀ n ∈ cfg.members, (s.core n).CaughtUp := by
  refine (h.invariant (I := fun s => Cluster.Reachable cfg s ∧
    ∀ n ∈ cfg.members, (s.core n).CaughtUp) ?_
    ⟨Reaches.refl _ _, fun n _ => .of_role nofun⟩).2
  rintro s act s' ⟨hreach, hs⟩ hstep
  refine ⟨hreach.step hstep, fun n hn => ?_⟩
  obtain ⟨a, hr⟩ := reachable_refines hreach
  have hmoved := Cluster.step_core hstep n
  generalize s'.core n = c at hmoved ⊢
  cases hmoved with
  | same => exact hs n hn
  | op o hcall hrun => exact Op.caughtUp hr.safe (hr.nodes n hn) (hs n hn) hrun
  | start => exact .of_role nofun

/-- A majority of the members is a quorum of each of them. -/
theorem quorum_le_card {M : Finset NodeId} {quorum : Nat} (hcard : cfg.members.length < 2 * M.card)
    (hn : n ∈ cfg.members) (hquorum : quorum = ((cfg.peers n).length + 1) / 2 + 1) :
    quorum ≤ M.card := by
  have hlen := (cfg.peers_perm n hn).length_eq
  rw [List.length_cons] at hlen
  omega

/-- A leader that has a majority matched up to an entry of its term has committed it. -/
theorem committed_of_matched {M : Finset NodeId} {i : Nat} (h : Cluster.Reachable cfg s)
    (hM : ∀ v ∈ M, v ∈ cfg.members) (hcard : cfg.members.length < 2 * M.card) (hn : n ∈ M)
    (hl : (s.core n).role = .leader)
    (ht : (s.core n).log.termAt i = some (s.core n).currentTerm)
    (hmatched : ∀ p ∈ M.erase n, ∃ k, (s.core n).matchIndex.lookup p = some k ∧ i ≤ k) :
    i ≤ (s.core n).commitIndex := by
  obtain ⟨a, hr⟩ := reachable_refines h
  have hid := (hr.nodes n (hM n hn)).identity
  by_contra hlt
  refine reachable_caughtUp h n (hM n hn) hl _ (Nat.not_le.mp hlt) ⟨ht, decide_eq_true ?_⟩
  let holds : NodeId → Bool := fun p => decide (((s.core n).matchIndex.lookup p).getD 0 ≥ i)
  have hsub : M.erase n ⊆ ((s.core n).peers.filter holds).toFinset := by
    intro p hp
    obtain ⟨k, hk, hle⟩ := hmatched p hp
    obtain ⟨hpn, hpM⟩ := Finset.mem_erase.mp hp
    refine List.mem_toFinset.mpr (List.mem_filter.mpr ⟨?_, decide_eq_true ?_⟩)
    · rw [hid.peers]
      exact cfg.mem_peers (hM n hn) (hM p hpM) hpn
    · rw [hk]
      exact hle
  have hcount : (M.erase n).card ≤ (s.core n).peers.countP holds := by
    rw [List.countP_eq_length_filter]
    exact (Finset.card_le_card hsub).trans (List.toFinset_card_le _)
  have hquorum := quorum_le_card hcard (hM n hn) hid.quorum
  rw [Finset.card_erase_of_mem hn] at hcount
  show 1 + (s.core n).peers.countP holds ≥ (s.core n).quorum
  omega

/-- **A leader is never behind.** In every reachable state: an index above a leader's commit index
    that holds an entry of the leader's term is, by the leader's own tables, not on a majority. -/
theorem leader_commit_is_current (h : Cluster.Reachable cfg s) (hn : n ∈ cfg.members)
    (hl : (s.core n).role = .leader) {i : Nat} (hi : (s.core n).commitIndex < i)
    (ht : (s.core n).log.termAt i = some (s.core n).currentTerm) :
    (s.core n).isReplicatedOnMajority i = false := by
  have hno := reachable_caughtUp h n hn hl i hi
  cases hrep : (s.core n).isReplicatedOnMajority i with
  | false => rfl
  | true => exact absurd ⟨ht, hrep⟩ hno

set_option maxRecDepth 100000 in
/-- In `uncommitted` node 1 leads with one entry of its term, which nobody else is known to hold. -/
theorem leader_commit_is_current_uncommitted :
    (uncommitted.core 1).commitIndex = 0 ∧ (uncommitted.core 1).log.termAt 1 = some 1 ∧
      (uncommitted.core 1).isReplicatedOnMajority 1 = false :=
  have hreach : Cluster.Reachable trio uncommitted :=
    ⟨uncommittedRun, Option.eq_some_of_isSome uncommittedRun_isSome⟩
  ⟨by decide, by decide,
    leader_commit_is_current hreach (by decide) (by decide) (by decide) (by decide)⟩

end Murmur.Raft
