/-
  Leader completeness, and that committed entries stay.

  * `committed_in_later_leaders`: what a leader committed, every leader of a later term of the run
    holds, whether it led before or after; and no node gives up what it takes as committed.
  * `Holds`: an entry is held in the log, or by the snapshot that took its place.
  * `InPlace`: a leader's commit index rises over entries it still has.
-/
import Murmur.Raft.Safety

namespace Murmur.Raft

open Murmur.Basis Murmur.Protocol ConsensusModule

variable {cfg : ClusterConfig} {lax : Prop} {taken : List Taken} {s s' : Cluster} {a a' : Ghost}
  {n m : NodeId} {c : ConsensusModule}

/-! ## Held entries -/

/-- Node `n` has `e` at `i`: in its log, or in the prefix its snapshot stands for. -/
def Holds (s : Cluster) (n : NodeId) (i : Nat) (e : LogEntry) : Prop :=
  (s.core n).log.get i = some e ∨ i ≤ (s.core n).log.snapshotIndex ∧
    ∃ data, (s.core n).snapshot = some data ∧
      Covers s.taken (s.core n).log.snapshotIndex data i e

theorem Refines.holds (hr : Refines cfg lax s a) (hn : n ∈ cfg.members) {i : Nat} {e : LogEntry}
    (he : (a.log n)[i]? = some e) : Holds s n (i + 1) e := by
  have hN := hr.nodes n hn
  rcases Nat.lt_or_ge i (s.core n).log.snapshotIndex with hlt | hge
  · right
    refine ⟨hlt, ?_⟩
    cases hsn : (s.core n).snapshot with
    | none =>
        have := hN.cursors.no_snapshot hsn
        omega
    | some data =>
        have hb := (hN.cursors.backed hsn).2 i e (by rw [List.getElem?_take_of_lt hlt]; exact he)
        rw [List.length_take, Nat.min_eq_left hN.mirrors.log.le] at hb
        exact ⟨data, rfl, hb⟩
  · left
    rw [hN.mirrors.log.get_eq (by omega)]
    exact he

/-- What `n` has committed at a state, `m` has in its log at another state of the run, in which
    it leads a later term. -/
theorem committed_held {T : Nat} {i : Nat} {e : LogEntry} (hr : Refines cfg lax s a)
    (hr' : Refines cfg lax s' a') (hm : m ∈ cfg.members) (hl : (s'.core m).role = .leader)
    (hcom : Commits cfg a T ((a.log n).take i)) (hlt : T < (s'.core m).currentTerm)
    (hrun : Later cfg.quorums LogEntry.term a a' ∨ Later cfg.quorums LogEntry.term a' a)
    {j : Nat} (hj : j < i) (he : (a.log n)[j]? = some e) : Holds s' m (j + 1) e := by
  have hM := (hr'.nodes m hm).leadership hl
  rw [(hr'.nodes m hm).mirrors.term] at hlt
  have hpre : (a.log n).take i <+: a'.log m := by
    rw [← hM.log]
    rcases hrun with hlater | hlater
    · exact ((hcom.grow (hlater.grows hr.safe)).mono hlt.le).pre_llog hr'.safe hM.lead
    · -- The leader was there first: it was elected with what is committed below its term.
      have hg := hlater.grows hr'.safe
      have hclog := hcom.pre_clog hr.safe hlt (hg.lead hM.lead)
      rw [hg.clog (hr'.safe.logs.lead_self hM.lead)] at hclog
      exact hclog.trans (hr'.safe.logs.lead_clog hM.lead)
  exact hr'.holds hm (getElem?_of_pre hpre (by rw [List.getElem?_take_of_lt hj]; exact he))

/-! ## A leader's commit index rises over entries it holds -/

/-- If the result is a leader with a higher commit index, its boundary did not move. -/
def InPlace (c c' : ConsensusModule) : Prop :=
  c'.role = .leader → c.commitIndex < c'.commitIndex →
    c'.log.snapshotIndex = c.log.snapshotIndex

theorem InPlace.of_commit {c c' : ConsensusModule} (h : c'.commitIndex = c.commitIndex) :
    InPlace c c' := fun _ hlt => absurd hlt (by omega)

theorem InPlace.of_follower {c c' : ConsensusModule} (h : c'.role = .follower) : InPlace c c' :=
  fun hl _ => absurd (h.symm.trans hl) (by simp)

theorem stepDown_commitIndex (term : Nat) : (c.stepDown term).commitIndex = c.commitIndex := by
  unfold stepDown
  by_cases hnew : term > c.currentTerm <;> simp only [hnew, if_true, if_false] <;> rfl

theorem maybeBecomeLeader_commitIndex : c.maybeBecomeLeader.commitIndex = c.commitIndex := by
  unfold maybeBecomeLeader
  split <;> rfl

theorem castVote_commitIndex (args : RequestVoteArgs) (now : Instant) (draw : Nat) :
    (c.castVote args now draw).1.commitIndex = c.commitIndex := by
  unfold castVote
  dsimp only
  split <;> rfl

theorem handleRequestVote_inPlace (args : RequestVoteArgs) (now : Instant) (draw : Nat) :
    InPlace c (c.handleRequestVote args now draw).1 := by
  unfold handleRequestVote
  split
  · exact .of_commit rfl
  · split
    · exact .of_commit rfl
    · split
      · exact .of_commit ((castVote_commitIndex _ _ _).trans (stepDown_commitIndex _))
      · exact .of_commit (castVote_commitIndex _ _ _)

theorem handleAppendEntries_inPlace (args : AppendEntriesArgs) (now : Instant) (draw : Nat) :
    InPlace c (c.handleAppendEntries args now draw).1 := by
  unfold handleAppendEntries
  split
  · exact .of_commit rfl
  · dsimp only
    split
    · exact .of_follower (yieldTo_role _ _ _ _)
    · refine .of_follower ?_
      rw [followCommit_role, storeEntries_role, yieldTo_role]

theorem handleInstallSnapshot_inPlace (args : InstallSnapshotArgs) (now : Instant) (draw : Nat) :
    InPlace c (c.handleInstallSnapshot args now draw).1 := by
  unfold handleInstallSnapshot
  split
  · exact .of_commit rfl
  · dsimp only
    split
    · exact .of_follower (yieldTo_role _ _ _ _)
    · exact .of_follower (yieldTo_role args.term args.leaderId now draw)

theorem recordPreVoteReply_inPlace (sender : NodeId) (reply : RequestVoteReply) :
    InPlace c (c.recordPreVoteReply sender reply) := by
  unfold recordPreVoteReply
  split
  · exact .of_commit (stepDown_commitIndex _)
  · split <;> exact .of_commit rfl

theorem recordVoteReply_inPlace (sender : NodeId) (reply : RequestVoteReply) :
    InPlace c (c.recordVoteReply sender reply) := by
  unfold recordVoteReply
  split
  · exact .of_commit (stepDown_commitIndex _)
  · split
    · exact .of_commit rfl
    · split
      · exact .of_commit maybeBecomeLeader_commitIndex
      · exact .of_commit rfl

theorem handleAppendReply_inPlace (peer : NodeId) (reply : AppendEntriesReply) (upTo : Nat) :
    InPlace c (c.handleAppendReply peer reply upTo) := by
  unfold handleAppendReply
  split
  · exact .of_commit (stepDown_commitIndex _)
  · split
    · exact .of_commit rfl
    · split
      · exact fun _ _ => by rw [maybeAdvanceCommit_log]; rfl
      · exact .of_commit rfl

theorem handleInstallSnapshotReply_inPlace (peer : NodeId) (reply : InstallSnapshotReply)
    (upTo : Nat) : InPlace c (c.handleInstallSnapshotReply peer reply upTo) := by
  unfold handleInstallSnapshotReply
  split
  · exact .of_commit (stepDown_commitIndex _)
  · split
    · exact .of_commit rfl
    · exact fun _ _ => by rw [maybeAdvanceCommit_log]; rfl

theorem submitCommand_inPlace (command : Bytes) : InPlace c (c.submitCommand command).1 := by
  unfold submitCommand
  split
  · exact .of_commit rfl
  · exact fun _ _ => by rw [maybeAdvanceCommit_log]; rfl

theorem takeSnapshot_inPlace {c' : ConsensusModule} {takenAt : Nat} {data : Bytes}
    (h : c.takeSnapshot takenAt data = some c') : InPlace c c' := by
  unfold takeSnapshot at h
  split at h
  · cases h
    exact .of_commit rfl
  · split at h
    · cases h
    · cases h
      exact .of_commit rfl

theorem Op.inPlace {c' : ConsensusModule} {o : Op} (h : o.run c = some c') : InPlace c c' := by
  cases o with
  | handleRequestVote args now draw => cases h; exact handleRequestVote_inPlace args now draw
  | handleAppendEntries args now draw => cases h; exact handleAppendEntries_inPlace args now draw
  | handleInstallSnapshot args now draw =>
      cases h
      exact handleInstallSnapshot_inPlace args now draw
  | recordPreVoteReply sender reply => cases h; exact recordPreVoteReply_inPlace sender reply
  | recordVoteReply sender reply => cases h; exact recordVoteReply_inPlace sender reply
  | handleAppendReply peer reply upTo => cases h; exact handleAppendReply_inPlace peer reply upTo
  | handleInstallSnapshotReply peer reply upTo =>
      cases h
      exact handleInstallSnapshotReply_inPlace peer reply upTo
  | startPreElection now draw => cases h; exact .of_commit rfl
  | startElection now draw => cases h; exact .of_commit maybeBecomeLeader_commitIndex
  | submitCommand command => cases h; exact submitCommand_inPlace command
  | snapshot takenAt data => exact takeSnapshot_inPlace h
  | takeApplies =>
      obtain ⟨⟨d, out⟩, hd, heq⟩ := Option.map_eq_some_iff.mp h
      cases heq
      exact .of_commit (takeApplies_commitIndex hd)

theorem step_inPlace {act : Action} (hstep : Cluster.step cfg s act = some s') (n : NodeId) :
    InPlace (s.core n) (s'.core n) := by
  have hmoved := Cluster.step_core hstep n
  generalize s'.core n = c at hmoved ⊢
  cases hmoved with
  | same => exact .of_commit rfl
  | op o hcall hrun => exact Op.inPlace hrun
  | start => exact .of_follower rfl

/-! ## Leader completeness -/

/-- Nothing a node takes as committed is given up by a step: it stays in the log, or goes into
    the prefix the node's snapshot stands for. -/
theorem step_keeps_committed (h : Cluster.Reachable cfg s) {act : Action}
    (hstep : Cluster.step cfg s act = some s') (hn : n ∈ cfg.members) {i : Nat} {e : LogEntry}
    (hi : i ≤ (s.core n).commitIndex) (he : (s.core n).log.get i = some e) : Holds s' n i e := by
  obtain ⟨a, hr⟩ := reachable_refines h
  obtain ⟨a', hans⟩ := step_refines hr (fun hno => absurd trivial hno) hstep
  have hlater := hans.later
  have hr' := hans.refines
  have hN := hr.nodes n hn
  obtain ⟨hget, hpos⟩ := hN.mirrors.log.getElem?_of_get he
  have hpre := hlater.stable hr.safe hN.cursors.committed <| List.take_prefix _ _
  obtain ⟨k, rfl⟩ : ∃ k, i = k + 1 := ⟨i - 1, by omega⟩
  exact hr'.holds hn (getElem?_of_pre hpre (by rw [List.getElem?_take_of_lt hi]; exact hget))

/-- Two states of one run. -/
def OneRun (cfg : ClusterConfig) (s s' : Cluster) : Prop :=
  Cluster.Reachable cfg s ∧ Cluster.Leads cfg s s' ∨
    Cluster.Reachable cfg s' ∧ Cluster.Leads cfg s' s

theorem OneRun.refines (h : OneRun cfg s s') : ∃ a a', Refines cfg True s a ∧
    Refines cfg True s' a' ∧
    (Later cfg.quorums LogEntry.term a a' ∨ Later cfg.quorums LogEntry.term a' a) := by
  rcases h with ⟨h, h'⟩ | ⟨h, h'⟩
  · obtain ⟨a, hr⟩ := reachable_refines h
    obtain ⟨a', hlater, hr'⟩ := leads_refines hr h'
    exact ⟨a, a', hr, hr', Or.inl hlater⟩
  · obtain ⟨a', hr'⟩ := reachable_refines h
    obtain ⟨a, hlater, hr⟩ := leads_refines hr' h'
    exact ⟨a, a', hr, hr', Or.inr hlater⟩

/-- **Leader completeness.** In the step from `s₀` to `s` the leader `n` of its term raised its
    commit index over `i`. It holds an entry `e` there, and every `m` that leads a later term
    in any state `s'` of the run holds `e` at `i`. And along every step, no node gives up an
    entry at or below its commit index. -/
theorem committed_in_later_leaders (cfg : ClusterConfig) :
    (∀ s₀ act s n i, Cluster.Reachable cfg s₀ → Cluster.step cfg s₀ act = some s →
      n ∈ cfg.members → (s.core n).role = .leader → (s₀.core n).commitIndex < i →
      i ≤ (s.core n).commitIndex → ∃ e, (s.core n).log.get i = some e ∧
        ∀ s' m, OneRun cfg s s' → m ∈ cfg.members → (s'.core m).role = .leader →
          (s.core n).currentTerm < (s'.core m).currentTerm → Holds s' m i e) ∧
    ∀ s act s' n i e, Cluster.Reachable cfg s → Cluster.step cfg s act = some s' →
      n ∈ cfg.members → i ≤ (s.core n).commitIndex → (s.core n).log.get i = some e →
        Holds s' n i e := by
  refine ⟨fun s₀ act s n i h₀ hstep hn hl hlo hhi => ?_,
    fun s act s' n i e h hstep hn hi he => step_keeps_committed h hstep hn hi he⟩
  obtain ⟨a₀, hr₀⟩ := reachable_refines h₀
  have hN₀ := hr₀.nodes n hn
  have hbound : (s.core n).log.snapshotIndex < i := by
    have := step_inPlace hstep n hl (by omega)
    have := hN₀.cursors.snapshot_le
    have := hN₀.cursors.applied_le
    omega
  have hget : ∀ {b : Ghost}, Refines cfg True s b → (s.core n).log.get i = (b.log n)[i - 1]? :=
    fun hr => (hr.nodes n hn).mirrors.log.get_eq hbound
  obtain ⟨a, hr⟩ := reachable_refines (h₀.step hstep)
  have hle := (hr.nodes n hn).cursors.commit_le
  obtain ⟨e, he⟩ : ∃ e, (a.log n)[i - 1]? = some e :=
    ⟨_, List.getElem?_eq_getElem (by omega)⟩
  refine ⟨e, (hget hr).trans he, fun s' m hrun hm hl' hlt => ?_⟩
  obtain ⟨b, b', hb, hb', hlater⟩ := hrun.refines
  rw [← hget hr, hget hb] at he
  rw [(hb.nodes n hn).mirrors.term] at hlt
  have := committed_held hb hb' hm hl' (hb.nodes n hn).cursors.committed hlt hlater
    (j := i - 1) (by omega) he
  rwa [Nat.sub_add_cancel (by omega)] at this

/-- The state before node 1 commits, and the election of node 2 by node 3 after it. -/
def uncommittedRun : List Action :=
  electedRun ++ [.propose 1 [7], .tick 1 1100 0, .serve 4 1100 0]

def successionRun : List Action :=
  [.tick 2 2000 0, .serve 7 2000 0, .fold 3, .tick 2 2000 0, .serve 9 2000 0, .fold 4]

set_option maxRecDepth 100000 in
theorem uncommittedRun_isSome :
    (run (Cluster.step trio) (Cluster.init trio) uncommittedRun).isSome = true := by decide

def uncommitted : Cluster :=
  (run (Cluster.step trio) (Cluster.init trio) uncommittedRun).get uncommittedRun_isSome

set_option maxRecDepth 100000 in
theorem successionRun_isSome :
    (run (Cluster.step trio) committed successionRun).isSome = true := by decide

/-- The state in which node 2 leads term 2. -/
def succeeded : Cluster :=
  (run (Cluster.step trio) committed successionRun).get successionRun_isSome

theorem uncommitted_step : Cluster.step trio uncommitted (.fold 2) = some committed := by
  have h : run (Cluster.step trio) (Cluster.init trio) (uncommittedRun ++ [.fold 2]) =
      some committed := Option.eq_some_of_isSome committedRun_isSome
  rw [run_append, Option.eq_some_of_isSome uncommittedRun_isSome] at h
  have hlast : run (Cluster.step trio) uncommitted [.fold 2] = some committed := h
  rw [run_cons] at hlast
  obtain ⟨t, ht, hrest⟩ := Option.bind_eq_some_iff.mp hlast
  rw [← Option.some.inj hrest]
  exact ht

set_option maxRecDepth 100000 in
theorem committed_in_later_leaders_succeeded :
    (succeeded.core 2).role = .leader ∧ (committed.core 1).currentTerm = 1 ∧
      (succeeded.core 2).currentTerm = 2 ∧
      ∃ e, (committed.core 1).log.get 1 = some e ∧ Holds succeeded 2 1 e := by
  have hl : (succeeded.core 2).role = .leader := by decide
  have ht : (committed.core 1).currentTerm = 1 := by decide
  have ht' : (succeeded.core 2).currentTerm = 2 := by decide
  obtain ⟨e, he, hall⟩ := (committed_in_later_leaders trio).1 uncommitted (.fold 2) committed 1 1
    ⟨uncommittedRun, Option.eq_some_of_isSome uncommittedRun_isSome⟩ uncommitted_step
    (by decide) (by decide) (by decide) (by decide)
  exact ⟨hl, ht, ht', e, he, hall succeeded 2 (Or.inl ⟨committed_reachable,
    ⟨successionRun, Option.eq_some_of_isSome successionRun_isSome⟩⟩) (by decide) hl (by omega)⟩

end Murmur.Raft
