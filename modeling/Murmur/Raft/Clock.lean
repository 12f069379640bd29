/-
  Clocks and election timers.

  A cluster leaves the instants its actions carry open. Here every node has a monotonic clock, which
  `Instant::now` reads: an action that reads it never sees an instant before an earlier reading of
  the same process. Nothing relates the clocks of two nodes, and a restart sets a clock anew.

  * `Timer`: what a node keeps of the time, and `Op.rearms`: what an operation can do to it.
  * `Clocked`: a cluster with its clocks. Its runs are runs of the cluster (`Clocked.reachable`).
  * `election_timer`: a node leaves a leader it has heard from alone for `electionMin`, and stands
    itself once nothing has rearmed its timer for `electionMax`.
-/
import Murmur.Raft.Safety
import Murmur.Raft.Standing
import Murmur.Raft.Steps

namespace Murmur.Raft

open Murmur.Basis ConsensusModule

variable {cfg : ClusterConfig} {c c' : ConsensusModule} {n : NodeId}

/-! ## Timers -/

/-- The timing in force, the last word from a leader, and when the node will stand for election. -/
structure Timer where
  timing : Timing
  contact : Instant
  deadline : Instant
deriving DecidableEq, Repr

def ConsensusModule.timer (c : ConsensusModule) : Timer :=
  { timing := c.timing, contact := c.lastLeaderContact, deadline := c.electionDeadline }

/-- The reading of the clock an operation is given, and the draw for a new timeout. -/
def Op.reading : Op → Option (Instant × Nat)
  | handleRequestVote _ now draw => some (now, draw)
  | handleAppendEntries _ now draw => some (now, draw)
  | handleInstallSnapshot _ now draw => some (now, draw)
  | startPreElection now draw => some (now, draw)
  | startElection now draw => some (now, draw)
  | _ => none

/-- The timer an operation can leave: as it was, armed anew, or armed anew after word from a
    leader. -/
inductive Rearms (t : Timer) (reading : Option (Instant × Nat)) : Timer → Prop
  | keep : Rearms t reading t
  | arm {now : Instant} {draw : Nat} (h : reading = some (now, draw)) :
      Rearms t reading { t with deadline := now + t.timing.randomElectionTimeout draw }
  | hear {now : Instant} {draw : Nat} (h : reading = some (now, draw)) :
      Rearms t reading
        { t with contact := now, deadline := now + t.timing.randomElectionTimeout draw }

theorem stepDown_timer (term : Nat) : (c.stepDown term).timer = c.timer := by
  unfold stepDown
  dsimp only
  split
  · rfl
  · rfl

theorem castVote_rearms (args : RequestVoteArgs) (now : Instant) (draw : Nat) :
    Rearms c.timer (some (now, draw)) (c.castVote args now draw).1.timer := by
  unfold castVote
  dsimp only
  split
  · exact .arm rfl
  · exact .keep

theorem yieldTo_timer (term : Nat) (leader : NodeId) (now : Instant) (draw : Nat) :
    (c.yieldTo term leader now draw).timer =
      { c.timer with contact := now, deadline := now + c.timing.randomElectionTimeout draw } := by
  unfold yieldTo
  split
  · have hstep := stepDown_timer (c := c) term
    show Timer.mk (c.stepDown term).timing now
      (now + (c.stepDown term).timing.randomElectionTimeout draw) = _
    rw [show (c.stepDown term).timing = c.timing from congrArg Timer.timing hstep]
    rfl
  · rfl

theorem storeEntries_timer (prev : Nat) (entries : List LogEntry) :
    (c.storeEntries prev entries).timer = c.timer := by
  unfold storeEntries
  dsimp only
  split
  · rfl
  · rfl

theorem followCommit_timer (k : Nat) : (c.followCommit k).timer = c.timer := by
  unfold followCommit
  split
  · rfl
  · rfl

theorem maybeAdvanceCommit_timer : c.maybeAdvanceCommit.timer = c.timer := by
  obtain ⟨j, heq⟩ := maybeAdvanceCommit_eq (c := c)
  rw [heq]
  rfl

theorem maybeBecomeLeader_timer : c.maybeBecomeLeader.timer = c.timer := by
  unfold maybeBecomeLeader
  split
  · rfl
  · rfl

theorem applyCommitted_timer {fuel : Nat} {out : List Apply}
    (h : applyCommitted fuel c = some (c', out)) : c'.timer = c.timer := by
  induction fuel generalizing c out with
  | zero =>
      cases h
      rfl
  | succ fuel ih =>
      unfold applyCommitted at h
      split at h
      · dsimp only at h
        split at h
        · cases h
        · obtain ⟨⟨d, rest⟩, hd, heq⟩ := Option.map_eq_some_iff.mp h
          cases heq
          exact ih (c := { c with lastApplied := c.lastApplied + 1 }) hd
      · cases h
        rfl

theorem handleRequestVote_rearms (args : RequestVoteArgs) (now : Instant) (draw : Nat) :
    Rearms c.timer (some (now, draw)) (c.handleRequestVote args now draw).1.timer := by
  unfold handleRequestVote
  split
  · exact .keep
  · split
    · exact .keep
    · split
      · rw [← stepDown_timer args.term]
        exact castVote_rearms args now draw
      · exact castVote_rearms args now draw

theorem handleAppendEntries_rearms (args : AppendEntriesArgs) (now : Instant) (draw : Nat) :
    Rearms c.timer (some (now, draw)) (c.handleAppendEntries args now draw).1.timer := by
  unfold handleAppendEntries
  split
  · exact .keep
  · have hyield := yieldTo_timer (c := c) args.term args.leaderId now draw
    dsimp only
    split
    · rw [hyield]
      exact .hear rfl
    · rw [followCommit_timer, storeEntries_timer, hyield]
      exact .hear rfl

theorem handleInstallSnapshot_rearms (args : InstallSnapshotArgs) (now : Instant) (draw : Nat) :
    Rearms c.timer (some (now, draw)) (c.handleInstallSnapshot args now draw).1.timer := by
  unfold handleInstallSnapshot
  split
  · exact .keep
  · have hyield := yieldTo_timer (c := c) args.term args.leaderId now draw
    dsimp only
    split
    · rw [hyield]
      exact .hear rfl
    · show Rearms _ _ (c.yieldTo args.term args.leaderId now draw).timer
      rw [hyield]
      exact .hear rfl

theorem recordPreVoteReply_timer (sender : NodeId) (reply : RequestVoteReply) :
    (c.recordPreVoteReply sender reply).timer = c.timer := by
  unfold recordPreVoteReply
  split
  · exact stepDown_timer reply.term
  · split
    · rfl
    · rfl

theorem recordVoteReply_timer (sender : NodeId) (reply : RequestVoteReply) :
    (c.recordVoteReply sender reply).timer = c.timer := by
  unfold recordVoteReply
  split
  · exact stepDown_timer reply.term
  · split
    · rfl
    · split
      · exact maybeBecomeLeader_timer
      · rfl

theorem handleAppendReply_timer (peer : NodeId) (reply : AppendEntriesReply) (upTo : Nat) :
    (c.handleAppendReply peer reply upTo).timer = c.timer := by
  unfold handleAppendReply
  split
  · exact stepDown_timer reply.term
  · split
    · rfl
    · split
      · exact maybeAdvanceCommit_timer
      · rfl

theorem handleInstallSnapshotReply_timer (peer : NodeId) (reply : InstallSnapshotReply)
    (upTo : Nat) : (c.handleInstallSnapshotReply peer reply upTo).timer = c.timer := by
  unfold handleInstallSnapshotReply
  split
  · exact stepDown_timer reply.term
  · split
    · rfl
    · exact maybeAdvanceCommit_timer

/-- **What an operation can do to a node's timer.** -/
theorem Op.rearms {o : Op} (h : o.run c = some c') : Rearms c.timer o.reading c'.timer := by
  cases o with
  | handleRequestVote args now draw => cases h; exact handleRequestVote_rearms args now draw
  | handleAppendEntries args now draw => cases h; exact handleAppendEntries_rearms args now draw
  | handleInstallSnapshot args now draw =>
      cases h
      exact handleInstallSnapshot_rearms args now draw
  | recordPreVoteReply sender reply => cases h; rw [recordPreVoteReply_timer]; exact .keep
  | recordVoteReply sender reply => cases h; rw [recordVoteReply_timer]; exact .keep
  | handleAppendReply peer reply upTo => cases h; rw [handleAppendReply_timer]; exact .keep
  | handleInstallSnapshotReply peer reply upTo =>
      cases h
      rw [handleInstallSnapshotReply_timer]
      exact .keep
  | startPreElection now draw => cases h; exact .arm rfl
  | startElection now draw =>
      cases h
      unfold ConsensusModule.startElection
      dsimp only
      rw [maybeBecomeLeader_timer]
      exact .arm rfl
  | submitCommand command =>
      cases h
      unfold ConsensusModule.submitCommand
      split
      · exact .keep
      · dsimp only
        rw [maybeAdvanceCommit_timer]
        exact .keep
  | snapshot takenAt data =>
      change c.takeSnapshot takenAt data = some c' at h
      unfold takeSnapshot at h
      split at h
      · cases h
        exact .keep
      · split at h
        · cases h
        · cases h
          exact .keep
  | takeApplies =>
      obtain ⟨⟨d, out⟩, hd, heq⟩ := Option.map_eq_some_iff.mp h
      cases heq
      unfold ConsensusModule.takeApplies at hd
      obtain ⟨⟨d', rest⟩, hd', heq⟩ := Option.map_eq_some_iff.mp hd
      cases heq
      rw [applyCommitted_timer hd']
      exact .keep

/-! ## Clocks -/

/-- A cluster, and what each node's clock read last. -/
structure Clocked where
  cluster : Cluster
  clock : NodeId → Instant

/-- The node whose clock an action reads, and the instant it reads. -/
def Action.reading (s : Cluster) : Action → Option (NodeId × Instant)
  | .tick n now _ => some (n, now)
  | .serve k now _ => (s.requests[k]?).map fun rpc => (rpc.peer, now)
  | .restart n now _ => some (n, now)
  | _ => none

def Action.isRestart : Action → Bool
  | .restart .. => true
  | _ => false

namespace Clocked

/-- A clock does not run backwards, unless it is set anew by a restart. -/
def onTime (x : Clocked) (act : Action) : Bool :=
  act.isRestart || (act.reading x.cluster).all fun r => x.clock r.1 ≤ r.2

/-- The clocks after an action. -/
def advance (x : Clocked) (act : Action) : NodeId → Instant :=
  match act.reading x.cluster with
  | some (n, now) => Function.update x.clock n now
  | none => x.clock

def init (cfg : ClusterConfig) : Clocked :=
  { cluster := Cluster.init cfg, clock := fun n => (cfg.boot n).1 }

def step (cfg : ClusterConfig) (x : Clocked) (act : Action) : Option Clocked :=
  if x.onTime act then
    (Cluster.step cfg x.cluster act).map fun s => { cluster := s, clock := x.advance act }
  else none

def Reachable (cfg : ClusterConfig) (x : Clocked) : Prop :=
  Basis.Reaches (step cfg) (init cfg) x

variable {x x' : Clocked} {act : Action}

theorem of_step (h : step cfg x act = some x') :
    x.onTime act = true ∧ Cluster.step cfg x.cluster act = some x'.cluster ∧
      x'.clock = x.advance act := by
  unfold step at h
  split at h
  · next hon =>
      obtain ⟨s, hs, rfl⟩ := Option.map_eq_some_iff.mp h
      exact ⟨hon, hs, rfl⟩
  · cases h

/-- A run with clocks is a run. -/
theorem leads (h : Basis.Reaches (step cfg) x x') : Cluster.Leads cfg x.cluster x'.cluster := by
  have hrefl : Cluster.Leads cfg x.cluster x.cluster := Reaches.refl _ _
  refine h.invariant (I := fun y => Cluster.Leads cfg x.cluster y.cluster) ?_ hrefl
  intro y act y' hy hstep
  exact Reaches.step hy (of_step hstep).2.1

theorem reachable (h : Reachable cfg x) : Cluster.Reachable cfg x.cluster := leads h

/-- An operation is given the reading of its node's clock. -/
theorem reading_of_calls {s : Cluster} {m : NodeId} {o : Op} (h : Cluster.Calls s act m o)
    {now : Instant} {draw : Nat} (ho : o.reading = some (now, draw)) :
    act.isRestart = false ∧ act.reading s = some (m, now) := by
  cases h with
  | vote hk | append hk | install hk =>
      cases ho
      exact ⟨rfl, by rw [Action.reading, hk]; rfl⟩
  | campaign | probe =>
      cases ho
      exact ⟨rfl, rfl⟩
  | preVoted | voted | appended | installed | propose | snapshot | drain => cases ho

/-- A clock that an action reads is not behind its last reading. -/
theorem clock_le_of_calls {m : NodeId} {o : Op} (hon : x.onTime act = true)
    (h : Cluster.Calls x.cluster act m o) {now : Instant} {draw : Nat}
    (ho : o.reading = some (now, draw)) : x.clock m ≤ now ∧ x.advance act m = now := by
  obtain ⟨hre, hreading⟩ := reading_of_calls h ho
  unfold onTime at hon
  rw [hre, hreading] at hon
  refine ⟨by simpa using hon, ?_⟩
  unfold advance
  rw [hreading]
  exact Function.update_self m now x.clock

/-- Clocks go forward, that of a node that restarts apart. -/
theorem clock_le {m : NodeId} (hon : x.onTime act = true)
    (hre : ∀ now draw, act ≠ .restart m now draw) : x.clock m ≤ x.advance act m := by
  unfold advance
  cases hreading : act.reading x.cluster with
  | none => exact le_rfl
  | some r =>
      obtain ⟨n, now⟩ := r
      dsimp only
      by_cases hm : m = n
      · subst hm
        rw [Function.update_self]
        cases act with
        | tick | serve => simpa [onTime, Action.isRestart, hreading] using hon
        | restart n now draw =>
            cases hreading
            exact absurd rfl (hre now draw)
        | fold | propose | snapshot | drain => cases hreading
      · rw [Function.update_of_ne hm]

end Clocked

/-! ## Timers in runs -/

/-- The timer of a node whose clock reads `clock`: it has not heard from a leader in the future, it
    gives a leader at least `electionMin`, and it will not wait longer than `electionMax`. -/
structure Timer.Set (timing : Timing) (clock : Instant) (t : Timer) : Prop where
  contact_le : t.contact ≤ clock
  patient : t.contact + timing.electionMin ≤ t.deadline
  bounded : t.deadline ≤ clock + max timing.electionMin timing.electionMax
  timing : t.timing = timing

theorem Timing.timeout_bounds (timing : Timing) (draw : Nat) :
    timing.electionMin ≤ timing.randomElectionTimeout draw ∧
      timing.randomElectionTimeout draw ≤ max timing.electionMin timing.electionMax := by
  have hlt : draw % (timing.electionMax - timing.electionMin + 1) <
      timing.electionMax - timing.electionMin + 1 := Nat.mod_lt _ (Nat.succ_pos _)
  unfold Timing.randomElectionTimeout
  generalize draw % (timing.electionMax - timing.electionMin + 1) = extra at hlt ⊢
  have hextra : extra ≤ timing.electionMax - timing.electionMin := Nat.le_of_lt_succ hlt
  refine ⟨Nat.le_add_right _ _, (Nat.add_le_add_left hextra _).trans ?_⟩
  rcases le_total timing.electionMin timing.electionMax with hle | hle
  · rw [Nat.add_sub_cancel' hle]
    exact le_max_right _ _
  · rw [Nat.sub_eq_zero_of_le hle]
    exact le_max_left _ _

/-- A timer armed now, with the last word from a leader no later than that. -/
theorem Timer.Set.arm (timing : Timing) {contact now : Instant} (h : contact ≤ now) (draw : Nat) :
    Timer.Set timing now
      { timing, contact, deadline := now + timing.randomElectionTimeout draw } := by
  obtain ⟨hlo, hhi⟩ := timing.timeout_bounds draw
  exact ⟨h, Nat.add_le_add h hlo, Nat.add_le_add_left hhi now, rfl⟩

theorem Timer.Set.later {timing : Timing} {clock clock' : Instant} {t : Timer}
    (h : Timer.Set timing clock t) (hle : clock ≤ clock') : Timer.Set timing clock' t :=
  { h with
    contact_le := h.contact_le.trans hle
    bounded := h.bounded.trans (Nat.add_le_add_right hle _) }

theorem Timer.Set.rearm {timing : Timing} {clock clock' : Instant} {t t' : Timer}
    {reading : Option (Instant × Nat)} (h : Timer.Set timing clock t) (hle : clock ≤ clock')
    (hr : Rearms t reading t')
    (hread : ∀ now draw, reading = some (now, draw) → clock ≤ now ∧ clock' = now) :
    Timer.Set timing clock' t' := by
  cases hr with
  | keep => exact h.later hle
  | arm hnow =>
      obtain ⟨hnow, rfl⟩ := hread _ _ hnow
      rw [← h.timing]
      exact .arm _ (h.contact_le.trans hnow) _
  | hear hnow =>
      obtain ⟨-, rfl⟩ := hread _ _ hnow
      rw [← h.timing]
      exact .arm _ le_rfl _

theorem startNode_timer (n : NodeId) (storage : PersistentState) (epoch : Nat) (now : Instant)
    (draw : Nat) : Timer.Set cfg.timing now (startNode cfg n storage epoch now draw).core.timer :=
  .arm _ le_rfl draw

theorem Clocked.step_timers {x x' : Clocked} {act : Action}
    (h : ∀ n, Timer.Set cfg.timing (x.clock n) (x.cluster.core n).timer)
    (hstep : Clocked.step cfg x act = some x') (n : NodeId) :
    Timer.Set cfg.timing (x'.clock n) (x'.cluster.core n).timer := by
  obtain ⟨hon, hcluster, hclock⟩ := Clocked.of_step hstep
  rw [hclock]
  by_cases hre : ∃ now draw, act = .restart n now draw
  · obtain ⟨now, draw, rfl⟩ := hre
    have hnow : x.advance (.restart n now draw) n = now := by
      simp [Clocked.advance, Action.reading]
    have hcore := core_update_self (congrArg Cluster.procs (Cluster.step_restart hcluster).2)
    rw [hnow, hcore]
    exact startNode_timer n _ _ now draw
  · push Not at hre
    have hle := Clocked.clock_le hon hre
    have hmoved := Cluster.step_core hcluster n
    generalize x'.cluster.core n = c at hmoved ⊢
    cases hmoved with
    | same => exact (h n).later hle
    | op o hcall hrun =>
        exact (h n).rearm hle (Op.rearms hrun) fun now draw => Clocked.clock_le_of_calls hon hcall
    | start epoch now draw hact => exact absurd hact (hre now draw)

theorem Clocked.timers {x : Clocked} (h : Clocked.Reachable cfg x) (n : NodeId) :
    Timer.Set cfg.timing (x.clock n) (x.cluster.core n).timer :=
  h.invariant (I := fun x => ∀ n, Timer.Set cfg.timing (x.clock n) (x.cluster.core n).timer)
    (fun _ _ _ hx hstep => Clocked.step_timers hx hstep) (fun n => startNode_timer n {} 0 _ _) n

/-! ## The driver -/

section Driver

variable {q : Process} {now : Instant}

/-- A leader's tick leaves its core alone. -/
theorem tick_leads (hrole : q.core.role = .leader) (now : Instant) (draw : Nat) :
    (tick q now draw).1.core = q.core := by
  have hlead : q.core.isLeader = true := decide_eq_true hrole
  unfold tick
  rw [if_pos hlead]
  dsimp only
  split
  · rfl
  · split
    · rfl
    · rfl

theorem isLeader_false (hrole : q.core.role ≠ .leader) : ¬ q.core.isLeader = true :=
  fun hlead => hrole (of_decide_eq_true hlead)

theorem tick_campaign (hrole : q.core.role ≠ .leader) (hwon : q.core.preVoteSucceeded = true)
    (now : Instant) (draw : Nat) : tick q now draw =
      ({ q with core := (q.core.startElection now draw).1 },
        (q.core.startElection now draw).1.peers.map fun peer =>
          (peer, .vote (q.core.startElection now draw).2)) := by
  unfold tick
  rw [if_neg (isLeader_false hrole), if_pos hwon]

theorem tick_probe (hrole : q.core.role ≠ .leader) (hwon : ¬ q.core.preVoteSucceeded = true)
    (hdue : q.core.electionDeadline ≤ now) (draw : Nat) : tick q now draw =
      ({ q with core := (q.core.startPreElection now draw).1 },
        q.core.peers.map fun peer => (peer, .vote (q.core.startPreElection now draw).2)) := by
  have hout : q.core.electionTimedOut now = true := decide_eq_true ⟨hrole, hdue⟩
  unfold tick
  rw [if_neg (isLeader_false hrole), if_neg hwon, if_pos hout]
  rfl

theorem tick_idle (hrole : q.core.role ≠ .leader) (hwon : ¬ q.core.preVoteSucceeded = true)
    (hdue : now < q.core.electionDeadline) (draw : Nat) : tick q now draw = (q, []) := by
  unfold tick
  rw [if_neg (isLeader_false hrole), if_neg hwon, if_neg]
  intro hout
  exact absurd (of_decide_eq_true hout).2 (Nat.not_le.mpr hdue)

/-- A campaign asks for the next term, with the log as it is, and the peers stay. -/
theorem startElection_asks (c : ConsensusModule) (now : Instant) (draw : Nat) :
    (c.startElection now draw).1.peers = c.peers ∧
      (c.startElection now draw).2 =
        { term := c.currentTerm + 1
          candidateId := c.id
          lastLogIndex := c.log.lastIndex
          lastLogTerm := c.log.lastTerm
          preVote := false } := by
  unfold startElection maybeBecomeLeader
  dsimp only
  split
  · exact ⟨rfl, rfl⟩
  · exact ⟨rfl, rfl⟩

/-- A node that stands, in a probe or for good, asks every peer for the next term, and sends nothing
    else. -/
theorem tick_stands (hrole : q.core.role ≠ .leader) (hdue : q.core.electionDeadline ≤ now)
    (draw : Nat) :
    ∃ args : RequestVoteArgs, args.candidateId = q.core.id ∧ args.term = q.core.currentTerm + 1 ∧
      args.lastLogIndex = q.core.log.lastIndex ∧ args.lastLogTerm = q.core.log.lastTerm ∧
      (tick q now draw).2 = q.core.peers.map fun p => (p, .vote args) := by
  by_cases hwon : q.core.preVoteSucceeded = true
  · obtain ⟨hpeers, hargs⟩ := startElection_asks q.core now draw
    refine ⟨(q.core.startElection now draw).2, ?_, ?_, ?_, ?_, ?_⟩
    · rw [hargs]
    · rw [hargs]
    · rw [hargs]
    · rw [hargs]
    · rw [tick_campaign hrole hwon, hpeers]
  · refine ⟨(q.core.startPreElection now draw).2, rfl, rfl, rfl, rfl, ?_⟩
    rw [tick_probe hrole hwon hdue]

end Driver

/-- **The election timer.** Take any state of a run, a later one, and a tick in it of a node that
    does not lead. As long as the node heard from a leader less than `electionMin` ago and has no
    majority of pre-votes, the tick does nothing. If its timer has not been armed since the first
    state, a tick that comes `electionMax` or more after the node's clock was read there sends every
    peer one request for its vote in the next term, with the end of the node's log, and nothing
    else. -/
theorem election_timer {x y z : Clocked} (hx : Clocked.Reachable cfg x) (hn : n ∈ cfg.members)
    (hrun : Reaches (Clocked.step cfg) x y) (hrole : (y.cluster.core n).role ≠ .leader)
    {now : Instant} {draw : Nat} (hstep : Clocked.step cfg y (.tick n now draw) = some z) :
    (now < (y.cluster.core n).lastLeaderContact + cfg.timing.electionMin →
      (y.cluster.core n).preVoteSucceeded = false →
      z.cluster.core n = y.cluster.core n ∧ z.cluster.requests = y.cluster.requests) ∧
    ((y.cluster.core n).electionDeadline = (x.cluster.core n).electionDeadline →
      x.clock n + max cfg.timing.electionMin cfg.timing.electionMax ≤ now →
      ∃ args : RequestVoteArgs, args.candidateId = n ∧
        args.term = (y.cluster.core n).currentTerm + 1 ∧
        args.lastLogIndex = (y.cluster.core n).log.lastIndex ∧
        args.lastLogTerm = (y.cluster.core n).log.lastTerm ∧
        z.cluster.requests = y.cluster.requests ++ (cfg.peers n).map fun p =>
          { sender := n, epoch := (y.cluster.procs n).epoch, peer := p,
            request := .vote args }) := by
  obtain ⟨-, hcluster, -⟩ := Clocked.of_step hstep
  obtain ⟨-, hz⟩ := Cluster.step_tick hcluster
  have hrole : (y.cluster.procs n).core.role ≠ .leader := hrole
  constructor
  · intro hnow hno
    have hset := (Clocked.timers (hx.trans hrun) n).patient
    have hidle := tick_idle hrole (Bool.eq_false_iff.mp hno) (hnow.trans_le hset) draw
    rw [hz]
    refine ⟨?_, ?_⟩
    · rw [core_update_self (n := n) rfl, hidle]
      rfl
    · simp [Cluster.sends, hidle]
  · intro hsame hnow
    have hset := (Clocked.timers hx n).bounded
    have hdue : (y.cluster.procs n).core.electionDeadline ≤ now :=
      (hsame.le.trans hset).trans hnow
    obtain ⟨a, hr⟩ := reachable_refines (Clocked.reachable (hx.trans hrun))
    have hid := (hr.nodes n hn).identity
    have hpeers : (y.cluster.procs n).core.peers = cfg.peers n := hid.peers
    obtain ⟨args, hcand, hterm, hindex, hlast, hsent⟩ := tick_stands hrole hdue draw
    refine ⟨args, hcand.trans hid.id, hterm, hindex, hlast, ?_⟩
    rw [hz]
    show y.cluster.requests ++ y.cluster.sends n now draw = _
    unfold Cluster.sends
    rw [hsent, hpeers, List.map_map, tick_epoch]
    rfl

/-- Node 1 of a new cluster, 100 ms and 1000 ms after it started. -/
theorem election_timer_booted :
    (Clocked.step trio (Clocked.init trio) (.tick 1 100 0)).isSome = true ∧
    (Clocked.step trio (Clocked.init trio) (.tick 1 1000 0)).isSome = true ∧
    (∀ z, Clocked.step trio (Clocked.init trio) (.tick 1 100 0) = some z →
      z.cluster.requests = []) ∧
    ∀ z, Clocked.step trio (Clocked.init trio) (.tick 1 1000 0) = some z →
      ∃ args : RequestVoteArgs, args.candidateId = 1 ∧ args.term = 1 ∧
        z.cluster.requests = [{ sender := 1, epoch := 0, peer := 2, request := .vote args },
          { sender := 1, epoch := 0, peer := 3, request := .vote args }] := by
  have hinit : Clocked.Reachable trio (Clocked.init trio) := Reaches.refl _ _
  refine ⟨by decide, by decide, fun z hz => ?_, fun z hz => ?_⟩
  · exact ((election_timer hinit (n := 1) (by decide) (Reaches.refl _ _) (by decide) hz).1
      (by decide) (by decide)).2
  · obtain ⟨args, hcand, hterm, -, -, hsent⟩ :=
      (election_timer hinit (n := 1) (by decide) (Reaches.refl _ _) (by decide) hz).2 rfl
        (by decide)
    exact ⟨args, hcand, hterm, hsent⟩

end Murmur.Raft
