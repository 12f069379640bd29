/-
  A leader and one follower that exchange messages, nobody else taking part.

  * `exchange`: one round. The leader's next request, the follower's answer, and the fold; `rounds`
    are any number of them.
  * Rounds are steps of the cluster (`exchange_reached`), so what holds in reachable states holds
    between any two rounds.
  * `exchange_install`, `exchange_accepted`, `exchange_rejected`: what a round can come to.
-/
import Murmur.Raft.Splice
import Murmur.Raft.Standing
import Murmur.Raft.Wire

namespace Murmur.Raft

open Murmur.Basis Murmur.Protocol ConsensusModule

variable {cfg : ClusterConfig} {s s' : Cluster} {n p : NodeId} {c : ConsensusModule}

/-! ## Rounds -/

/-- The two nodes. -/
structure Session where
  leader : ConsensusModule
  follower : ConsensusModule

/-- The leader's next index for the follower. -/
def Session.next (x : Session) : Option Nat := x.leader.nextIndex.lookup x.follower.id

/-- One request and its answer, and the nodes before and after. -/
structure Round where
  before : Session
  request : Request
  reply : Reply
  after : Session

namespace Round

def accepted (r : Round) : Bool :=
  match r.reply with
  | .append reply => reply.success
  | _ => false

def rejected (r : Round) : Bool :=
  match r.reply with
  | .append reply => !reply.success
  | _ => false

def installed (r : Round) : Bool :=
  match r.reply with
  | .install _ => true
  | _ => false

end Round

/-- What the leader has for `peer`: a snapshot if it needs one, else the entries behind its next
    index. -/
def nextRequest (leader : ConsensusModule) (peer : NodeId) : Request :=
  if leader.needsSnapshot peer then .install (leader.installSnapshotArgs peer)
  else .append (leader.appendArgsFor peer)

/-- One round. -/
def exchange (x : Session) (now : Instant) (draw : Nat) : Round :=
  let request := nextRequest x.leader x.follower.id
  let (follower, reply) := serve x.follower request now draw
  let rpc : Rpc := { sender := x.leader.id, epoch := 0, peer := x.follower.id, request }
  { before := x, request, reply, after := { leader := fold x.leader rpc reply, follower } }

/-- The first `k` rounds; the follower serves the `i`-th one at `clock i`. -/
def rounds (clock : Nat → Instant × Nat) : Nat → Session → List Round
  | 0, _ => []
  | k + 1, x =>
    let round := exchange x (clock 0).1 (clock 0).2
    round :: rounds (fun i => clock (i + 1)) k round.after

def Cluster.session (s : Cluster) (n p : NodeId) : Session := ⟨s.core n, s.core p⟩

/-! ## Rounds are steps of the cluster -/

/-- Node `n` leads, and its peer `p` is in no later term. -/
structure Engaged (cfg : ClusterConfig) (n p : NodeId) (s : Cluster) : Prop where
  reachable : Cluster.Reachable cfg s
  member : n ∈ cfg.members
  peer : p ∈ cfg.peers n
  role : (s.core n).role = .leader
  term_le : (s.core p).currentTerm ≤ (s.core n).currentTerm

theorem Engaged.follower (he : Engaged cfg n p s) : p ∈ cfg.members :=
  cfg.mem_of_mem_peers he.member he.peer

theorem mem_replicate (hp : p ∈ c.peers) : (p, nextRequest c p) ∈ replicate c true := by
  refine List.mem_filterMap.mpr ⟨p, hp, ?_⟩
  unfold outgoing nextRequest
  split
  · rfl
  · simp

/-- A leader's tick leaves its core alone, and sends all there is when a heartbeat is due. -/
theorem tick_leader {q : Process} (hl : q.core.role = .leader) (draw : Nat) :
    (tick q (q.lastHeartbeat + q.core.timing.heartbeat) draw).1.core = q.core ∧
      ∀ m ∈ replicate q.core true,
        m ∈ (tick q (q.lastHeartbeat + q.core.timing.heartbeat) draw).2 := by
  have hlead : q.core.isLeader = true := decide_eq_true hl
  have hdue : decide (q.lastHeartbeat + q.core.timing.heartbeat - q.lastHeartbeat ≥
      q.core.timing.heartbeat) = true := by
    simp
  unfold tick
  rw [if_pos hlead]
  dsimp only
  rw [hdue]
  split
  · next hempty =>
      refine ⟨rfl, fun m hm => ?_⟩
      rw [List.isEmpty_iff.mp hempty] at hm
      exact hm
  · exact ⟨rfl, fun m hm => hm⟩

/-- A request on record can be served, at any time. -/
theorem reachable_serve {rpc : Rpc} (hs : Cluster.Reachable cfg s) (hsent : rpc ∈ s.requests)
    (now : Instant) (draw : Nat) :
    Cluster.Reachable cfg { s.setCore rpc.peer (serve (s.core rpc.peer) rpc.request now draw).1 with
      replies := s.replies ++ [(rpc, (serve (s.core rpc.peer) rpc.request now draw).2)] } := by
  obtain ⟨k, hk⟩ := List.mem_iff_getElem?.mp hsent
  refine hs.step (a := .serve k now draw) ?_
  unfold Cluster.step
  dsimp only
  rw [hk]

/-- A reply on record can be folded in, as long as its sender has not restarted. -/
theorem reachable_fold {rpc : Rpc} {reply : Reply} (hs : Cluster.Reachable cfg s)
    (hreply : (rpc, reply) ∈ s.replies) (hepoch : rpc.epoch = (s.procs rpc.sender).epoch) :
    Cluster.Reachable cfg (s.setCore rpc.sender (fold (s.core rpc.sender) rpc reply)) := by
  obtain ⟨k, hk⟩ := List.mem_iff_getElem?.mp hreply
  refine hs.step (a := .fold k) ?_
  unfold Cluster.step
  dsimp only
  rw [hk]
  dsimp only
  rw [if_pos hepoch]

/-- The next heartbeat puts the leader's request on record and leaves every core alone. -/
theorem Engaged.beat (he : Engaged cfg n p s) :
    ∃ s', Cluster.Reachable cfg s' ∧ (∀ m, s'.core m = s.core m) ∧
      (s'.procs n).epoch = (s.procs n).epoch ∧
      { sender := n, epoch := (s.procs n).epoch, peer := p,
        request := nextRequest (s.core n) p } ∈ s'.requests := by
  obtain ⟨a, hr⟩ := reachable_refines he.reachable
  have hpeers := (hr.nodes n he.member).identity.peers
  let beat := (s.procs n).lastHeartbeat + (s.core n).timing.heartbeat
  obtain ⟨hcore, hsends⟩ := tick_leader (q := s.procs n) he.role 0
  let s₁ : Cluster := { s with
    procs := Function.update s.procs n (tick (s.procs n) beat 0).1
    requests := s.requests ++ s.sends n beat 0 }
  have htick : Cluster.step cfg s (.tick n beat 0) = some s₁ := by
    unfold Cluster.step
    dsimp only
    rw [if_pos he.member]
    rfl
  refine ⟨s₁, he.reachable.step htick, fun m => ?_, ?_, ?_⟩
  · by_cases hm : m = n
    · subst hm
      exact (core_update_self rfl).trans hcore
    · exact core_update_ne rfl hm
  · show (Function.update s.procs n _ n).epoch = _
    rw [Function.update_self, tick_epoch]
  · refine List.mem_append_right _ (List.mem_map.mpr ⟨(p, nextRequest (s.core n) p), ?_, ?_⟩)
    · exact hsends _ (mem_replicate (hpeers ▸ he.peer))
    · rw [tick_epoch]

/-- The nodes after a round are those of a reachable state, in which the answer is on record. -/
theorem exchange_reached (he : Engaged cfg n p s) (now : Instant) (draw : Nat) :
    ∃ s', Cluster.Reachable cfg s' ∧
      s'.session n p = (exchange (s.session n p) now draw).after ∧
      ∃ rpc, (rpc, (exchange (s.session n p) now draw).reply) ∈ s'.replies ∧ rpc.sender = n ∧
        rpc.peer = p ∧ rpc.request = nextRequest (s.core n) p := by
  obtain ⟨a, hr⟩ := reachable_refines he.reachable
  have hne := cfg.ne_of_mem_peers he.member he.peer
  have hid := (hr.nodes p he.follower).identity.id
  let rpc : Rpc := ⟨n, (s.procs n).epoch, p, nextRequest (s.core n) p⟩
  let answer := serve (s.core p) (nextRequest (s.core n) p) now draw
  obtain ⟨s₁, hreach₁, hcore₁, hepoch₁, hsent⟩ := he.beat
  have hreach₂ := reachable_serve hreach₁ hsent now draw
  dsimp only at hreach₂
  rw [hcore₁] at hreach₂
  let s₂ : Cluster := { s₁.setCore p answer.1 with replies := s₁.replies ++ [(rpc, answer.2)] }
  have hanswer : (rpc, answer.2) ∈ s₂.replies :=
    List.mem_append_right _ (List.mem_singleton.mpr rfl)
  have hcore₂ : s₂.core n = s.core n :=
    (Cluster.core_setCore_ne s₁ answer.1 hne.symm).trans (hcore₁ n)
  have hepoch₂ : rpc.epoch = (s₂.procs rpc.sender).epoch := by
    show (s.procs n).epoch = (Function.update s₁.procs p _ n).epoch
    rw [Function.update_of_ne hne.symm, hepoch₁]
  refine ⟨_, reachable_fold hreach₂ hanswer hepoch₂, ?_, rpc, ?_, rfl, rfl, rfl⟩
  · show Session.mk ((s₂.setCore n (fold (s₂.core n) rpc answer.2)).core n)
      ((s₂.setCore n (fold (s₂.core n) rpc answer.2)).core p) = _
    have hcorep : s₂.core p = answer.1 := Cluster.core_setCore_self s₁ p answer.1
    rw [Cluster.core_setCore_self, Cluster.core_setCore_ne _ _ hne, hcorep, hcore₂]
    unfold exchange Cluster.session
    dsimp only
    rw [hid]
    rfl
  · unfold exchange Cluster.session
    dsimp only
    rw [hid]
    exact hanswer

/-! ## The handlers, when the terms are right -/

theorem handleAppendEntries_term {args : AppendEntriesArgs} (hterm : ¬ args.term < c.currentTerm)
    (now : Instant) (draw : Nat) :
    (c.handleAppendEntries args now draw).2.term = args.term ∧
      (c.handleAppendEntries args now draw).1.currentTerm = args.term := by
  have hcur := (yieldTo_keeps hterm args.leaderId now draw).2.2
  unfold handleAppendEntries
  rw [if_neg hterm]
  dsimp only
  split
  · exact ⟨(appendConflict_term _).trans hcur, hcur⟩
  · have hdone : ∀ d : ConsensusModule, d.currentTerm = args.term →
        ((d.storeEntries args.prevLogIndex args.entries).followCommit
          args.leaderCommit).currentTerm = args.term := by
      intro d hd
      rw [followCommit_currentTerm, storeEntries_currentTerm, hd]
    exact ⟨hdone _ hcur, hdone _ hcur⟩

theorem handleAppendEntries_rejected {args : AppendEntriesArgs}
    (hterm : ¬ args.term < c.currentTerm) (hcons : ¬ c.consistent args = true) (now : Instant)
    (draw : Nat) :
    (c.handleAppendEntries args now draw).1 = c.yieldTo args.term args.leaderId now draw ∧
      (c.handleAppendEntries args now draw).2 =
        (c.yieldTo args.term args.leaderId now draw).appendConflict args.prevLogIndex := by
  have hlog := (yieldTo_keeps hterm args.leaderId now draw).1
  have hcons' : ¬ (c.yieldTo args.term args.leaderId now draw).consistent args = true := by
    unfold consistent at hcons ⊢
    rwa [hlog]
  unfold handleAppendEntries
  rw [if_neg hterm]
  dsimp only
  rw [if_pos (by simpa using hcons')]
  exact ⟨rfl, rfl⟩

theorem handleAppendReply_accepted {reply : AppendEntriesReply} (hrole : c.role = .leader)
    (hterm : reply.term = c.currentTerm) (hok : reply.success = true) (peer : NodeId) (upTo : Nat) :
    c.handleAppendReply peer reply upTo = (c.recordMatch peer upTo).maybeAdvanceCommit := by
  simp [handleAppendReply, hrole, hterm, hok]

theorem handleAppendReply_rejected {reply : AppendEntriesReply} (hrole : c.role = .leader)
    (hterm : reply.term = c.currentTerm) (hno : reply.success = false) (peer : NodeId)
    (upTo : Nat) : c.handleAppendReply peer reply upTo =
      { c with nextIndex :=
          c.nextIndex.insert peer (max (c.nextIndexAfterConflict peer reply) 1) } := by
  simp [handleAppendReply, hrole, hterm, hno]

/-- After an InstallSnapshot the follower is in its term, and has committed what it covers. -/
theorem handleInstallSnapshot_current {args : InstallSnapshotArgs}
    (hterm : ¬ args.term < c.currentTerm) (now : Instant) (draw : Nat) :
    (c.handleInstallSnapshot args now draw).2.term = args.term ∧
      (c.handleInstallSnapshot args now draw).1.currentTerm = args.term ∧
      args.lastIncludedIndex ≤ (c.handleInstallSnapshot args now draw).1.commitIndex := by
  have hcur := (yieldTo_keeps hterm args.leaderId now draw).2.2
  unfold handleInstallSnapshot
  rw [if_neg hterm]
  dsimp only
  split
  · next hle => exact ⟨hcur, hcur, hle⟩
  · exact ⟨hcur, hcur, le_rfl⟩

theorem handleInstallSnapshotReply_current {reply : InstallSnapshotReply}
    (hrole : c.role = .leader) (hterm : reply.term = c.currentTerm) (peer : NodeId) (upTo : Nat) :
    c.handleInstallSnapshotReply peer reply upTo =
      (c.recordMatch peer upTo).maybeAdvanceCommit := by
  simp [handleInstallSnapshotReply, hrole, hterm]

/-! ## The three outcomes -/

section Outcomes

variable (now : Instant) (draw : Nat)

theorem Engaged.append_term (he : Engaged cfg n p s) :
    ¬ ((s.core n).appendArgsFor p).term < (s.core p).currentTerm :=
  Nat.not_lt.mpr he.term_le

/-- A round with a snapshot. -/
theorem exchange_install (he : Engaged cfg n p s) (hneed : (s.core n).needsSnapshot p = true) :
    let r := exchange (s.session n p) now draw
    r.installed = true ∧ r.accepted = false ∧ r.rejected = false ∧
      r.after.leader =
        ((s.core n).recordMatch p (s.core n).log.snapshotIndex).maybeAdvanceCommit ∧
      r.after.follower.currentTerm = (s.core n).currentTerm ∧
      (s.core n).log.snapshotIndex ≤ r.after.follower.commitIndex := by
  obtain ⟨a, hr⟩ := reachable_refines he.reachable
  have hid := (hr.nodes p he.follower).identity.id
  have hterm : ¬ ((s.core n).installSnapshotArgs p).term < (s.core p).currentTerm :=
    Nat.not_lt.mpr he.term_le
  obtain ⟨hreply, hcur, hcommit⟩ := handleInstallSnapshot_current hterm now draw
  intro r
  have hreq : nextRequest (s.core n) p = .install ((s.core n).installSnapshotArgs p) := by
    simp [nextRequest, hneed]
  have hr : r = { before := s.session n p, request := .install ((s.core n).installSnapshotArgs p)
                  reply := .install ((s.core p).handleInstallSnapshot
                    ((s.core n).installSnapshotArgs p) now draw).2
                  after := {
                    leader := (s.core n).handleInstallSnapshotReply p
                      ((s.core p).handleInstallSnapshot
                        ((s.core n).installSnapshotArgs p) now draw).2
                      (s.core n).log.snapshotIndex
                    follower := ((s.core p).handleInstallSnapshot
                      ((s.core n).installSnapshotArgs p) now draw).1 } } := by
    show exchange (s.session n p) now draw = _
    unfold exchange Cluster.session
    dsimp only
    rw [hid, hreq]
    rfl
  rw [hr]
  exact ⟨rfl, rfl, rfl, handleInstallSnapshotReply_current he.role hreply p _, hcur, hcommit⟩

/-- A round with entries. -/
theorem exchange_append (he : Engaged cfg n p s) (hneed : ¬ (s.core n).needsSnapshot p = true) :
    let args := (s.core n).appendArgsFor p
    let answer := (s.core p).handleAppendEntries args now draw
    exchange (s.session n p) now draw =
      { before := s.session n p
        request := .append args
        reply := .append answer.2
        after := {
          leader := (s.core n).handleAppendReply p answer.2
            (args.prevLogIndex + args.entries.length)
          follower := answer.1 } } := by
  obtain ⟨a, hr⟩ := reachable_refines he.reachable
  have hid := (hr.nodes p he.follower).identity.id
  have hreq : nextRequest (s.core n) p = .append ((s.core n).appendArgsFor p) := by
    simp [nextRequest, hneed]
  intro args answer
  unfold exchange Cluster.session
  dsimp only
  rw [hid, hreq]
  have hserve : serve (s.core p) (.append args) now draw = (answer.1, .append answer.2) := by
    rw [serve_eq_direct]
    rfl
  rw [hserve]
  dsimp only
  rw [fold_eq_direct (no_term_zero hr he.member)]
  rfl

theorem exchange_accepted (he : Engaged cfg n p s) (hneed : ¬ (s.core n).needsSnapshot p = true)
    (hcons : (s.core p).consistent ((s.core n).appendArgsFor p) = true) :
    let r := exchange (s.session n p) now draw
    let args := (s.core n).appendArgsFor p
    r.accepted = true ∧
      r.after.leader = ((s.core n).recordMatch p
        (args.prevLogIndex + args.entries.length)).maybeAdvanceCommit ∧
      r.after.follower.currentTerm = (s.core n).currentTerm := by
  intro r args
  have hr : r = _ := exchange_append now draw he hneed
  have hok := (handleAppendEntries_accepted he.append_term hcons now draw).1
  obtain ⟨hterm, hcur⟩ := handleAppendEntries_term he.append_term now draw
  rw [hr]
  exact ⟨hok, handleAppendReply_accepted he.role hterm hok p _, hcur⟩

theorem exchange_rejected (he : Engaged cfg n p s) (hneed : ¬ (s.core n).needsSnapshot p = true)
    (hcons : ¬ (s.core p).consistent ((s.core n).appendArgsFor p) = true) :
    let r := exchange (s.session n p) now draw
    let args := (s.core n).appendArgsFor p
    let follower := (s.core p).yieldTo args.term args.leaderId now draw
    r.rejected = true ∧ r.accepted = false ∧ r.installed = false ∧
      r.after.leader = { s.core n with
        nextIndex := (s.core n).nextIndex.insert p
          (max ((s.core n).nextIndexAfterConflict p
            (follower.appendConflict args.prevLogIndex)) 1) } ∧
      r.after.follower = follower := by
  intro r args follower
  have hr : r = _ := exchange_append now draw he hneed
  obtain ⟨hfollower, hreply⟩ := handleAppendEntries_rejected he.append_term hcons now draw
  have hno : ((s.core p).handleAppendEntries args now draw).2.success = false := by
    rw [hreply]
    exact appendConflict_success _
  obtain ⟨hterm, hcur⟩ := handleAppendEntries_term he.append_term now draw
  rw [hr]
  refine ⟨?_, hno, rfl, ?_, hfollower⟩
  · show (!((s.core p).handleAppendEntries args now draw).2.success) = true
    rw [hno]
    rfl
  · rw [← hreply]
    exact handleAppendReply_rejected he.role hterm hno p _

/-- A leader that records a match goes on leading with its log. -/
theorem recordMatch_stays (c : ConsensusModule) (peer : NodeId) (upTo : Nat) :
    (c.recordMatch peer upTo).maybeAdvanceCommit.role = c.role ∧
      (c.recordMatch peer upTo).maybeAdvanceCommit.currentTerm = c.currentTerm ∧
      (c.recordMatch peer upTo).maybeAdvanceCommit.log = c.log := by
  have hstanding := maybeAdvanceCommit_standing (c := c.recordMatch peer upTo)
  exact ⟨congrArg Standing.role hstanding, congrArg Standing.currentTerm hstanding,
    maybeAdvanceCommit_log⟩

/-- After any round the leader leads on in its term with its log, and the follower is in that
    term. -/
theorem exchange_stays (he : Engaged cfg n p s) :
    let r := exchange (s.session n p) now draw
    r.after.leader.role = .leader ∧ r.after.leader.currentTerm = (s.core n).currentTerm ∧
      r.after.leader.log = (s.core n).log ∧
      r.after.follower.currentTerm = (s.core n).currentTerm := by
  intro r
  by_cases hneed : (s.core n).needsSnapshot p = true
  · obtain ⟨-, -, -, hleader, hcur, -⟩ := exchange_install now draw he hneed
    obtain ⟨hrole, hterm, hlog⟩ := recordMatch_stays (s.core n) p (s.core n).log.snapshotIndex
    rw [hleader]
    exact ⟨hrole.trans he.role, hterm, hlog, hcur⟩
  · by_cases hcons : (s.core p).consistent ((s.core n).appendArgsFor p) = true
    · obtain ⟨-, hleader, hcur⟩ := exchange_accepted now draw he hneed hcons
      obtain ⟨hrole, hterm, hlog⟩ := recordMatch_stays (s.core n) p
        (((s.core n).appendArgsFor p).prevLogIndex + ((s.core n).appendArgsFor p).entries.length)
      rw [hleader]
      exact ⟨hrole.trans he.role, hterm, hlog, hcur⟩
    · obtain ⟨-, -, -, hleader, hfollower⟩ := exchange_rejected now draw he hneed hcons
      rw [hleader, hfollower]
      exact ⟨he.role, rfl, rfl, (yieldTo_keeps he.append_term _ now draw).2.2⟩

theorem exchange_engaged (he : Engaged cfg n p s) :
    ∃ s', Engaged cfg n p s' ∧ s'.session n p = (exchange (s.session n p) now draw).after ∧
      ∃ rpc, (rpc, (exchange (s.session n p) now draw).reply) ∈ s'.replies ∧ rpc.sender = n ∧
        rpc.peer = p ∧ rpc.request = nextRequest (s.core n) p := by
  obtain ⟨s', hreach, hsession, hanswer⟩ := exchange_reached he now draw
  obtain ⟨hrole, hterm, -, hcur⟩ := exchange_stays now draw he
  rw [← hsession] at hrole hterm hcur
  exact ⟨s', ⟨hreach, he.member, he.peer, hrole, (hcur.trans hterm.symm).le⟩, hsession, hanswer⟩

end Outcomes

end Murmur.Raft
