/-
  The wire does not show: a cluster whose nodes are handed the logical messages themselves behaves
  as the one whose messages go through their protobuf form.

  * `serveDirect`, `foldDirect`, `directStep`: delivery without the conversions.
  * Requests, vote replies and snapshot replies come back as they were. An AppendEntries reply with
    an index-only hint comes back with conflict term 0; a leader then looks for its last entry of
    term 0, has none (`no_term_zero`), and uses the index as before.
  * `wire_is_transparent`: each message, each step, and the reachable states.
-/
import Murmur.Raft.Safety
import Murmur.Raft.Steps

namespace Murmur.Raft

open Murmur.Basis Murmur.Protocol ConsensusModule

/-! ## Delivery without a wire -/

def serveDirect (core : ConsensusModule) (request : Request) (now : Instant) (draw : Nat) :
    ConsensusModule × Reply :=
  match request with
  | .vote args =>
    let (core, reply) := core.handleRequestVote args now draw
    (core, .vote reply)
  | .append args =>
    let (core, reply) := core.handleAppendEntries args now draw
    (core, .append reply)
  | .install args =>
    let (core, reply) := core.handleInstallSnapshot args now draw
    (core, .install reply)

def foldDirect (core : ConsensusModule) (rpc : Rpc) (reply : Reply) : ConsensusModule :=
  match rpc.request, reply with
  | .vote args, .vote reply =>
    if args.preVote then core.recordPreVoteReply rpc.peer reply
    else core.recordVoteReply rpc.peer reply
  | .append args, .append reply =>
    core.handleAppendReply rpc.peer reply (args.prevLogIndex + args.entries.length)
  | .install args, .install reply =>
    core.handleInstallSnapshotReply rpc.peer reply args.lastIncludedIndex
  | _, _ => core

/-- One action of the cluster, with messages handed over as they are. -/
def directStep (cfg : ClusterConfig) (s : Cluster) : Action → Option Cluster
  | .serve k now draw =>
    match s.requests[k]? with
    | none => none
    | some rpc =>
      let (core, reply) := serveDirect (s.core rpc.peer) rpc.request now draw
      some { s.setCore rpc.peer core with replies := s.replies ++ [(rpc, reply)] }
  | .fold k =>
    match s.replies[k]? with
    | none => none
    | some (rpc, reply) =>
      if rpc.epoch = (s.procs rpc.sender).epoch then
        some (s.setCore rpc.sender (foldDirect (s.core rpc.sender) rpc reply))
      else none
  | act => Cluster.step cfg s act

variable {cfg : ClusterConfig} {s : Cluster} {n : NodeId} {c : ConsensusModule}

/-! ## Requests -/

theorem serve_eq_direct (c : ConsensusModule) (request : Request) (now : Instant) (draw : Nat) :
    serve c request now draw = serveDirect c request now draw := by
  cases request with
  | vote args => rfl
  | append args => simp [serve, serveDirect]
  | install args => rfl

/-! ## Replies -/

/-- A term the tail does not have has no last index. -/
theorem lastIndexOfTerm_none {log : Log} {t : Nat} (h : ∀ e ∈ log.entries, e.term ≠ t) :
    log.lastIndexOfTerm t = none := by
  unfold Log.lastIndexOfTerm Log.rposition
  have hnone : log.entries.reverse.findIdx? (fun e => decide (e.term = t)) = none := by
    rw [List.findIdx?_eq_none_iff]
    intro e he
    simpa using h e (List.mem_reverse.mp he)
  rw [hnone]
  rfl

/-- What the wire does to a hint does not change where the leader resumes. -/
theorem nextIndexAfterConflict_over_wire (hzero : c.log.lastIndexOfTerm 0 = none) (peer : NodeId)
    (reply : AppendEntriesReply) :
    c.nextIndexAfterConflict peer (appendReplyFromPb (appendReplyToPb reply)) =
      c.nextIndexAfterConflict peer reply := by
  rw [appendReply_over_wire]
  obtain ⟨term, success, index, conflictTerm⟩ := reply
  cases index with
  | none => cases conflictTerm <;> rfl
  | some i =>
      cases conflictTerm with
      | none => simp [nextIndexAfterConflict, hzero]
      | some t => rfl

theorem handleAppendReply_over_wire (hzero : c.log.lastIndexOfTerm 0 = none) (peer : NodeId)
    (reply : AppendEntriesReply) (upTo : Nat) :
    c.handleAppendReply peer (appendReplyFromPb (appendReplyToPb reply)) upTo =
      c.handleAppendReply peer reply upTo := by
  have hnext := nextIndexAfterConflict_over_wire hzero peer reply
  unfold handleAppendReply
  rw [hnext]
  rfl

theorem fold_eq_direct (hzero : c.log.lastIndexOfTerm 0 = none) (rpc : Rpc) (reply : Reply) :
    fold c rpc reply = foldDirect c rpc reply := by
  obtain ⟨sender, epoch, peer, request⟩ := rpc
  cases request with
  | vote args => cases reply <;> rfl
  | append args =>
      cases reply with
      | append reply => exact handleAppendReply_over_wire hzero peer reply _
      | vote | install => rfl
  | install args => cases reply <;> rfl

/-- No node has an entry of term 0. -/
theorem no_term_zero {a : Ghost} (hr : Refines cfg True s a) (hn : n ∈ cfg.members) :
    (s.core n).log.lastIndexOfTerm 0 = none := by
  refine lastIndexOfTerm_none fun e he => ?_
  rw [(hr.nodes n hn).mirrors.log.entries] at he
  have := one_le_term hr.safe (List.mem_of_mem_drop he)
  omega

/-! ## Steps and runs -/

theorem step_eq_direct {a : Ghost} (hr : Refines cfg True s a) (act : Action) :
    Cluster.step cfg s act = directStep cfg s act := by
  cases act with
  | serve k now draw =>
      unfold Cluster.step directStep
      dsimp only
      cases s.requests[k]? with
      | none => rfl
      | some rpc =>
          dsimp only
          rw [serve_eq_direct]
  | fold k =>
      unfold Cluster.step directStep
      dsimp only
      cases hk : s.replies[k]? with
      | none => rfl
      | some x =>
          obtain ⟨rpc, reply⟩ := x
          have hsender := (hr.replies _ (List.mem_of_getElem? hk)).1.sender
          dsimp only
          rw [fold_eq_direct (no_term_zero hr hsender)]
  | tick | propose | snapshot | drain | restart => rfl

/-- With and without a wire the same states are reached. -/
theorem reaches_direct_iff : Reaches (directStep cfg) (Cluster.init cfg) s ↔
    Cluster.Reachable cfg s := by
  constructor
  · intro h
    refine h.invariant (fun t act u ht hstep => ?_) (Reaches.refl _ _)
    obtain ⟨a, hr⟩ := reachable_refines ht
    rw [← step_eq_direct hr] at hstep
    exact ht.step hstep
  · intro h
    refine (h.invariant (I := fun t => Cluster.Reachable cfg t ∧
      Reaches (directStep cfg) (Cluster.init cfg) t) ?_ ⟨Reaches.refl _ _, Reaches.refl _ _⟩).2
    rintro t act u ⟨ht, hdirect⟩ hstep
    obtain ⟨a, hr⟩ := reachable_refines ht
    refine ⟨ht.step hstep, ?_⟩
    rw [step_eq_direct hr] at hstep
    exact hdirect.step hstep

/-- **The wire conversions do not change behaviour.** In a reachable state, processing a message
    after the round trip through its wire form is processing the message: of any request by any
    node, of any reply (with any conflict hint) by any member; each step is the step without a wire,
    and the two clusters reach the same states. -/
theorem wire_is_transparent (h : Cluster.Reachable cfg s) :
    (∀ (c : ConsensusModule) (request : Request) (now : Instant) (draw : Nat),
      serve c request now draw = serveDirect c request now draw) ∧
    (∀ n ∈ cfg.members, ∀ rpc reply, fold (s.core n) rpc reply = foldDirect (s.core n) rpc reply) ∧
    (∀ n ∈ cfg.members, ∀ peer reply upTo,
      (s.core n).handleAppendReply peer (appendReplyFromPb (appendReplyToPb reply)) upTo =
        (s.core n).handleAppendReply peer reply upTo) ∧
    (∀ act, Cluster.step cfg s act = directStep cfg s act) ∧
    ∀ t, Reaches (directStep cfg) (Cluster.init cfg) t ↔ Cluster.Reachable cfg t := by
  obtain ⟨a, hr⟩ := reachable_refines h
  exact ⟨serve_eq_direct, fun n hn => fold_eq_direct (no_term_zero hr hn),
    fun n hn => handleAppendReply_over_wire (no_term_zero hr hn), step_eq_direct hr,
    fun _ => reaches_direct_iff⟩

/-- The leader of `committed` takes a hint without a term as it takes it with term 0. -/
theorem wire_is_transparent_committed :
    (committed.core 1).handleAppendReply 2
        (appendReplyFromPb (appendReplyToPb ⟨1, false, some 1, none⟩)) 1 =
      (committed.core 1).handleAppendReply 2 ⟨1, false, some 1, none⟩ 1 :=
  (wire_is_transparent committed_reachable).2.2.1 1 (by decide) 2 _ 1

end Murmur.Raft
