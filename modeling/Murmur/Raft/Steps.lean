/-
  What each action of a cluster does, said once: its guard, and the state after it field by field.

  * `step_tick` .. `step_restart`: one inversion lemma an action.
  * `step_requests`, `step_replies`: where messages come from (`Sent`).
  * `step_core`: seen from one node, an action is a call of one of its operations with what a
    message carries (`Calls`), a start from storage, or nothing; so what all operations keep, and
    every start establishes, holds of every node of every reachable state (`core_invariant`).
-/
import Murmur.Raft.Operation

namespace Murmur.Raft

/-! ## One process changes -/

theorem core_update_self {s s' : Cluster} {n : NodeId} {p : Process}
    (hprocs : s'.procs = Function.update s.procs n p) : s'.core n = p.core := by
  unfold Cluster.core
  rw [hprocs, Function.update_self]

theorem core_update_ne {s s' : Cluster} {n : NodeId} {p : Process}
    (hprocs : s'.procs = Function.update s.procs n p) {m : NodeId} (hm : m ≠ n) :
    s'.core m = s.core m := by
  unfold Cluster.core
  rw [hprocs, Function.update_of_ne hm]

theorem tick_epoch (p : Process) (now : Instant) (draw : Nat) :
    (tick p now draw).1.epoch = p.epoch := by
  unfold tick
  split
  · dsimp only
    split
    · rfl
    · split <;> rfl
  · split
    · rfl
    · split <;> rfl

namespace Cluster

variable {cfg : ClusterConfig} {s s' : Cluster} {n : NodeId}

/-! ## The actions -/

/-- The calls of one tick. -/
def sends (s : Cluster) (n : NodeId) (now : Instant) (draw : Nat) : List Rpc :=
  (Raft.tick (s.procs n) now draw).2.map fun (peer, request) =>
    { sender := n, epoch := (Raft.tick (s.procs n) now draw).1.epoch, peer, request }

theorem step_tick {now : Instant} {draw : Nat} (h : step cfg s (.tick n now draw) = some s') :
    n ∈ cfg.members ∧ s' = { s with
      procs := Function.update s.procs n (Raft.tick (s.procs n) now draw).1
      requests := s.requests ++ s.sends n now draw } := by
  unfold step at h
  dsimp only at h
  split at h
  · next hmem =>
      cases h
      exact ⟨hmem, rfl⟩
  · cases h

theorem step_serve {k : Nat} {now : Instant} {draw : Nat}
    (h : step cfg s (.serve k now draw) = some s') :
    ∃ rpc, s.requests[k]? = some rpc ∧
      s' = { s.setCore rpc.peer (Raft.serve (s.core rpc.peer) rpc.request now draw).1 with
        replies := s.replies ++
          [(rpc, (Raft.serve (s.core rpc.peer) rpc.request now draw).2)] } := by
  unfold step at h
  dsimp only at h
  split at h
  · cases h
  · next rpc hrpc =>
      cases h
      exact ⟨rpc, hrpc, rfl⟩

theorem step_fold {k : Nat} (h : step cfg s (.fold k) = some s') :
    ∃ rpc reply, s.replies[k]? = some (rpc, reply) ∧
      rpc.epoch = (s.procs rpc.sender).epoch ∧
      s' = s.setCore rpc.sender (Raft.fold (s.core rpc.sender) rpc reply) := by
  unfold step at h
  dsimp only at h
  split at h
  · cases h
  · next rpc reply hreply =>
      split at h
      · next hepoch =>
          cases h
          exact ⟨rpc, reply, hreply, hepoch, rfl⟩
      · cases h

theorem step_propose {command : Bytes} (h : step cfg s (.propose n command) = some s') :
    n ∈ cfg.members ∧ s' = s.setCore n ((s.core n).submitCommand command).1 := by
  unfold step at h
  dsimp only at h
  split at h
  · next hmem =>
      cases h
      exact ⟨hmem, rfl⟩
  · cases h

theorem step_snapshot {index : Nat} {data : Bytes}
    (h : step cfg s (.snapshot n index data) = some s') :
    n ∈ cfg.members ∧ ∃ core taken, (s.core n).takeSnapshot index data = some core ∧
      s' = { s.setCore n core with taken := s.taken ++ taken } ∧
      if index ≤ (s.core n).log.snapshotIndex ∨ index > (s.core n).lastApplied then taken = []
      else taken = [{ node := n, index, data, log := (s.core n).log
                      previous := (s.core n).snapshot }] := by
  unfold step at h
  dsimp only at h
  split at h
  · next hmem =>
      obtain ⟨core, hcore, heq⟩ := Option.map_eq_some_iff.mp h
      refine ⟨hmem, core, ?_⟩
      split at heq
      · next hout =>
          refine ⟨[], hcore, ?_, by rw [if_pos hout]⟩
          rw [← heq, List.append_nil]
          rfl
      · next hin => exact ⟨_, hcore, heq.symm, by rw [if_neg hin]⟩
  · cases h

theorem step_drain (h : step cfg s (.drain n) = some s') :
    n ∈ cfg.members ∧ ∃ core out, (s.core n).takeApplies = some (core, out) ∧
      s' = { s.setCore n core with delivered := s.delivered ++ out.map fun item => (n, item) } := by
  unfold step at h
  dsimp only at h
  split at h
  · next hmem =>
      obtain ⟨⟨core, out⟩, hcore, heq⟩ := Option.map_eq_some_iff.mp h
      exact ⟨hmem, core, out, hcore, heq.symm⟩
  · cases h

theorem step_restart {now : Instant} {draw : Nat}
    (h : step cfg s (.restart n now draw) = some s') :
    n ∈ cfg.members ∧ s' = { s with
      procs := Function.update s.procs n
        (startNode cfg n (s.core n).storage ((s.procs n).epoch + 1) now draw) } := by
  unfold step at h
  dsimp only at h
  split at h
  · next hmem =>
      cases h
      exact ⟨hmem, rfl⟩
  · cases h

@[simp] theorem core_setCore_self (s : Cluster) (n : NodeId) (c : ConsensusModule) :
    (s.setCore n c).core n = c :=
  core_update_self (p := { s.procs n with core := c }) rfl

theorem core_setCore_ne (s : Cluster) (c : ConsensusModule) {n m : NodeId} (h : m ≠ n) :
    (s.setCore n c).core m = s.core m :=
  core_update_ne rfl h

/-! ## What a tick sends -/

/-- The calls a tick of node `n` can make, each with the branch of the driver that makes it. -/
inductive Sent (s : Cluster) (n : NodeId) (now : Instant) (draw : Nat) : Rpc → Prop
  | append {peer : NodeId} (hrole : (s.core n).role = .leader) (hpeer : peer ∈ (s.core n).peers)
      (hneed : ¬ (s.core n).needsSnapshot peer = true) :
      Sent s n now draw ⟨n, (s.procs n).epoch, peer, .append ((s.core n).appendArgsFor peer)⟩
  | install {peer : NodeId} (hrole : (s.core n).role = .leader) (hpeer : peer ∈ (s.core n).peers)
      (hneed : (s.core n).needsSnapshot peer = true) :
      Sent s n now draw ⟨n, (s.procs n).epoch, peer, .install ((s.core n).installSnapshotArgs peer)⟩
  | campaign {peer : NodeId} (hpeer : peer ∈ ((s.core n).startElection now draw).1.peers)
      (hwon : (s.core n).preVoteSucceeded = true) :
      Sent s n now draw
        ⟨n, (s.procs n).epoch, peer, .vote ((s.core n).startElection now draw).2⟩
  | probe {peer : NodeId} (hpeer : peer ∈ (s.core n).peers) :
      Sent s n now draw
        ⟨n, (s.procs n).epoch, peer, .vote ((s.core n).startPreElection now draw).2⟩

theorem sent_replicate {now : Instant} {draw : Nat} {due : Bool} {peer : NodeId} {request : Request}
    (hrole : (s.core n).role = .leader) (h : (peer, request) ∈ replicate (s.core n) due) :
    Sent s n now draw ⟨n, (s.procs n).epoch, peer, request⟩ := by
  unfold replicate at h
  obtain ⟨q, hq, hout⟩ := List.mem_filterMap.mp h
  obtain ⟨r, hr, heq⟩ := Option.map_eq_some_iff.mp hout
  cases heq
  unfold outgoing at hr
  split at hr
  · next hneed =>
      split at hr
      · cases hr
        exact .install hrole hq hneed
      · cases hr
  · next hneed =>
      dsimp only at hr
      split at hr
      · cases hr
        exact .append hrole hq hneed
      · cases hr

theorem mem_sends {now : Instant} {draw : Nat} {rpc : Rpc} (h : rpc ∈ s.sends n now draw) :
    Sent s n now draw rpc := by
  unfold sends at h
  obtain ⟨⟨peer, request⟩, hm, rfl⟩ := List.mem_map.mp h
  rw [tick_epoch]
  unfold Raft.tick at hm
  split at hm
  · next hlead =>
      have hrole : (s.core n).role = .leader := of_decide_eq_true hlead
      dsimp only at hm
      split at hm
      · simp at hm
      · exact sent_replicate hrole hm
  · split at hm
    · next hwon =>
        obtain ⟨q, hq, heq⟩ := List.mem_map.mp hm
        cases heq
        exact .campaign hq hwon
    · split at hm
      · obtain ⟨q, hq, heq⟩ := List.mem_map.mp hm
        cases heq
        exact .probe hq
      · simp at hm

/-- New requests are sent by ticks. -/
theorem step_requests {act : Action} (h : step cfg s act = some s') {rpc : Rpc}
    (hrpc : rpc ∈ s'.requests) : rpc ∈ s.requests ∨
      ∃ n now draw, act = .tick n now draw ∧ n ∈ cfg.members ∧ Sent s n now draw rpc := by
  cases act with
  | tick n now draw =>
      obtain ⟨hn, rfl⟩ := step_tick h
      exact (List.mem_append.mp hrpc).imp_right fun hnew => ⟨n, now, draw, rfl, hn, mem_sends hnew⟩
  | serve k now draw => obtain ⟨_, -, rfl⟩ := step_serve h; exact .inl hrpc
  | fold k => obtain ⟨_, _, -, -, rfl⟩ := step_fold h; exact .inl hrpc
  | propose n command => obtain ⟨-, rfl⟩ := step_propose h; exact .inl hrpc
  | snapshot n index data => obtain ⟨-, _, _, -, rfl, -⟩ := step_snapshot h; exact .inl hrpc
  | drain n => obtain ⟨-, _, _, -, rfl⟩ := step_drain h; exact .inl hrpc
  | restart n now draw => obtain ⟨-, rfl⟩ := step_restart h; exact .inl hrpc

/-- New replies are the answers of served requests. -/
theorem step_replies {act : Action} (h : step cfg s act = some s') {x : Rpc × Reply}
    (hx : x ∈ s'.replies) : x ∈ s.replies ∨
      ∃ k now draw, act = .serve k now draw ∧ s.requests[k]? = some x.1 ∧
        x.2 = (Raft.serve (s.core x.1.peer) x.1.request now draw).2 := by
  cases act with
  | tick n now draw => obtain ⟨-, rfl⟩ := step_tick h; exact .inl hx
  | serve k now draw =>
      obtain ⟨rpc, hrpc, rfl⟩ := step_serve h
      refine (List.mem_append.mp hx).imp_right fun hnew => ?_
      rw [List.mem_singleton.mp hnew]
      exact ⟨k, now, draw, rfl, hrpc, rfl⟩
  | fold k => obtain ⟨_, _, -, -, rfl⟩ := step_fold h; exact .inl hx
  | propose n command => obtain ⟨-, rfl⟩ := step_propose h; exact .inl hx
  | snapshot n index data => obtain ⟨-, _, _, -, rfl, -⟩ := step_snapshot h; exact .inl hx
  | drain n => obtain ⟨-, _, _, -, rfl⟩ := step_drain h; exact .inl hx
  | restart n now draw => obtain ⟨-, rfl⟩ := step_restart h; exact .inl hx

/-- Messages stay where they are. -/
theorem step_replies_subset {act : Action} (h : step cfg s act = some s') :
    s.replies ⊆ s'.replies := by
  cases act with
  | tick n now draw => obtain ⟨-, rfl⟩ := step_tick h; exact List.Subset.refl _
  | serve k now draw => obtain ⟨_, -, rfl⟩ := step_serve h; exact List.subset_append_left _ _
  | fold k => obtain ⟨_, _, -, -, rfl⟩ := step_fold h; exact List.Subset.refl _
  | propose n command => obtain ⟨-, rfl⟩ := step_propose h; exact List.Subset.refl _
  | snapshot n index data =>
      obtain ⟨-, _, _, -, rfl, -⟩ := step_snapshot h
      exact List.Subset.refl _
  | drain n => obtain ⟨-, _, _, -, rfl⟩ := step_drain h; exact List.Subset.refl _
  | restart n now draw => obtain ⟨-, rfl⟩ := step_restart h; exact List.Subset.refl _

/-- Messages and snapshots on record stay where they are. -/
theorem step_grows {act : Action} (h : step cfg s act = some s') :
    s.requests <+: s'.requests ∧ s.replies <+: s'.replies ∧ s.taken <+: s'.taken := by
  cases act with
  | tick n now draw =>
      obtain ⟨-, rfl⟩ := step_tick h
      exact ⟨List.prefix_append _ _, List.prefix_rfl, List.prefix_rfl⟩
  | serve k now draw =>
      obtain ⟨_, -, rfl⟩ := step_serve h
      exact ⟨List.prefix_rfl, List.prefix_append _ _, List.prefix_rfl⟩
  | fold k =>
      obtain ⟨_, _, -, -, rfl⟩ := step_fold h
      exact ⟨List.prefix_rfl, List.prefix_rfl, List.prefix_rfl⟩
  | propose n command =>
      obtain ⟨-, rfl⟩ := step_propose h
      exact ⟨List.prefix_rfl, List.prefix_rfl, List.prefix_rfl⟩
  | snapshot n index data =>
      obtain ⟨-, _, _, -, rfl, -⟩ := step_snapshot h
      exact ⟨List.prefix_rfl, List.prefix_rfl, List.prefix_append _ _⟩
  | drain n =>
      obtain ⟨-, _, _, -, rfl⟩ := step_drain h
      exact ⟨List.prefix_rfl, List.prefix_rfl, List.prefix_rfl⟩
  | restart n now draw =>
      obtain ⟨-, rfl⟩ := step_restart h
      exact ⟨List.prefix_rfl, List.prefix_rfl, List.prefix_rfl⟩

/-- A request at a new place was sent by a tick. -/
theorem step_requests_new {act : Action} (h : step cfg s act = some s') {k : Nat} {rpc : Rpc}
    (hk : s'.requests[k]? = some rpc) (hnew : s.requests.length ≤ k) :
    ∃ n now draw, act = .tick n now draw ∧ Sent s n now draw rpc := by
  have hlen := (List.getElem?_eq_some_iff.mp hk).1
  cases act with
  | tick n now draw =>
      obtain ⟨-, rfl⟩ := step_tick h
      have hk : (s.requests ++ s.sends n now draw)[k]? = some rpc := hk
      rw [List.getElem?_append_right hnew] at hk
      exact ⟨n, now, draw, rfl, mem_sends (List.mem_of_getElem? hk)⟩
  | serve k now draw => obtain ⟨_, -, rfl⟩ := step_serve h; exact absurd hnew (Nat.not_le.mpr hlen)
  | fold k => obtain ⟨_, _, -, -, rfl⟩ := step_fold h; exact absurd hnew (Nat.not_le.mpr hlen)
  | propose n command => obtain ⟨-, rfl⟩ := step_propose h; exact absurd hnew (Nat.not_le.mpr hlen)
  | snapshot n index data =>
      obtain ⟨-, _, _, -, rfl, -⟩ := step_snapshot h
      exact absurd hnew (Nat.not_le.mpr hlen)
  | drain n => obtain ⟨-, _, _, -, rfl⟩ := step_drain h; exact absurd hnew (Nat.not_le.mpr hlen)
  | restart n now draw => obtain ⟨-, rfl⟩ := step_restart h; exact absurd hnew (Nat.not_le.mpr hlen)

/-- What a tick sends has a new place. -/
theorem step_sends {now : Instant} {draw : Nat} (h : step cfg s (.tick n now draw) = some s')
    {message : NodeId × Request} (hmessage : message ∈ (Raft.tick (s.procs n) now draw).2) :
    ∃ k, s.requests.length ≤ k ∧
      s'.requests[k]? = some ⟨n, (s.procs n).epoch, message.1, message.2⟩ := by
  obtain ⟨-, rfl⟩ := step_tick h
  have hsent : (⟨n, (s.procs n).epoch, message.1, message.2⟩ : Rpc) ∈ s.sends n now draw := by
    refine List.mem_map.mpr ⟨message, hmessage, ?_⟩
    rw [tick_epoch]
  obtain ⟨j, hj⟩ := List.mem_iff_getElem?.mp hsent
  refine ⟨s.requests.length + j, Nat.le_add_right _ _, ?_⟩
  show (s.requests ++ _)[_]? = _
  rw [List.getElem?_append_right (Nat.le_add_right _ _), Nat.add_sub_cancel_left]
  exact hj

/-- A reply at a new place is the answer of a served request. -/
theorem step_replies_new {act : Action} (h : step cfg s act = some s') {k : Nat} {rpc : Rpc}
    {reply : Reply} (hk : s'.replies[k]? = some (rpc, reply)) (hnew : s.replies.length ≤ k) :
    ∃ j now draw, act = .serve j now draw ∧ s.requests[j]? = some rpc ∧
      reply = (Raft.serve (s.core rpc.peer) rpc.request now draw).2 := by
  have hlen := (List.getElem?_eq_some_iff.mp hk).1
  cases act with
  | serve j now draw =>
      obtain ⟨rpc', hj, rfl⟩ := step_serve h
      have hk :
          (s.replies ++ [(rpc', (Raft.serve (s.core rpc'.peer) rpc'.request now draw).2)])[k]? =
        some (rpc, reply) := hk
      rw [List.getElem?_append_right hnew] at hk
      cases List.mem_singleton.mp (List.mem_of_getElem? hk)
      exact ⟨j, now, draw, rfl, hj, rfl⟩
  | tick n now draw => obtain ⟨-, rfl⟩ := step_tick h; exact absurd hnew (Nat.not_le.mpr hlen)
  | fold k => obtain ⟨_, _, -, -, rfl⟩ := step_fold h; exact absurd hnew (Nat.not_le.mpr hlen)
  | propose n command => obtain ⟨-, rfl⟩ := step_propose h; exact absurd hnew (Nat.not_le.mpr hlen)
  | snapshot n index data =>
      obtain ⟨-, _, _, -, rfl, -⟩ := step_snapshot h
      exact absurd hnew (Nat.not_le.mpr hlen)
  | drain n => obtain ⟨-, _, _, -, rfl⟩ := step_drain h; exact absurd hnew (Nat.not_le.mpr hlen)
  | restart n now draw => obtain ⟨-, rfl⟩ := step_restart h; exact absurd hnew (Nat.not_le.mpr hlen)

/-! ## One node's view -/

/-- The operation an action calls on a node, with the message its arguments come from. -/
inductive Calls (s : Cluster) : Action → NodeId → Op → Prop
  | vote {k : Nat} {rpc : Rpc} {args : RequestVoteArgs} (hk : s.requests[k]? = some rpc)
      (hreq : rpc.request = .vote args) (now : Instant) (draw : Nat) :
      Calls s (.serve k now draw) rpc.peer (.handleRequestVote args now draw)
  | append {k : Nat} {rpc : Rpc} {args : AppendEntriesArgs} (hk : s.requests[k]? = some rpc)
      (hreq : rpc.request = .append args) (now : Instant) (draw : Nat) :
      Calls s (.serve k now draw) rpc.peer (.handleAppendEntries args now draw)
  | install {k : Nat} {rpc : Rpc} {args : InstallSnapshotArgs} (hk : s.requests[k]? = some rpc)
      (hreq : rpc.request = .install args) (now : Instant) (draw : Nat) :
      Calls s (.serve k now draw) rpc.peer (.handleInstallSnapshot args now draw)
  | preVoted {k : Nat} {rpc : Rpc} {args : RequestVoteArgs} {reply : RequestVoteReply}
      (hk : s.replies[k]? = some (rpc, .vote reply)) (hreq : rpc.request = .vote args)
      (hpre : args.preVote = true) (hepoch : rpc.epoch = (s.procs rpc.sender).epoch) :
      Calls s (.fold k) rpc.sender (.recordPreVoteReply rpc.peer reply)
  | voted {k : Nat} {rpc : Rpc} {args : RequestVoteArgs} {reply : RequestVoteReply}
      (hk : s.replies[k]? = some (rpc, .vote reply)) (hreq : rpc.request = .vote args)
      (hpre : ¬ args.preVote = true) (hepoch : rpc.epoch = (s.procs rpc.sender).epoch) :
      Calls s (.fold k) rpc.sender (.recordVoteReply rpc.peer reply)
  | appended {k : Nat} {rpc : Rpc} {args : AppendEntriesArgs} {reply : AppendEntriesReply}
      (hk : s.replies[k]? = some (rpc, .append reply)) (hreq : rpc.request = .append args)
      (hepoch : rpc.epoch = (s.procs rpc.sender).epoch) :
      Calls s (.fold k) rpc.sender (.handleAppendReply rpc.peer
        (appendReplyFromPb (appendReplyToPb reply)) (args.prevLogIndex + args.entries.length))
  | installed {k : Nat} {rpc : Rpc} {args : InstallSnapshotArgs} {reply : InstallSnapshotReply}
      (hk : s.replies[k]? = some (rpc, .install reply)) (hreq : rpc.request = .install args)
      (hepoch : rpc.epoch = (s.procs rpc.sender).epoch) :
      Calls s (.fold k) rpc.sender
        (.handleInstallSnapshotReply rpc.peer reply args.lastIncludedIndex)
  | campaign {n : NodeId} (hrole : ¬ (s.core n).role = .leader)
      (hwon : (s.core n).preVoteSucceeded = true) (now : Instant) (draw : Nat) :
      Calls s (.tick n now draw) n (.startElection now draw)
  | probe {n : NodeId} (hrole : ¬ (s.core n).role = .leader) (now : Instant) (draw : Nat) :
      Calls s (.tick n now draw) n (.startPreElection now draw)
  | propose (n : NodeId) (command : Bytes) :
      Calls s (.propose n command) n (.submitCommand command)
  | snapshot (n : NodeId) (index : Nat) (data : Bytes) :
      Calls s (.snapshot n index data) n (.snapshot index data)
  | drain (n : NodeId) : Calls s (.drain n) n .takeApplies

/-- What an action does to node `m`. -/
inductive Moved (cfg : ClusterConfig) (s : Cluster) (act : Action) (m : NodeId) :
    ConsensusModule → Prop
  | same : Moved cfg s act m (s.core m)
  | op {c : ConsensusModule} (o : Op) (hcall : Calls s act m o)
      (hrun : o.run (s.core m) = some c) : Moved cfg s act m c
  | start (epoch : Nat) (now : Instant) (draw : Nat) (hact : act = .restart m now draw) :
      Moved cfg s act m (startNode cfg m (s.core m).storage epoch now draw).core

/-- One process changes. -/
theorem Moved.of_update {act : Action} {p : Process}
    (hprocs : s'.procs = Function.update s.procs n p) (h : Moved cfg s act n p.core) (m : NodeId) :
    Moved cfg s act m (s'.core m) := by
  by_cases hm : m = n
  · subst hm
    rwa [core_update_self hprocs]
  · rw [core_update_ne hprocs hm]
    exact .same

theorem moved_tick (s : Cluster) (n : NodeId) (now : Instant) (draw : Nat) :
    Moved cfg s (.tick n now draw) n (Raft.tick (s.procs n) now draw).1.core := by
  unfold Raft.tick
  split
  · dsimp only
    split
    · exact .same
    · split
      · exact .same
      · exact .same
  · next hlead =>
      have hrole : ¬ (s.core n).role = .leader := fun hrole => hlead (decide_eq_true hrole)
      split
      · next hwon => exact .op _ (.campaign hrole hwon now draw) rfl
      · split
        · exact .op _ (.probe hrole now draw) rfl
        · exact .same

theorem moved_serve {k : Nat} {rpc : Rpc} (hk : s.requests[k]? = some rpc) (now : Instant)
    (draw : Nat) : Moved cfg s (.serve k now draw) rpc.peer
      (Raft.serve (s.core rpc.peer) rpc.request now draw).1 := by
  cases hreq : rpc.request with
  | vote args => exact .op _ (.vote hk hreq now draw) rfl
  | append args =>
      refine .op _ (.append hk hreq now draw) ?_
      simp [Op.run, Raft.serve]
  | install args => exact .op _ (.install hk hreq now draw) rfl

theorem moved_fold {k : Nat} {rpc : Rpc} {reply : Reply} (hk : s.replies[k]? = some (rpc, reply))
    (hepoch : rpc.epoch = (s.procs rpc.sender).epoch) :
    Moved cfg s (.fold k) rpc.sender (Raft.fold (s.core rpc.sender) rpc reply) := by
  unfold Raft.fold
  split
  · next args reply hreq =>
      dsimp only
      split
      · next hpre => exact .op _ (.preVoted hk hreq hpre hepoch) rfl
      · next hpre => exact .op _ (.voted hk hreq hpre hepoch) rfl
  · next args reply hreq => exact .op _ (.appended hk hreq hepoch) rfl
  · next args reply hreq => exact .op _ (.installed hk hreq hepoch) rfl
  · exact .same

theorem step_core {act : Action} (h : step cfg s act = some s') (m : NodeId) :
    Moved cfg s act m (s'.core m) := by
  cases act with
  | tick n now draw =>
      obtain ⟨-, rfl⟩ := step_tick h
      exact (moved_tick s n now draw).of_update rfl m
  | serve k now draw =>
      obtain ⟨rpc, hk, rfl⟩ := step_serve h
      exact (moved_serve hk now draw).of_update rfl m
  | fold k =>
      obtain ⟨rpc, reply, hk, hepoch, rfl⟩ := step_fold h
      exact (moved_fold hk hepoch).of_update rfl m
  | propose n command =>
      obtain ⟨-, rfl⟩ := step_propose h
      exact Moved.of_update rfl (.op _ (.propose n command) rfl) m
  | snapshot n index data =>
      obtain ⟨-, core, taken, hcore, rfl, -⟩ := step_snapshot h
      have hmoved : Moved cfg s (.snapshot n index data) n core :=
        .op _ (.snapshot n index data) hcore
      exact hmoved.of_update rfl m
  | drain n =>
      obtain ⟨-, core, out, hcore, rfl⟩ := step_drain h
      have hmoved : Moved cfg s (.drain n) n core :=
        .op _ (.drain n) (Option.map_eq_some_iff.mpr ⟨_, hcore, rfl⟩)
      exact hmoved.of_update rfl m
  | restart n now draw =>
      obtain ⟨-, rfl⟩ := step_restart h
      exact Moved.of_update rfl (.start _ now draw rfl) m

/-- What every start establishes and every operation keeps holds of every node. -/
theorem core_invariant {P : NodeId → ConsensusModule → Prop}
    (hstart : ∀ n storage epoch now draw, P n (startNode cfg n storage epoch now draw).core)
    (hop : ∀ n c o c', P n c → Op.run c o = some c' → P n c') (h : Reachable cfg s) (n : NodeId) :
    P n (s.core n) := by
  refine h.invariant (I := fun s => ∀ n, P n (s.core n)) ?_ (fun n => hstart n _ _ _ _) n
  intro s act s' hs hstep m
  have hmoved := step_core hstep m
  generalize s'.core m = c at hmoved ⊢
  cases hmoved with
  | same => exact hs m
  | op o hcall hrun => exact hop m _ o _ (hs m) hrun
  | start epoch now draw hact => exact hstart m _ _ _ _

end Cluster

end Murmur.Raft
