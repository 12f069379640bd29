/-
  The cluster on its files: `FileStorage` under every node, and crashes at any file operation.

  In `Cluster` a process is started again on the storage its predecessor left after a whole
  operation. Here it can die inside an operation, after any of the file operations of the saves it
  makes; what it was about to send or to return does not get out. The new process loads what it
  finds.

  * `Cluster.call`: the operation an action calls, and on which node.
  * `savedAfter_cases`: a crash inside an operation leaves the storage as it was, or as it is at the
    end, or with a newer term and nothing else.
  * `crash_refines`: so a crash is a step of the protocol, and the messages that did not get out are
    lost messages.
  * `OnDisk`: the cluster refines the protocol, and every disk holds what its node takes for stored.
  * `disk_cluster_safe`, `delivered_survives_power_loss`: what follows for every run.
-/
import Murmur.Raft.Recovery
import Murmur.Raft.Permanence
import Murmur.Raft.Clock

namespace Murmur.Raft

open Murmur.Basis Murmur.Protocol ConsensusModule FileStorage StateFile

variable {cfg : ClusterConfig} {s s' : Cluster} {a : Ghost} {act : Action} {n : NodeId} {o : Op}
  {c c' : ConsensusModule}

/-! ## The operation of an action -/

/-- What a tick calls, if anything. -/
def tickOp (c : ConsensusModule) (now : Instant) (draw : Nat) : Option Op :=
  if c.isLeader then none
  else if c.preVoteSucceeded then some (.startElection now draw)
  else if c.electionTimedOut now then some (.startPreElection now draw)
  else none

/-- What a request calls, as it comes off the wire. -/
def Request.op (now : Instant) (draw : Nat) : Request → Op
  | .vote args => .handleRequestVote (voteReqFromPb (voteReqToPb args)) now draw
  | .append args => .handleAppendEntries (appendReqFromPb (appendReqToPb args)) now draw
  | .install args => .handleInstallSnapshot (installReqFromPb (installReqToPb args)) now draw

/-- What the answer to `rpc` calls. -/
def Rpc.op (rpc : Rpc) (reply : Reply) : Option Op :=
  match rpc.request, reply with
  | .vote args, .vote reply =>
    let reply := voteReplyFromPb (voteReplyToPb reply)
    if args.preVote then some (.recordPreVoteReply rpc.peer reply)
    else some (.recordVoteReply rpc.peer reply)
  | .append args, .append reply =>
    some (.handleAppendReply rpc.peer (appendReplyFromPb (appendReplyToPb reply))
      (args.prevLogIndex + args.entries.length))
  | .install args, .install reply =>
    some (.handleInstallSnapshotReply rpc.peer (installReplyFromPb (installReplyToPb reply))
      args.lastIncludedIndex)
  | _, _ => none

/-- The operation an action calls, and the node it calls it on. -/
def Cluster.call (s : Cluster) : Action → Option (NodeId × Op)
  | .tick n now draw => (tickOp (s.core n) now draw).map fun o => (n, o)
  | .serve k now draw => (s.requests[k]?).map fun rpc => (rpc.peer, rpc.request.op now draw)
  | .fold k => (s.replies[k]?).bind fun (rpc, reply) => (rpc.op reply).map fun o => (rpc.sender, o)
  | .propose n command => some (n, .submitCommand command)
  | .snapshot n index data => some (n, .snapshot index data)
  | .drain n => some (n, .takeApplies)
  | .restart .. => none

theorem tick_run (p : Process) (now : Instant) (draw : Nat) :
    ((tickOp p.core now draw).elim (some p.core) fun o => o.run p.core) =
      some (tick p now draw).1.core := by
  unfold tickOp tick
  by_cases hlead : p.core.isLeader = true
  · simp only [hlead, if_true]
    dsimp only [Option.elim]
    split
    · rfl
    · split <;> rfl
  · simp only [hlead]
    by_cases hwon : p.core.preVoteSucceeded = true
    · simp only [hwon, if_true]
      rfl
    · simp only [hwon]
      by_cases hdue : p.core.electionTimedOut now = true
      · simp only [hdue, if_true]
        rfl
      · simp only [hdue]
        rfl

theorem serve_run (c : ConsensusModule) (request : Request) (now : Instant) (draw : Nat) :
    (request.op now draw).run c = some (serve c request now draw).1 := by
  cases request with
  | vote | append | install => rfl

theorem fold_run (c : ConsensusModule) (rpc : Rpc) (reply : Reply) :
    ((rpc.op reply).elim (some c) fun o => o.run c) = some (fold c rpc reply) := by
  obtain ⟨sender, epoch, peer, request⟩ := rpc
  cases request with
  | vote args =>
      cases reply with
      | vote reply =>
          simp only [Rpc.op, fold]
          split <;> rfl
      | append | install => rfl
  | append args => cases reply <;> rfl
  | install args => cases reply <;> rfl

/-- What an action does to the processes: one of them runs the operation. -/
structure Ran (s s' : Cluster) (n : NodeId) (o : Op) : Prop where
  run : o.run (s.core n) = some (s'.core n)
  procs : ∃ p, s'.procs = Function.update s.procs n p ∧ p.epoch = (s.procs n).epoch

theorem call_some (hcall : s.call act = some (n, o)) (hstep : s.step cfg act = some s') :
    Ran s s' n o := by
  cases act with
  | tick m now draw =>
      obtain ⟨-, rfl⟩ := Cluster.step_tick hstep
      obtain ⟨o', ho, heq⟩ := Option.map_eq_some_iff.mp hcall
      cases heq
      refine ⟨?_, _, rfl, tick_epoch _ now draw⟩
      have hrun := tick_run (s.procs n) now draw
      rw [show tickOp (s.procs n).core now draw = some o from ho] at hrun
      exact hrun.trans (congrArg some (core_update_self rfl).symm)
  | serve k now draw =>
      obtain ⟨rpc, hk, rfl⟩ := Cluster.step_serve hstep
      obtain ⟨rpc', hk', heq⟩ := Option.map_eq_some_iff.mp hcall
      cases hk.symm.trans hk'
      cases heq
      exact ⟨(serve_run _ _ now draw).trans (congrArg some (Cluster.core_setCore_self s _ _).symm),
        _, rfl, rfl⟩
  | fold k =>
      obtain ⟨rpc, reply, hk, -, rfl⟩ := Cluster.step_fold hstep
      obtain ⟨x, hk', hop⟩ := Option.bind_eq_some_iff.mp hcall
      cases hk.symm.trans hk'
      obtain ⟨o', ho, heq⟩ := Option.map_eq_some_iff.mp hop
      cases heq
      have hrun := fold_run (s.core rpc.sender) rpc reply
      rw [ho] at hrun
      exact ⟨hrun.trans (congrArg some (Cluster.core_setCore_self s _ _).symm), _, rfl, rfl⟩
  | propose m command =>
      obtain ⟨-, rfl⟩ := Cluster.step_propose hstep
      cases hcall
      exact ⟨congrArg some (Cluster.core_setCore_self s _ _).symm, _, rfl, rfl⟩
  | snapshot m index data =>
      obtain ⟨-, core, taken, hcore, rfl, -⟩ := Cluster.step_snapshot hstep
      cases hcall
      exact ⟨hcore.trans (congrArg some (Cluster.core_setCore_self s _ _).symm), _, rfl, rfl⟩
  | drain m =>
      obtain ⟨-, core, out, htake, rfl⟩ := Cluster.step_drain hstep
      cases hcall
      refine ⟨?_, _, rfl, rfl⟩
      show (s.core n).takeApplies.map Prod.fst = some ((s.setCore n core).core n)
      rw [htake, Cluster.core_setCore_self]
      rfl
  | restart m now draw => cases hcall

theorem call_none (hcall : s.call act = none) (hact : act.isRestart = false)
    (hstep : s.step cfg act = some s') (m : NodeId) : s'.core m = s.core m := by
  cases act with
  | tick n now draw =>
      obtain ⟨-, rfl⟩ := Cluster.step_tick hstep
      have hrun := tick_run (s.procs n) now draw
      rw [show tickOp (s.procs n).core now draw = none from Option.map_eq_none_iff.mp hcall] at hrun
      by_cases hm : m = n
      · rw [hm, core_update_self rfl]
        exact (Option.some.inj hrun).symm
      · exact core_update_ne rfl hm
  | serve k now draw =>
      obtain ⟨rpc, hk, -⟩ := Cluster.step_serve hstep
      rw [Option.map_eq_none_iff.mp hcall] at hk
      cases hk
  | fold k =>
      obtain ⟨rpc, reply, hk, -, rfl⟩ := Cluster.step_fold hstep
      have hop : (rpc.op reply).map (fun o => (rpc.sender, o)) = none := by
        have hcall : (s.replies[k]?).bind _ = none := hcall
        rw [hk] at hcall
        exact hcall
      have hrun := fold_run (s.core rpc.sender) rpc reply
      rw [Option.map_eq_none_iff.mp hop] at hrun
      by_cases hm : m = rpc.sender
      · rw [hm, Cluster.core_setCore_self]
        exact (Option.some.inj hrun).symm
      · exact Cluster.core_setCore_ne s _ hm
  | propose | snapshot | drain => cases hcall
  | restart => cases hact

/-! ## What a crash inside an operation leaves -/

/-- At most one save, or two of which the first is that of a newer term. -/
def AtMostTwo (c : ConsensusModule) (saves : List PersistentState) : Prop :=
  saves.length ≤ 1 ∨
    ∃ term state, c.currentTerm < term ∧ saves = [(c.stepDown term).storage, state]

theorem stepDownSaves_append (c : ConsensusModule) (term : Nat) {rest : List PersistentState}
    (hrest : rest.length ≤ 1) : AtMostTwo c (c.stepDownSaves term ++ rest) := by
  unfold stepDownSaves
  split
  · next hnew =>
    match rest, hrest with
    | [], _ => exact Or.inl le_rfl
    | [state], _ => exact Or.inr ⟨term, state, hnew, rfl⟩
  · exact Or.inl hrest

theorem saves_shape (c : ConsensusModule) (o : Op) : AtMostTwo c (o.saves c) := by
  have hone : ∀ (p : Prop) [Decidable p] (state : PersistentState),
      (if p then [state] else []).length ≤ 1 := by
    intro p _ state
    split <;> simp
  have hnone : ∀ (p : Prop) [Decidable p] (state : PersistentState),
      (if p then [] else [state]).length ≤ 1 := by
    intro p _ state
    split <;> simp
  unfold Op.saves
  cases o with
  | handleRequestVote args now draw =>
      dsimp only
      split
      · exact Or.inl (Nat.zero_le _)
      · split
        · exact Or.inl (Nat.zero_le _)
        · exact stepDownSaves_append c args.term (hone _ _)
  | handleAppendEntries args now draw =>
      dsimp only
      split
      · exact Or.inl (Nat.zero_le _)
      · refine stepDownSaves_append c args.term ?_
        split
        · exact Nat.zero_le _
        · exact hnone _ _
  | handleInstallSnapshot args now draw =>
      dsimp only
      split
      · exact Or.inl (Nat.zero_le _)
      · exact stepDownSaves_append c args.term (hnone _ _)
  | recordPreVoteReply _ reply | recordVoteReply _ reply | handleAppendReply _ reply _
  | handleInstallSnapshotReply _ reply _ => exact Or.inl (hone _ _)
  | startPreElection | takeApplies => exact Or.inl (Nat.zero_le _)
  | startElection => exact Or.inl le_rfl
  | submitCommand => exact Or.inl (hnone _ _)
  | snapshot takenAt data =>
      refine Or.inl ?_
      dsimp only
      split
      · exact Nat.zero_le _
      · cases c.takeSnapshot takenAt data <;> simp

/-- A crash inside an operation leaves the storage as it was, or as it is at the end, or with a
    newer term and nothing else. -/
theorem savedAfter_cases (hc : Stored c) (hc' : Stored c') (hrun : o.run c = some c') (k : Nat) :
    c.savedAfter o k = c.storage ∨ c.savedAfter o k = c'.storage ∨
      ∃ term, c.currentTerm < term ∧ c.savedAfter o k = (c.stepDown term).storage := by
  have hlast : (o.saves c).getLastD c.storage = c'.storage := by
    rw [hc, hc']
    exact (Op.saves_path hc hrun).getLastD_eq
  unfold savedAfter
  rcases Nat.lt_or_ge k (o.saves c).length with hlt | hge
  · rcases saves_shape c o with hone | ⟨term, state, hterm, htwo⟩
    · have hzero : k = 0 := by omega
      rw [hzero, List.take_zero]
      exact Or.inl rfl
    · rw [htwo] at hlt ⊢
      match k, hlt with
      | 0, _ => exact Or.inl rfl
      | 1, _ => exact Or.inr (Or.inr ⟨term, hterm, rfl⟩)
  · rw [List.take_of_length_le hge]
    exact Or.inr (Or.inl hlast)

/-! ## A crash is a step of the protocol -/

/-- A new process of `n` that starts on `state`. -/
def Cluster.reborn (cfg : ClusterConfig) (s : Cluster) (n : NodeId) (state : PersistentState)
    (now : Instant) (draw : Nat) : Cluster :=
  { s with
    procs := Function.update s.procs n (startNode cfg n state ((s.procs n).epoch + 1) now draw) }

/-- Messages and deliveries that are forgotten make no difference. -/
theorem Refines.forget (h : Refines cfg True s a) (hprocs : s'.procs = s.procs)
    (htaken : s'.taken = s.taken) (hrequests : s'.requests ⊆ s.requests)
    (hreplies : s'.replies ⊆ s.replies) (hdelivered : s'.delivered ⊆ s.delivered) :
    Refines cfg True s' a := by
  obtain ⟨procs, requests, replies, delivered, taken⟩ := s'
  subst hprocs htaken
  exact ⟨h.safe, h.nodes, h.stored,
    fun rpc hrpc => have hr := h.requests rpc (hrequests hrpc)
      ⟨hr.sender, hr.peer, hr.epoch, hr.request, hr.offered⟩,
    fun x hx => have hr := h.replies x (hreplies hx)
      ⟨⟨hr.1.sender, hr.1.peer, hr.1.epoch, hr.1.request, hr.1.offered⟩, hr.2⟩,
    fun x hx => h.delivered x (hdelivered hx)⟩

/-- A process of `n` starts on what a process could have stored that the protocol allows for. -/
theorem reborn_refines {a' : Ghost} {taken : List Taken} (h : Refines cfg True s a)
    (hmoves : MovesBy cfg n a a') (hnode : NodeInv cfg True s.taken a' n c) (hstored : Stored c)
    (hsub : s.taken ⊆ taken) (now : Instant) (draw : Nat) :
    Refines cfg True (Cluster.reborn cfg { s with taken } n c.storage now draw) a' := by
  have hnode' : NodeInv cfg True taken a' n c := { hnode with cursors := hnode.cursors.mono hsub }
  exact h.update hmoves rfl hsub (Or.inr rfl) (startNode_node hnode' hstored _ now draw)
    (new_stored _ _ _ _ _ _) (fun x hx => Or.inl hx) (fun x hx => Or.inl hx) fun x hx => Or.inl hx

theorem crash_refines (h : Refines cfg True s a) (hmem : n ∈ cfg.members)
    (hstep : s.step cfg act = some s') (hcall : s.call act = some (n, o)) (k : Nat) (now : Instant)
    (draw : Nat) : ∃ a', Later cfg.quorums LogEntry.term a a' ∧ Refines cfg True
      (Cluster.reborn cfg { s with taken := s'.taken } n ((s.core n).savedAfter o k) now draw)
        a' := by
  obtain ⟨a₁, hans⟩ := step_refines h (fun hno => absurd trivial hno) hstep
  have hran := call_some hcall hstep
  have hsub := (Cluster.step_grows hstep).2.2.subset
  rcases savedAfter_cases (h.stored n hmem) (hans.refines.stored n hmem) hran.run k with
    hsaved | hsaved | ⟨term, hterm, hsaved⟩
  · -- Nothing was saved yet.
    rw [hsaved]
    exact ⟨a, Relation.ReflTransGen.refl, reborn_refines h Relation.ReflTransGen.refl
      (h.nodes n hmem) (h.stored n hmem) hsub now draw⟩
  · -- All was saved: the operation was done, and what it sent is lost.
    rw [hsaved]
    have href := reborn_refines hans.refines Relation.ReflTransGen.refl (hans.refines.nodes n hmem)
      (hans.refines.stored n hmem) (List.Subset.refl _) now draw
    have hrequests := (Cluster.step_grows hstep).1.subset
    have hreplies : s.replies ⊆ s'.replies := Cluster.step_replies_subset hstep
    have hdelivered : s.delivered ⊆ s'.delivered := (step_recorded hstep).delivered
    obtain ⟨p, hprocs, hepoch⟩ := hran.procs
    refine ⟨a₁, hans.later, href.forget ?_ rfl hrequests hreplies hdelivered⟩
    unfold Cluster.reborn
    dsimp only
    rw [hprocs, Function.update_idem, Function.update_self, hepoch]
  · -- A newer term was saved.
    rw [hsaved]
    have hsim := stepDown_simulates h.safe (h.nodes n hmem) hterm
    exact ⟨_, Moves.later hsim.moves, reborn_refines h hsim.moves hsim.node
      (stepDown_stored (h.stored n hmem) term) hsub now draw⟩

/-! ## The cluster on disks -/

/-- The nodes, and the disk of each. -/
structure DiskCluster where
  cluster : Cluster
  disks : NodeId → Disk

inductive DiskAction where
  | act (act : Action)
  /-- The process that `act` is up to dies after `k` file operations, and the next one starts. -/
  | crash (act : Action) (k : Nat) (left : Disk) (now : Instant) (draw : Nat)
  /-- A process that does nothing dies, and the next one starts. -/
  | reboot (n : NodeId) (left : Disk) (now : Instant) (draw : Nat)

namespace DiskCluster

/-- All nodes freshly started, on disks no node ever ran on. -/
def init (cfg : ClusterConfig) : DiskCluster := { cluster := .init cfg, disks := fun _ => {} }

/-- `start_node` on what is left of the disk of `n`. -/
def boot (cfg : ClusterConfig) (x : DiskCluster) (n : NodeId) (left : Disk) (now : Instant)
    (draw : Nat) : Option DiskCluster :=
  match load left with
  | some (.ok state) =>
    some { cluster := x.cluster.reborn cfg n state now draw
           disks := Function.update x.disks n left }
  | _ => none

/-- One action; `none` if it cannot happen (or panics). -/
def step (cfg : ClusterConfig) (x : DiskCluster) : DiskAction → Option DiskCluster
  | .act act => do
    guard (act.isRestart = false)
    let cluster ← x.cluster.step cfg act
    match x.cluster.call act with
    | some (n, o) =>
      guard (∀ state ∈ o.saves (x.cluster.core n), Fits state)
      return { cluster
               disks := Function.update x.disks n
                 ((x.disks n).after (fileOps (x.cluster.core n) o)) }
    | none => return { x with cluster }
  | .crash act k left now draw => do
    let after ← x.cluster.step cfg act
    let (n, o) ← x.cluster.call act
    guard (∀ state ∈ o.saves (x.cluster.core n), Fits state)
    guard (Crash ((x.disks n).after ((fileOps (x.cluster.core n) o).take k)) left)
    -- A snapshot the state machine has handed over counts as taken.
    let cluster := { x.cluster with taken := after.taken }
    boot cfg { x with cluster } n left now draw
  | .reboot n left now draw => do
    guard (n ∈ cfg.members)
    guard (Crash (x.disks n) left)
    boot cfg x n left now draw

/-- What an action does, with one constructor for each way it can end. -/
inductive Step (cfg : ClusterConfig) (x : DiskCluster) : DiskAction → DiskCluster → Prop
  | op {act : Action} {s : Cluster} {n : NodeId} {o : Op} (hstep : x.cluster.step cfg act = some s)
      (hcall : x.cluster.call act = some (n, o))
      (hfit : ∀ state ∈ o.saves (x.cluster.core n), Fits state) :
      Step cfg x (.act act)
        ⟨s, Function.update x.disks n ((x.disks n).after (fileOps (x.cluster.core n) o))⟩
  | idle {act : Action} {s : Cluster} (hact : act.isRestart = false)
      (hstep : x.cluster.step cfg act = some s) (hcall : x.cluster.call act = none) :
      Step cfg x (.act act) { x with cluster := s }
  | crash {act : Action} {k : Nat} {left : Disk} {now : Instant} {draw : Nat} {s : Cluster}
      {n : NodeId} {o : Op} {y : DiskCluster} (hstep : x.cluster.step cfg act = some s)
      (hcall : x.cluster.call act = some (n, o))
      (hfit : ∀ state ∈ o.saves (x.cluster.core n), Fits state)
      (hcrash : Crash ((x.disks n).after ((fileOps (x.cluster.core n) o).take k)) left)
      (hboot : boot cfg { x with cluster := { x.cluster with taken := s.taken } } n left now draw =
        some y) : Step cfg x (.crash act k left now draw) y
  | reboot {n : NodeId} {left : Disk} {now : Instant} {draw : Nat} {y : DiskCluster}
      (hmem : n ∈ cfg.members) (hcrash : Crash (x.disks n) left)
      (hboot : x.boot cfg n left now draw = some y) : Step cfg x (.reboot n left now draw) y

variable {x y : DiskCluster} {act : DiskAction}

theorem step_sound (h : x.step cfg act = some y) : Step cfg x act y := by
  cases act with
  | act act =>
      obtain ⟨hact, h⟩ := of_guard h
      obtain ⟨s, hstep, h⟩ := Option.bind_eq_some_iff.mp h
      split at h
      · next n o hcall =>
        obtain ⟨hfit, heq⟩ := of_guard h
        cases heq
        exact .op hstep hcall hfit
      · next hcall =>
        cases h
        exact .idle hact hstep hcall
  | crash act k left now draw =>
      obtain ⟨s, hstep, h⟩ := Option.bind_eq_some_iff.mp h
      obtain ⟨⟨n, o⟩, hcall, h⟩ := Option.bind_eq_some_iff.mp h
      obtain ⟨hfit, h⟩ := of_guard h
      obtain ⟨hcrash, hboot⟩ := of_guard h
      exact .crash hstep hcall hfit hcrash hboot
  | reboot n left now draw =>
      obtain ⟨hmem, h⟩ := of_guard h
      obtain ⟨hcrash, hboot⟩ := of_guard h
      exact .reboot hmem hcrash hboot

def Reachable (cfg : ClusterConfig) (x : DiskCluster) : Prop := Reaches (step cfg) (init cfg) x

end DiskCluster

/-- The cluster stands for the protocol state `a`, and every disk holds what its node takes for
    stored. -/
structure OnDisk (cfg : ClusterConfig) (x : DiskCluster) (a : Ghost) : Prop where
  refines : Refines cfg True x.cluster a
  holds : ∀ n ∈ cfg.members, FileStorage.Holds (x.disks n) (x.cluster.core n).storage
  rooted : ∀ n ∈ cfg.members, (x.cluster.core n).storage.Rooted

/-- An action calls operations on members only. -/
theorem call_member (h : Refines cfg True s a) (hcall : s.call act = some (n, o))
    (hstep : s.step cfg act = some s') : n ∈ cfg.members := by
  cases act with
  | tick m now draw =>
      obtain ⟨hm, -⟩ := Cluster.step_tick hstep
      obtain ⟨_, -, heq⟩ := Option.map_eq_some_iff.mp hcall
      cases heq
      exact hm
  | serve k now draw =>
      obtain ⟨rpc, hk, heq⟩ := Option.map_eq_some_iff.mp hcall
      cases heq
      have hrpc := h.requests rpc (List.mem_of_getElem? hk)
      exact cfg.mem_of_mem_peers hrpc.sender hrpc.peer
  | fold k =>
      obtain ⟨⟨rpc, reply⟩, hk, hop⟩ := Option.bind_eq_some_iff.mp hcall
      obtain ⟨_, -, heq⟩ := Option.map_eq_some_iff.mp hop
      cases heq
      exact (h.replies _ (List.mem_of_getElem? hk)).1.sender
  | propose m command =>
      cases hcall
      exact (Cluster.step_propose hstep).1
  | snapshot m index data =>
      cases hcall
      exact (Cluster.step_snapshot hstep).1
  | drain m =>
      cases hcall
      exact (Cluster.step_drain hstep).1
  | restart m now draw => cases hcall

namespace OnDisk

variable {x y : DiskCluster}

/-- What an operation saves can be written and read back. -/
theorem saves (h : OnDisk cfg x a) (hn : n ∈ cfg.members)
    (hfit : ∀ state ∈ o.saves (x.cluster.core n), Fits state) :
    ∀ state ∈ o.saves (x.cluster.core n), state.Rooted ∧ Fits state := by
  intro state hs
  obtain ⟨q, hpath⟩ := Op.exists_path (h.refines.stored n hn) o
  exact ⟨hpath.rooted (h.rooted n hn) state (List.mem_cons_of_mem _ hs), hfit state hs⟩

/-- One disk changes, and with it what its node has stored. -/
theorem update {a' : Ghost} (h : OnDisk cfg x a) (hrefines : Refines cfg True y.cluster a')
    {disk : Disk} (hdisks : y.disks = Function.update x.disks n disk)
    (hcores : ∀ m, m ≠ n → y.cluster.core m = x.cluster.core m)
    (hholds : FileStorage.Holds disk (y.cluster.core n).storage)
    (hrooted : (y.cluster.core n).storage.Rooted) :
    OnDisk cfg y a' := by
  refine ⟨hrefines, fun m hm => ?_, fun m hm => ?_⟩
  · rw [hdisks]
    by_cases hmn : m = n
    · rw [hmn, Function.update_self]
      exact hholds
    · rw [Function.update_of_ne hmn, hcores m hmn]
      exact h.holds m hm
  · by_cases hmn : m = n
    · rw [hmn]
      exact hrooted
    · rw [hcores m hmn]
      exact h.rooted m hm

/-- A new process takes what the disk holds. -/
theorem boot {a' : Ghost} {state : PersistentState} {taken : List Taken} {left : Disk}
    {now : Instant} {draw : Nat} (h : OnDisk cfg x a) (hleft : FileStorage.Holds left state)
    (hrooted : state.Rooted) (hrefines : Refines cfg True
      (Cluster.reborn cfg { x.cluster with taken } n state now draw) a')
    (hboot : DiskCluster.boot cfg { x with cluster := { x.cluster with taken } } n left now draw =
      some y) : OnDisk cfg y a' := by
  unfold DiskCluster.boot at hboot
  rw [hleft.load] at hboot
  cases hboot
  have hcore : (Cluster.reborn cfg { x.cluster with taken } n state now draw).core n =
      (startNode cfg n state ((x.cluster.procs n).epoch + 1) now draw).core := core_update_self rfl
  have hstorage : ((Cluster.reborn cfg { x.cluster with taken } n state now draw).core n).storage =
      state := by
    rw [hcore]
    rfl
  refine h.update hrefines rfl (fun m hm => core_update_ne rfl hm) ?_ ?_
  · rw [hstorage]
    exact hleft
  · rw [hstorage]
    exact hrooted

theorem step (h : OnDisk cfg x a) {act : DiskAction} (hstep : x.step cfg act = some y) :
    ∃ a', Later cfg.quorums LogEntry.term a a' ∧ OnDisk cfg y a' := by
  cases DiskCluster.step_sound hstep with
  | @op act s n o hcluster hcall hfit =>
      have hn := call_member h.refines hcall hcluster
      obtain ⟨a', hans⟩ := step_refines h.refines (fun hno => absurd trivial hno) hcluster
      have hran := call_some hcall hcluster
      have hstored := h.refines.stored n hn
      have hpath := Op.saves_path hstored hran.run
      have hsaves := h.saves hn hfit
      have hlast : (o.saves (x.cluster.core n)).getLastD (x.cluster.core n).storage =
          (s.core n).storage := by
        rw [hstored, hans.refines.stored n hn]
        exact hpath.getLastD_eq
      obtain ⟨p, hprocs, -⟩ := hran.procs
      refine ⟨a', hans.later,
        h.update hans.refines rfl (fun m hm => core_update_ne hprocs hm) ?_ ?_⟩
      · have hholds := saves_hold (h.holds n hn) hsaves
        rw [hlast] at hholds
        exact hholds
      · rw [← hstored] at hpath
        have hrooted := hpath.rooted (h.rooted n hn)
        rw [← hlast]
        exact hrooted _ List.getLastD_mem_cons
  | @idle act s hact hcluster hcall =>
      obtain ⟨a', hans⟩ := step_refines h.refines (fun hno => absurd trivial hno) hcluster
      have hsame := call_none hcall hact hcluster
      refine ⟨a', hans.later, hans.refines, fun m hm => ?_, fun m hm => ?_⟩
      · rw [hsame m]
        exact h.holds m hm
      · rw [hsame m]
        exact h.rooted m hm
  | @crash act k left now draw s n o y hcluster hcall hfit hcrash hboot =>
      have hn := call_member h.refines hcall hcluster
      have hsaves := h.saves hn hfit
      obtain ⟨j, -, -, hleft⟩ := crash_in_saves (h.holds n hn) hsaves hcrash
      obtain ⟨a', hlater, hrefines⟩ := crash_refines h.refines hn hcluster hcall j now draw
      have hrooted : ((x.cluster.core n).savedAfter o j).Rooted := by
        rcases List.mem_cons.mp (savedAfter_mem (x.cluster.core n) o j) with hold | hnew
        · rw [hold]
          exact h.rooted n hn
        · exact (hsaves _ hnew).1
      exact ⟨a', hlater, h.boot hleft hrooted hrefines hboot⟩
  | @reboot n left now draw y hmem hcrash hboot =>
      have hleft := (h.holds n hmem).crash hcrash
      have hrefines := reborn_refines h.refines Relation.ReflTransGen.refl (h.refines.nodes n hmem)
        (h.refines.stored n hmem) (List.Subset.refl _) now draw
      exact ⟨a, Relation.ReflTransGen.refl, h.boot hleft (h.rooted n hmem) hrefines hboot⟩

theorem init (cfg : ClusterConfig) : OnDisk cfg (.init cfg) State.init where
  refines := init_refines cfg True
  holds _ _ := ⟨rfl, Or.inl ⟨rfl, rfl⟩⟩
  rooted _ _ := fun _ => ⟨rfl, rfl⟩

theorem run (h : OnDisk cfg x a) (hrun : Reaches (DiskCluster.step cfg) x y) :
    ∃ a', Later cfg.quorums LogEntry.term a a' ∧ OnDisk cfg y a' :=
  hrun.simulate (fun _ => Relation.ReflTransGen.refl)
    (fun _ _ _ => Relation.ReflTransGen.trans) (fun _ _ _ _ h hstep => h.step hstep) h

end OnDisk

variable {x y : DiskCluster} {m : NodeId}

/-- **Safe on disk.** Processes may die at any file operation of any save, and the others, the
    network and the clients may do what they like: two leaders of one term, at any two points of a
    run, are the same node, and two commands handed to state machines at one index are the same. -/
theorem disk_cluster_safe (h : DiskCluster.Reachable cfg x)
    (hrun : Reaches (DiskCluster.step cfg) x y) :
    (∀ n ∈ cfg.members, ∀ m ∈ cfg.members, (x.cluster.core n).role = .leader →
      (y.cluster.core m).role = .leader →
      (x.cluster.core n).currentTerm = (y.cluster.core m).currentTerm → n = m) ∧
    ∀ n m ap ap', (n, .command ap) ∈ y.cluster.delivered → (m, .command ap') ∈ y.cluster.delivered →
      ap.index = ap'.index → ap = ap' := by
  obtain ⟨a, -, hx⟩ := (OnDisk.init cfg).run h
  obtain ⟨a', hlater, hy⟩ := hx.run hrun
  constructor
  · intro n hn m hm hl hl' hterm
    have hlead := (hlater.grows hx.refines.safe).lead ((hx.refines.nodes n hn).leadership hl).lead
    have hlead' := ((hy.refines.nodes m hm).leadership hl').lead
    rw [← (hx.refines.nodes n hn).mirrors.term, hterm, (hy.refines.nodes m hm).mirrors.term,
      hlead'] at hlead
    exact (Option.some.inj hlead).symm
  · intro n m ap ap' hn hm hindex
    obtain ⟨hterm, hcommand⟩ := delivered_agree hy.refines hn hm hindex
    obtain ⟨index, term, command⟩ := ap
    cases hindex
    cases hterm
    cases hcommand
    rfl

/-- What node 2 finds when it comes back: the newer term, and no vote. -/
def adopted : Disk := { path := some ⟨encode { currentTerm := 1 }, true⟩ }

/-- Node 2 dies while it saves its vote for node 1, and votes when it is back; node 1 wins, and its
    first command is committed and handed over. -/
def shakenRun : List DiskAction :=
  [.act (.tick 1 1000 0), .act (.serve 0 1000 0), .act (.fold 0), .act (.tick 1 1000 0),
    .crash (.serve 2 1000 0) 7 adopted 1500 0, .act (.serve 2 1600 0), .act (.fold 1),
    .act (.propose 1 [7]), .act (.tick 1 1700 0), .act (.serve 4 1700 0), .act (.fold 2),
    .act (.drain 1)]

theorem shakenRun_isSome :
    (run (DiskCluster.step trio) (.init trio) shakenRun).isSome = true := by
  decide +kernel

def shaken : DiskCluster :=
  (run (DiskCluster.step trio) (.init trio) shakenRun).get shakenRun_isSome

theorem shaken_reachable : DiskCluster.Reachable trio shaken :=
  ⟨shakenRun, Option.eq_some_of_isSome shakenRun_isSome⟩

theorem disk_cluster_safe_shaken :
    (shaken.cluster.core 1).role = .leader ∧ (shaken.cluster.procs 2).epoch = 1 ∧
      ∀ m ∈ trio.members, (shaken.cluster.core m).role = .leader →
        (shaken.cluster.core 1).currentTerm = (shaken.cluster.core m).currentTerm → 1 = m :=
  have hrole : (shaken.cluster.core 1).role = .leader := by decide +kernel
  ⟨hrole, by decide +kernel, fun m hm =>
    (disk_cluster_safe shaken_reachable (Reaches.refl _ _)).1 1 (by decide) m hm hrole⟩

/-- **What was delivered survives a loss of power.** In every state, whatever was handed to a state
    machine so far is on the disks of more than half of the members, and stays there if all of them
    lose power at once: what a node then loads has it. -/
theorem delivered_survives_power_loss (h : DiskCluster.Reachable cfg x) {ap : Applied}
    (hdel : (n, .command ap) ∈ x.cluster.delivered) :
    ∃ F : Finset NodeId, F ⊆ cfg.members.toFinset ∧ cfg.members.length < 2 * F.card ∧
      ∀ m ∈ F, ∀ left, Crash (x.disks m) left → ∃ state, load left = some (.ok state) ∧
        state.Has x.cluster.taken ap.index ⟨ap.term, ap.command⟩ := by
  obtain ⟨a, -, hx⟩ := (OnDisk.init cfg).run h
  obtain ⟨F, hF, hcard, hstored⟩ := hx.refines.durable hdel
  refine ⟨F, hF, hcard, fun m hm left hcrash => ⟨_, ?_, hstored m hm⟩⟩
  exact ((hx.holds m (List.mem_toFinset.mp (hF hm))).crash hcrash).load

theorem delivered_survives_power_loss_shaken :
    shaken.cluster.delivered = [(1, .command ⟨1, 1, [7]⟩)] ∧
    ∃ F : Finset NodeId, F ⊆ trio.members.toFinset ∧ trio.members.length < 2 * F.card ∧
      ∀ m ∈ F, ∀ left, Crash (shaken.disks m) left → ∃ state, load left = some (.ok state) ∧
        state.Has shaken.cluster.taken 1 ⟨1, [7]⟩ := by
  have hdel : shaken.cluster.delivered = [(1, .command ⟨1, 1, [7]⟩)] := by decide +kernel
  have hmem : (1, .command ⟨1, 1, [7]⟩) ∈ shaken.cluster.delivered := by
    rw [hdel]
    exact List.mem_singleton.mpr rfl
  exact ⟨hdel, delivered_survives_power_loss shaken_reachable hmem⟩

end Murmur.Raft
