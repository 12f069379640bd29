/-
  Every run of a cluster is a run of the protocol.

  One lemma an action says which protocol steps it takes and that the relation `Refines` holds
  again; `Refines.update` is the part they share (one process changes, the others and all
  messages stay as they are). `leads_refines` is the simulation of whole runs.

  `misread` is the one point at which a leader takes a refusal for an acknowledgement. With
  `lax = True` the relation allows for it; runs without it keep the relation with `lax = False`.
-/
import Murmur.Raft.Compaction
import Murmur.Raft.Steps

namespace Murmur.Raft

open Murmur.Basis Murmur.Protocol ConsensusModule

variable {cfg : ClusterConfig} {lax : Prop} {taken : List Taken} {s s' : Cluster} {a a' : Ghost}
  {n : NodeId} {c : ConsensusModule}

/-! ## One process changes -/

/-- What a step may do to a process: go on with no lower commit index, or start anew. -/
def Succeeds (p p' : Process) : Prop :=
  p'.epoch = p.epoch ∧ p.core.commitIndex ≤ p'.core.commitIndex ∨ p'.epoch = p.epoch + 1

theorem RpcOk.update {p : Process} {rpc : Rpc} (h : RpcOk cfg s a rpc) (hg : Grows a a')
    (hprocs : s'.procs = Function.update s.procs n p) (hsub : s.taken ⊆ s'.taken)
    (hp : Succeeds (s.procs n) p) : RpcOk cfg s' a' rpc := by
  have hep := h.epoch
  refine ⟨h.sender, h.peer, ?_, h.request.grow hsub hg, fun {args} hargs hepoch => ?_⟩
  · rw [hprocs]
    by_cases hm : rpc.sender = n
    · rw [hm] at hep ⊢
      rw [Function.update_self]
      rcases hp with hp | hp <;> omega
    · rw [Function.update_of_ne hm]
      exact hep
  · by_cases hm : rpc.sender = n
    · have hoff := h.offered hargs
      rw [hm] at hep hepoch hoff ⊢
      rw [hprocs, Function.update_self] at hepoch
      rw [core_update_self hprocs]
      rcases hp with ⟨he, hle⟩ | he
      · exact (hoff (hepoch.trans he)).trans hle
      · omega
    · rw [hprocs, Function.update_of_ne hm] at hepoch
      rw [core_update_ne hprocs hm]
      exact h.offered hargs hepoch

/-- The frame rule: process `n` changes by steps of the protocol, whatever else is added is in
    order, and the rest stays. -/
theorem Refines.update {p : Process} (h : Refines cfg lax s a) (hmoves : MovesBy cfg n a a')
    (hprocs : s'.procs = Function.update s.procs n p) (hsub : s.taken ⊆ s'.taken)
    (hp : Succeeds (s.procs n) p) (hnode : NodeInv cfg lax s'.taken a' n p.core)
    (hstored : Stored p.core)
    (hreq : ∀ rpc ∈ s'.requests, rpc ∈ s.requests ∨ RpcOk cfg s' a' rpc)
    (hrep : ∀ x ∈ s'.replies, x ∈ s.replies ∨
      x.1 ∈ s.requests ∧ ReplyOk a' x.1.sender x.1.peer x.1.request x.2)
    (hdel : ∀ x ∈ s'.delivered, x ∈ s.delivered ∨ ItemOk cfg s'.taken a' x.2) :
    Refines cfg lax s' a' := by
  have hlater := Moves.later hmoves
  have hg := hlater.grows h.safe
  have hlocal := Moves.local hmoves h.safe
  refine ⟨hlater.inv h.safe, fun m hm => ?_, fun m hm => ?_, fun rpc hrpc => ?_, fun x hx => ?_,
    fun x hx => ?_⟩
  · by_cases hmn : m = n
    · subst hmn
      rw [core_update_self hprocs]
      exact hnode
    · rw [core_update_ne hprocs hmn]
      exact (h.nodes m hm).frame hsub hmn hg hlocal
  · by_cases hmn : m = n
    · subst hmn
      rw [core_update_self hprocs]
      exact hstored
    · rw [core_update_ne hprocs hmn]
      exact h.stored m hm
  · rcases hreq rpc hrpc with hold | hnew
    · exact (h.requests rpc hold).update hg hprocs hsub hp
    · exact hnew
  · rcases hrep x hx with hold | ⟨hrpc, hnew⟩
    · have hx := h.replies x hold
      exact ⟨hx.1.update hg hprocs hsub hp, hx.2.grow hg⟩
    · exact ⟨(h.requests x.1 hrpc).update hg hprocs hsub hp, hnew⟩
  · rcases hdel x hx with hold | hnew
    · exact (h.delivered x hold).grow hsub hg
    · exact hnew

/-! ## The driver -/

/-- What one tick puts on the wire. -/
def SendsOk (cfg : ClusterConfig) (taken : List Taken) (a : Ghost) (n : NodeId)
    (c : ConsensusModule) (messages : List (NodeId × Request)) : Prop :=
  ∀ m ∈ messages, m.1 ∈ cfg.peers n ∧ RequestOk cfg taken a n m.2 ∧
    ∀ {args}, m.2 = .install args → args.lastIncludedIndex ≤ c.commitIndex

theorem replicate_sends (h : NodeInv cfg lax taken a n c) (hrole : c.role = .leader)
    (due : Bool) : SendsOk cfg taken a n c (replicate c due) := by
  rintro ⟨peer, r⟩ hm
  unfold replicate at hm
  obtain ⟨q, hq, hout⟩ := List.mem_filterMap.mp hm
  obtain ⟨r', hr, heq⟩ := Option.map_eq_some_iff.mp hout
  cases heq
  refine ⟨h.identity.peers ▸ hq, ?_⟩
  have h1 := h.cursors.snapshot_le
  have h2 := h.cursors.applied_le
  unfold outgoing at hr
  split at hr
  · next hneed =>
    split at hr
    · cases hr
      refine ⟨installSnapshotArgs_offer h hrole hneed, fun {args} hargs => ?_⟩
      cases hargs
      exact h1.trans h2
    · cases hr
  · next hneed =>
    dsimp only at hr
    split at hr
    · cases hr
      exact ⟨appendArgsFor_segment h hrole hneed, nofun⟩
    · cases hr

/-- A campaign's requests carry the same arguments to every peer. -/
theorem vote_sends (h : NodeInv cfg lax taken a n c) {args : RequestVoteArgs}
    (hb : args.preVote = false → Ballot a n args) :
    SendsOk cfg taken a n c (c.peers.map fun peer => (peer, .vote args)) := by
  intro m hm
  obtain ⟨q, hq, rfl⟩ := List.mem_map.mp hm
  exact ⟨h.identity.peers ▸ hq, hb, nofun⟩

theorem tick_simulates {p : Process} (hmem : n ∈ cfg.members) (hs : Safe cfg a)
    (h : NodeInv cfg lax taken a n p.core) (hst : Stored p.core) (now : Instant) (draw : Nat) :
    ∃ a', Simulates cfg lax taken n a p.core a' (tick p now draw).1.core ∧
      Stored (tick p now draw).1.core ∧ (tick p now draw).1.epoch = p.epoch ∧
      SendsOk cfg taken a' n (tick p now draw).1.core (tick p now draw).2 := by
  unfold tick
  split
  · next hlead =>
    have hrole : p.core.role = .leader := by simpa [isLeader] using hlead
    dsimp only
    split
    · exact ⟨a, .stay h (.same le_rfl rfl rfl), hst, rfl, nofun⟩
    · split
      · exact ⟨a, .stay h (.same le_rfl rfl rfl), hst, rfl, replicate_sends h hrole _⟩
      · exact ⟨a, .stay h (.same le_rfl rfl rfl), hst, rfl, replicate_sends h hrole _⟩
  · split
    · obtain ⟨a', hsim, hb⟩ := startElection_simulates hmem hs h now draw
      exact ⟨a', hsim, startElection_stored now draw, rfl, vote_sends hsim.node fun _ => hb rfl⟩
    · split
      · have hn : NodeInv cfg lax taken a n (p.core.startPreElection now draw).1 :=
          ⟨h.identity, h.mirrors, h.cursors, h.candidacy, h.leadership⟩
        exact ⟨a, .stay hn (.same le_rfl rfl rfl), startPreElection_stored hst now draw, rfl,
          vote_sends hn nofun⟩
      · exact ⟨a, .stay h (.same le_rfl rfl rfl), hst, rfl, nofun⟩

theorem serve_simulates (hs : Safe cfg a) (h : NodeInv cfg lax taken a n c) (hst : Stored c)
    {sender : NodeId} {r : Request} (hr : RequestOk cfg taken a sender r) (now : Instant)
    (draw : Nat) :
    ∃ a', Simulates cfg lax taken n a c a' (serve c r now draw).1 ∧
      Stored (serve c r now draw).1 ∧ ReplyOk a' sender n r (serve c r now draw).2 := by
  cases r with
  | vote args =>
      obtain ⟨a', hsim, hok⟩ := handleRequestVote_simulates hs h hr now draw
      exact ⟨a', hsim, handleRequestVote_stored hst args now draw, hok⟩
  | append args =>
      obtain ⟨a', hsim, hok⟩ := handleAppendEntries_simulates hs h hr now draw
      unfold serve
      dsimp only
      rw [appendReqFromPb_toPb]
      exact ⟨a', hsim, handleAppendEntries_stored hst args now draw, hok⟩
  | install args =>
      obtain ⟨a', hsim, hok⟩ := handleInstallSnapshot_simulates hs h hr now draw
      exact ⟨a', hsim, handleInstallSnapshot_stored hst args now draw, hok⟩

/-- A leader is about to take the refusal of an InstallSnapshot of an earlier term for an
    acknowledgement: the reply's term is not the request's, but it is the leader's. -/
def misread (c : ConsensusModule) (rpc : Rpc) : Reply → Bool
  | .install reply =>
    match rpc.request with
    | .install args => c.role = .leader ∧ reply.term = c.currentTerm ∧ reply.term ≠ args.term
    | _ => false
  | _ => false

theorem fold_stored (hst : Stored c) (rpc : Rpc) (reply : Reply) : Stored (fold c rpc reply) := by
  unfold fold
  split
  · dsimp only
    split
    · exact recordPreVoteReply_stored hst _ _
    · exact recordVoteReply_stored hst _ _
  · exact handleAppendReply_stored hst _ _ _
  · exact handleInstallSnapshotReply_stored hst _ _ _
  · exact hst

theorem fold_simulates (hmem : n ∈ cfg.members) (hs : Safe cfg a)
    (h : NodeInv cfg lax taken a n c) {rpc : Rpc} {reply : Reply} (hsender : rpc.sender = n)
    (hpeer : rpc.peer ∈ cfg.members) (hreq : RequestOk cfg taken a n rpc.request)
    (hrep : ReplyOk a n rpc.peer rpc.request reply)
    (hoff : ∀ {args}, rpc.request = .install args → args.lastIncludedIndex ≤ c.commitIndex)
    (hread : ¬ lax → misread c rpc reply = false) :
    ∃ a', Simulates cfg lax taken n a c a' (fold c rpc reply) := by
  obtain ⟨sender, epoch, peer, request⟩ := rpc
  cases request with
  | vote args =>
      cases reply with
      | vote reply =>
          show ∃ a', Simulates cfg lax taken n a c a' (if args.preVote then _ else _)
          split
          · exact recordPreVoteReply_simulates hs h _ _
          · next hpre =>
            have hpre : args.preVote = false := by simpa using hpre
            refine recordVoteReply_simulates hmem hs h hpeer fun hg => ?_
            obtain ⟨ht, hv⟩ := hrep hpre hg
            rw [voteReplyFromPb_toPb, ht]
            exact hv
      | append | install => exact ⟨a, .stay h (.same le_rfl rfl rfl)⟩
  | append args =>
      cases reply with
      | append reply =>
          have hseg : Segment cfg a n args := hreq
          show ∃ a', Simulates cfg lax taken n a c a' (c.handleAppendReply peer _ _)
          rw [appendReply_over_wire]
          refine handleAppendReply_simulates hmem hs h (fun hok hcur => ?_)
            fun ci hci hcur hrole => ?_
          · obtain ⟨ht, hack⟩ := hrep.1 hok
            have hcur : reply.term = c.currentTerm := hcur
            rw [← h.mirrors.term, ← hcur, ht]
            exact hack
          · obtain ⟨ht, -, hle⟩ := hrep.2 ci hci
            have hcur : reply.term = c.currentTerm := hcur
            have hlen := hseg.len
            rw [← ht, hcur, h.mirrors.term, (h.leadership hrole).log] at hlen
            omega
      | vote | install => exact ⟨a, .stay h (.same le_rfl rfl rfl)⟩
  | install args =>
      cases reply with
      | install reply =>
          refine handleInstallSnapshotReply_simulates hmem hs h fun hrole hcur => ?_
          have hcur : reply.term = c.currentTerm := hcur
          by_cases ht : reply.term = args.term
          · left
            rw [← h.mirrors.term, ← hcur, ht]
            exact hrep ht
          · -- A refusal: only a lax relation puts up with it.
            right
            refine ⟨?_, hoff rfl⟩
            by_contra hno
            have := hread hno
            simp [misread, hrole, hcur] at this
            exact ht (hcur.trans this)
      | vote | append => exact ⟨a, .stay h (.same le_rfl rfl rfl)⟩

/-! ## One action -/

/-- The action folds in a reply that is misread. -/
def misreads (s : Cluster) : Action → Bool
  | .fold k =>
    match s.replies[k]? with
    | some (rpc, reply) => misread (s.core rpc.sender) rpc reply
    | none => false
  | _ => false

/-- The protocol's answer to an action: some steps, after which the relation holds again; the
    entries that came in by it; and what became of every node's apply stream. -/
structure Answers (cfg : ClusterConfig) (lax : Prop) (s : Cluster) (a : Ghost) (act : Action)
    (s' : Cluster) (a' : Ghost) : Prop where
  later : Later cfg.quorums LogEntry.term a a'
  adds : ∀ {t i e}, Owns LogEntry.term a' t i e → Owns LogEntry.term a t i e ∨
    ∃ n command, act = .propose n command ∧
      ((s.core n).submitCommand command).2 = some (i + 1) ∧ t = (s.core n).currentTerm ∧
        e = ⟨t, command⟩
  advances : ∀ n, act ≠ .drain n → (∀ now draw, act ≠ .restart n now draw) →
    Advances (s.core n) (s'.core n)
  refines : Refines cfg lax s' a'

theorem advances_update {p : Process} (hprocs : s'.procs = Function.update s.procs n p)
    (hadv : Advances (s.core n) p.core) (m : NodeId) : Advances (s.core m) (s'.core m) := by
  by_cases hm : m = n
  · subst hm
    rw [core_update_self hprocs]
    exact hadv
  · rw [core_update_ne hprocs hm]
    exact .same le_rfl rfl rfl

/-- An operation of node `n` that appends nothing. -/
theorem Simulates.answers {p : Process} {act : Action}
    (hsim : Simulates cfg lax taken n a (s.core n) a' p.core)
    (hprocs : s'.procs = Function.update s.procs n p) (hr : Refines cfg lax s' a') :
    Answers cfg lax s a act s' a' :=
  ⟨Moves.later hsim.moves, fun ho => Or.inl (hsim.quiet ho),
    fun m _ _ => advances_update hprocs hsim.advances m, hr⟩

theorem tick_refines (h : Refines cfg lax s a) {now : Instant} {draw : Nat}
    (hstep : Cluster.step cfg s (.tick n now draw) = some s') :
    ∃ a', Answers cfg lax s a (.tick n now draw) s' a' := by
  obtain ⟨hmem, rfl⟩ := Cluster.step_tick hstep
  obtain ⟨a', hsim, hst, hep, hsend⟩ :=
    tick_simulates hmem h.safe (h.nodes n hmem) (h.stored n hmem) now draw
  refine ⟨a', hsim.answers rfl (h.update hsim.moves rfl (List.Subset.refl _)
    (Or.inl ⟨hep, hsim.advances.commit_le⟩) hsim.node hst (fun rpc hrpc => ?_)
    (fun x hx => Or.inl hx) fun x hx => Or.inl hx)⟩
  rcases List.mem_append.mp hrpc with hold | hnew
  · exact Or.inl hold
  · obtain ⟨m, hm, rfl⟩ := List.mem_map.mp hnew
    obtain ⟨hpeer, hok, hoff⟩ := hsend m hm
    refine Or.inr ⟨hmem, hpeer, ?_, hok, fun hargs _ => ?_⟩
    · show _ ≤ (Function.update s.procs n _ n).epoch
      rw [Function.update_self]
    · rw [core_update_self (p := (tick (s.procs n) now draw).1) rfl]
      exact hoff hargs

theorem serve_refines (h : Refines cfg lax s a) {k : Nat} {now : Instant} {draw : Nat}
    (hstep : Cluster.step cfg s (.serve k now draw) = some s') :
    ∃ a', Answers cfg lax s a (.serve k now draw) s' a' := by
  obtain ⟨rpc, hk, rfl⟩ := Cluster.step_serve hstep
  have hin := List.mem_of_getElem? hk
  have hrpc := h.requests rpc hin
  have hpeer := cfg.mem_of_mem_peers hrpc.sender hrpc.peer
  obtain ⟨a', hsim, hst, hok⟩ := serve_simulates h.safe (h.nodes _ hpeer) (h.stored _ hpeer)
    hrpc.request now draw
  refine ⟨a', hsim.answers rfl (h.update hsim.moves rfl (List.Subset.refl _)
    (Or.inl ⟨rfl, hsim.advances.commit_le⟩) hsim.node hst (fun x hx => Or.inl hx)
    (fun x hx => ?_) fun x hx => Or.inl hx)⟩
  rcases List.mem_append.mp hx with hold | hnew
  · exact Or.inl hold
  · rw [List.mem_singleton] at hnew
    subst hnew
    exact Or.inr ⟨hin, hok⟩

theorem fold_refines (h : Refines cfg lax s a) {k : Nat}
    (hread : ¬ lax → misreads s (.fold k) = false)
    (hstep : Cluster.step cfg s (.fold k) = some s') :
    ∃ a', Answers cfg lax s a (.fold k) s' a' := by
  obtain ⟨rpc, reply, hk, hepoch, rfl⟩ := Cluster.step_fold hstep
  obtain ⟨hrpc, hrep⟩ := h.replies _ (List.mem_of_getElem? hk)
  have hmem := hrpc.sender
  have hmis : ¬ lax → misread (s.core rpc.sender) rpc reply = false := by
    intro hno
    have := hread hno
    unfold misreads at this
    dsimp only at this
    rw [hk] at this
    exact this
  obtain ⟨a', hsim⟩ := fold_simulates hmem h.safe (h.nodes _ hmem) rfl
    (cfg.mem_of_mem_peers hmem hrpc.peer) hrpc.request hrep
    (fun hargs => hrpc.offered hargs hepoch) hmis
  exact ⟨a', hsim.answers rfl (h.update hsim.moves rfl (List.Subset.refl _)
    (Or.inl ⟨rfl, hsim.advances.commit_le⟩) hsim.node
    (fold_stored (h.stored _ hmem) rpc reply) (fun x hx => Or.inl hx)
    (fun x hx => Or.inl hx) fun x hx => Or.inl hx)⟩

theorem propose_refines (h : Refines cfg lax s a) {command : Bytes}
    (hstep : Cluster.step cfg s (.propose n command) = some s') :
    ∃ a', Answers cfg lax s a (.propose n command) s' a' := by
  obtain ⟨hmem, rfl⟩ := Cluster.step_propose hstep
  obtain ⟨a', hmoves, hadds, hnode, hadv⟩ :=
    submitCommand_simulates hmem h.safe (h.nodes n hmem) command
  refine ⟨a', Moves.later hmoves,
    fun ho => (hadds ho).imp_right fun hnew => ⟨n, command, rfl, hnew⟩,
    fun m _ _ => advances_update rfl hadv m, h.update hmoves rfl (List.Subset.refl _)
    (Or.inl ⟨rfl, hadv.commit_le⟩) hnode (submitCommand_stored (h.stored n hmem) command)
    (fun x hx => Or.inl hx) (fun x hx => Or.inl hx) fun x hx => Or.inl hx⟩

/-- A step of a node that is none of the protocol. -/
theorem Refines.answers {p : Process} {act : Action}
    (hprocs : s'.procs = Function.update s.procs n p)
    (hadv : act ≠ .drain n → (∀ now draw, act ≠ .restart n now draw) → Advances (s.core n) p.core)
    (hr : Refines cfg lax s' a) : ∃ a', Answers cfg lax s a act s' a' := by
  refine ⟨a, Relation.ReflTransGen.refl, fun ho => Or.inl ho, fun m hd hre => ?_, hr⟩
  by_cases hm : m = n
  · subst hm
    exact advances_update hprocs (hadv hd hre) m
  · rw [core_update_ne hprocs hm]
    exact .same le_rfl rfl rfl

theorem snapshot_refines (h : Refines cfg lax s a) {index : Nat} {data : Bytes}
    (hstep : Cluster.step cfg s (.snapshot n index data) = some s') :
    ∃ a', Answers cfg lax s a (.snapshot n index data) s' a' := by
  obtain ⟨hmem, core, taken, hcore, rfl, htaken⟩ := Cluster.step_snapshot hstep
  have hst := takeSnapshot_stored (h.stored n hmem) hcore
  split at htaken
  · next hout =>
    -- Out of range: the call is ignored.
    have hsame : core = s.core n := by
      unfold takeSnapshot at hcore
      rw [if_pos hout] at hcore
      exact (Option.some.inj hcore).symm
    subst htaken
    subst hsame
    have hnode : NodeInv cfg lax (s.taken ++ []) a n (s.core n) := by
      rw [List.append_nil]
      exact h.nodes n hmem
    exact Refines.answers rfl (fun _ _ => .same le_rfl rfl rfl)
      (h.update Relation.ReflTransGen.refl rfl (List.subset_append_left _ _)
        (Or.inl ⟨rfl, le_rfl⟩) hnode hst (fun x hx => Or.inl hx)
        (fun x hx => Or.inl hx) fun x hx => Or.inl hx)
  · next hin =>
    obtain ⟨c', hc', hadv, hnode⟩ := takeSnapshot_node (h.nodes n hmem) data hin
    rw [hcore] at hc'
    cases hc'
    subst htaken
    exact Refines.answers rfl (fun _ _ => hadv)
      (h.update Relation.ReflTransGen.refl rfl (List.subset_append_left _ _)
        (Or.inl ⟨rfl, hadv.commit_le⟩) hnode hst (fun x hx => Or.inl hx)
        (fun x hx => Or.inl hx) fun x hx => Or.inl hx)

theorem drain_refines (h : Refines cfg lax s a)
    (hstep : Cluster.step cfg s (.drain n) = some s') :
    ∃ a', Answers cfg lax s a (.drain n) s' a' := by
  obtain ⟨hmem, core, out, hcore, rfl⟩ := Cluster.step_drain hstep
  obtain ⟨c', out', htake, hci, hnode, hitems⟩ := takeApplies_node (h.nodes n hmem)
  have hst := takeApplies_stored (h.stored n hmem) hcore
  rw [hcore] at htake
  cases htake
  refine Refines.answers rfl (fun hno => absurd rfl hno) (h.update Relation.ReflTransGen.refl rfl
    (List.Subset.refl _) (Or.inl ⟨rfl, hci.ge⟩) hnode hst (fun x hx => Or.inl hx)
    (fun x hx => Or.inl hx) fun x hx => ?_)
  rcases List.mem_append.mp hx with hold | hnew
  · exact Or.inl hold
  · obtain ⟨item, hitem, rfl⟩ := List.mem_map.mp hnew
    exact Or.inr (hitems item hitem)

theorem restart_refines (h : Refines cfg lax s a) {now : Instant} {draw : Nat}
    (hstep : Cluster.step cfg s (.restart n now draw) = some s') :
    ∃ a', Answers cfg lax s a (.restart n now draw) s' a' := by
  obtain ⟨hmem, rfl⟩ := Cluster.step_restart hstep
  exact Refines.answers rfl (fun _ hno => absurd rfl (hno now draw))
    (h.update Relation.ReflTransGen.refl rfl (List.Subset.refl _) (Or.inr rfl)
      (startNode_node (h.nodes n hmem) (h.stored n hmem) _ now draw)
      (new_stored _ _ _ _ _ _) (fun x hx => Or.inl hx) (fun x hx => Or.inl hx)
      fun x hx => Or.inl hx)

/-- **One action is any number of protocol steps.** -/
theorem step_refines (h : Refines cfg lax s a) {act : Action}
    (hread : ¬ lax → misreads s act = false) (hstep : Cluster.step cfg s act = some s') :
    ∃ a', Answers cfg lax s a act s' a' := by
  cases act with
  | tick n now draw => exact tick_refines h hstep
  | serve k now draw => exact serve_refines h hstep
  | fold k => exact fold_refines h hread hstep
  | propose n command => exact propose_refines h hstep
  | snapshot n index data => exact snapshot_refines h hstep
  | drain n => exact drain_refines h hstep
  | restart n now draw => exact restart_refines h hstep

/-! ## Whole runs -/

theorem init_refines (cfg : ClusterConfig) (lax : Prop) :
    Refines cfg lax (Cluster.init cfg) State.init where
  safe := Inv.init
  nodes _ _ := init_node cfg lax _ _ _ _
  stored _ _ := rfl
  requests := nofun
  replies := nofun
  delivered := nofun

/-- Every run from related states is a run of the protocol. -/
theorem leads_refines (h : Refines cfg True s a) (hrun : Cluster.Leads cfg s s') :
    ∃ a', Later cfg.quorums LogEntry.term a a' ∧ Refines cfg True s' a' := by
  have hsim : ∀ s act s' a, Refines cfg True s a → Cluster.step cfg s act = some s' →
      ∃ a', Later cfg.quorums LogEntry.term a a' ∧ Refines cfg True s' a' := by
    intro s act s' a hr hstep
    obtain ⟨a', hans⟩ := step_refines hr (fun hno => absurd trivial hno) hstep
    exact ⟨a', hans.later, hans.refines⟩
  exact Reaches.simulate (fun _ => Relation.ReflTransGen.refl)
    (fun _ _ _ => Relation.ReflTransGen.trans) hsim hrun h

theorem reachable_refines (h : Cluster.Reachable cfg s) : ∃ a, Refines cfg True s a := by
  obtain ⟨a, -, hr⟩ := leads_refines (init_refines cfg True) h
  exact ⟨a, hr⟩

end Murmur.Raft
