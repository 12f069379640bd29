/-
  Pre-elections: who pledged support before a node raises its term.

  * `record_pre_vote_reply` counts a grant without looking at the probe it answers. In
    `stale_grant_inflates` a grant of an old probe counts for a later one, and a node raises its
    term although nobody granted a probe for it.
  * `timely`: a grant that is counted answers a probe for the node's next term.
  * `term_raised_by_majority`: in runs of such steps a node that raises its term has a majority of
    grants for that term, its own included.
-/
import Murmur.Raft.Safety
import Murmur.Raft.Standing
import Murmur.Raft.Steps

namespace Murmur.Raft

open Murmur.Basis Murmur.Protocol ConsensusModule

variable {cfg : ClusterConfig} {s s' : Cluster} {n p : NodeId} {c : ConsensusModule}
  {granted : NodeId → Nat → Prop}

/-! ## Grants -/

/-- `p` granted a probe of `n` that carried `term`. -/
def grantsProbe (n p : NodeId) (term : Nat) (x : Rpc × Reply) : Bool :=
  match x.1.request, x.2 with
  | .vote args, .vote reply =>
    x.1.sender = n ∧ x.1.peer = p ∧ args.preVote = true ∧ args.term = term ∧
      reply.voteGranted = true
  | _, _ => false

def Granted (s : Cluster) (n p : NodeId) (term : Nat) : Prop :=
  ∃ x ∈ s.replies, grantsProbe n p term x = true

/-- A grant that would be counted answers a probe for the term after the node's own. -/
def timely (s : Cluster) : Action → Bool
  | .fold k =>
    match s.replies[k]? with
    | some (rpc, .vote reply) =>
      match rpc.request with
      | .vote args => !args.preVote || !reply.voteGranted || !(s.core rpc.sender).preCandidate ||
          reply.term > (s.core rpc.sender).currentTerm ||
          args.term = (s.core rpc.sender).currentTerm + 1
      | _ => true
    | _ => true
  | _ => true

/-- `s'` comes after `s` by timely steps. -/
def Timely (cfg : ClusterConfig) (s s' : Cluster) : Prop :=
  Within (Cluster.step cfg) (fun s act => timely s act = true) s s'

/-! ## One node -/

/-- While a pre-election is under way, its tally is of grants for the next term. -/
structure Pledged (granted : NodeId → Nat → Prop) (n : NodeId) (v : Standing) : Prop where
  id : v.id = n
  self : v.preCandidate = true → n ∈ v.preVotes
  votes : v.preCandidate = true → ∀ p ∈ v.preVotes, p = n ∨ granted p (v.currentTerm + 1)

theorem Pledged.mono {granted' : NodeId → Nat → Prop} {v : Standing} (h : Pledged granted n v)
    (hmono : ∀ p term, granted p term → granted' p term) : Pledged granted' n v :=
  ⟨h.id, h.self, fun hpre p hp => (h.votes hpre p hp).imp_right (hmono _ _)⟩

/-- The tally of a pre-election that is over does not count. -/
theorem Pledged.idle {v : Standing} (hid : v.id = n) (hpre : v.preCandidate = false) :
    Pledged granted n v := by
  constructor
  · exact hid
  · simp [hpre]
  · simp [hpre]

theorem Shift.pledged {o : Op} {v : Standing} (hs : Shift c o v) (h : Pledged granted n c.standing)
    (hgrant : ∀ sender reply, o = .recordPreVoteReply sender reply → reply.voteGranted = true →
      c.preCandidate = true → ¬ reply.term > c.currentTerm → granted sender (c.currentTerm + 1)) :
    Pledged granted n v := by
  cases hs with
  | keep | matchAppend | matchInstall | backtrack => exact ⟨h.id, h.self, h.votes⟩
  | outdated | stepDown | yieldAppend | yieldInstall | campaign | acclaim | win =>
      exact .idle h.id rfl
  | probe =>
      have hid : c.id = n := h.id
      refine ⟨hid, fun _ => ?_, fun _ p hp => .inl ?_⟩
      · simp [hid]
      · simpa [hid] using hp
  | preVote sender reply hterm hpre hok =>
      refine ⟨h.id, fun _ => Finset.mem_insert_of_mem (h.self hpre), fun _ p hp => ?_⟩
      rcases Finset.mem_insert.mp hp with rfl | hold
      · exact .inr (hgrant _ reply rfl hok hpre hterm)
      · exact h.votes hpre p hold

/-! ## The cluster -/

/-- A grant that is folded in by a timely action is one for the next term. -/
theorem granted_of_timely {act : Action} (hok : timely s act = true) {sender : NodeId}
    {reply : RequestVoteReply} (hcall : Cluster.Calls s act n (.recordPreVoteReply sender reply))
    (hgrant : reply.voteGranted = true) (hpre : (s.core n).preCandidate = true)
    (hterm : ¬ reply.term > (s.core n).currentTerm) :
    Granted s n sender ((s.core n).currentTerm + 1) := by
  cases hcall with
  | @preVoted k rpc args reply hk hreq hprobe hepoch =>
      have hnext : args.term = (s.core rpc.sender).currentTerm + 1 := by
        simpa [timely, hk, hreq, hprobe, hgrant, hpre, hterm] using hok
      refine ⟨_, List.mem_of_getElem? hk, ?_⟩
      simp [grantsProbe, hreq, hprobe, hgrant, hnext]

theorem Pledged.step {act : Action} (h : ∀ n, Pledged (Granted s n) n (s.core n).standing)
    (hok : timely s act = true) (hstep : Cluster.step cfg s act = some s') (n : NodeId) :
    Pledged (Granted s' n) n (s'.core n).standing := by
  have hmono : ∀ p term, Granted s n p term → Granted s' n p term := by
    rintro p term ⟨x, hx, hgrant⟩
    exact ⟨x, Cluster.step_replies_subset hstep hx, hgrant⟩
  have hmoved := Cluster.step_core hstep n
  generalize s'.core n = c at hmoved ⊢
  cases hmoved with
  | same => exact (h n).mono hmono
  | op o hcall hrun =>
      refine ((Op.shift hrun).pledged (h n) ?_).mono hmono
      rintro sender reply rfl hgrant hpre hterm
      exact granted_of_timely hok hcall hgrant hpre hterm
  | start => exact .idle rfl rfl

theorem pledged (h : Timely cfg (Cluster.init cfg) s) (n : NodeId) :
    Pledged (Granted s n) n (s.core n).standing := by
  refine Within.invariant (I := fun s => ∀ n, Pledged (Granted s n) n (s.core n).standing) ?_ h
    (fun _ => .idle rfl rfl) n
  intro s act s' hs hok hstep
  exact Pledged.step hs hok hstep

theorem startElection_currentTerm (c : ConsensusModule) (now : Instant) (draw : Nat) :
    (c.startElection now draw).1.currentTerm = c.currentTerm + 1 := by
  rw [startElection_eq]
  unfold maybeBecomeLeader
  split <;> rfl

/-- A tick that changes the term is a campaign. -/
theorem tick_campaigns {now : Instant} {draw : Nat}
    (hstep : Cluster.step cfg s (.tick n now draw) = some s')
    (hraise : (s'.core n).currentTerm ≠ (s.core n).currentTerm) :
    (s.core n).preVoteSucceeded = true ∧
      (s'.core n).currentTerm = (s.core n).currentTerm + 1 := by
  have hmoved := Cluster.step_core hstep n
  generalize s'.core n = c at hmoved hraise ⊢
  cases hmoved with
  | same => exact absurd rfl hraise
  | op o hcall hrun =>
      cases hcall with
      | campaign hrole hwon =>
          cases hrun
          exact ⟨hwon, startElection_currentTerm _ _ _⟩
      | probe =>
          cases hrun
          exact absurd rfl hraise
  | start epoch now draw hact => cases hact

/-- **No term inflation without a pre-vote majority for that term**, in runs in which every grant
    that is counted answers a probe for the next term: when a tick raises a node's term, it raises
    it by one, and a majority of the members, the node among them, has granted a probe of that node
    for the new term. -/
theorem term_raised_by_majority (h : Timely cfg (Cluster.init cfg) s) {now : Instant} {draw : Nat}
    (hstep : Cluster.step cfg s (.tick n now draw) = some s')
    (hraise : (s'.core n).currentTerm ≠ (s.core n).currentTerm) :
    (s'.core n).currentTerm = (s.core n).currentTerm + 1 ∧
    ∃ Q : Finset NodeId, (∀ p ∈ Q, p ∈ cfg.members) ∧ n ∈ Q ∧ cfg.members.length < 2 * Q.card ∧
      ∀ p ∈ Q, p ≠ n → Granted s n p ((s.core n).currentTerm + 1) := by
  obtain ⟨hwon, hterm⟩ := tick_campaigns hstep hraise
  have hn := (Cluster.step_tick hstep).1
  obtain ⟨a, hr⟩ := reachable_refines h.reaches
  have hpledged := pledged h n
  obtain ⟨hpre, hcard⟩ : (s.core n).preCandidate = true ∧
      (s.core n).preVotes.card ≥ (s.core n).quorum := by
    simpa [preVoteSucceeded] using hwon
  refine ⟨hterm, (s.core n).preVotes, fun p hp => ?_, hpledged.self hpre, ?_, fun p hp hne =>
    (hpledged.votes hpre p hp).resolve_left hne⟩
  · rcases hpledged.votes hpre p hp with rfl | ⟨x, hx, hgrant⟩
    · exact hn
    · have hrpc := (hr.replies x hx).1
      have hpeer : x.1.peer = p := by
        unfold grantsProbe at hgrant
        split at hgrant
        · exact (of_decide_eq_true hgrant).2.1
        · cases hgrant
      rw [← hpeer]
      exact cfg.mem_of_mem_peers hrpc.sender hrpc.peer
  · have hlen := cfg.length_peers hn
    rw [List.toFinset_card_of_nodup cfg.nodup] at hlen
    rw [(hr.nodes n hn).identity.quorum] at hcard
    omega

/-- Node 1 probes for term 1 and folds node 2's grant in. -/
def probedRun : List Action := [.tick 1 1000 0, .serve 0 1000 0, .fold 0]

set_option maxRecDepth 100000 in
theorem probedRun_isSome :
    (run (fun s act => if timely s act = true then Cluster.step trio s act else none)
      (Cluster.init trio) probedRun).isSome = true := by decide

/-- The state in which node 1 has its majority. -/
def probed : Cluster :=
  (run (fun s act => if timely s act = true then Cluster.step trio s act else none)
    (Cluster.init trio) probedRun).get probedRun_isSome

set_option maxRecDepth 100000 in
theorem campaigned_isSome : (Cluster.step trio probed (.tick 1 1000 0)).isSome = true := by decide

def campaigned : Cluster := (Cluster.step trio probed (.tick 1 1000 0)).get campaigned_isSome

set_option maxRecDepth 100000 in
theorem term_raised_by_majority_campaigned :
    (probed.core 1).currentTerm = 0 ∧ (campaigned.core 1).currentTerm = 1 ∧
      ∃ Q : Finset NodeId, (∀ p ∈ Q, p ∈ trio.members) ∧ 1 ∈ Q ∧ trio.members.length < 2 * Q.card ∧
        ∀ p ∈ Q, p ≠ 1 → Granted probed 1 p ((probed.core 1).currentTerm + 1) :=
  ⟨by decide, by decide, (term_raised_by_majority
    (Within.of_run (Option.eq_some_of_isSome probedRun_isSome))
    (Option.eq_some_of_isSome campaigned_isSome) (by decide)).2⟩

/-! ## A grant that is not timely -/

/-- Nodes 2 and 3 grant node 1's probe for term 1, but the replies are held up. Node 2 is elected in
    term 1 and node 1 follows it. Later node 1 probes for term 2, which nobody receives, and folds
    node 2's old grant in. -/
def staleGrantRun : List Action :=
  [.tick 1 1000 0, .serve 0 1000 0, .serve 1 1000 0, .tick 2 1000 0, .serve 3 1000 0, .fold 2,
    .tick 2 1000 0, .serve 5 1000 0, .fold 3, .tick 2 1100 0, .serve 6 1100 0, .tick 1 3000 0,
    .fold 0]

set_option maxRecDepth 100000 in
theorem staleGrantRun_isSome :
    (run (Cluster.step trio) (Cluster.init trio) staleGrantRun).isSome = true := by decide

/-- The state in which node 1 takes the old grant for a majority. -/
def staleGrant : Cluster :=
  (run (Cluster.step trio) (Cluster.init trio) staleGrantRun).get staleGrantRun_isSome

set_option maxRecDepth 100000 in
theorem inflated_isSome : (Cluster.step trio staleGrant (.tick 1 3000 0)).isSome = true := by decide

/-- The state after the next tick of node 1. -/
def inflated : Cluster := (Cluster.step trio staleGrant (.tick 1 3000 0)).get inflated_isSome

set_option maxRecDepth 100000 in
/-- Node 1 raises its term from 1 to 2. No node has granted a probe of it for term 2, and node 2
    leads term 1. -/
theorem stale_grant_inflates :
    Cluster.Reachable trio staleGrant ∧
    Cluster.step trio staleGrant (.tick 1 3000 0) = some inflated ∧
    (staleGrant.core 1).currentTerm = 1 ∧ (inflated.core 1).currentTerm = 2 ∧
    (∀ p ∈ trio.members, ¬ Granted staleGrant 1 p 2) ∧
    (inflated.core 2).role = .leader ∧ (inflated.core 2).currentTerm = 1 := by
  refine ⟨⟨staleGrantRun, Option.eq_some_of_isSome staleGrantRun_isSome⟩,
    Option.eq_some_of_isSome inflated_isSome, by decide, by decide, ?_, by decide, by decide⟩
  unfold Granted
  decide

end Murmur.Raft
