/-
  Elections refine the protocol: terms, ballots and the change of role.

  * `stepDown` is `advance`, `startElection` is `campaign`, a granted vote is `grant`, and
    `becomeLeader` is `elect`.
  * Pre-votes, timers and the leader hint are no part of the protocol.
-/
import Murmur.Raft.Durable

namespace Murmur.Raft

open Murmur.Basis Murmur.Protocol ConsensusModule

variable {cfg : ClusterConfig} {lax : Prop} {taken : List Taken} {a : Ghost} {n : NodeId}
  {c : ConsensusModule}

/-! ## Giving up a role -/

/-- A follower has no tally and no tables to answer for. -/
theorem NodeInv.follow (h : NodeInv cfg lax taken a n c) :
    NodeInv cfg lax taken a n { c with role := .follower, votes := ∅ }.abandonPreElection :=
  ⟨h.identity, h.mirrors, h.cursors, nofun, nofun⟩

theorem stepDown_newer {term : Nat} (ht : c.currentTerm < term) :
    c.stepDown term = { c with
      currentTerm := term, votedFor := none, role := .follower, votes := ∅, preCandidate := false,
      preVotes := ∅ }.persist := by
  simp [stepDown, ht, abandonPreElection]

theorem stepDown_simulates (hs : Safe cfg a) (h : NodeInv cfg lax taken a n c) {term : Nat}
    (ht : c.currentTerm < term) :
    Simulates cfg lax taken n a c (a.advance n term) (c.stepDown term) := by
  have hterm := h.mirrors.term
  have hstep : Protocol.Step cfg.quorums LogEntry.term n a (a.advance n term) :=
    .advance term (by omega)
  have hg := hstep.grows hs.votes hs.logs
  have hself : (a.advance n term).term n = term := by simp [State.advance]
  rw [stepDown_newer ht]
  refine .step hstep (fun ho => ho) ⟨h.identity, ⟨hself.symm, ?_, h.mirrors.log⟩, ?_,
    fun hr => (by cases hr), fun hr => (by cases hr)⟩ (.same le_rfl rfl rfl)
  · -- The vote of a term that is new to the node is free.
    rw [hself]
    exact (hs.votes.vote_none (by omega)).symm
  · exact { h.cursors with
      committed := (h.cursors.committed.grow hg).mono (hg.term n) }

/-- A valid leader of `term` makes the node its follower in that term. -/
theorem yieldTo_simulates (hs : Safe cfg a) (h : NodeInv cfg lax taken a n c) (term : Nat)
    (ht : c.currentTerm ≤ term) (leader : NodeId) (now : Instant) (draw : Nat) :
    ∃ a', Simulates cfg lax taken n a c a' (c.yieldTo term leader now draw) ∧
      a'.term n = term := by
  unfold yieldTo
  dsimp only
  split
  · next hlt =>
    have hsim := stepDown_simulates hs h hlt
    have hn := hsim.node
    exact ⟨_, ⟨hsim.moves, hsim.quiet, ⟨hn.1, hn.2, hn.3, hn.4, hn.5⟩,
      ⟨hsim.advances.1, hsim.advances.2⟩⟩,
      by simp [State.advance]⟩
  · next hge =>
    have hn := h.follow
    refine ⟨a, .stay ⟨hn.1, hn.2, hn.3, hn.4, hn.5⟩ (.same le_rfl rfl rfl), ?_⟩
    have := h.mirrors.term
    omega

theorem yieldTo_role (term : Nat) (leader : NodeId) (now : Instant) (draw : Nat) :
    (c.yieldTo term leader now draw).role = .follower := by
  unfold yieldTo
  split
  · next hlt => rw [stepDown_newer hlt]; rfl
  · rfl

/-- A reply from a newer term ends whatever the node was doing. -/
theorem stepDownFrom_simulates (hs : Safe cfg a) (h : NodeInv cfg lax taken a n c) {term : Nat}
    (ht : c.currentTerm < term) :
    ∃ a', Simulates cfg lax taken n a c a' { c.stepDown term with leaderId := none } := by
  have hsim := stepDown_simulates hs h ht
  have hn := hsim.node
  exact ⟨_, hsim.moves, hsim.quiet, ⟨hn.1, hn.2, hn.3, hn.4, hn.5⟩,
    ⟨hsim.advances.1, hsim.advances.2⟩⟩

/-! ## Becoming the leader -/

/-- The tables of a new leader hold one value. -/
theorem lookup_foldl_insert {peers : List NodeId} {v : Nat} {m : HashMap NodeId Nat}
    {p : NodeId} {i : Nat} (h : (peers.foldl (fun m p => m.insert p v) m).lookup p = some i) :
    m.lookup p = some i ∨ i = v := by
  induction peers generalizing m with
  | nil => exact Or.inl h
  | cons q qs ih =>
      rcases ih h with hm | hv
      · by_cases hpq : p = q
        · subst hpq
          rw [Finmap.lookup_insert] at hm
          exact Or.inr (Option.some.inj hm).symm
        · rw [Finmap.lookup_insert_of_ne _ hpq] at hm
          exact Or.inl hm
      · exact Or.inr hv

theorem majority_of_card {F : Finset NodeId} (hn : n ∈ cfg.members)
    (hF : ∀ v ∈ F, v ∈ cfg.members) (hcard : ((cfg.peers n).length + 1) / 2 + 1 ≤ F.card)
    {A : Set NodeId} (hA : ∀ v ∈ F, v ∈ A) : cfg.quorums.IsQuorum A := by
  refine ⟨F, fun v hv => List.mem_toFinset.mpr (hF v hv), hA, ?_⟩
  have := cfg.length_peers hn
  omega

theorem maybeBecomeLeader_simulates (hmem : n ∈ cfg.members) (hs : Safe cfg a)
    (h : NodeInv cfg lax taken a n c) :
    ∃ a', Simulates cfg lax taken n a c a' c.maybeBecomeLeader := by
  unfold maybeBecomeLeader
  split
  · next hwin =>
    have hc := h.candidacy hwin.1
    have hQ : cfg.quorums.IsQuorum {v | a.vote v (a.term n) = some n} :=
      majority_of_card hmem (fun v hv => (hc.votes v hv).1)
        (by rw [← h.identity.quorum]; exact hwin.2) (fun v hv => (hc.votes v hv).2)
    have hstep : Protocol.Step cfg.quorums LogEntry.term n a (a.elect n) :=
      .elect hc.self hc.log hc.fresh hQ
    have hg := hstep.grows hs.votes hs.logs
    refine ⟨a.elect n, .step hstep (quiet_elect hs hc.log)
      ⟨h.identity, { h.mirrors with }, ?_, nofun, fun _ => ?_⟩ (.same le_rfl rfl rfl)⟩
    · exact { h.cursors with committed := h.cursors.committed.grow hg }
    · refine ⟨by simp [State.elect], by simp [State.elect], fun hp => ?_, fun hp => ?_⟩
      · rcases lookup_foldl_insert hp with h0 | rfl
        · exact absurd h0 (by simp [Finmap.lookup_empty])
        · have := h.mirrors.log.lastIndex_eq
          show 0 < c.log.lastIndex + 1 ∧ c.log.lastIndex + 1 ≤ (a.log n).length + 1
          omega
      · rcases lookup_foldl_insert hp with h0 | rfl
        · exact absurd h0 (by simp [Finmap.lookup_empty])
        · exact Or.inl (Nat.zero_le _)
  · exact ⟨a, .stay h (.same le_rfl rfl rfl)⟩

/-! ## Candidate side -/

/-- The state `startElection` saves, before it counts its own vote. -/
def campaigning (c : ConsensusModule) (now : Instant) (draw : Nat) : ConsensusModule :=
  ({ c.abandonPreElection with
      role := .candidate, currentTerm := c.currentTerm + 1, votedFor := some c.id,
      leaderId := none, votes := {c.id} }.resetElectionDeadline now draw).persist

theorem startElection_eq (now : Instant) (draw : Nat) :
    (c.startElection now draw).1 = (campaigning c now draw).maybeBecomeLeader := rfl

theorem campaigning_simulates (hmem : n ∈ cfg.members) (hs : Safe cfg a)
    (h : NodeInv cfg lax taken a n c) (now : Instant) (draw : Nat) :
    Simulates cfg lax taken n a c (a.campaign n) (campaigning c now draw) := by
  have hstep : Protocol.Step cfg.quorums LogEntry.term n a (a.campaign n) := .campaign
  have hg := hstep.grows hs.votes hs.logs
  have hterm : (a.campaign n).term n = a.term n + 1 := by simp [State.campaign]
  have hvote : (a.campaign n).vote n (a.term n + 1) = some n := by simp [State.campaign]
  have hid := h.identity.id
  refine .step hstep (fun ho => ho) ⟨h.identity, ⟨?_, ?_, h.mirrors.log⟩, ?_, fun _ => ?_,
    fun hr => by cases hr⟩ (.same le_rfl rfl rfl)
  · rw [hterm, ← h.mirrors.term]
    rfl
  · rw [hterm, hvote]
    exact congrArg some hid
  · exact { h.cursors with
      committed := (h.cursors.committed.grow hg).mono (hg.term n) }
  · refine ⟨by rw [hterm, hvote], ?_, ?_, ?_⟩
    · rw [hterm]
      simp [State.campaign]
    · -- Nobody has led the term the node opens: its leader would have voted in it.
      rw [hterm]
      intro hlead
      have := hs.votes.le_term (hs.logs.lead_self hlead)
      omega
    · intro v hv
      have : v = n := by rw [← hid]; exact Finset.mem_singleton.mp hv
      subst this
      exact ⟨hmem, by rw [hterm, hvote]⟩

theorem startElection_simulates (hmem : n ∈ cfg.members) (hs : Safe cfg a)
    (h : NodeInv cfg lax taken a n c) (now : Instant) (draw : Nat) :
    ∃ a', Simulates cfg lax taken n a c a' (c.startElection now draw).1 ∧
      ∀ {args}, args = (c.startElection now draw).2 → Ballot a' n args := by
  have h1 := campaigning_simulates hmem hs h now draw
  obtain ⟨a', h2⟩ := maybeBecomeLeader_simulates hmem (h1.safe hs) h1.node
  refine ⟨a', h1.trans h2, fun {args} hargs => ?_⟩
  have hcand := h1.node.candidacy rfl
  have hlog : (campaigning c now draw).log.Represents (a.log n) := h.mirrors.log
  -- The request is filled in from the campaigning state; winning changes none of it.
  have hargs' : args =
      { term := c.currentTerm + 1, candidateId := c.id, lastLogIndex := c.log.lastIndex
        lastLogTerm := c.log.lastTerm, preVote := false } := by
    rw [hargs]
    show RequestVoteArgs.mk (campaigning c now draw).maybeBecomeLeader.currentTerm
      (campaigning c now draw).maybeBecomeLeader.id
      (campaigning c now draw).maybeBecomeLeader.log.lastIndex
      (campaigning c now draw).maybeBecomeLeader.log.lastTerm false = _
    unfold maybeBecomeLeader
    split <;> rfl
  have hterm : c.currentTerm + 1 = (a.campaign n).term n := h1.node.mirrors.term
  have hclog : (a.campaign n).clog n (c.currentTerm + 1) = a.log n := by
    rw [hterm, hcand.log]
    rfl
  have hballot : Ballot (a.campaign n) n args := by
    rw [hargs']
    refine ⟨h.identity.id, ?_, ?_, ?_⟩
    · show (a.campaign n).vote n (c.currentTerm + 1) = some n
      rw [hterm]
      exact hcand.self
    · show c.log.lastIndex = ((a.campaign n).clog n (c.currentTerm + 1)).length
      rw [hclog, h.mirrors.log.lastIndex_eq]
    · show c.log.lastTerm = lastTerm LogEntry.term ((a.campaign n).clog n (c.currentTerm + 1))
      rw [hclog, h.mirrors.log.lastTerm_eq]
  exact hballot.grow (h2.grows (h1.safe hs))

theorem recordPreVoteReply_simulates (hs : Safe cfg a) (h : NodeInv cfg lax taken a n c)
    (sender : NodeId) (reply : RequestVoteReply) :
    ∃ a', Simulates cfg lax taken n a c a' (c.recordPreVoteReply sender reply) := by
  unfold recordPreVoteReply
  split
  · next hlt => exact stepDownFrom_simulates hs h hlt
  · split
    · exact ⟨a, .stay ⟨h.1, h.2, h.3, h.4, h.5⟩ (.same le_rfl rfl rfl)⟩
    · exact ⟨a, .stay h (.same le_rfl rfl rfl)⟩

/-- A vote is counted for the term it was cast in only. -/
theorem recordVoteReply_simulates (hmem : n ∈ cfg.members) (hs : Safe cfg a)
    (h : NodeInv cfg lax taken a n c) {peer : NodeId} (hp : peer ∈ cfg.members)
    {reply : RequestVoteReply} (hv : reply.voteGranted → a.vote peer reply.term = some n) :
    ∃ a', Simulates cfg lax taken n a c a' (c.recordVoteReply peer reply) := by
  unfold recordVoteReply
  split
  · next hlt => exact stepDownFrom_simulates hs h hlt
  · split
    · exact ⟨a, .stay h (.same le_rfl rfl rfl)⟩
    · next hlive =>
      push Not at hlive
      split
      · next hgrant =>
        have hc := h.candidacy hlive.1
        have hn : NodeInv cfg lax taken a n { c with votes := insert peer c.votes } := by
          refine ⟨h.identity, h.mirrors, h.cursors, fun _ => ?_, h.leadership⟩
          refine { hc with votes := fun v hmv => ?_ }
          rcases Finset.mem_insert.mp hmv with rfl | hold
          · refine ⟨hp, ?_⟩
            rw [← h.mirrors.term, ← hlive.2]
            exact hv hgrant
          · exact hc.votes v hold
        obtain ⟨a', hsim⟩ := maybeBecomeLeader_simulates hmem hs hn
        exact ⟨a', hsim.moves, hsim.quiet, hsim.node, ⟨hsim.advances.1, hsim.advances.2⟩⟩
      · exact ⟨a, .stay h (.same le_rfl rfl rfl)⟩

/-! ## Voter side -/

theorem upToDate_iff (hlog : c.log.Represents (a.log n)) {l : List LogEntry} :
    c.logIsUpToDate l.length (lastTerm LogEntry.term l) = true ↔
      UpToDate LogEntry.term l (a.log n) := by
  unfold logIsUpToDate UpToDate
  rw [hlog.lastTerm_eq, hlog.lastIndex_eq, decide_eq_true_iff]

/-- A granted vote is the ballot of the candidate's term. -/
theorem castVote_simulates (hs : Safe cfg a) (h : NodeInv cfg lax taken a n c) {sender : NodeId}
    {args : RequestVoteArgs} (hb : Ballot a sender args) (ht : c.currentTerm = args.term)
    (now : Instant) (draw : Nat) :
    ∃ a', Simulates cfg lax taken n a c a' (c.castVote args now draw).1 ∧
      ((c.castVote args now draw).2.voteGranted →
        (c.castVote args now draw).2.term = args.term ∧ a'.vote n args.term = some sender) := by
  have hterm : a.term n = args.term := by rw [← h.mirrors.term, ht]
  have hvoted : c.votedFor = a.vote n args.term := by rw [h.mirrors.vote, hterm]
  unfold castVote
  dsimp only
  split
  · next hok =>
    simp only [decide_eq_true_eq, Option.isNone_iff_eq_none] at hok
    obtain ⟨hfree, hup⟩ := hok
    rw [hb.lastIndex, hb.lastTerm, upToDate_iff h.mirrors.log] at hup
    rcases hfree with hnone | hsame
    · have hstep : Protocol.Step cfg.quorums LogEntry.term n a (a.grant n sender) := by
        refine .grant sender ?_ ?_ ?_
        · rw [hterm, ← hvoted, hnone]
        · rw [hterm]; exact hb.self
        · rw [hterm]; exact hup
      have hg := hstep.grows hs.votes hs.logs
      have hnew : (a.grant n sender).vote n (a.term n) = some sender := by simp [State.grant]
      refine ⟨_, .step hstep (fun ho => ho) ⟨h.identity, ⟨h.mirrors.term, ?_, h.mirrors.log⟩, ?_,
        fun hr => ?_, fun hr => ?_⟩ (.same le_rfl rfl rfl), fun _ => ⟨ht, ?_⟩⟩
      · show some args.candidateId = (a.grant n sender).vote n (a.term n)
        rw [hnew, hb.cand]
      · exact { h.cursors with committed := h.cursors.committed.grow hg }
      · -- A candidate has no free vote.
        have := (h.candidacy hr).self
        rw [hterm, ← hvoted, hnone] at this
        exact absurd this (by simp)
      · exact { h.leadership hr with }
      · rw [← hterm, hnew]
    · -- The vote repeats the one on record.
      have hsender : a.vote n args.term = some sender := by rw [← hvoted, hsame, hb.cand]
      refine ⟨a, .stay ⟨h.identity, ⟨h.mirrors.term, ?_, h.mirrors.log⟩, h.cursors, h.candidacy,
        h.leadership⟩ (.same le_rfl rfl rfl), fun _ => ⟨ht, hsender⟩⟩
      show some args.candidateId = a.vote n (a.term n)
      rw [hterm, hsender, hb.cand]
  · exact ⟨a, .stay h (.same le_rfl rfl rfl), fun hg => by cases hg⟩

theorem handleRequestVote_simulates (hs : Safe cfg a) (h : NodeInv cfg lax taken a n c)
    {sender : NodeId} {args : RequestVoteArgs} (hb : args.preVote = false → Ballot a sender args)
    (now : Instant) (draw : Nat) :
    ∃ a', Simulates cfg lax taken n a c a' (c.handleRequestVote args now draw).1 ∧
      (args.preVote = false → (c.handleRequestVote args now draw).2.voteGranted →
        (c.handleRequestVote args now draw).2.term = args.term ∧
          a'.vote n args.term = some sender) := by
  unfold handleRequestVote
  split
  · next hpre => exact ⟨a, .stay h (.same le_rfl rfl rfl), fun hno => absurd (hno ▸ hpre) (by simp)⟩
  · next hpre =>
    have hpre : args.preVote = false := by simpa using hpre
    split
    · exact ⟨a, .stay h (.same le_rfl rfl rfl), fun _ => nofun⟩
    · split
      · next hlt =>
        have h1 := stepDown_simulates hs h hlt
        have hterm : (c.stepDown args.term).currentTerm = args.term := by
          rw [stepDown_newer hlt]
          rfl
        obtain ⟨a', h2, hr⟩ := castVote_simulates (h1.safe hs) h1.node
          ((hb hpre).grow (h1.grows hs)) hterm now draw
        exact ⟨a', h1.trans h2, fun _ => hr⟩
      · obtain ⟨a', h2, hr⟩ := castVote_simulates hs h (hb hpre) (by omega) now draw
        exact ⟨a', h2, fun _ => hr⟩

end Murmur.Raft
