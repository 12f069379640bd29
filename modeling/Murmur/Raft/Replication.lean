/-
  Replication refines the protocol: AppendEntries, its replies, new commands and the commit rule.

  * Accepting an AppendEntries is `adopt` of the leader's log up to the end of the message;
    `submitCommand` is `append`.
  * `maybeAdvanceCommit` commits only what the protocol has chosen (`commit_node`): an index it
    passes over is acknowledged by every peer counted, also when the table holds indices that
    are merely committed (`lax`), since it only looks above the commit index.
  * What a leader sends is a true segment of its log (`appendArgsFor_segment`).
-/
import Murmur.Raft.CommitRule
import Murmur.Raft.Elections

namespace Murmur.Raft

open Murmur.Basis Murmur.Protocol ConsensusModule

variable {cfg : ClusterConfig} {lax : Prop} {taken : List Taken} {a a' : Ghost} {n : NodeId}
  {c : ConsensusModule}

/-! ## The follower's log against the leader's -/

/-- Up to the commit index, a node has the log of the leader of its term. -/
theorem NodeInv.pre_committed (hs : Safe cfg a) (h : NodeInv cfg lax taken a n c) {l : NodeId}
    (hl : a.lead (a.term n) = some l) {j : Nat} (hj : j ≤ c.commitIndex) :
    (a.llog (a.term n)).take j <+: a.log n := by
  have hpre := h.cursors.committed.pre_llog hs hl
  have hle := h.cursors.commit_le
  have heq := List.prefix_iff_eq_take.mp hpre
  rw [List.length_take, Nat.min_eq_left hle] at heq
  refine (List.take_prefix_take_left hj).trans ?_
  rw [← heq]
  exact List.take_prefix _ _

/-- Equal terms at an index make genuine logs equal up to it. -/
theorem take_eq_of_plainTerm {l m : List LogEntry} (hl : Genuine LogEntry.term a l)
    (hm : Genuine LogEntry.term a m) {i t : Nat} (h1 : plainTerm l i = some t)
    (h2 : plainTerm m i = some t) : l.take i = m.take i := by
  cases i with
  | zero => simp
  | succ i =>
      rw [plainTerm_succ, Option.map_eq_some_iff] at h1 h2
      obtain ⟨d, hd, hdt⟩ := h1
      obtain ⟨e, he, het⟩ := h2
      exact hl.matching hm hd he (hdt.trans het.symm)

theorem pre_of_plainTerm (hs : Safe cfg a) {T i t : Nat}
    (hl : plainTerm (a.llog T) i = some t) (hn : plainTerm (a.log n) i = some t) :
    (a.llog T).take i <+: a.log n := by
  rw [take_eq_of_plainTerm (hs.logs.llog_genuine T) (hs.logs.log_genuine n) hl hn]
  exact List.take_prefix _ _

/-- The consistency check: the node has the leader's log up to `prevLogIndex`. -/
theorem consistent_pre (hs : Safe cfg a) (h : NodeInv cfg lax taken a n c) {sender : NodeId}
    {args : AppendEntriesArgs} (hseg : Segment cfg a sender args) (ht : a.term n = args.term)
    (hc : c.consistent args = true) :
    (a.llog args.term).take args.prevLogIndex <+: a.log n := by
  have hcov : args.prevLogIndex ≤ c.log.snapshotIndex →
      (a.llog args.term).take args.prevLogIndex <+: a.log n := by
    intro hle
    have := h.cursors.snapshot_le
    have := h.cursors.applied_le
    rw [← ht]
    exact h.pre_committed hs (l := sender) (by rw [ht]; exact hseg.lead) (by omega)
  unfold consistent at hc
  rw [decide_eq_true_iff] at hc
  rcases hc with hle | hterm
  · exact hcov hle
  · rcases Nat.lt_or_ge args.prevLogIndex c.log.snapshotIndex with hlt | hge
    · exact hcov hlt.le
    · rw [h.mirrors.log.termAt_eq hge] at hterm
      exact pre_of_plainTerm hs hseg.term hterm

/-! ## Cursors over a longer log -/

/-- The cursors stay good on any log that keeps the committed prefix and the boundary. -/
theorem Cursors.relog {log log' : Log} {snapshot : Option Bytes} {ci la : Nat}
    {pd : Option Snapshot} (h : Cursors cfg taken a n log snapshot ci la pd) (hg : Grows a a')
    (hpre : (a.log n).take ci <+: a'.log n) (hidx : log'.snapshotIndex = log.snapshotIndex)
    (hterm : log'.snapshotTerm = log.snapshotTerm) :
    Cursors cfg taken a' n log' snapshot ci la pd := by
  have hle := h.commit_le
  have hlen : ci ≤ (a'.log n).length := by
    have := hpre.length_le
    rw [List.length_take] at this
    omega
  have htake : ∀ j ≤ ci, (a'.log n).take j = (a.log n).take j := by
    intro j hj
    have := take_eq_of_pre hpre (k := j) (by rw [List.length_take]; omega)
    rw [List.take_take, Nat.min_eq_left hj] at this
    exact this.symm
  refine ⟨hidx ▸ h.snapshot_le, h.applied_le, hlen, ?_, hidx ▸ h.no_snapshot, ?_, ?_⟩
  · rw [htake ci le_rfl]
    exact (h.committed.grow hg).mono (hg.term n)
  · intro data hd
    have := h.snapshot_le
    have := h.applied_le
    rw [hidx, htake _ (by omega)]
    exact h.backed hd
  · rw [hidx, hterm]
    exact h.pending

/-! ## Follower side -/

theorem adopt_acked (a : Ghost) (n : NodeId) (k : Nat) : k ≤ (a.adopt n k).acked n (a.term n) := by
  simp [State.adopt]

theorem adopt_pre (a : Ghost) (n : NodeId) (k : Nat) :
    (a.llog (a.term n)).take k <+: (a.adopt n k).log n := by
  simp only [State.adopt, Function.update_self]
  exact pre_adopt _ _

/-- Splicing the entries in is adopting the leader's log up to the end of the message. -/
theorem storeEntries_simulates (hs : Safe cfg a) (h : NodeInv cfg lax taken a n c)
    {sender : NodeId} {args : AppendEntriesArgs} (hseg : Segment cfg a sender args)
    (ht : a.term n = args.term) (hrole : c.role = .follower) (hc : c.consistent args = true) :
    Simulates cfg lax taken n a c (a.adopt n (args.prevLogIndex + args.entries.length))
      (c.storeEntries args.prevLogIndex args.entries) := by
  have hlead : a.lead (a.term n) = some sender := by rw [ht]; exact hseg.lead
  have hstep : Protocol.Step cfg.quorums LogEntry.term n a
      (a.adopt n (args.prevLogIndex + args.entries.length)) :=
    .adopt _ (by rw [hlead]; simp) (by rw [ht]; exact hseg.len)
  have hg := hstep.grows hs.votes hs.logs
  have hprev := consistent_pre hs h hseg ht hc
  have hsplice : (splice c.log args.prevLogIndex args.entries).Represents
      (adopt ((a.llog args.term).take (args.prevLogIndex + args.entries.length)) (a.log n)) := by
    refine splice_represents h.mirrors.log hseg.entries ?_ ?_ ?_ ?_
    · have := hseg.len
      rw [List.length_take]
      omega
    · rw [List.take_take, Nat.min_eq_left (by omega)]
      exact hprev
    · intro i d e hd he hτ
      have hgen := (hs.logs.llog_genuine args.term).of_pre <|
        List.take_prefix (args.prevLogIndex + args.entries.length) (a.llog args.term)
      exact (hs.logs.log_genuine n).matching hgen hd he hτ
    · intro i hi hlt
      have := h.cursors.snapshot_le
      have := h.cursors.applied_le
      rw [List.length_take] at hlt
      rw [List.take_take, Nat.min_eq_left (by omega), ← ht]
      exact h.pre_committed hs hlead (by omega)
  have hcur : Cursors cfg taken (a.adopt n (args.prevLogIndex + args.entries.length)) n
      (splice c.log args.prevLogIndex args.entries) c.snapshot c.commitIndex c.lastApplied
      c.pendingSnapshot := by
    refine h.cursors.relog hg ?_ (splice_boundary _ _ _).1 (splice_boundary _ _ _).2
    exact h.cursors.committed.stable hs hstep <| List.take_prefix _ _
  have hlog : (a.adopt n (args.prevLogIndex + args.entries.length)).log n =
      adopt ((a.llog args.term).take (args.prevLogIndex + args.entries.length)) (a.log n) := by
    simp [State.adopt, ht]
  rw [← hlog] at hsplice
  have hnode : NodeInv cfg lax taken (a.adopt n (args.prevLogIndex + args.entries.length)) n
      { c with log := splice c.log args.prevLogIndex args.entries } :=
    ⟨h.identity, ⟨h.mirrors.term, h.mirrors.vote, hsplice⟩, hcur,
      fun hr => absurd (hrole.symm.trans hr) (by simp),
      fun hr => absurd (hrole.symm.trans hr) (by simp)⟩
  unfold storeEntries
  dsimp only
  split
  · exact .step hstep (fun ho => ho) hnode (.same le_rfl rfl rfl)
  · exact .step hstep (fun ho => ho) ⟨hnode.1, hnode.2, hnode.3, hnode.4, hnode.5⟩
      (.same le_rfl rfl rfl)

/-- Following a commit index that is backed by the leader's log, no further than it is held. -/
theorem followCommit_node (h : NodeInv cfg lax taken a n c) (hrole : c.role = .follower)
    {T k leaderCommit : Nat} (ht : a.term n = T) (hk : k ≤ (a.llog T).length)
    (hheld : (a.llog T).take k <+: a.log n) (hle : leaderCommit ≤ k)
    (hcom : Commits cfg a T ((a.llog T).take leaderCommit)) :
    NodeInv cfg lax taken a n (c.followCommit leaderCommit) := by
  unfold followCommit
  split
  · next hlt =>
    have hlen : k ≤ (a.log n).length := by
      have := hheld.length_le
      rw [List.length_take] at this
      omega
    have hmin : min leaderCommit c.log.lastIndex = leaderCommit := by
      rw [h.mirrors.log.lastIndex_eq]
      omega
    have htake : (a.log n).take leaderCommit = (a.llog T).take leaderCommit := by
      have := take_eq_of_pre hheld (k := leaderCommit) (by rw [List.length_take]; omega)
      rw [List.take_take, Nat.min_eq_left hle] at this
      exact this.symm
    rw [hmin]
    refine ⟨h.identity, h.mirrors, ?_, fun hr => absurd (hrole.symm.trans hr) (by simp),
      fun hr => absurd (hrole.symm.trans hr) (by simp)⟩
    have := h.cursors.applied_le
    exact { h.cursors with
      applied_le := by show c.lastApplied ≤ leaderCommit; omega
      commit_le := hle.trans hlen
      committed := by rw [htake, ht]; exact hcom }
  · exact h

theorem followCommit_advances (h : NodeInv cfg lax taken a n c) (k : Nat) :
    Advances c (c.followCommit k) := by
  have := h.cursors.commit_le
  have := h.mirrors.log.lastIndex_eq
  unfold followCommit
  split
  · refine .same ?_ rfl rfl
    show c.commitIndex ≤ min k c.log.lastIndex
    omega
  · exact .same le_rfl rfl rfl

/-- The first entry of a term that is in the tail is no later than any entry of that term. -/
theorem firstIndexOfTerm_le {log : Log} {i t ci : Nat} (hi : log.snapshotIndex < i)
    (ht : log.termAt i = some t) (hci : log.firstIndexOfTerm t = some ci) : 0 < ci ∧ ci ≤ i := by
  unfold Log.firstIndexOfTerm at hci
  obtain ⟨j, hj, rfl⟩ := Option.map_eq_some_iff.mp hci
  refine ⟨by omega, ?_⟩
  unfold Log.termAt at ht
  rw [if_neg (by omega)] at ht
  split at ht
  · obtain ⟨e, he, het⟩ := Option.map_eq_some_iff.mp ht
    rw [List.findIdx?_eq_some_iff_getElem] at hj
    obtain ⟨hlen, -, hmin⟩ := hj
    by_contra hgt
    obtain ⟨hlt, hget⟩ := List.getElem?_eq_some_iff.mp he
    have := hmin (i - log.snapshotIndex - 1) (by omega)
    simp [hget, het] at this
  · cases ht

theorem appendConflict_hint (h : NodeInv cfg lax taken a n c) {args : AppendEntriesArgs}
    (hc : ¬ c.consistent args = true) {ci : Nat}
    (hci : (c.appendConflict args.prevLogIndex).conflictIndex = some ci) :
    0 < ci ∧ ci ≤ args.prevLogIndex := by
  unfold consistent at hc
  rw [decide_eq_true_iff] at hc
  push Not at hc
  obtain ⟨hlt, -⟩ := hc
  unfold appendConflict at hci
  cases ht : c.log.termAt args.prevLogIndex with
  | none =>
      -- Past the end of the log: the hint is the index after the last.
      rw [ht] at hci
      cases hci
      rw [h.mirrors.log.termAt_eq hlt.le] at ht
      have hlen : (a.log n).length < args.prevLogIndex := by
        by_contra hle
        obtain ⟨t, hsome⟩ := plainTerm_isSome (a.log n) (i := args.prevLogIndex) (by omega)
        rw [hsome] at ht
        exact absurd ht (by simp)
      rw [h.mirrors.log.lastIndex_eq]
      omega
  | some t =>
      rw [ht] at hci
      exact firstIndexOfTerm_le hlt ht hci

theorem appendConflict_success (prev : Nat) : (c.appendConflict prev).success = false := by
  unfold appendConflict; split <;> rfl

theorem appendConflict_term (prev : Nat) : (c.appendConflict prev).term = c.currentTerm := by
  unfold appendConflict; split <;> rfl

theorem handleAppendEntries_simulates (hs : Safe cfg a) (h : NodeInv cfg lax taken a n c)
    {sender : NodeId} {args : AppendEntriesArgs} (hseg : Segment cfg a sender args)
    (now : Instant) (draw : Nat) :
    ∃ a', Simulates cfg lax taken n a c a' (c.handleAppendEntries args now draw).1 ∧
      ReplyOk a' sender n (.append args) (.append (c.handleAppendEntries args now draw).2) := by
  unfold handleAppendEntries
  split
  · exact ⟨a, .stay h (.same le_rfl rfl rfl), nofun, nofun⟩
  · next hge =>
    obtain ⟨a1, h1, ht1⟩ := yieldTo_simulates hs h args.term (by omega) args.leaderId
      now draw
    have hterm := h1.node.mirrors.term.trans ht1
    have hseg1 := hseg.grow (h1.grows hs)
    have hrole := yieldTo_role (c := c) args.term args.leaderId now draw
    dsimp only
    generalize c.yieldTo args.term args.leaderId now draw = d at h1 hterm hrole ⊢
    split
    · next hno =>
      have hno : ¬ d.consistent args = true := by simpa using hno
      refine ⟨a1, h1, fun hsucc => ?_, fun ci hci => ⟨?_, appendConflict_hint h1.node hno hci⟩⟩
      · rw [appendConflict_success] at hsucc
        exact absurd hsucc (by simp)
      · rw [appendConflict_term, hterm]
    · next hyes =>
      have hyes : d.consistent args = true := by simpa using hyes
      have hs1 := h1.safe hs
      have h2 := storeEntries_simulates hs1 h1.node hseg1 ht1 hrole hyes
      have hseg2 := hseg1.grow (h2.grows hs1)
      have hack := adopt_acked a1 n (args.prevLogIndex + args.entries.length)
      have hpre := adopt_pre a1 n (args.prevLogIndex + args.entries.length)
      rw [ht1] at hack hpre
      have h3 := followCommit_node h2.node (by rw [storeEntries_role, hrole]) ht1 hseg2.len
        hpre hseg2.commit_le hseg2.committed
      refine ⟨_, h1.trans (h2.trans (.stay h3 (followCommit_advances h2.node _))),
        fun _ => ⟨?_, hack⟩, nofun⟩
      show (followCommit _ _).currentTerm = args.term
      rw [followCommit_currentTerm, storeEntries_currentTerm, hterm]

/-! ## The commit rule -/

/-- The peers counted for an index above the commit index have acknowledged it. -/
theorem replicated_quorum (hmem : n ∈ cfg.members) (hs : Safe cfg a)
    (h : NodeInv cfg lax taken a n c) (hrole : c.role = .leader) {j : Nat}
    (hj : c.commitIndex < j) (hlen : j ≤ (a.log n).length)
    (hrep : c.isReplicatedOnMajority j = true) :
    cfg.quorums.IsQuorum {v | j ≤ a.acked v (a.term n)} := by
  have hl := h.leadership hrole
  unfold isReplicatedOnMajority at hrep
  rw [decide_eq_true_iff, h.identity.peers, h.identity.quorum] at hrep
  let F : List NodeId :=
    n :: (cfg.peers n).filter fun p => decide ((c.matchIndex.lookup p).getD 0 ≥ j)
  have hnodup : F.Nodup := by
    have := cfg.peers_nodup hmem
    rw [List.nodup_cons] at this ⊢
    exact ⟨fun hin => this.1 (List.mem_of_mem_filter hin), this.2.filter _⟩
  refine majority_of_card (n := n) (F := F.toFinset) hmem (fun v hv => ?_) ?_ fun v hv => ?_
  · rcases List.mem_cons.mp (List.mem_toFinset.mp hv) with rfl | hv
    · exact hmem
    · exact cfg.mem_of_mem_peers hmem (List.mem_of_mem_filter hv)
  · rw [List.toFinset_card_of_nodup hnodup]
    show _ ≤ ((cfg.peers n).filter _).length + 1
    rw [← List.countP_eq_length_filter]
    omega
  · rcases List.mem_cons.mp (List.mem_toFinset.mp hv) with rfl | hv
    · -- The leader itself has all of its log.
      show j ≤ a.acked v (a.term v)
      rw [hs.logs.lead_acked hl.lead, hl.log]
      exact hlen
    · have hge := List.of_mem_filter hv
      rw [decide_eq_true_iff] at hge
      cases hm : c.matchIndex.lookup v with
      | none =>
          rw [hm] at hge
          have : j ≤ 0 := hge
          omega
      | some m =>
          rw [hm] at hge
          have hge : j ≤ m := hge
          rcases hl.matched hm with hack | ⟨-, hci⟩
          · exact hge.trans hack
          · omega

/-- Raising the commit index to an entry of the current term that a majority holds. -/
theorem commit_node (hmem : n ∈ cfg.members) (hs : Safe cfg a)
    (h : NodeInv cfg lax taken a n c) (hrole : c.role = .leader) {j : Nat}
    (hj : c.commitIndex < j) (hlen : j ≤ c.log.lastIndex)
    (hterm : c.log.termAt j = some c.currentTerm)
    (hrep : c.isReplicatedOnMajority j = true) :
    NodeInv cfg lax taken a n { c with commitIndex := j } := by
  have hl := h.leadership hrole
  have hle1 := h.cursors.snapshot_le
  have hle2 := h.cursors.applied_le
  rw [h.mirrors.log.lastIndex_eq] at hlen
  have hends : EndsIn LogEntry.term a (a.term n) j := by
    rw [h.mirrors.log.termAt_eq (by omega), h.mirrors.term] at hterm
    unfold plainTerm at hterm
    rw [if_neg (by omega)] at hterm
    obtain ⟨e, he, het⟩ := Option.map_eq_some_iff.mp hterm
    exact ⟨e, by rw [hl.log]; exact he, het, by omega⟩
  have hchosen : Chosen cfg.quorums LogEntry.term a (a.term n) j :=
    ⟨hends, replicated_quorum hmem hs h hrole hj hlen hrep⟩
  refine ⟨h.identity, h.mirrors, ?_, fun hr => absurd (hrole.symm.trans hr) (by simp), fun _ => ?_⟩
  · exact { h.cursors with
      applied_le := by show c.lastApplied ≤ j; omega
      commit_le := hlen
      committed := Or.inr ⟨a.term n, j, le_rfl, hchosen, by rw [hl.log]⟩ }
  · exact { hl with matched := fun hp => (hl.matched hp).imp_right fun hx =>
      ⟨hx.1, hx.2.trans hj.le⟩ }

theorem maybeAdvanceCommit_simulates (hmem : n ∈ cfg.members) (hs : Safe cfg a)
    (h : NodeInv cfg lax taken a n c) (hrole : c.role = .leader) :
    Simulates cfg lax taken n a c a c.maybeAdvanceCommit := by
  unfold maybeAdvanceCommit
  rcases advanceCommitFrom_spec (c := c) c.log.lastIndex with ⟨heq, -⟩ |
    ⟨j, hj, hlen, ⟨ht, hr⟩, -, heq⟩
  · rw [heq]
    exact .stay h (.same le_rfl rfl rfl)
  · rw [heq]
    exact .stay (commit_node hmem hs h hrole hj hlen ht hr) (.same hj.le rfl rfl)

/-! ## Leader side -/

/-- A proposal adds one entry to the protocol, at the index it returns. -/
theorem submitCommand_simulates (hmem : n ∈ cfg.members) (hs : Safe cfg a)
    (h : NodeInv cfg lax taken a n c) (command : Bytes) :
    ∃ a', MovesBy cfg n a a' ∧
      (∀ {t i e}, Owns LogEntry.term a' t i e → Owns LogEntry.term a t i e ∨
        (c.submitCommand command).2 = some (i + 1) ∧ t = c.currentTerm ∧ e = ⟨t, command⟩) ∧
      NodeInv cfg lax taken a' n (c.submitCommand command).1 ∧
      Advances c (c.submitCommand command).1 := by
  by_cases hlead : c.role = .leader
  · have hl := h.leadership hlead
    let e : LogEntry := { term := c.currentTerm, command }
    have hstep : Protocol.Step cfg.quorums LogEntry.term n a (a.append n e) :=
      .append e hl.lead hl.log h.mirrors.term
    have hg := hstep.grows hs.votes hs.logs
    have hlog : (a.append n e).log n = a.log n ++ [e] := by simp [State.append]
    have hsubmit : c.submitCommand command =
        (({ c with log := (c.log.append e).1 }.persist).maybeAdvanceCommit,
          some (c.log.append e).2) := by
      unfold submitCommand
      rw [if_neg (not_not_intro hlead)]
    have hnode : NodeInv cfg lax taken (a.append n e) n
        { c with log := (c.log.append e).1 }.persist := by
      refine ⟨h.identity, ⟨h.mirrors.term, h.mirrors.vote, ?_⟩, ?_,
        fun hr => absurd (hlead.symm.trans hr) (by simp), fun _ => ⟨?_, ?_, ?_, ?_⟩⟩
      · rw [hlog]
        exact h.mirrors.log.append e
      · refine h.cursors.relog hg ?_ rfl rfl
        rw [hlog]
        refine List.IsPrefix.trans ?_ (List.prefix_append _ _)
        exact List.take_prefix _ _
      · exact hl.lead
      · rw [hlog]
        simp [State.append]
      · rw [hlog, List.length_append]
        exact fun hp => ⟨(hl.next hp).1, (hl.next hp).2.trans (by omega)⟩
      · exact fun hp => (hl.matched hp).imp_left fun hk => hk.trans (hg.acked _ _)
    have hsim := maybeAdvanceCommit_simulates hmem (hs.step hstep) hnode hlead
    have hindex : (c.log.append e).2 = (a.log n).length + 1 := h.mirrors.log.append_index e
    rw [hsubmit]
    refine ⟨_, Relation.ReflTransGen.single hstep, fun {t i e'} ho => ?_, hsim.node,
      ⟨hsim.advances.1, hsim.advances.2⟩⟩
    rcases owns_append hl.log ho with hold | ⟨ht, hi, he⟩
    · exact Or.inl hold
    · refine Or.inr ⟨?_, ht.trans h.mirrors.term.symm, ?_⟩
      · rw [hi, ← hindex]
      · rw [he, ht, ← h.mirrors.term]
  · have hsubmit : c.submitCommand command = (c, none) := by
      unfold submitCommand
      rw [if_pos hlead]
    rw [hsubmit]
    exact ⟨a, Relation.ReflTransGen.refl, fun ho => Or.inl ho, h, .same le_rfl rfl rfl⟩

theorem recordMatch_node (hs : Safe cfg a) (h : NodeInv cfg lax taken a n c)
    (hrole : c.role = .leader) {peer : NodeId} {upTo : Nat}
    (hup : upTo ≤ a.acked peer (a.term n) ∨ lax ∧ upTo ≤ c.commitIndex) :
    NodeInv cfg lax taken a n (c.recordMatch peer upTo) := by
  have hl := h.leadership hrole
  -- Either index is covered by an acknowledgement or by the commit index.
  have hmatch : max ((c.matchIndex.lookup peer).getD 0) upTo ≤ a.acked peer (a.term n) ∨
      lax ∧ max ((c.matchIndex.lookup peer).getD 0) upTo ≤ c.commitIndex := by
    have hold : (c.matchIndex.lookup peer).getD 0 ≤ a.acked peer (a.term n) ∨
        lax ∧ (c.matchIndex.lookup peer).getD 0 ≤ c.commitIndex := by
      cases hm : c.matchIndex.lookup peer with
      | none => exact Or.inl (Nat.zero_le _)
      | some m => exact hl.matched hm
    rcases max_choice ((c.matchIndex.lookup peer).getD 0) upTo with heq | heq
    · rw [heq]; exact hold
    · rw [heq]; exact hup
  have hbound : max ((c.matchIndex.lookup peer).getD 0) upTo ≤ (a.log n).length := by
    rcases hmatch with hack | ⟨-, hci⟩
    · rw [← hl.log]
      exact hack.trans (hs.logs.acked_le _ _)
    · exact hci.trans h.cursors.commit_le
  refine ⟨h.identity, h.mirrors, h.cursors, h.candidacy, fun _ => ⟨hl.lead, hl.log, ?_, ?_⟩⟩
  · intro p i hp
    have hp : (c.nextIndex.insert peer _).lookup p = some i := hp
    by_cases hpq : p = peer
    · subst hpq
      rw [Finmap.lookup_insert] at hp
      cases hp
      omega
    · rw [Finmap.lookup_insert_of_ne _ hpq] at hp
      exact hl.next hp
  · intro p m hp
    have hp : (c.matchIndex.insert peer _).lookup p = some m := hp
    by_cases hpq : p = peer
    · subst hpq
      rw [Finmap.lookup_insert] at hp
      cases hp
      exact hmatch
    · rw [Finmap.lookup_insert_of_ne _ hpq] at hp
      exact hl.matched hp

theorem lastIndexOfTerm_le {log : Log} {t i : Nat} (h : log.lastIndexOfTerm t = some i) :
    i ≤ log.lastIndex := by
  unfold Log.lastIndexOfTerm Log.rposition at h
  obtain ⟨j, hj, rfl⟩ := Option.map_eq_some_iff.mp h
  obtain ⟨k, hk, rfl⟩ := Option.map_eq_some_iff.mp hj
  have hlt := (List.findIdx?_eq_some_iff_getElem.mp hk).1
  rw [List.length_reverse] at hlt
  unfold Log.lastIndex
  omega

/-- The leader resumes within its log, one past the end at most. -/
theorem nextIndexAfterConflict_le (h : NodeInv cfg lax taken a n c) (hrole : c.role = .leader)
    (peer : NodeId) (reply : AppendEntriesReply)
    (hci : ∀ ci, reply.conflictIndex = some ci → ci ≤ (a.log n).length + 1) :
    c.nextIndexAfterConflict peer reply ≤ (a.log n).length + 1 := by
  have hl := h.leadership hrole
  unfold nextIndexAfterConflict
  split
  · next hidx =>
    split
    · next hlast =>
      have := lastIndexOfTerm_le hlast
      rw [h.mirrors.log.lastIndex_eq] at this
      omega
    · exact hci _ hidx
  · next hidx => exact hci _ hidx
  · cases hnx : c.nextIndex.lookup peer with
    | none =>
        show 1 - 1 ≤ _
        omega
    | some i =>
        have := (hl.next hnx).2
        show i - 1 ≤ _
        omega

theorem handleAppendReply_simulates (hmem : n ∈ cfg.members) (hs : Safe cfg a)
    (h : NodeInv cfg lax taken a n c) {peer : NodeId} {reply : AppendEntriesReply} {hint : Nat}
    (hsucc : reply.success → reply.term = c.currentTerm → hint ≤ a.acked peer (a.term n))
    (hconf : ∀ ci, reply.conflictIndex = some ci → reply.term = c.currentTerm →
      c.role = .leader → ci ≤ (a.log n).length + 1) :
    ∃ a', Simulates cfg lax taken n a c a' (c.handleAppendReply peer reply hint) := by
  unfold handleAppendReply
  split
  · next hlt => exact stepDownFrom_simulates hs h hlt
  · split
    · exact ⟨a, .stay h (.same le_rfl rfl rfl)⟩
    · next hlive =>
      push Not at hlive
      obtain ⟨hrole, hterm⟩ := hlive
      split
      · next hok =>
        have h1 := recordMatch_node hs h hrole (Or.inl (hsucc hok hterm))
        have h2 := maybeAdvanceCommit_simulates hmem hs h1 hrole
        exact ⟨a, h2.moves, h2.quiet, h2.node, ⟨h2.advances.1, h2.advances.2⟩⟩
      · have hnext := nextIndexAfterConflict_le h hrole peer reply
          fun ci hci => hconf ci hci hterm hrole
        refine ⟨a, .stay ⟨h.identity, h.mirrors, h.cursors, h.candidacy, fun _ => ?_⟩
          (.same le_rfl rfl rfl)⟩
        have hl := h.leadership hrole
        refine { hl with next := fun {p i} hp => ?_ }
        by_cases hpq : p = peer
        · subst hpq
          rw [Finmap.lookup_insert] at hp
          cases hp
          omega
        · rw [Finmap.lookup_insert_of_ne _ hpq] at hp
          exact hl.next hp

/-! ## What a leader sends -/

/-- The next index of a peer that needs no snapshot is above the boundary. -/
theorem prev_bounds (h : NodeInv cfg lax taken a n c) (hrole : c.role = .leader) {peer : NodeId}
    (hneed : ¬ c.needsSnapshot peer = true) :
    c.log.snapshotIndex ≤ (c.appendArgsFor peer).prevLogIndex ∧
      (c.appendArgsFor peer).prevLogIndex ≤ (a.log n).length := by
  have hl := h.leadership hrole
  have hlast := h.mirrors.log.lastIndex_eq
  have hle := h.mirrors.log.le
  unfold needsSnapshot at hneed
  rw [decide_eq_true_iff] at hneed
  show c.log.snapshotIndex ≤ (c.nextIndex.lookup peer).getD (c.log.lastIndex + 1) - 1 ∧
    (c.nextIndex.lookup peer).getD (c.log.lastIndex + 1) - 1 ≤ (a.log n).length
  cases hnx : c.nextIndex.lookup peer with
  | none =>
      show c.log.snapshotIndex ≤ c.log.lastIndex + 1 - 1 ∧ c.log.lastIndex + 1 - 1 ≤ _
      omega
  | some i =>
      have hi := hl.next hnx
      rw [hnx] at hneed
      show c.log.snapshotIndex ≤ i - 1 ∧ i - 1 ≤ _
      cases hsn : c.snapshot with
      | none =>
          have := h.cursors.no_snapshot hsn
          omega
      | some d =>
          have : ¬ i ≤ c.log.snapshotIndex := fun hc => hneed ⟨hrole, by rw [hsn]; rfl, hc⟩
          omega

/-- An AppendEntries carries the leader's log to its end. -/
theorem appendArgsFor_covers (h : NodeInv cfg lax taken a n c) (hrole : c.role = .leader)
    {peer : NodeId} (hneed : ¬ c.needsSnapshot peer = true) :
    (c.appendArgsFor peer).entries = (a.log n).drop (c.appendArgsFor peer).prevLogIndex ∧
      (c.appendArgsFor peer).prevLogIndex + (c.appendArgsFor peer).entries.length =
        (a.log n).length := by
  have hb := prev_bounds h hrole hneed
  have hent : (c.appendArgsFor peer).entries =
      (a.log n).drop (c.appendArgsFor peer).prevLogIndex :=
    h.mirrors.log.entriesAfter_eq hb.1
  refine ⟨hent, ?_⟩
  rw [hent, List.length_drop]
  omega

/-- An AppendEntries is a true segment of the leader's log. -/
theorem appendArgsFor_segment (h : NodeInv cfg lax taken a n c) (hrole : c.role = .leader)
    {peer : NodeId} (hneed : ¬ c.needsSnapshot peer = true) :
    Segment cfg a n (c.appendArgsFor peer) := by
  have hl := h.leadership hrole
  have hb := prev_bounds h hrole hneed
  have hterm : (c.appendArgsFor peer).term = a.term n := h.mirrors.term
  obtain ⟨hent, hsum⟩ := appendArgsFor_covers h hrole hneed
  refine ⟨?_, ?_, ?_, ?_, ?_, ?_⟩
  · rw [hterm, hl.lead]
  · rw [hterm, hl.log, hsum]
  · rw [hterm, hl.log]
    obtain ⟨t, ht⟩ := plainTerm_isSome (a.log n) hb.2
    have : (c.appendArgsFor peer).prevLogTerm = t := by
      show (c.log.termAt (c.appendArgsFor peer).prevLogIndex).getD 0 = t
      rw [h.mirrors.log.termAt_eq hb.1, ht]
      rfl
    rw [this, ht]
  · rw [hterm, hl.log, hsum, List.take_length, hent]
  · rw [hsum]
    exact h.cursors.commit_le
  · rw [hterm, hl.log]
    exact h.cursors.committed

end Murmur.Raft
