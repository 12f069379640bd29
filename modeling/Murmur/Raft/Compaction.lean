/-
  Snapshots, the apply stream and restarts refine the protocol.

  * Taking a snapshot is no step of the protocol: the log it stands for is unchanged
    (`takeSnapshot_node`). Installing one is `adopt` of the prefix it covers.
  * The apply stream delivers committed entries only, and never fails to find one
    (`takeApplies_node`).
  * A restart resumes with the persistent fields and a snapshot still to be applied.
-/
import Murmur.Raft.Replication

namespace Murmur.Raft

open Murmur.Basis Murmur.Protocol ConsensusModule

variable {cfg : ClusterConfig} {lax : Prop} {taken : List Taken} {a a' : Ghost} {n : NodeId}
  {c c' : ConsensusModule}

/-! ## Taking a snapshot -/

/-- The history record of a `snapshot` call that takes effect on `c`. -/
def takenRecord (n : NodeId) (c : ConsensusModule) (index : Nat) (data : Bytes) : Taken :=
  { node := n, index, data, log := c.log, previous := c.snapshot }

/-- The new snapshot stands for the applied prefix: what the log holds of it, and what the
    snapshot before stood for. -/
theorem takenRecord_backed (h : NodeInv cfg lax taken a n c) {index : Nat} {data : Bytes}
    (hlen : index ≤ (a.log n).length) :
    Backed (taken ++ [takenRecord n c index data]) ((a.log n).take index) data := by
  intro i e he
  have hi : i < index := by
    have := (List.getElem?_eq_some_iff.mp he).1
    rw [List.length_take] at this
    omega
  rw [List.getElem?_take_of_lt hi] at he
  rw [List.length_take, Nat.min_eq_left hlen]
  have hr : takenRecord n c index data ∈ taken ++ [takenRecord n c index data] := by simp
  rcases Nat.lt_or_ge i c.log.snapshotIndex with hlt | hge
  · -- Already compacted: the snapshot before covers it.
    cases hsn : c.snapshot with
    | none =>
        have := h.cursors.no_snapshot hsn
        omega
    | some d =>
        have hb := (h.cursors.backed hsn).2 i e (by rw [List.getElem?_take_of_lt hlt]; exact he)
        rw [List.length_take, Nat.min_eq_left h.mirrors.log.le] at hb
        exact .older hr hsn hlt (hb.mono (List.subset_append_left _ _))
  · refine .held hr hi ?_
    show c.log.get (i + 1) = some e
    rw [h.mirrors.log.get_eq (by omega)]
    exact he

theorem takeSnapshot_effect {index : Nat} {data : Bytes} {t : Nat}
    (hin : ¬ (index ≤ c.log.snapshotIndex ∨ index > c.lastApplied))
    (ht : c.log.termAt index = some t) :
    c.takeSnapshot index data =
      some { c with log := c.log.compact index t, snapshot := some data }.persist := by
  unfold takeSnapshot
  rw [if_neg hin, ht]

theorem compact_boundary (log : Log) {i : Nat} (t : Nat) (hi : log.snapshotIndex < i) :
    (log.compact i t).snapshotIndex = i ∧ (log.compact i t).snapshotTerm = t := by
  unfold Log.compact
  rw [if_neg (by omega)]
  exact ⟨rfl, rfl⟩

/-- Within the applied range, the term to compact at is there. -/
theorem termAt_of_applied (h : NodeInv cfg lax taken a n c) (index : Nat)
    (hlo : c.log.snapshotIndex ≤ index) (hhi : index ≤ c.commitIndex) :
    ∃ t, c.log.termAt index = some t ∧ plainTerm (a.log n) index = some t := by
  have := h.cursors.commit_le
  obtain ⟨t, ht⟩ := plainTerm_isSome (a.log n) (i := index) (by omega)
  exact ⟨t, by rw [h.mirrors.log.termAt_eq hlo, ht], ht⟩

theorem takeSnapshot_node (h : NodeInv cfg lax taken a n c) {index : Nat} (data : Bytes)
    (hin : ¬ (index ≤ c.log.snapshotIndex ∨ index > c.lastApplied)) :
    ∃ c', c.takeSnapshot index data = some c' ∧ Advances c c' ∧
      NodeInv cfg lax (taken ++ [takenRecord n c index data]) a n c' := by
  have h1 := h.cursors.applied_le
  have h2 := h.cursors.commit_le
  obtain ⟨t, ht, hplain⟩ := termAt_of_applied h index (by omega) (by omega)
  have hb := compact_boundary c.log (i := index) t (by omega)
  refine ⟨_, takeSnapshot_effect hin ht, .same le_rfl rfl rfl, h.identity,
    ⟨h.mirrors.term, h.mirrors.vote, ?_⟩,
    ⟨?_, h1, h2, h.cursors.committed, nofun, fun hd => ?_, fun hp => ?_⟩, h.candidacy,
    h.leadership⟩
  · exact h.mirrors.log.compact (by omega) (by omega) hplain
  · show (c.log.compact index t).snapshotIndex ≤ c.lastApplied
    rw [hb.1]
    omega
  · cases hd
    show 0 < (c.log.compact index t).snapshotIndex ∧
      Backed _ (List.take (c.log.compact index t).snapshotIndex _) data
    rw [hb.1]
    exact ⟨by omega, takenRecord_backed h (by omega)⟩
  · -- A snapshot still to be applied leaves no room for another one.
    have := (h.cursors.pending hp).1
    omega

/-! ## Installing a snapshot -/

/-- The offer a leader makes is its own snapshot. -/
theorem installSnapshotArgs_offer (h : NodeInv cfg lax taken a n c) (hrole : c.role = .leader)
    {peer : NodeId} (hneed : c.needsSnapshot peer = true) :
    Offer cfg taken a n (c.installSnapshotArgs peer) := by
  have hl := h.leadership hrole
  unfold needsSnapshot at hneed
  rw [decide_eq_true_iff] at hneed
  obtain ⟨data, hdata⟩ := Option.isSome_iff_exists.mp hneed.2.1
  have hb := h.cursors.backed hdata
  have h1 := h.cursors.snapshot_le
  have h2 := h.cursors.applied_le
  have hterm : (c.installSnapshotArgs peer).term = a.term n := h.mirrors.term
  refine ⟨?_, hb.1, ?_, ?_, ?_, ?_⟩
  · rw [hterm, hl.lead]
  · rw [hterm, hl.log]
    exact h.mirrors.log.le
  · rw [hterm, hl.log]
    exact h.mirrors.log.term
  · rw [hterm, hl.log]
    exact h.cursors.committed.of_pre (List.take_prefix_take_left (h1.trans h2))
  · rw [hterm, hl.log]
    have : (c.installSnapshotArgs peer).data = data := by
      show c.snapshot.getD [] = data
      rw [hdata]
      rfl
    rw [this]
    exact hb.2

theorem acceptSnapshot_simulates (hs : Safe cfg a) (h : NodeInv cfg lax taken a n c)
    {sender : NodeId} {args : InstallSnapshotArgs} (hoff : Offer cfg taken a sender args)
    (ht : a.term n = args.term) (hrole : c.role = .follower)
    (hnew : c.commitIndex < args.lastIncludedIndex) :
    Simulates cfg lax taken n a c (a.adopt n args.lastIncludedIndex) (c.acceptSnapshot args) := by
  have hlead : a.lead (a.term n) = some sender := by rw [ht]; exact hoff.lead
  have hstep : Protocol.Step cfg.quorums LogEntry.term n a (a.adopt n args.lastIncludedIndex) :=
    .adopt _ (by rw [hlead]; simp) (by rw [ht]; exact hoff.len)
  have hg := hstep.grows hs.votes hs.logs
  have h1 := h.cursors.snapshot_le
  have h2 := h.cursors.applied_le
  have hlen : ((a.llog args.term).take args.lastIncludedIndex).length = args.lastIncludedIndex := by
    rw [List.length_take, Nat.min_eq_left hoff.len]
  have hlog : (a.adopt n args.lastIncludedIndex).log n =
      adopt ((a.llog args.term).take args.lastIncludedIndex) (a.log n) := by
    simp [State.adopt, ht]
  have hpre : (a.llog args.term).take args.lastIncludedIndex <+:
      (a.adopt n args.lastIncludedIndex).log n := by
    rw [hlog]
    exact pre_adopt _ _
  have htake : ((a.adopt n args.lastIncludedIndex).log n).take args.lastIncludedIndex =
      (a.llog args.term).take args.lastIncludedIndex := by
    have := List.prefix_iff_eq_take.mp hpre
    rw [hlen] at this
    exact this.symm
  have hcompact : (c.log.compact args.lastIncludedIndex args.lastIncludedTerm).Represents
      ((a.adopt n args.lastIncludedIndex).log n) := by
    have := h.mirrors.log.compact_adopt (m := (a.llog args.term).take args.lastIncludedIndex)
      (t := args.lastIncludedTerm) (by rw [hlen]; omega)
      (by rw [hlen, plainTerm_take _ le_rfl]; exact hoff.term)
      (by rw [hlen]; exact fun hterm => pre_of_plainTerm hs hoff.term hterm)
    rwa [hlen, ← hlog] at this
  have hb := compact_boundary c.log (i := args.lastIncludedIndex) args.lastIncludedTerm
    (by omega)
  have hheld : args.lastIncludedIndex ≤ ((a.adopt n args.lastIncludedIndex).log n).length := by
    have := hpre.length_le
    omega
  refine .step hstep (fun ho => ho) ⟨h.identity, ⟨h.mirrors.term, h.mirrors.vote, hcompact⟩,
    ⟨hb.1.le, le_rfl, hheld, ?_, fun hn => (by cases hn), fun hd => ?_,
      fun hp => ?_⟩,
    fun hr => absurd (hrole.symm.trans hr) (by simp),
    fun hr => absurd (hrole.symm.trans hr) (by simp)⟩
    ⟨hnew.le, Or.inr ⟨h2.trans_lt hnew, rfl⟩⟩
  · show Commits cfg _ (a.term n) (List.take args.lastIncludedIndex _)
    rw [htake, ht]
    exact hoff.committed.grow hg
  · cases hd
    show 0 < (c.log.compact _ _).snapshotIndex ∧
      Backed taken (List.take (c.log.compact _ _).snapshotIndex _) args.data
    rw [hb.1, htake]
    exact ⟨hoff.pos, hoff.backed⟩
  · cases hp
    exact ⟨hb.1.symm, hb.1.symm, hb.2.symm, rfl⟩

/-- A stale snapshot is acknowledged because it is already committed here. -/
theorem stale_acked (hs : Safe cfg a) (h : NodeInv cfg lax taken a n c) {l : NodeId}
    (hl : a.lead (a.term n) = some l) {k : Nat} (hlen : k ≤ (a.llog (a.term n)).length)
    (hk : k ≤ c.commitIndex) :
    Protocol.Step cfg.quorums LogEntry.term n a (a.adopt n k) ∧
      (a.adopt n k).log n = a.log n := by
  refine ⟨.adopt _ (by rw [hl]; simp) hlen, ?_⟩
  simp only [State.adopt, Function.update_self]
  exact if_pos (h.pre_committed hs hl hk)

theorem staleSnapshot_simulates (hs : Safe cfg a) (h : NodeInv cfg lax taken a n c) {l : NodeId}
    (hrole : c.role = .follower) (hl : a.lead (a.term n) = some l) {k : Nat}
    (hlen : k ≤ (a.llog (a.term n)).length) (hk : k ≤ c.commitIndex) :
    Simulates cfg lax taken n a c (a.adopt n k) c := by
  obtain ⟨hstep, hlog⟩ := stale_acked hs h hl hlen hk
  have hg := hstep.grows hs.votes hs.logs
  refine .step hstep (fun ho => ho) ⟨h.identity, ⟨h.mirrors.term, h.mirrors.vote, ?_⟩, ?_,
    fun hr => absurd (hrole.symm.trans hr) (by simp),
    fun hr => absurd (hrole.symm.trans hr) (by simp)⟩ (.same le_rfl rfl rfl)
  · rw [hlog]
    exact h.mirrors.log
  · refine h.cursors.relog hg ?_ rfl rfl
    rw [hlog]
    exact List.take_prefix _ _

theorem handleInstallSnapshot_simulates (hs : Safe cfg a) (h : NodeInv cfg lax taken a n c)
    {sender : NodeId} {args : InstallSnapshotArgs} (hoff : Offer cfg taken a sender args)
    (now : Instant) (draw : Nat) :
    ∃ a', Simulates cfg lax taken n a c a' (c.handleInstallSnapshot args now draw).1 ∧
      ReplyOk a' sender n (.install args) (.install (c.handleInstallSnapshot args now draw).2) := by
  unfold handleInstallSnapshot
  split
  · next hlt =>
    refine ⟨a, .stay h (.same le_rfl rfl rfl), fun heq => ?_⟩
    have heq : c.currentTerm = args.term := heq
    omega
  · next hge =>
    obtain ⟨a1, h1, ht1⟩ := yieldTo_simulates hs h args.term (by omega) args.leaderId
      now draw
    have hs1 := h1.safe hs
    have hoff1 := hoff.grow (List.Subset.refl taken) (h1.grows hs)
    have hrole := yieldTo_role (c := c) args.term args.leaderId now draw
    have hack := adopt_acked a1 n args.lastIncludedIndex
    rw [ht1] at hack
    dsimp only
    generalize c.yieldTo args.term args.leaderId now draw = d at h1 hrole ⊢
    split
    · next hstale =>
      have h2 := staleSnapshot_simulates hs1 h1.node hrole (l := sender)
        (by rw [ht1]; exact hoff1.lead) (by rw [ht1]; exact hoff1.len) hstale
      exact ⟨_, h1.trans h2, fun _ => hack⟩
    · next hnew =>
      have h2 := acceptSnapshot_simulates hs1 h1.node hoff1 ht1 hrole (by omega)
      exact ⟨_, h1.trans h2, fun _ => hack⟩

/-- The reply is taken as an acknowledgement whenever its term is the leader's. -/
theorem handleInstallSnapshotReply_simulates (hmem : n ∈ cfg.members) (hs : Safe cfg a)
    (h : NodeInv cfg lax taken a n c) {peer : NodeId} {reply : InstallSnapshotReply} {upTo : Nat}
    (hup : c.role = .leader → reply.term = c.currentTerm →
      upTo ≤ a.acked peer (a.term n) ∨ lax ∧ upTo ≤ c.commitIndex) :
    ∃ a', Simulates cfg lax taken n a c a' (c.handleInstallSnapshotReply peer reply upTo) := by
  unfold handleInstallSnapshotReply
  split
  · next hlt => exact stepDownFrom_simulates hs h hlt
  · split
    · exact ⟨a, .stay h (.same le_rfl rfl rfl)⟩
    · next hlive =>
      push Not at hlive
      have h1 := recordMatch_node hs h hlive.1 (hup hlive.1 hlive.2)
      have h2 := maybeAdvanceCommit_simulates hmem hs h1 hlive.1
      exact ⟨a, h2.moves, h2.quiet, h2.node, ⟨h2.advances.1, h2.advances.2⟩⟩

/-! ## The apply stream -/

/-- The entries `lo + 1 .. hi` of `full`, as they are delivered. -/
def commandsOf (full : List LogEntry) (lo hi : Nat) : List Apply :=
  (List.range' lo (hi - lo)).filterMap fun i => full[i]?.map fun e =>
    .command { index := i + 1, term := e.term, command := e.command }

theorem commandsOf_cons {full : List LogEntry} {lo hi : Nat} {e : LogEntry} (hlt : lo < hi)
    (he : full[lo]? = some e) :
    commandsOf full lo hi =
      .command { index := lo + 1, term := e.term, command := e.command } ::
        commandsOf full (lo + 1) hi := by
  unfold commandsOf
  obtain ⟨k, hk⟩ : ∃ k, hi - lo = k + 1 := ⟨hi - lo - 1, by omega⟩
  have hk' : hi - (lo + 1) = k := by omega
  rw [hk, hk', List.range'_succ, List.filterMap_cons, he]
  rfl

/-- The loop delivers everything up to the commit index and finds every entry. -/
theorem applyCommitted_eq {full : List LogEntry} (hlog : c.log.Represents full) {fuel : Nat}
    (hfuel : fuel = c.commitIndex - c.lastApplied) (hlo : c.log.snapshotIndex ≤ c.lastApplied)
    (hle : c.lastApplied ≤ c.commitIndex) (hhi : c.commitIndex ≤ full.length) :
    applyCommitted fuel c = some ({ c with lastApplied := c.commitIndex },
      commandsOf full c.lastApplied c.commitIndex) := by
  induction fuel generalizing c with
  | zero =>
      have heq : c.lastApplied = c.commitIndex := by omega
      have hnil : commandsOf full c.commitIndex c.commitIndex = [] := by simp [commandsOf]
      show some (c, []) = _
      rw [heq, hnil]
      cases c
      cases heq
      rfl
  | succ fuel ih =>
      have hlt : c.lastApplied < c.commitIndex := by omega
      have hget : full[c.lastApplied]? = some full[c.lastApplied] :=
        List.getElem?_eq_getElem (by omega)
      have hfound : c.log.get (c.lastApplied + 1) = some full[c.lastApplied] := by
        rw [hlog.get_eq (by omega)]
        exact hget
      unfold applyCommitted
      rw [if_pos hlt]
      dsimp only
      rw [hfound]
      dsimp only
      rw [ih (c := { c with lastApplied := c.lastApplied + 1 }) hlog (by dsimp only; omega)
        (by dsimp only; omega) (by dsimp only; omega) hhi]
      rw [commandsOf_cons hlt hget]
      rfl

theorem applyCommitted_commitIndex {fuel : Nat} {out : List Apply}
    (hc : applyCommitted fuel c = some (c', out)) : c'.commitIndex = c.commitIndex := by
  induction fuel generalizing c out with
  | zero =>
      cases hc
      rfl
  | succ fuel ih =>
      unfold applyCommitted at hc
      split at hc
      · dsimp only at hc
        split at hc
        · cases hc
        · obtain ⟨⟨d, rest⟩, hd, heq⟩ := Option.map_eq_some_iff.mp hc
          cases heq
          exact ih (c := { c with lastApplied := c.lastApplied + 1 }) hd
      · cases hc
        rfl

theorem takeApplies_commitIndex {out : List Apply} (hc : c.takeApplies = some (c', out)) :
    c'.commitIndex = c.commitIndex := by
  unfold takeApplies at hc
  obtain ⟨⟨d, rest⟩, hd, heq⟩ := Option.map_eq_some_iff.mp hc
  cases heq
  exact applyCommitted_commitIndex (c := { c with pendingSnapshot := none }) hd

theorem takeApplies_eq (h : NodeInv cfg lax taken a n c) :
    c.takeApplies = some ({ c with lastApplied := c.commitIndex, pendingSnapshot := none },
      c.pendingSnapshot.toList.map Apply.snapshot ++
        commandsOf (a.log n) c.lastApplied c.commitIndex) := by
  unfold takeApplies
  dsimp only
  rw [applyCommitted_eq (c := { c with pendingSnapshot := none }) h.mirrors.log rfl
    h.cursors.snapshot_le h.cursors.applied_le h.cursors.commit_le]
  rfl

/-- A delivered command is an entry of the committed prefix. -/
theorem mem_commandsOf {full : List LogEntry} {lo hi : Nat} {item : Apply}
    (h : item ∈ commandsOf full lo hi) : ∃ i e, lo ≤ i ∧ i < hi ∧ full[i]? = some e ∧
      item = .command { index := i + 1, term := e.term, command := e.command } := by
  unfold commandsOf at h
  obtain ⟨i, hi', hitem⟩ := List.mem_filterMap.mp h
  obtain ⟨e, he, rfl⟩ := Option.map_eq_some_iff.mp hitem
  rw [List.mem_range'_1] at hi'
  exact ⟨i, e, hi'.1, by omega, he, rfl⟩

theorem takeApplies_node (h : NodeInv cfg lax taken a n c) :
    ∃ c' out, c.takeApplies = some (c', out) ∧ c'.commitIndex = c.commitIndex ∧
      NodeInv cfg lax taken a n c' ∧ ∀ item ∈ out, ItemOk cfg taken a item := by
  have h1 := h.cursors.snapshot_le
  have h2 := h.cursors.applied_le
  refine ⟨_, _, takeApplies_eq h, rfl, ⟨h.identity, h.mirrors, ?_, h.candidacy, h.leadership⟩,
    fun item hitem => ?_⟩
  · exact { h.cursors with
      snapshot_le := h1.trans h2
      applied_le := le_rfl
      pending := nofun }
  · rcases List.mem_append.mp hitem with hsn | hcmd
    · obtain ⟨sn, hpend, rfl⟩ := List.mem_map.mp hsn
      obtain ⟨-, hidx, hterm, hdata⟩ := h.cursors.pending (Option.mem_toList.mp hpend)
      obtain ⟨hpos, hb⟩ := h.cursors.backed hdata
      have hlen : ((a.log n).take c.log.snapshotIndex).length = c.log.snapshotIndex := by
        rw [List.length_take, Nat.min_eq_left h.mirrors.log.le]
      refine ⟨hidx ▸ hpos, a.term n, (a.log n).take c.log.snapshotIndex,
        h.cursors.committed.of_pre (List.take_prefix_take_left (h1.trans h2)),
        hlen.trans hidx.symm, ?_, hb⟩
      rw [hidx, hterm, plainTerm_take _ le_rfl]
      exact h.mirrors.log.term
    · obtain ⟨i, e, -, hlt, he, rfl⟩ := mem_commandsOf hcmd
      refine ⟨Nat.succ_pos i, a.term n, _, h.cursors.committed, ?_⟩
      show ((a.log n).take c.commitIndex)[i]? = some e
      rw [List.getElem?_take_of_lt hlt, he]

/-! ## Restart -/

/-- A process started on what storage holds stands where the persistent fields stand. -/
theorem startNode_node (h : NodeInv cfg lax taken a n c) (hstored : Stored c) (epoch : Nat)
    (now : Instant) (draw : Nat) :
    NodeInv cfg lax taken a n (startNode cfg n c.storage epoch now draw).core := by
  unfold startNode
  rw [hstored]
  have h1 := h.cursors.snapshot_le
  have h2 := h.cursors.applied_le
  refine ⟨⟨rfl, rfl, rfl⟩, h.mirrors, ⟨le_rfl, le_rfl, h.mirrors.log.le, ?_,
    h.cursors.no_snapshot, h.cursors.backed, fun {sn} hp => ?_⟩, nofun, nofun⟩
  · exact h.cursors.committed.of_pre (List.take_prefix_take_left (h1.trans h2))
  · obtain ⟨data, hdata, rfl⟩ := Option.map_eq_some_iff.mp hp
    exact ⟨rfl, rfl, rfl, hdata⟩

theorem init_node (cfg : ClusterConfig) (lax : Prop) (n : NodeId) (epoch : Nat) (now : Instant)
    (draw : Nat) :
    NodeInv cfg lax [] State.init n (startNode cfg n {} epoch now draw).core :=
  ⟨⟨rfl, rfl, rfl⟩, ⟨rfl, rfl, .new⟩,
    ⟨le_rfl, le_rfl, le_rfl, Committed.nil _ _, fun _ => rfl, nofun, nofun⟩, nofun, nofun⟩

end Murmur.Raft
