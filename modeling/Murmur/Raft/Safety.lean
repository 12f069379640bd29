/-
  Safety of the cluster, read off the simulation. All statements are about states of runs
  from empty storages, with messages lost, delayed and reordered, and nodes restarted.

  * `election_safety`: a term has one leader over the whole run.
  * `log_matching`: an equal term at an index makes two logs equal below it, as far as both still
    hold them; the terms of a log do not decrease.
  * `leader_poised`: a leader is always in a state the quorum rule of `CommitRule` is about.
  * `state_machine_safety`: what is delivered at an index is the same everywhere.
-/
import Murmur.Raft.Simulation

namespace Murmur.Raft

open Murmur.Basis Murmur.Protocol ConsensusModule

variable {cfg : ClusterConfig} {lax : Prop} {taken : List Taken} {s s' : Cluster} {a a' : Ghost}
  {n m : NodeId} {c : ConsensusModule}

/-! ## Election safety -/

/-- **Election safety.** If `n` leads a term in a state of a run and `m` leads the same term in
    that state or a later one, they are the same node. -/
theorem election_safety (h : Cluster.Reachable cfg s) (h' : Cluster.Leads cfg s s')
    (hn : n ∈ cfg.members) (hm : m ∈ cfg.members) (hl : (s.core n).role = .leader)
    (hl' : (s'.core m).role = .leader)
    (ht : (s.core n).currentTerm = (s'.core m).currentTerm) : n = m := by
  obtain ⟨a, hr⟩ := reachable_refines h
  obtain ⟨a', hlater, hr'⟩ := leads_refines hr h'
  have hlead := (hlater.grows hr.safe).lead ((hr.nodes n hn).leadership hl).lead
  have hlead' := ((hr'.nodes m hm).leadership hl').lead
  rw [← (hr.nodes n hn).mirrors.term, ht, (hr'.nodes m hm).mirrors.term, hlead'] at hlead
  exact (Option.some.inj hlead).symm

/-- A cluster of three. -/
def trio : ClusterConfig where
  members := [1, 2, 3]
  peers n := [1, 2, 3].erase n
  nodup := by decide
  peers_perm := by decide

/-- Node 1 probes, campaigns and wins with the vote of node 2. -/
def electedRun : List Action :=
  [.tick 1 1000 0, .serve 0 1000 0, .fold 0, .tick 1 1000 0, .serve 2 1000 0, .fold 1]

set_option maxRecDepth 100000 in
theorem electedRun_isSome :
    (run (Cluster.step trio) (Cluster.init trio) electedRun).isSome = true := by decide

/-- The state in which node 1 has just been elected. -/
def elected : Cluster :=
  (run (Cluster.step trio) (Cluster.init trio) electedRun).get electedRun_isSome

theorem elected_reachable : Cluster.Reachable trio elected :=
  ⟨electedRun, Option.eq_some_of_isSome electedRun_isSome⟩

set_option maxRecDepth 100000 in
theorem election_safety_elected :
    (elected.core 1).role = .leader ∧
      ∀ m ∈ trio.members, (elected.core m).role = .leader →
        (elected.core 1).currentTerm = (elected.core m).currentTerm → 1 = m :=
  ⟨by decide, fun _ hm hl ht => election_safety elected_reachable (Reaches.refl _ _) (by decide)
    hm (by decide) hl ht⟩

/-! ## Log matching -/

theorem termAt_plain {log : Log} {full : List LogEntry} (h : log.Represents full) {i t : Nat}
    (ht : log.termAt i = some t) : plainTerm full i = some t := by
  rcases Nat.lt_or_ge i log.snapshotIndex with hlt | hge
  · rw [Log.termAt_none hlt] at ht
    exact absurd ht (by simp)
  · rw [← h.termAt_eq hge, ht]

theorem getElem?_take_eq {l m : List LogEntry} {i j : Nat} (h : l.take i = m.take i)
    (hj : j < i) : l[j]? = m[j]? := by
  rw [← List.getElem?_take_of_lt hj, h, List.getElem?_take_of_lt hj]

/-- The terms of a node's log, from the boundary on. -/
theorem terms_sorted (hs : Safe cfg a) (h : NodeInv cfg lax taken a n c) :
    (c.log.snapshotTerm :: c.log.entries.map LogEntry.term).Pairwise (· ≤ ·) := by
  have hgen := hs.logs.log_genuine n
  have hlog := h.mirrors.log
  rw [hlog.entries]
  refine List.pairwise_cons.mpr ⟨fun t ht => ?_, ?_⟩
  · obtain ⟨e, he, rfl⟩ := List.mem_map.mp ht
    obtain ⟨i, hi⟩ := List.mem_iff_getElem?.mp he
    rw [List.getElem?_drop] at hi
    have hb := hlog.term
    cases hk : c.log.snapshotIndex with
    | zero =>
        rw [hk, plainTerm_zero] at hb
        rw [← Option.some.inj hb]
        exact Nat.zero_le _
    | succ k =>
        rw [hk] at hb hi
        rw [plainTerm_succ, Option.map_eq_some_iff] at hb
        obtain ⟨d, hd, hdt⟩ := hb
        rw [← hdt]
        exact hgen.sorted hs.logs (by omega) hd hi
  · rw [List.pairwise_iff_getElem]
    intro i j hi hj hij
    rw [List.length_map, List.length_drop] at hi hj
    rw [List.getElem_map, List.getElem_map, List.getElem_drop, List.getElem_drop]
    exact hgen.sorted hs.logs (by omega) (List.getElem?_eq_getElem (by omega))
      (List.getElem?_eq_getElem (by omega))

theorem one_le_term (hs : Safe cfg a) {e : LogEntry} (he : e ∈ a.log n) : 1 ≤ e.term := by
  obtain ⟨l, hl⟩ := (hs.logs.log_genuine n).has_leader hs.logs he
  exact hs.votes.pos (hs.logs.lead_self hl)

theorem lastTerm_le (hs : Safe cfg a) (h : NodeInv cfg lax taken a n c) :
    c.log.lastTerm ≤ c.currentTerm := by
  rw [h.mirrors.log.lastTerm_eq, h.mirrors.term]
  unfold Protocol.lastTerm
  cases hl : (a.log n).getLast? with
  | none => exact Nat.zero_le _
  | some e => exact hs.logs.log_le (List.mem_of_getLast? hl)

/-- **Log matching**, with compaction. -/
theorem log_matching (h : Cluster.Reachable cfg s) (hn : n ∈ cfg.members) (hm : m ∈ cfg.members) :
    (∀ i t, (s.core n).log.termAt i = some t → (s.core m).log.termAt i = some t → ∀ j ≤ i,
      (∀ u v, (s.core n).log.termAt j = some u → (s.core m).log.termAt j = some v → u = v) ∧
      ∀ d e, (s.core n).log.get j = some d → (s.core m).log.get j = some e →
        d.command = e.command) ∧
    ((s.core n).log.snapshotTerm :: (s.core n).log.entries.map LogEntry.term).Pairwise (· ≤ ·) ∧
    (∀ e ∈ (s.core n).log.entries, 1 ≤ e.term) ∧
    (s.core n).log.lastTerm ≤ (s.core n).currentTerm := by
  obtain ⟨a, hr⟩ := reachable_refines h
  have hN := hr.nodes n hn
  have hM := hr.nodes m hm
  refine ⟨fun i t hni hmi j hj => ?_, terms_sorted hr.safe hN, fun e he => ?_,
    lastTerm_le hr.safe hN⟩
  · have heq := take_eq_of_plainTerm (hr.safe.logs.log_genuine n) (hr.safe.logs.log_genuine m)
      (termAt_plain hN.mirrors.log hni) (termAt_plain hM.mirrors.log hmi)
    constructor
    · intro u v hu hv
      have hu := termAt_plain hN.mirrors.log hu
      have hv := termAt_plain hM.mirrors.log hv
      cases j with
      | zero => exact Option.some.inj (hu.symm.trans hv)
      | succ j =>
          rw [plainTerm_succ, getElem?_take_eq heq hj] at hu
          rw [plainTerm_succ] at hv
          exact Option.some.inj (hu.symm.trans hv)
    · intro d e hd he
      obtain ⟨hd, hpos⟩ := hN.mirrors.log.getElem?_of_get hd
      obtain ⟨he, -⟩ := hM.mirrors.log.getElem?_of_get he
      rw [getElem?_take_eq heq (by omega), he] at hd
      exact congrArg LogEntry.command (Option.some.inj hd).symm
  · rw [hN.mirrors.log.entries] at he
    exact one_le_term hr.safe (List.mem_of_mem_drop he)

/-- Node 1 takes a command, node 2 stores it and the leader commits it. -/
def committedRun : List Action :=
  electedRun ++ [.propose 1 [7], .tick 1 1100 0, .serve 4 1100 0, .fold 2]

set_option maxRecDepth 100000 in
theorem committedRun_isSome :
    (run (Cluster.step trio) (Cluster.init trio) committedRun).isSome = true := by decide

/-- The state in which nodes 1 and 2 hold one entry, committed on node 1. -/
def committed : Cluster :=
  (run (Cluster.step trio) (Cluster.init trio) committedRun).get committedRun_isSome

theorem committed_reachable : Cluster.Reachable trio committed :=
  ⟨committedRun, Option.eq_some_of_isSome committedRun_isSome⟩

set_option maxRecDepth 100000 in
theorem log_matching_committed :
    (committed.core 1).log.termAt 1 = some 1 ∧ (committed.core 2).log.termAt 1 = some 1 ∧
      ∀ d e, (committed.core 1).log.get 1 = some d → (committed.core 2).log.get 1 = some e →
        d.command = e.command :=
  have h1 : (committed.core 1).log.termAt 1 = some 1 := by decide
  have h2 : (committed.core 2).log.termAt 1 = some 1 := by decide
  ⟨h1, h2, ((log_matching committed_reachable (by decide) (by decide)).1 1 1 h1 h2 1 le_rfl).2⟩

/-! ## The commit rule -/

/-- In every run the scan of a leader meets what the quorum rule takes for granted. -/
theorem leader_poised (h : Cluster.Reachable cfg s) (hn : n ∈ cfg.members)
    (hl : (s.core n).role = .leader) : (s.core n).Poised := by
  obtain ⟨a, hr⟩ := reachable_refines h
  have hnode := hr.nodes n hn
  have hlead := hnode.leadership hl
  have hlast := hnode.mirrors.log.lastIndex_eq
  refine ⟨?_, ?_, fun e he => ?_, ?_, fun p _ => ?_⟩
  · rw [hnode.identity.quorum, hnode.identity.peers]
  · exact List.pairwise_map.mp (List.pairwise_cons.mp (terms_sorted hr.safe hnode)).2
  · rw [hnode.mirrors.log.entries] at he
    rw [hnode.mirrors.term]
    exact hr.safe.logs.log_le (List.mem_of_mem_drop he)
  · exact hnode.cursors.snapshot_le.trans hnode.cursors.applied_le
  · cases hm : (s.core n).matchIndex.lookup p with
    | none => exact Nat.zero_le _
    | some m =>
        show m ≤ (s.core n).log.lastIndex
        rw [hlast]
        rcases hlead.matched hm with hack | ⟨-, hcommit⟩
        · rw [← hlead.log]
          exact hack.trans (hr.safe.logs.acked_le p _)
        · exact hcommit.trans hnode.cursors.commit_le

/-! ## State machine safety -/

/-- A node's committed prefix gives the term at each index it still has. -/
theorem committed_term (hr : Refines cfg lax s a) (hn : n ∈ cfg.members) {i t : Nat}
    (hi : i ≤ (s.core n).commitIndex) (ht : (s.core n).log.termAt i = some t) :
    ∃ T p, Commits cfg a T p ∧ plainTerm p i = some t := by
  have hN := hr.nodes n hn
  refine ⟨a.term n, _, hN.cursors.committed, ?_⟩
  rw [plainTerm_take _ hi]
  exact termAt_plain hN.mirrors.log ht

/-- Committed lists agree on the terms both have. -/
theorem committed_plainTerm (hs : Safe cfg a) {T T' : Nat} {p q : List LogEntry}
    (hp : Commits cfg a T p) (hq : Commits cfg a T' q) {i t u : Nat}
    (ht : plainTerm p i = some t) (hu : plainTerm q i = some u) : t = u := by
  rcases hp.comparable hs hq with hpq | hqp
  · exact Option.some.inj ((plainTerm_grow hpq ht).symm.trans hu)
  · exact Option.some.inj (ht.symm.trans (plainTerm_grow hqp hu))

theorem delivered_agree (hr : Refines cfg lax s a) {x y : Applied}
    (hx : (n, .command x) ∈ s.delivered) (hy : (m, .command y) ∈ s.delivered)
    (hxy : x.index = y.index) : x.term = y.term ∧ x.command = y.command := by
  obtain ⟨-, T, p, hp, hpx⟩ := hr.delivered _ hx
  obtain ⟨-, T', q, hq, hqy⟩ := hr.delivered _ hy
  rw [hxy] at hpx
  have := hp.agree hr.safe hq hpx hqy
  exact ⟨congrArg LogEntry.term this, congrArg LogEntry.command this⟩

theorem delivered_term (hr : Refines cfg lax s a) {x : Applied}
    (hx : (n, .command x) ∈ s.delivered) :
    ∃ T p, Commits cfg a T p ∧ plainTerm p x.index = some x.term := by
  obtain ⟨hpos, T, p, hp, hpx⟩ := hr.delivered _ hx
  refine ⟨T, p, hp, ?_⟩
  have hpos : 0 < x.index := hpos
  unfold plainTerm
  rw [if_neg (by omega), hpx]
  rfl

/-- **State machine safety.** `s'` is the end of a run and `s` any state of it. Commands delivered
    at one index are the same; a delivered snapshot carries the term delivered at its
    index, which is the term every node that took the index as committed had there, and its
    data is what a `snapshot` call at that index supplied. -/
theorem state_machine_safety (h : Cluster.Reachable cfg s) (h' : Cluster.Leads cfg s s') :
    (∀ n m x y, (n, .command x) ∈ s'.delivered → (m, .command y) ∈ s'.delivered →
      x.index = y.index → x.term = y.term ∧ x.command = y.command) ∧
    ∀ n sn, (n, .snapshot sn) ∈ s'.delivered →
      (∀ m x, (m, .command x) ∈ s'.delivered → x.index = sn.lastIncludedIndex →
        x.term = sn.lastIncludedTerm) ∧
      (∀ m y, (m, .snapshot y) ∈ s'.delivered → y.lastIncludedIndex = sn.lastIncludedIndex →
        y.lastIncludedTerm = sn.lastIncludedTerm) ∧
      (∀ m ∈ cfg.members, sn.lastIncludedIndex ≤ (s.core m).commitIndex →
        ∀ t, (s.core m).log.termAt sn.lastIncludedIndex = some t → t = sn.lastIncludedTerm) ∧
      ∃ r ∈ s'.taken, r.index = sn.lastIncludedIndex ∧ r.data = sn.data := by
  obtain ⟨a, hr⟩ := reachable_refines h
  obtain ⟨a', hlater, hr'⟩ := leads_refines hr h'
  refine ⟨fun n m x y hx hy => delivered_agree hr' hx hy, fun n sn hsn => ?_⟩
  obtain ⟨hpos, T, p, hp, hlen, hterm, hb⟩ := hr'.delivered _ hsn
  refine ⟨fun m x hx hidx => ?_, fun m y hy hidx => ?_, fun m hm hle t ht => ?_, ?_⟩
  · obtain ⟨T', q, hq, hqt⟩ := delivered_term hr' hx
    rw [hidx] at hqt
    exact committed_plainTerm hr'.safe hq hp hqt hterm
  · obtain ⟨-, T', q, hq, -, hqt, -⟩ := hr'.delivered _ hy
    rw [hidx] at hqt
    exact committed_plainTerm hr'.safe hq hp hqt hterm
  · obtain ⟨T', q, hq, hqt⟩ := committed_term hr hm hle ht
    exact committed_plainTerm hr'.safe (hq.grow (hlater.grows hr.safe)) hp hqt hterm
  · rw [← hlen]
    exact hb.supplied (by omega)

/-- A cluster of one. -/
def solo : ClusterConfig where
  members := [1]
  peers _ := []
  nodup := by decide
  peers_perm := by decide

/-- The node elects itself, applies a command, takes a snapshot and restarts on it. -/
def soloRun : List Action :=
  [.tick 1 1000 0, .tick 1 1000 0, .propose 1 [7], .drain 1, .snapshot 1 1 [42],
    .restart 1 2000 0, .drain 1]

set_option maxRecDepth 100000 in
theorem soloRun_isSome :
    (run (Cluster.step solo) (Cluster.init solo) soloRun).isSome = true := by decide

/-- The state after `soloRun`. -/
def restarted : Cluster :=
  (run (Cluster.step solo) (Cluster.init solo) soloRun).get soloRun_isSome

set_option maxRecDepth 100000 in
theorem state_machine_safety_restarted :
    (1, .command { index := 1, term := 1, command := [7] }) ∈ restarted.delivered ∧
      (1, .snapshot { lastIncludedIndex := 1, lastIncludedTerm := 1, data := [42] }) ∈
        restarted.delivered ∧
      ∃ r ∈ restarted.taken, r.index = 1 ∧ r.data = [42] :=
  have hsn : (1, .snapshot { lastIncludedIndex := 1, lastIncludedTerm := 1, data := [42] }) ∈
      restarted.delivered := by decide
  have hreach : Cluster.Reachable solo restarted :=
    ⟨soloRun, Option.eq_some_of_isSome soloRun_isSome⟩
  ⟨by decide, hsn, ((state_machine_safety hreach (Reaches.refl _ _)).2 1 _ hsn).2.2.2⟩

end Murmur.Raft
