/-
  The commit scan of a leader (`maybe_advance_commit`), and the rule it carries out.

  * `advanceCommitFrom_spec`: the scan stops at the highest index above the commit index that may be
    committed, or changes nothing if there is none.
  * `replicated_iff`: counting replicas of an index is comparing it with the quorum-th largest of
    the indices up to which the nodes hold the log.
  * `commit_scan_is_quorum_rule`: so the scan, which looks at every index for itself, comes to the
    one comparison with that value.
-/
import Murmur.Basis.OrderStatistic
import Murmur.Raft.Splice

namespace Murmur.Raft

open Murmur.Basis

variable {c : ConsensusModule} {i j : Nat}

namespace ConsensusModule

/-! ## The scan -/

/-- The scan stops here: an entry of the current term that is on a majority. -/
def Committable (self : ConsensusModule) (i : Nat) : Prop :=
  self.log.termAt i = some self.currentTerm ∧ self.isReplicatedOnMajority i = true

theorem advanceCommitFrom_spec (k : Nat) :
    (c.advanceCommitFrom k = c ∧ ∀ i, c.commitIndex < i → i ≤ k → ¬ c.Committable i) ∨
      ∃ j, c.commitIndex < j ∧ j ≤ k ∧ c.Committable j ∧
        (∀ i, j < i → i ≤ k → ¬ c.Committable i) ∧
        c.advanceCommitFrom k = { c with commitIndex := j } := by
  induction k with
  | zero => exact Or.inl ⟨rfl, fun i hi hle => absurd hi (by omega)⟩
  | succ k ih =>
      unfold advanceCommitFrom
      split
      · split
        · next hgt hok =>
            exact Or.inr ⟨k + 1, hgt, le_rfl, hok, fun i hi hle => absurd hi (by omega), rfl⟩
        · next hgt hno =>
          -- The index is passed over, so what holds up to the next one holds up to it.
          have hpast : ∀ {b}, (∀ i, b < i → i ≤ k → ¬ c.Committable i) →
              ∀ i, b < i → i ≤ k + 1 → ¬ c.Committable i := by
            intro b hb i hi hle
            rcases Nat.lt_or_eq_of_le hle with hlt | rfl
            · exact hb i hi (Nat.le_of_lt_succ hlt)
            · exact hno
          rcases ih with ⟨heq, hnone⟩ | ⟨j, hj, hle, hok, hlast, heq⟩
          · exact Or.inl ⟨heq, hpast hnone⟩
          · exact Or.inr ⟨j, hj, by omega, hok, hpast hlast, heq⟩
      · next hgt => exact Or.inl ⟨rfl, fun i hi hle => absurd hi (by omega)⟩

/-- The commit index is all the scan can change. -/
theorem maybeAdvanceCommit_eq : ∃ j, c.maybeAdvanceCommit = { c with commitIndex := j } := by
  rcases advanceCommitFrom_spec (c := c) c.log.lastIndex with ⟨heq, -⟩ | ⟨j, -, -, -, -, heq⟩
  · exact ⟨c.commitIndex, heq⟩
  · exact ⟨j, heq⟩

theorem maybeAdvanceCommit_log : c.maybeAdvanceCommit.log = c.log := by
  obtain ⟨j, heq⟩ := maybeAdvanceCommit_eq (c := c)
  rw [heq]

/-! ## Counting replicas -/

/-- Up to where each node of the cluster holds the leader's log, as far as the leader knows. -/
def replicas (self : ConsensusModule) : Multiset Nat :=
  self.log.lastIndex ::ₘ ↑(self.peers.map fun p => (self.matchIndex.lookup p).getD 0)

theorem card_replicas : c.replicas.card = c.peers.length + 1 := by
  simp [replicas]

theorem replicated_iff (hi : i ≤ c.log.lastIndex) :
    c.isReplicatedOnMajority i = true ↔ c.quorum ≤ c.replicas.countP (i ≤ ·) := by
  have hpeers : c.replicas.countP (i ≤ ·) =
      c.peers.countP (fun p => (c.matchIndex.lookup p).getD 0 ≥ i) + 1 := by
    unfold replicas
    rw [Multiset.countP_cons_of_pos _ hi, Multiset.coe_countP, List.countP_map]
    rfl
  unfold isReplicatedOnMajority
  rw [decide_eq_true_iff, hpeers]
  omega

/-! ## The rule -/

/-- What the rule takes for granted of a leader: the quorum is that of its cluster, the terms of its
    log do not decrease and are not ahead of its own, what is compacted is committed, and no peer
    is taken to hold more than there is. -/
structure Poised (c : ConsensusModule) : Prop where
  quorum : c.quorum = (c.peers.length + 1) / 2 + 1
  sorted : c.log.entries.Pairwise fun d e => d.term ≤ e.term
  terms : ∀ e ∈ c.log.entries, e.term ≤ c.currentTerm
  boundary : c.log.snapshotIndex ≤ c.commitIndex
  matched : ∀ p ∈ c.peers, (c.matchIndex.lookup p).getD 0 ≤ c.log.lastIndex

/-- From the first entry of the current term on, all entries are of it. -/
theorem Poised.termAt_later (h : c.Poised) (hi : c.log.snapshotIndex < i) (hij : i ≤ j)
    (hj : j ≤ c.log.lastIndex) (ht : c.log.termAt i = some c.currentTerm) :
    c.log.termAt j = some c.currentTerm := by
  rw [Log.termAt_tail hi] at ht
  obtain ⟨d, hd, hdt⟩ := Option.map_eq_some_iff.mp ht
  have hlt : j - c.log.snapshotIndex - 1 < c.log.entries.length := by
    unfold Log.lastIndex at hj
    omega
  rw [Log.termAt_tail (by omega), List.getElem?_eq_getElem hlt]
  obtain ⟨hlen, rfl⟩ := List.getElem?_eq_some_iff.mp hd
  have hle : c.currentTerm ≤ c.log.entries[j - c.log.snapshotIndex - 1].term := by
    rw [← hdt]
    rcases Nat.eq_or_lt_of_le hij with rfl | hlt'
    · rfl
    · exact List.pairwise_iff_getElem.mp h.sorted _ _ hlen hlt (by omega)
  exact congrArg some (le_antisymm (h.terms _ (List.getElem_mem hlt)) hle)

theorem Poised.replicas_le (h : c.Poised) (hi : i ∈ c.replicas) : i ≤ c.log.lastIndex := by
  rcases Multiset.mem_cons.mp hi with rfl | hi
  · rfl
  · obtain ⟨p, hp, rfl⟩ := List.mem_map.mp (Multiset.mem_coe.mp hi)
    exact h.matched p hp

/-- **The commit scan is the quorum rule.** -/
theorem commit_scan_is_quorum_rule (h : c.Poised) :
    ∃ M, kthLargest c.replicas c.quorum = some M ∧
      c.maybeAdvanceCommit = { c with
        commitIndex :=
          if c.commitIndex < M ∧ c.log.termAt M = some c.currentTerm then M
          else c.commitIndex } := by
  have hq := h.quorum
  obtain ⟨M, hM⟩ := exists_kthLargest (m := c.replicas) (k := c.quorum) (by omega)
    (by rw [card_replicas]; omega)
  have hlast : M ≤ c.log.lastIndex := h.replicas_le (mem_of_kthLargest hM)
  have hmajority : ∀ {i}, i ≤ c.log.lastIndex → (c.isReplicatedOnMajority i = true ↔ i ≤ M) :=
    fun hi => (replicated_iff hi).trans (le_kthLargest_iff (by omega) hM).symm
  refine ⟨M, hM, ?_⟩
  rcases advanceCommitFrom_spec (c := c) c.log.lastIndex with ⟨heq, hnone⟩ |
    ⟨j, hj, hle, ⟨hterm, hrep⟩, hhighest, heq⟩
  · rw [if_neg fun hM' => hnone M hM'.1 hlast ⟨hM'.2, (hmajority hlast).mpr le_rfl⟩]
    exact heq
  · -- The scan stops at `M` itself: everything from `j` on is of the current term.
    have hjM : j ≤ M := (hmajority hle).mp hrep
    have htermM : c.log.termAt M = some c.currentTerm :=
      h.termAt_later (h.boundary.trans_lt hj) hjM hlast hterm
    have hMj : M ≤ j := by
      by_contra hlt
      exact hhighest M (by omega) hlast ⟨htermM, (hmajority hlast).mpr le_rfl⟩
    obtain rfl := le_antisymm hjM hMj
    rw [if_pos ⟨hj, htermM⟩]
    exact heq

/-- The leader of a cluster of four; two peers hold an entry of its term, the third nothing. -/
def leaderOfFour : ConsensusModule :=
  { ConsensusModule.new 1 [2, 3, 4]
      { currentTerm := 2
        log := { entries := [⟨1, []⟩, ⟨2, []⟩, ⟨2, []⟩], snapshotIndex := 0, snapshotTerm := 0 } }
      {} 0 0 with
    role := .leader
    matchIndex := ((∅ : HashMap NodeId Nat).insert 2 3).insert 3 2 }

theorem leaderOfFour_poised : leaderOfFour.Poised :=
  ⟨by decide, by decide, by decide, by decide, by decide⟩

theorem commit_scan_is_quorum_rule_of_four :
    leaderOfFour.maybeAdvanceCommit.commitIndex = 2 ∧
      ∃ M, kthLargest leaderOfFour.replicas leaderOfFour.quorum = some M ∧
        leaderOfFour.maybeAdvanceCommit = { leaderOfFour with
          commitIndex :=
            if leaderOfFour.commitIndex < M ∧
                leaderOfFour.log.termAt M = some leaderOfFour.currentTerm
            then M else leaderOfFour.commitIndex } :=
  ⟨by decide, commit_scan_is_quorum_rule leaderOfFour_poised⟩

end ConsensusModule

end Murmur.Raft
