/-
  What is there to stay.

  * `Refines.durable`: a command that was handed to any state machine is in the storages of a
    majority, from then on, whoever crashes and restarts.
  * `leader_appends_only`: in one term a leader never overwrites or drops an entry of its own log;
    compaction moves it into a snapshot that stands for it.
-/
import Murmur.Raft.Completeness
import Murmur.Raft.Evidence

namespace Murmur.Protocol

open Murmur.Basis State

variable {N E : Type} {Q : QuorumSystem N} {τ : E → ℕ} {s : State N E}

/-- Whoever acknowledged what was chosen still has it: no later leader was elected without it. -/
theorem Chosen.held (hI : Inv Q τ s) {t k : ℕ} (hc : Chosen Q τ s t k) {v : N}
    (hv : k ≤ s.acked v t) : (s.llog t).take k <+: s.log v := by
  rcases hI.keeps.acked hv with hheld | ⟨t', ht, -, n, hlead, hno⟩
  · exact hheld
  · exact absurd (leader_completeness hI hc hlead ht) hno

/-- A committed list is in the logs of a quorum. -/
theorem Committed.held (hI : Inv Q τ s) {T : ℕ} {m : List E} (h : Committed Q τ s T m)
    (hne : m ≠ []) : Q.IsQuorum {v | m <+: s.log v} := by
  rcases h with hnil | ⟨t, k, -, hc, hm⟩
  · exact absurd hnil hne
  · exact Q.mono (fun v hv => hm.trans (hc.held hI hv)) hc.2

end Murmur.Protocol

namespace Murmur.Raft

open Murmur.Basis Murmur.Protocol ConsensusModule

variable {cfg : ClusterConfig} {s s' : Cluster} {n : NodeId}

/-- `e` is at `i` in what was saved: in the log, or in the prefix the snapshot stands for. -/
def PersistentState.Has (taken : List Taken) (saved : PersistentState) (i : Nat) (e : LogEntry) :
    Prop :=
  saved.log.get i = some e ∨ i ≤ saved.log.snapshotIndex ∧
    ∃ data, saved.snapshot = some data ∧ Covers taken saved.log.snapshotIndex data i e

/-- What was handed to a state machine is in the storages of more than half of the members. -/
theorem Refines.durable {a : Ghost} (hr : Refines cfg True s a) {ap : Applied}
    (hdel : (n, .command ap) ∈ s.delivered) :
    ∃ F : Finset NodeId, F ⊆ cfg.members.toFinset ∧ cfg.members.length < 2 * F.card ∧
      ∀ m ∈ F, (s.core m).storage.Has s.taken ap.index ⟨ap.term, ap.command⟩ := by
  obtain ⟨hpos, T, p, hcommits, hentry⟩ := hr.delivered _ hdel
  have hne : p ≠ [] := List.ne_nil_of_mem (List.mem_of_getElem? hentry)
  obtain ⟨F, hF, hheld, hcard⟩ := hcommits.held hr.safe hne
  refine ⟨F, hF, ?_, fun m hm => ?_⟩
  · rwa [List.toFinset_card_of_nodup cfg.nodup] at hcard
  · have hmem : m ∈ cfg.members := List.mem_toFinset.mp (hF hm)
    have hholds := hr.holds hmem (getElem?_of_pre (hheld m hm) hentry)
    rw [Nat.sub_add_cancel hpos] at hholds
    have hstored : (s.core m).storage = _ := hr.stored m hmem
    rw [hstored]
    exact hholds

/-- **Leaders append only.** A node that leads the same term at two points of a run has at the later
    one every entry it had at the earlier one, in its log or covered by its snapshot. -/
theorem leader_appends_only (h : Cluster.Reachable cfg s) (hrun : Cluster.Leads cfg s s')
    (hn : n ∈ cfg.members) (hl : (s.core n).role = .leader) (hl' : (s'.core n).role = .leader)
    (hterm : (s'.core n).currentTerm = (s.core n).currentTerm) :
    (s.core n).log.lastIndex ≤ (s'.core n).log.lastIndex ∧
      ∀ i e, (s.core n).log.get i = some e → Holds s' n i e := by
  obtain ⟨a, hr⟩ := reachable_refines h
  obtain ⟨a', hlater, hr'⟩ := leads_refines hr hrun
  have hN := hr.nodes n hn
  have hN' := hr'.nodes n hn
  -- Both logs are the log of the term.
  have hpre : a.log n <+: a'.log n := by
    have hsame : a'.term n = a.term n := by
      rw [← hN'.mirrors.term, ← hN.mirrors.term, hterm]
    have hgrow := (hlater.grows hr.safe).llog (a.term n)
    rwa [(hN.leadership hl).log, ← hsame, (hN'.leadership hl').log] at hgrow
  refine ⟨?_, fun i e he => ?_⟩
  · rw [hN.mirrors.log.lastIndex_eq, hN'.mirrors.log.lastIndex_eq]
    exact hpre.length_le
  · obtain ⟨hentry, hpos⟩ := hN.mirrors.log.getElem?_of_get he
    have hholds := hr'.holds hn (getElem?_of_pre hpre hentry)
    rwa [Nat.sub_add_cancel (by omega)] at hholds

set_option maxRecDepth 100000 in
/-- From `uncommitted` to `committed` node 1 keeps its entry. -/
theorem leader_appends_only_committed :
    (uncommitted.core 1).log.get 1 = some ⟨1, [7]⟩ ∧ Holds committed 1 1 ⟨1, [7]⟩ :=
  have hreach : Cluster.Reachable trio uncommitted :=
    ⟨uncommittedRun, Option.eq_some_of_isSome uncommittedRun_isSome⟩
  have hget : (uncommitted.core 1).log.get 1 = some ⟨1, [7]⟩ := by decide
  ⟨hget, (leader_appends_only hreach (Reaches.single uncommitted_step) (n := 1) (by decide)
    (by decide) (by decide) (by decide)).2 1 _ hget⟩

end Murmur.Raft
