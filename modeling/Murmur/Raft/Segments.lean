/-
  What a leader sends is a true segment of its log, for any peer and at any time.

  * `Tabled`: a leader has an entry for every peer in both of its tables. Every operation keeps it,
    whatever its arguments.
  * `append_is_segment`: the bounds of `next_index`, what an AppendEntries then says about the
    leader's log, and how far a follower that accepts it can commit.
-/
import Murmur.Raft.Safety
import Murmur.Raft.Standing
import Murmur.Raft.Steps

namespace Murmur.Raft

open Murmur.Basis Murmur.Protocol ConsensusModule

variable {cfg : ClusterConfig} {s : Cluster} {n p : NodeId} {c c' : ConsensusModule}

/-! ## The leader's tables are complete -/

/-- A leader has a next and a match index for each of its peers. -/
def Tabled (v : Standing) : Prop :=
  v.role = .leader → ∀ p ∈ v.peers, (v.nextIndex.lookup p).isSome ∧ (v.matchIndex.lookup p).isSome

theorem isSome_insert {m : HashMap NodeId Nat} {v : Nat} {q : NodeId}
    (h : (m.lookup p).isSome = true) : ((m.insert q v).lookup p).isSome = true := by
  by_cases hpq : p = q
  · subst hpq
    simp
  · rwa [Finmap.lookup_insert_of_ne _ hpq]

theorem isSome_foldl_insert {peers : List NodeId} {v : Nat} {m : HashMap NodeId Nat}
    (h : p ∈ peers ∨ (m.lookup p).isSome = true) :
    ((peers.foldl (fun m p => m.insert p v) m).lookup p).isSome = true := by
  induction peers generalizing m with
  | nil => simpa using h
  | cons q qs ih =>
      refine ih ?_
      rcases h with h | h
      · rcases List.mem_cons.mp h with rfl | h
        · exact .inr (by simp)
        · exact .inl h
      · exact .inr (isSome_insert h)

theorem lead_tabled (c : ConsensusModule) (term : Nat) : Tabled (Standing.lead c term) := by
  intro _ p hp
  exact ⟨isSome_foldl_insert (.inl hp), isSome_foldl_insert (.inl hp)⟩

theorem recordMatch_tabled (h : Tabled c.standing) (peer : NodeId) (upTo : Nat) :
    Tabled (c.recordMatch peer upTo).standing := by
  intro hl p hp
  obtain ⟨hnext, hmatch⟩ := h hl p hp
  exact ⟨isSome_insert hnext, isSome_insert hmatch⟩

theorem Shift.tabled {o : Op} {v : Standing} (hs : Shift c o v) (h : Tabled c.standing) :
    Tabled v := by
  cases hs with
  | keep => exact h
  | outdated => exact nofun
  | stepDown => exact nofun
  | yieldAppend => exact nofun
  | yieldInstall => exact nofun
  | probe => exact h
  | preVote => exact h
  | campaign => exact nofun
  | acclaim => exact lead_tabled c _
  | win => exact lead_tabled c _
  | matchAppend peer reply upTo => exact recordMatch_tabled h peer upTo
  | matchInstall peer reply upTo => exact recordMatch_tabled h peer upTo
  | backtrack peer reply upTo next =>
      intro hl p hp
      exact (h hl p hp).imp_left isSome_insert

theorem reachable_tabled (h : Cluster.Reachable cfg s) (n : NodeId) : Tabled (s.core n).standing :=
  Cluster.core_invariant (P := fun _ c => Tabled c.standing) (fun _ _ _ _ _ => nofun)
    (fun _ _ _ _ hc hrun => (Op.shift hrun).tabled hc) h n

/-! ## Segments -/

theorem handleAppendEntries_success {args : AppendEntriesArgs} {now : Instant} {draw : Nat}
    (h : (c.handleAppendEntries args now draw).2.success = true) :
    ¬ args.term < c.currentTerm ∧ c.consistent args = true := by
  have hlog : ¬ args.term < c.currentTerm →
      (c.yieldTo args.term args.leaderId now draw).consistent args = c.consistent args := by
    intro hterm
    unfold consistent
    rw [(yieldTo_keeps hterm args.leaderId now draw).1]
  unfold handleAppendEntries at h
  split at h
  · simp [AppendEntriesReply.rejected] at h
  · next hterm =>
      refine ⟨hterm, ?_⟩
      dsimp only at h
      split at h
      · rw [appendConflict_success] at h
        cases h
      · next hcons =>
          rw [← hlog hterm]
          simpa using hcons

/-- A follower that accepts a message does not commit past `k` if the leader's commit index is
    not. -/
theorem accepted_commit_le {args : AppendEntriesArgs} {now : Instant} {draw : Nat}
    (hcommit : args.leaderCommit ≤ args.prevLogIndex + args.entries.length)
    (h : (c.handleAppendEntries args now draw).2.success = true) :
    (c.handleAppendEntries args now draw).1.commitIndex = c.commitIndex ∨
      (c.handleAppendEntries args now draw).1.commitIndex ≤
        args.prevLogIndex + args.entries.length := by
  obtain ⟨hterm, hcons⟩ := handleAppendEntries_success h
  rw [(handleAppendEntries_accepted hterm hcons now draw).2.2.2]
  split
  · exact .inr ((Nat.min_le_left _ _).trans hcommit)
  · exact .inl rfl

/-- **A leader's messages.** The next index of each peer is within the log or one past it; a message
    that is sent without need of a snapshot starts within the leader's log, names its term there,
    carries everything behind it, and has a commit index within what it covers. So no follower that
    accepts it, in whatever state and however late, moves its commit index past what it covers. -/
theorem append_is_segment (h : Cluster.Reachable cfg s) (hn : n ∈ cfg.members)
    (hl : (s.core n).role = .leader) (hp : p ∈ cfg.peers n) :
    let c := s.core n
    let args := c.appendArgsFor p
    (∃ i, c.nextIndex.lookup p = some i ∧ 1 ≤ i ∧ i ≤ c.log.lastIndex + 1) ∧
    (¬ c.needsSnapshot p = true →
      (c.log.snapshotIndex ≤ args.prevLogIndex ∧ args.prevLogIndex ≤ c.log.lastIndex) ∧
      c.log.termAt args.prevLogIndex = some args.prevLogTerm ∧
      (args.prevLogIndex + args.entries.length = c.log.lastIndex ∧
        ∀ i, args.entries[i]? = c.log.get (args.prevLogIndex + 1 + i)) ∧
      args.leaderCommit ≤ args.prevLogIndex + args.entries.length ∧
      ∀ (f : ConsensusModule) (now : Instant) (draw : Nat),
        (f.handleAppendEntries args now draw).2.success = true →
          (f.handleAppendEntries args now draw).1.commitIndex = f.commitIndex ∨
          (f.handleAppendEntries args now draw).1.commitIndex ≤
            args.prevLogIndex + args.entries.length) := by
  intro c args
  obtain ⟨a, hr⟩ := reachable_refines h
  have hnode := hr.nodes n hn
  have hlast : c.log.lastIndex = (a.log n).length := hnode.mirrors.log.lastIndex_eq
  constructor
  · have hpeer : p ∈ c.peers := by rwa [hnode.identity.peers]
    obtain ⟨i, hi⟩ := Option.isSome_iff_exists.mp (reachable_tabled h n hl p hpeer).1
    have hbounds := (hnode.leadership hl).next hi
    exact ⟨i, hi, hbounds.1, by rw [hlast]; exact hbounds.2⟩
  · intro hneed
    obtain ⟨hlo, hhi⟩ : c.log.snapshotIndex ≤ args.prevLogIndex ∧
        args.prevLogIndex ≤ (a.log n).length := prev_bounds hnode hl hneed
    have hseg := appendArgsFor_segment hnode hl hneed
    obtain ⟨hentries, hsum⟩ : args.entries = (a.log n).drop args.prevLogIndex ∧
        args.prevLogIndex + args.entries.length = (a.log n).length :=
      appendArgsFor_covers hnode hl hneed
    refine ⟨⟨hlo, by rwa [hlast]⟩, ?_, ⟨?_, fun i => ?_⟩, hseg.commit_le, fun f now draw hok =>
      accepted_commit_le hseg.commit_le hok⟩
    · obtain ⟨t, ht⟩ := plainTerm_isSome (a.log n) hhi
      have htermAt : c.log.termAt args.prevLogIndex = some t := by
        rw [hnode.mirrors.log.termAt_eq hlo, ht]
      have hprev : args.prevLogTerm = t := by
        show (c.log.termAt args.prevLogIndex).getD 0 = t
        rw [htermAt]
        rfl
      rw [htermAt, hprev]
    · rw [hlast, hsum]
    · have hidx : c.log.snapshotIndex < args.prevLogIndex + 1 + i := by omega
      rw [hentries, List.getElem?_drop, hnode.mirrors.log.get_eq hidx]
      congr 1
      omega

set_option maxRecDepth 100000 in
theorem append_is_segment_committed :
    ∃ i, (committed.core 1).nextIndex.lookup 2 = some i ∧ 1 ≤ i ∧
      i ≤ (committed.core 1).log.lastIndex + 1 :=
  (append_is_segment committed_reachable (by decide) (by decide) (by decide)).1

end Murmur.Raft
