/-
  The leader's view of its peers: what `match_index` says about a peer in the leader's term.

  `handle_install_snapshot_reply` compares the reply's term with the leader's current term, but
  not with the term of the request it answers. A peer that refuses an InstallSnapshot as stale
  answers with its own, newer term; if the process that sent it has meanwhile been elected in that
  very term, the refusal passes as an acknowledgement (`refusal_raises_match_index`).

  * `peer_view_sound`: in runs in which no such reply is folded in, the view is sound, and a
    refused message never changes it.
  * The commit rule does not suffer: the index of a refused snapshot is one the leader itself had
    committed, and `maybeAdvanceCommit` looks only above that (`replicated_quorum`).
-/
import Murmur.Raft.Completeness

namespace Murmur.Raft

open Murmur.Basis Murmur.Protocol ConsensusModule

variable {cfg : ClusterConfig} {s s' : Cluster} {a : Ghost} {c : ConsensusModule}

/-! ## Sound views -/

/-- What `match_index[p] = m` on the leader `n` is worth while `p` is in the leader's term: `p`
    reaches `m`, and each index up to there is covered by its snapshot or held with the
    entry the leader has or had there. -/
def SoundView (s : Cluster) (n p : NodeId) : Prop :=
  (s.core n).role = .leader → (s.core p).currentTerm = (s.core n).currentTerm →
    ∀ m, (s.core n).matchIndex.lookup p = some m → m ≤ (s.core p).log.lastIndex ∧
      ∀ i, 0 < i → i ≤ m → i ≤ (s.core p).log.snapshotIndex ∨
        ∃ e, (s.core p).log.get i = some e ∧ Holds s n i e

/-- The peer refused the message as of an old term: its answer is of another one. -/
def refused (rpc : Rpc) : Reply → Bool
  | .append reply =>
    match rpc.request with
    | .append args => reply.term ≠ args.term
    | _ => false
  | .install reply =>
    match rpc.request with
    | .install args => reply.term ≠ args.term
    | _ => false
  | .vote _ => false

/-- A step that does not take the refusal of a snapshot for an acknowledgement. -/
def heedfulStep (cfg : ClusterConfig) (s : Cluster) (act : Action) : Option Cluster :=
  if misreads s act then none else Cluster.step cfg s act

theorem heedfulStep_eq {act : Action} (h : heedfulStep cfg s act = some s') :
    misreads s act = false ∧ Cluster.step cfg s act = some s' := by
  unfold heedfulStep at h
  split at h
  · cases h
  · next hno => exact ⟨by simpa using hno, h⟩

theorem heedful_refines (h : Reaches (heedfulStep cfg) (Cluster.init cfg) s) :
    ∃ a, Refines cfg False s a := by
  have hsim : ∀ s act s' a, Refines cfg False s a → heedfulStep cfg s act = some s' →
      ∃ a', Later cfg.quorums LogEntry.term a a' ∧ Refines cfg False s' a' := by
    intro s act s' a hr hstep
    obtain ⟨a', hans⟩ :=
      step_refines hr (fun _ => (heedfulStep_eq hstep).1) (heedfulStep_eq hstep).2
    exact ⟨a', hans.later, hans.refines⟩
  obtain ⟨a, -, hr⟩ := Reaches.simulate (fun _ => Relation.ReflTransGen.refl)
    (fun _ _ _ => Relation.ReflTransGen.trans) hsim h (init_refines cfg False)
  exact ⟨a, hr⟩

theorem Refines.soundView (hr : Refines cfg False s a) {n p : NodeId} (hn : n ∈ cfg.members)
    (hp : p ∈ cfg.members) : SoundView s n p := by
  intro hl ht m hm
  have hN := hr.nodes n hn
  have hP := hr.nodes p hp
  have hL := hN.leadership hl
  have hterm : a.term p = a.term n := by rw [← hN.mirrors.term, ← hP.mirrors.term, ht]
  have hack : m ≤ a.acked p (a.term p) := by
    rw [hterm]
    exact (hL.matched hm).resolve_right fun hno => hno.1
  -- In the term it acknowledged, the peer holds what it acknowledged.
  have hheld := hr.safe.acked_held hack
  have hlen := hack.trans (hr.safe.logs.acked_le p (a.term p))
  rw [hterm, hL.log] at hheld hlen
  have hreach : m ≤ (a.log p).length := by
    have := hheld.length_le
    rw [List.length_take] at this
    omega
  refine ⟨by rw [hP.mirrors.log.lastIndex_eq]; exact hreach, fun i hpos hi => ?_⟩
  rcases Nat.lt_or_ge (s.core p).log.snapshotIndex i with hlt | hge
  · right
    obtain ⟨k, rfl⟩ : ∃ k, i = k + 1 := ⟨i - 1, by omega⟩
    obtain ⟨e, he⟩ : ∃ e, (a.log n)[k]? = some e := ⟨_, List.getElem?_eq_getElem (by omega)⟩
    refine ⟨e, ?_, hr.holds hn he⟩
    rw [hP.mirrors.log.get_eq hlt]
    refine getElem?_of_pre hheld ?_
    show ((a.log n).take m)[k]? = some e
    rw [List.getElem?_take_of_lt hi, he]
  · exact Or.inl hge

theorem stepDown_matchIndex (term : Nat) : (c.stepDown term).matchIndex = c.matchIndex := by
  unfold stepDown
  by_cases hnew : term > c.currentTerm <;> simp only [hnew, if_true, if_false] <;> rfl

/-- A refusal that is not misread leaves the table alone. -/
theorem fold_refused {rpc : Rpc} {reply : Reply} {sender peer : NodeId}
    (hok : ReplyOk a sender peer rpc.request reply) (href : refused rpc reply = true)
    (hread : misread c rpc reply = false) : (fold c rpc reply).matchIndex = c.matchIndex := by
  obtain ⟨source, epoch, target, request⟩ := rpc
  cases reply with
  | vote reply => cases href
  | append reply =>
      cases request with
      | append args =>
          have hne : reply.term ≠ args.term := by simpa [refused] using href
          have hfail : ¬ reply.success = true := fun hs => hne (hok.1 hs).1
          show (c.handleAppendReply target _ _).matchIndex = c.matchIndex
          rw [appendReply_over_wire]
          unfold handleAppendReply
          split
          · exact stepDown_matchIndex _
          · split
            · rfl
            · rfl
      | vote | install => cases href
  | install reply =>
      cases request with
      | install args =>
          have hne : reply.term ≠ args.term := by simpa [refused] using href
          show (c.handleInstallSnapshotReply target reply _).matchIndex = c.matchIndex
          unfold handleInstallSnapshotReply
          split
          · exact stepDown_matchIndex _
          · split
            · rfl
            · next hlive =>
              push Not at hlive
              have : misread c ⟨source, epoch, target, .install args⟩ (.install reply) = true := by
                simp only [misread, decide_eq_true_eq]
                exact ⟨hlive.1, hlive.2, hne⟩
              rw [this] at hread
              cases hread
      | vote | append => cases href

/-- **The leader's view of its peers is sound** in every state of every run that folds in no
    misread reply; and there a refused message never raises `match_index`. -/
theorem peer_view_sound (h : Reaches (heedfulStep cfg) (Cluster.init cfg) s) :
    (∀ n ∈ cfg.members, ∀ p ∈ cfg.members, SoundView s n p) ∧
    ∀ k rpc reply s', s.replies[k]? = some (rpc, reply) → refused rpc reply = true →
      heedfulStep cfg s (.fold k) = some s' →
      (s'.core rpc.sender).matchIndex = (s.core rpc.sender).matchIndex := by
  obtain ⟨a, hr⟩ := heedful_refines h
  refine ⟨fun n hn p hp => hr.soundView hn hp, fun k rpc reply s' hk href hstep => ?_⟩
  obtain ⟨hread, hstep⟩ := heedfulStep_eq hstep
  unfold misreads at hread
  dsimp only at hread
  rw [hk] at hread
  obtain ⟨rpc', reply', hk', -, rfl⟩ := Cluster.step_fold hstep
  rw [hk] at hk'
  cases hk'
  rw [Cluster.core_setCore_self]
  exact fold_refused (hr.replies _ (List.mem_of_getElem? hk)).2 href hread

set_option maxRecDepth 100000 in
theorem heedful_committedRun_isSome :
    (run (heedfulStep trio) (Cluster.init trio) committedRun).isSome = true := by decide

/-- The state after `committedRun`, none of whose replies is misread. -/
def matched : Cluster :=
  (run (heedfulStep trio) (Cluster.init trio) committedRun).get heedful_committedRun_isSome

set_option maxRecDepth 100000 in
theorem peer_view_sound_matched :
    (matched.core 1).role = .leader ∧ (matched.core 1).matchIndex.lookup 2 = some 1 ∧
      1 ≤ (matched.core 2).log.lastIndex :=
  have hl : (matched.core 1).role = .leader := by decide
  have hm : (matched.core 1).matchIndex.lookup 2 = some 1 := by decide
  ⟨hl, hm, ((peer_view_sound ⟨committedRun, Option.eq_some_of_isSome
    heedful_committedRun_isSome⟩).1 1 (by decide) 2 (by decide) hl (by decide) 1 hm).1⟩

/-! ## A view that is not sound -/

/-- Node 1 leads term 1, compacts its first entry and offers the snapshot to node 3. Before that
    arrives, node 2 campaigns in term 2 and node 1 is elected again in term 3, with node 3
    having moved to term 3. Node 3 refuses the old offer with term 3. -/
def refusalRun : List Action :=
  committedRun ++ [.drain 1, .snapshot 1 1 [42], .tick 1 1200 0, .tick 2 2000 0, .serve 9 2000 0,
    .fold 3, .tick 2 2000 0, .serve 10 2000 0, .tick 1 3000 0, .serve 12 3000 0, .fold 5,
    .tick 1 3000 0, .serve 14 3000 0, .fold 6, .serve 15 3000 0, .serve 7 3000 0]

set_option maxRecDepth 100000 in
theorem refusalRun_isSome :
    (run (Cluster.step trio) (Cluster.init trio) refusalRun).isSome = true := by decide

/-- The state in which the refusal is on its way to node 1. -/
def refusal : Cluster :=
  (run (Cluster.step trio) (Cluster.init trio) refusalRun).get refusalRun_isSome

set_option maxRecDepth 100000 in
theorem misled_isSome : (Cluster.step trio refusal (.fold 8)).isSome = true := by decide

/-- The state after node 1 has folded the refusal in. -/
def misled : Cluster := (Cluster.step trio refusal (.fold 8)).get misled_isSome

set_option maxRecDepth 100000 in
/-- Folding the refusal in, node 1 believes that node 3 holds index 1. Node 3 is in the same term
    and holds nothing. -/
theorem refusal_raises_match_index :
    Cluster.Reachable trio refusal ∧ Cluster.step trio refusal (.fold 8) = some misled ∧
    (refusal.replies[8]?).map (fun x => (x.1.sender, x.1.peer, refused x.1 x.2)) =
      some (1, 3, true) ∧
    (refusal.core 1).matchIndex.lookup 3 = some 0 ∧
    (misled.core 1).matchIndex.lookup 3 = some 1 ∧ (misled.core 1).role = .leader ∧
    (misled.core 3).currentTerm = (misled.core 1).currentTerm ∧
    (misled.core 3).log.lastIndex = 0 ∧ ¬ SoundView misled 1 3 := by
  have hl : (misled.core 1).role = .leader := by decide
  have hm : (misled.core 1).matchIndex.lookup 3 = some 1 := by decide
  have ht : (misled.core 3).currentTerm = (misled.core 1).currentTerm := by decide
  have hlast : (misled.core 3).log.lastIndex = 0 := by decide
  refine ⟨⟨refusalRun, Option.eq_some_of_isSome refusalRun_isSome⟩,
    Option.eq_some_of_isSome misled_isSome, by decide, by decide, hm, hl, ht, hlast,
    fun hsound => ?_⟩
  have := (hsound hl ht 1 hm).1
  omega

end Murmur.Raft
