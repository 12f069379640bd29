/-
  A command is committed within a tick and a round trip.

  The driver sends a peer what it is missing at the next tick, "instead of waiting for the heartbeat
  clock". Setting: that of `Murmur.Raft.Heartbeat`, a leader `L` of term `T` with a majority `Q` in
  time. In addition (`Prompt`) the answers of `Q` are back within a `delay` as well, no message
  arrives twice, and `L` takes no snapshot.

  * `InStep`: what the leader's tables say of a member is what it has acknowledged, and nothing is
    on its way that it would refuse. Every event keeps that.
  * `Progress`: an entry on its way to a member. It waits for the next tick, has been sent, has been
    acknowledged, or has been counted; each stage has its last instant.
  * `committed_in_time`: after a tick and two delays it is committed.
-/
import Murmur.Raft.CommitCurrent
import Murmur.Raft.Heartbeat
import Murmur.Raft.Shelf

namespace Murmur.Raft

open Murmur.Basis Murmur.Protocol ConsensusModule

variable {cfg : ClusterConfig} {s s' : Cluster} {a : Ghost} {Q : Finset NodeId} {L n v : NodeId}
  {T : Nat} {act : Action} {c c' : ConsensusModule}

/-! ## The boundary of a leader's log -/

theorem handleInstallSnapshot_role {args : InstallSnapshotArgs}
    (hterm : ¬ args.term < c.currentTerm)
    (now : Instant) (draw : Nat) : (c.handleInstallSnapshot args now draw).1.role = .follower := by
  unfold handleInstallSnapshot
  rw [if_neg hterm]
  have hyield := yieldTo_role (c := c) args.term args.leaderId now draw
  dsimp only
  split
  · exact hyield
  · exact hyield

/-- Only a snapshot of its own moves the boundary of a node that leads on. -/
theorem Op.leader_boundary {o : Op} (h : o.run c = some c') (hrole : c'.role = .leader)
    (hown : ∀ index data, o ≠ .snapshot index data) :
    c'.log.snapshotIndex = c.log.snapshotIndex := by
  have hshelf := Op.shelves h
  show c'.shelf.index = c.log.snapshotIndex
  generalize c'.shelf = shelf at hshelf
  cases hshelf with
  | keep => rfl
  | @compact index data => exact absurd rfl (hown index data)
  | accept hterm =>
      -- Who accepts a leader's snapshot follows it.
      cases h
      rw [handleInstallSnapshot_role hterm] at hrole
      cases hrole
  | hand => rfl

def Action.snapshots (n : NodeId) : Action → Bool
  | .snapshot m _ _ => m = n
  | _ => false

theorem step_leader_boundary (h : Cluster.step cfg s act = some s')
    (hrole : (s'.core n).role = .leader) (hown : act.snapshots n = false) :
    (s'.core n).log.snapshotIndex = (s.core n).log.snapshotIndex := by
  have hmoved := Cluster.step_core h n
  generalize s'.core n = c at hmoved hrole ⊢
  cases hmoved with
  | same => rfl
  | op o hcall hrun =>
      refine Op.leader_boundary hrun hrole ?_
      rintro index data rfl
      cases hcall
      simp [Action.snapshots] at hown
  | start => cases hrole

/-! ## The setting -/

/-- What the leader and the majority can count on: answers take at most a delay too, and no message
    arrives twice. The first `q` requests and the first `r` replies are from before. -/
structure Prompt (Q : Finset NodeId) (L : NodeId) (offset : NodeId → Instant) (pace : Pace)
    (q r : Nat) (x : Timed) (event : Instant × Action) : Prop extends
    Punctual Q L offset pace q x event where
  returns : ∀ k < x.cluster.replies.length, r ≤ k → ∀ m ∈ x.returning k, m.1.1.sender = L →
    m.1.1.peer ∈ Q → event.1 ≤ m.2 + pace.delay
  servesOnce : ∀ k < x.cluster.requests.length, event.2.serves k = true → x.served k = false
  foldsOnce : ∀ k < x.cluster.replies.length, event.2.folds k = true → x.folded k = false
  whole : event.2.snapshots L = false

instance (Q : Finset NodeId) (L : NodeId) (offset : NodeId → Instant) (pace : Pace) (q r : Nat)
    (x : Timed) (event : Instant × Action) : Decidable (Prompt Q L offset pace q r x event) :=
  decidable_of_iff
    (Punctual Q L offset pace q x event ∧
      (∀ k < x.cluster.replies.length, r ≤ k → ∀ m ∈ x.returning k, m.1.1.sender = L →
        m.1.1.peer ∈ Q → event.1 ≤ m.2 + pace.delay) ∧
      (∀ k < x.cluster.requests.length, event.2.serves k = true → x.served k = false) ∧
      (∀ k < x.cluster.replies.length, event.2.folds k = true → x.folded k = false) ∧
      event.2.snapshots L = false)
    ⟨fun ⟨hpunctual, hreturns, hserves, hfolds, hwhole⟩ =>
        ⟨hpunctual, hreturns, hserves, hfolds, hwhole⟩,
      fun h => ⟨h.toPunctual, h.returns, h.servesOnce, h.foldsOnce, h.whole⟩⟩

/-- Member `v` is matched up to `m`, and is sent what comes next. -/
def Tallied (c : ConsensusModule) (v : NodeId) (m : Nat) : Prop :=
  c.matchIndex.lookup v = some m ∧ c.nextIndex.lookup v = some (m + 1)

/-- Member `v` has acknowledged the leader's log up to `m`, which is what the leader's tables say,
    and is past the leader's snapshot there. What is on its way to `v` begins no later, and no
    refusal is on its way back. -/
structure InStep (L : NodeId) (T : Nat) (x : Timed) (v : NodeId) (m : Nat) : Prop where
  tallied : Tallied (x.cluster.core L) v m
  acked : Acknowledged x.cluster L v T m
  boundary : (x.cluster.core L).log.snapshotIndex ≤ m
  requests : ∀ {k rpc t args}, x.underway k = some (rpc, t) → rpc.sender = L → rpc.peer = v →
    rpc.request = .append args → args.term = T ∧ args.prevLogIndex ≤ m
  replies : ∀ {k rpc reply t}, x.returning k = some ((rpc, .append reply), t) → rpc.sender = L →
    rpc.peer = v → reply.term = T → reply.success = true

/-! ## Messages -/

/-- A follower accepts what begins within what it has acknowledged in the term. -/
theorem consistent_of_acked (hr : Refines cfg True s a) (hv : v ∈ cfg.members)
    {args : AppendEntriesArgs} {sender : NodeId} (hseg : Segment cfg a sender args)
    (hterm : (s.core v).currentTerm = args.term) (hack : args.prevLogIndex ≤ a.acked v args.term) :
    (s.core v).consistent args = true := by
  have hV := hr.nodes v hv
  have hcur : a.term v = args.term := by rw [← hV.mirrors.term, hterm]
  rw [← hcur] at hack
  have hheld := hr.safe.acked_held hack
  rw [hcur] at hheld
  have hprev : plainTerm (a.log v) args.prevLogIndex = some args.prevLogTerm := by
    refine plainTerm_grow hheld ?_
    rw [plainTerm_take _ le_rfl]
    exact hseg.term
  unfold consistent
  rw [decide_eq_true_iff]
  rcases Nat.lt_or_ge args.prevLogIndex (s.core v).log.snapshotIndex with hlt | hge
  · exact .inl hlt.le
  · exact .inr (by rw [hV.mirrors.log.termAt_eq hge, hprev])

theorem Acknowledged.acked {m : Nat} (h : Acknowledged s L v T m) (hr : Refines cfg True s a) :
    m ≤ a.acked v T := by
  obtain ⟨rpc, args, reply, hmem, -, rfl, hreq, hok, hterm, rfl⟩ := h
  have hrep := (hr.replies _ hmem).2
  rw [hreq] at hrep
  obtain ⟨hsame, hack⟩ := hrep.1 hok
  rwa [← hterm, hsame]

theorem Acknowledged.term {m : Nat} (h : Acknowledged s L v T m) (hreach : Cluster.Reachable cfg s)
    (hle : (s.core v).currentTerm ≤ T) : (s.core v).currentTerm = T := by
  obtain ⟨rpc, args, reply, hmem, -, rfl, -, -, hterm, -⟩ := h
  have hge := reply_term_le hreach hmem
  exact Nat.le_antisymm hle (hterm ▸ hge)

/-- A member accepts what is on its way to it. -/
theorem InStep.accepts {x : Timed} {m k : Nat} {rpc : Rpc} {t : Instant} {args : AppendEntriesArgs}
    (h : InStep L T x v m) (hreach : Cluster.Reachable cfg x.cluster) (hv : v ∈ cfg.members)
    (hle : (x.cluster.core v).currentTerm ≤ T) (hk : x.underway k = some (rpc, t))
    (hsender : rpc.sender = L) (hpeer : rpc.peer = v) (hreq : rpc.request = .append args)
    (now : Instant) (draw : Nat) :
    ((x.cluster.core v).handleAppendEntries args now draw).2.success = true ∧
      ((x.cluster.core v).handleAppendEntries args now draw).2.term = T := by
  obtain ⟨a, hr⟩ := reachable_refines hreach
  obtain ⟨rfl, hprev⟩ := h.requests hk hsender hpeer hreq
  have hmem := List.mem_of_getElem? (unread_eq_some.mp hk).2.1
  have hseg := (hr.requests rpc hmem).request
  rw [hreq] at hseg
  have hterm := h.acked.term hreach hle
  have hcons := consistent_of_acked hr hv hseg hterm (hprev.trans (h.acked.acked hr))
  have hcur : ¬ args.term < (x.cluster.core v).currentTerm := by rw [hterm]; exact lt_irrefl _
  exact ⟨(handleAppendEntries_accepted hcur hcons now draw).1,
    (handleAppendEntries_term hcur now draw).1⟩

/-! ## The leader's tables -/

theorem recordMatch_tallied {m : Nat} (h : Tallied c v m) (peer : NodeId) (upTo : Nat) :
    Tallied (c.recordMatch peer upTo) v (if v = peer then max m upTo else m) := by
  unfold Tallied recordMatch
  dsimp only
  by_cases hv : v = peer
  · subst hv
    rw [if_pos rfl, Finmap.lookup_insert, Finmap.lookup_insert, h.1]
    exact ⟨rfl, rfl⟩
  · rw [if_neg hv, Finmap.lookup_insert_of_ne _ hv, Finmap.lookup_insert_of_ne _ hv]
    exact h

/-- As long as no append of `v` is folded in, the leader's tables say of `v` what they said. -/
theorem step_tallied {m : Nat} (hreach : Cluster.Reachable cfg s)
    (hstep : Cluster.step cfg s act = some s') (hrole : (s.core L).role = .leader)
    (hrole' : (s'.core L).role = .leader) (h : Tallied (s.core L) v m)
    (hboundary : (s.core L).log.snapshotIndex ≤ m)
    (hother : ∀ k rpc reply, act = .fold k → s.replies[k]? = some (rpc, .append reply) →
      rpc.sender = L → rpc.peer ≠ v) : Tallied (s'.core L) v m := by
  have hmoved := Cluster.step_core hstep L
  generalize s'.core L = c at hmoved hrole' ⊢
  cases hmoved with
  | same => exact h
  | start => cases hrole'
  | op o hcall hrun =>
      have hattested := (matchInv hreach).attested hcall
      have hshift := Op.shift hrun
      have hrole' : c.standing.role = .leader := hrole'
      show c.standing.matchIndex.lookup v = some m ∧ c.standing.nextIndex.lookup v = some (m + 1)
      generalize c.standing = w at hshift hrole' ⊢
      cases hshift with
      | keep | preVote | probe => exact h
      | outdated | stepDown | yieldAppend | yieldInstall | campaign => cases hrole'
      | acclaim =>
          cases hcall with
          | campaign hno => exact absurd hrole hno
      | win _ _ hcand => rw [hrole] at hcand; cases hcand
      | matchAppend peer reply upTo =>
          have hne : v ≠ peer := by
            cases hcall with
            | appended hk => exact (hother _ _ _ rfl hk rfl).symm
          have htallied := recordMatch_tallied h peer upTo
          rw [if_neg hne] at htallied
          exact htallied
      | backtrack peer reply upTo next =>
          have hne : v ≠ peer := by
            cases hcall with
            | appended hk => exact (hother _ _ _ rfl hk rfl).symm
          exact ⟨h.1, (Finmap.lookup_insert_of_ne _ hne).trans h.2⟩
      | matchInstall peer reply upTo =>
          -- What an InstallSnapshot covers is matched already.
          have hle : upTo ≤ m := le_trans hattested hboundary
          have htallied := recordMatch_tallied h peer upTo
          rw [max_eq_left hle, ite_self] at htallied
          exact htallied

/-- A success that is folded in is counted. -/
theorem fold_tallied {m k : Nat} {rpc : Rpc} {args : AppendEntriesArgs} {reply : AppendEntriesReply}
    (hstep : Cluster.step cfg s (.fold k) = some s') (hrole : (s.core L).role = .leader)
    (h : Tallied (s.core L) v m) (hk : s.replies[k]? = some (rpc, .append reply))
    (hsender : rpc.sender = L) (hpeer : rpc.peer = v) (hreq : rpc.request = .append args)
    (hok : reply.success = true) (hterm : reply.term = (s.core L).currentTerm) :
    Tallied (s'.core L) v (max m (args.prevLogIndex + args.entries.length)) := by
  obtain ⟨rpc', reply', hk', -, rfl⟩ := Cluster.step_fold hstep
  cases hk'.symm.trans hk
  subst hsender hpeer
  rw [Cluster.core_setCore_self]
  have hfold : fold (s.core rpc.sender) rpc (.append reply) =
      (s.core rpc.sender).handleAppendReply rpc.peer (appendReplyFromPb (appendReplyToPb reply))
        (args.prevLogIndex + args.entries.length) := by
    unfold fold
    rw [hreq]
  rw [hfold, handleAppendReply_accepted hrole (by rw [appendReply_over_wire]; exact hterm)
    (by rw [appendReply_over_wire]; exact hok)]
  have hstanding := maybeAdvanceCommit_standing (c := (s.core rpc.sender).recordMatch rpc.peer
    (args.prevLogIndex + args.entries.length))
  have htallied := recordMatch_tallied h rpc.peer (args.prevLogIndex + args.entries.length)
  rw [if_pos rfl] at htallied
  exact ⟨(congrArg (fun w => w.matchIndex.lookup rpc.peer) hstanding).trans htallied.1,
    (congrArg (fun w => w.nextIndex.lookup rpc.peer) hstanding).trans htallied.2⟩

/-- An answer of another term, or to another question, is not. -/
theorem fold_ignored {k : Nat} {rpc : Rpc} {reply : AppendEntriesReply}
    (hstep : Cluster.step cfg s (.fold k) = some s')
    (hk : s.replies[k]? = some (rpc, .append reply)) (hsender : rpc.sender = L)
    (hle : reply.term ≤ (s.core L).currentTerm)
    (hno : reply.term = (s.core L).currentTerm → ∀ args, rpc.request ≠ .append args) :
    s'.core L = s.core L := by
  obtain ⟨rpc', reply', hk', -, rfl⟩ := Cluster.step_fold hstep
  cases hk'.symm.trans hk
  subst hsender
  rw [Cluster.core_setCore_self]
  unfold fold
  cases hreq : rpc.request with
  | vote | install => rfl
  | append args =>
      have hterm : reply.term ≠ (s.core rpc.sender).currentTerm := fun heq => hno heq args hreq
      have hlt : ¬ reply.term > (s.core rpc.sender).currentTerm := Nat.not_lt.mpr hle
      simp [handleAppendReply, appendReply_over_wire, hlt, hterm]

/-- A leader's tick sends a peer the entries it lacks, heartbeat or not. -/
theorem tick_catches_up {w : Process} (hrole : w.core.role = .leader) (reading : Instant)
    (draw : Nat) (hpeer : v ∈ w.core.peers) (hneed : ¬ w.core.needsSnapshot v = true)
    (hsome : (w.core.appendArgsFor v).entries ≠ []) :
    (v, .append (w.core.appendArgsFor v)) ∈ (tick w reading draw).2 := by
  have hlead : w.core.isLeader = true := decide_eq_true hrole
  have hmem : ∀ due, (v, .append (w.core.appendArgsFor v)) ∈ replicate w.core due := by
    intro due
    refine List.mem_filterMap.mpr ⟨v, hpeer, ?_⟩
    unfold outgoing
    rw [if_neg hneed]
    simp [hsome]
  unfold tick
  rw [if_pos hlead]
  dsimp only
  split
  · next hempty =>
      have hnone := hmem (decide (reading - w.lastHeartbeat ≥ w.core.timing.heartbeat))
      rw [List.isEmpty_iff.mp hempty] at hnone
      cases hnone
  · exact hmem _

/-! ## One event -/

section Event

variable {offset : NodeId → Instant} {pace : Pace} {q r : Nat} {x : Timed} {now : Instant}
  {clocked : Clocked} {m : Nat}

/-- What the leader's tables say of a member after an event. -/
theorem InStep.tables (h : InStep L T x v m) (hB : Beating cfg Q L T offset pace q x)
    (hQ : Majority cfg Q L) (hv : v ∈ Q) (hok : Prompt Q L offset pace q r x (now, act))
    (hrole' : (clocked.cluster.core L).role = .leader)
    (hstep : Clocked.step cfg x.clocked act = some clocked) :
    ∃ m', m ≤ m' ∧ Tallied (clocked.cluster.core L) v m' ∧
      Acknowledged clocked.cluster L v T m' := by
  have hcluster := (Clocked.of_step hstep).2.1
  have hreach := Clocked.reachable hB.kept.reachable
  have hsub := Cluster.step_replies_subset hcluster
  have hacked : Acknowledged clocked.cluster L v T m := by
    obtain ⟨rpc, args, reply, hmem, hrest⟩ := h.acked
    exact ⟨rpc, args, reply, hsub hmem, hrest⟩
  by_cases hfold : ∃ k rpc reply, act = .fold k ∧
      x.cluster.replies[k]? = some (rpc, .append reply) ∧ rpc.sender = L ∧ rpc.peer = v
  · obtain ⟨k, rpc, reply, rfl, hk, hsender, hpeer⟩ := hfold
    have hlen := (List.getElem?_eq_some_iff.mp hk).1
    have hnew : x.folded k = false := hok.foldsOnce k hlen (decide_eq_true rfl)
    have hstamp : k < x.answered.length := hB.kept.answered ▸ hlen
    have hreturning : x.returning k = some ((rpc, .append reply), x.answered[k]) :=
      unread_eq_some.mpr ⟨hnew, hk, List.getElem?_eq_getElem hstamp⟩
    by_cases hcount : reply.term = T ∧ ∃ args, rpc.request = .append args
    · obtain ⟨hterm, args, hreq⟩ := hcount
      have hsuccess := h.replies hreturning hsender hpeer hterm
      refine ⟨_, le_max_left _ _, fold_tallied hcluster hB.shielded.role h.tallied hk hsender hpeer
        hreq hsuccess (hterm.trans hB.shielded.term.symm), ?_⟩
      rcases max_choice m (args.prevLogIndex + args.entries.length) with hmax | hmax
      · rw [hmax]
        exact hacked
      · rw [hmax]
        exact ⟨rpc, args, reply, hsub (List.mem_of_getElem? hk), hsender, hpeer, hreq, hsuccess,
          hterm, rfl⟩
    · have hle : reply.term ≤ (x.cluster.core L).currentTerm := by
        have hle := reply_term_le hreach (List.mem_of_getElem? hk)
        rw [hB.shielded.term]
        exact hle.trans (hpeer ▸ hB.shielded.terms v (hQ.members v hv))
      refine ⟨m, le_rfl, ?_, hacked⟩
      rw [fold_ignored hcluster hk hsender hle fun heq args hreq =>
        hcount ⟨heq.trans hB.shielded.term, args, hreq⟩]
      exact h.tallied
  · refine ⟨m, le_rfl, step_tallied hreach hcluster hB.shielded.role hrole' h.tallied h.boundary ?_,
      hacked⟩
    intro k rpc reply hact hk hsender hpeer
    exact hfold ⟨k, rpc, reply, hact, hk, hsender, hpeer⟩

theorem InStep.step (h : InStep L T x v m) (hB : Beating cfg Q L T offset pace q x)
    (hQ : Majority cfg Q L) (hv : v ∈ Q) (hok : Prompt Q L offset pace q r x (now, act))
    (hrole' : (clocked.cluster.core L).role = .leader)
    (hstep : Clocked.step cfg x.clocked act = some clocked) :
    ∃ m', m ≤ m' ∧ InStep L T (x.note now act clocked) v m' := by
  have hcluster := (Clocked.of_step hstep).2.1
  have hreach := Clocked.reachable hB.kept.reachable
  have hmem := hQ.members v hv
  obtain ⟨m', hle, htallied, hacked⟩ := h.tables hB hQ hv hok hrole' hstep
  refine ⟨m', hle, htallied, hacked, ?_, ?_, ?_⟩
  · exact (step_leader_boundary hcluster hrole' hok.whole).trans_le (h.boundary.trans hle)
  · intro k rpc t args hk hsender hpeer hreq
    rcases hB.kept.of_underway hstep hk with ⟨t', hold⟩ | ⟨n, r, draw, -, hsent⟩
    · exact (h.requests hold hsender hpeer hreq).imp_right fun hprev => hprev.trans hle
    · cases hsent with
      | append =>
          cases hreq
          dsimp only at hsender hpeer
          subst hsender hpeer
          refine ⟨hB.shielded.term, ?_⟩
          show ((x.cluster.core _).nextIndex.lookup _).getD _ - 1 ≤ m'
          rw [h.tallied.2]
          exact hle
      | install | campaign | probe => cases hreq
  · intro k rpc reply t hk hsender hpeer hterm
    rcases hB.kept.of_returning hstep hk with ⟨t', hold⟩ | ⟨j, r, draw, rfl, hj, hreply⟩
    · exact h.replies hold hsender hpeer hterm
    · have hlen := (List.getElem?_eq_some_iff.mp hj).1
      have hnew : x.served j = false := hok.servesOnce j hlen (decide_eq_true rfl)
      have hstamp : j < x.asked.length := hB.kept.asked ▸ hlen
      have hunderway : x.underway j = some (rpc, x.asked[j]) :=
        unread_eq_some.mpr ⟨hnew, hj, List.getElem?_eq_getElem hstamp⟩
      rw [serve_eq_direct] at hreply
      cases hreq : rpc.request with
      | vote | install => rw [hreq] at hreply; cases hreply
      | append args =>
          rw [hreq, hpeer] at hreply
          cases hreply
          exact (h.accepts hreach hmem (hB.shielded.terms v hmem) hunderway hsender hpeer
            hreq _ _).1

/-- What the leader sends a member in step that lacks entry `i`. -/
theorem InStep.sends (h : InStep L T x v m) (hB : Beating cfg Q L T offset pace q x)
    (hQ : Majority cfg Q L) (hv : v ∈ Q) (hne : v ≠ L) {i : Nat} (hi : m < i)
    (hlast : i ≤ (x.cluster.core L).log.lastIndex) (now : Instant) {draw : Nat} {reading : Instant}
    (hstep : Clocked.step cfg x.clocked (.tick L reading draw) = some clocked) :
    ∃ k rpc args, x.cluster.requests.length ≤ k ∧
      (x.note now (.tick L reading draw) clocked).underway k = some (rpc, now) ∧ rpc.sender = L ∧
      rpc.peer = v ∧ rpc.request = .append args ∧ i ≤ args.prevLogIndex + args.entries.length := by
  have hcluster := (Clocked.of_step hstep).2.1
  obtain ⟨a, hr⟩ := reachable_refines (Clocked.reachable hB.kept.reachable)
  have hL := hQ.members L hQ.mem
  have hN := hr.nodes L hL
  have hrole := hB.shielded.role
  have hpeer : v ∈ (x.cluster.core L).peers :=
    hN.identity.peers ▸ cfg.mem_peers hL (hQ.members v hv) hne
  have hneed : ¬ (x.cluster.core L).needsSnapshot v = true := by
    have := h.boundary
    unfold needsSnapshot
    rw [h.tallied.2]
    simp only [Option.getD_some, decide_eq_true_eq]
    omega
  have hto := (appendArgsFor_covers hN hrole hneed).2
  rw [← hN.mirrors.log.lastIndex_eq] at hto
  have hprev : ((x.cluster.core L).appendArgsFor v).prevLogIndex = m := by
    show ((x.cluster.core L).nextIndex.lookup v).getD _ - 1 = m
    rw [h.tallied.2]
    rfl
  have hsome : ((x.cluster.core L).appendArgsFor v).entries ≠ [] := by
    intro hnil
    rw [hnil, hprev] at hto
    have hto : m = (x.cluster.core L).log.lastIndex := hto
    omega
  have hmsg := tick_catches_up (w := x.cluster.procs L) hrole reading draw hpeer hneed hsome
  obtain ⟨k, hnew, hk⟩ := Cluster.step_sends hcluster hmsg
  exact ⟨k, _, _, hnew, hB.kept.underway_new hnew hk rfl now, rfl, rfl, rfl, hto.ge.trans' hlast⟩

end Event

/-! ## An entry on its way -/

/-- How far entry `i`, which the leader has had since `start`, has got with member `v`, and until
    when it can be so. -/
inductive Progress (L : NodeId) (T : Nat) (pace : Pace) (q r i : Nat) (start : Instant) (x : Timed)
    (v : NodeId) : Prop
  | waits (hticked : x.ticked L ≤ start) (htime : x.time ≤ start + pace.period)
  | sent {k : Nat} {rpc : Rpc} {t : Instant} {args : AppendEntriesArgs} (hq : q ≤ k)
      (hk : x.underway k = some (rpc, t)) (hsender : rpc.sender = L) (hpeer : rpc.peer = v)
      (hreq : rpc.request = .append args) (hto : i ≤ args.prevLogIndex + args.entries.length)
      (ht : t ≤ start + pace.period) (htime : x.time ≤ start + pace.period + pace.delay)
  | acknowledged {k : Nat} {rpc : Rpc} {t : Instant} {args : AppendEntriesArgs}
      {reply : AppendEntriesReply} (hr : r ≤ k)
      (hk : x.returning k = some ((rpc, .append reply), t)) (hsender : rpc.sender = L)
      (hpeer : rpc.peer = v) (hreq : rpc.request = .append args)
      (hto : i ≤ args.prevLogIndex + args.entries.length) (hok : reply.success = true)
      (hterm : reply.term = T) (ht : t ≤ start + pace.period + pace.delay)
      (htime : x.time ≤ start + pace.period + 2 * pace.delay)
  | counted {m : Nat} (hmatched : (x.cluster.core L).matchIndex.lookup v = some m) (hm : i ≤ m)

theorem Progress.step {offset : NodeId → Instant} {pace : Pace} {q r i m m' : Nat}
    {start now : Instant} {x : Timed} {clocked : Clocked}
    (h : Progress L T pace q r i start x v) (hin : InStep L T x v m)
    (hB : Beating cfg Q L T offset pace q x) (hQ : Majority cfg Q L) (hv : v ∈ Q) (hne : v ≠ L)
    (hlast : i ≤ (x.cluster.core L).log.lastIndex) (hr : r ≤ x.cluster.replies.length)
    (hok : Prompt Q L offset pace q r x (now, act))
    (hstep : Clocked.step cfg x.clocked act = some clocked) (hle : m ≤ m')
    (hin' : InStep L T (x.note now act clocked) v m') :
    Progress L T pace q r i start (x.note now act clocked) v := by
  have hcluster := (Clocked.of_step hstep).2.1
  cases h with
  | counted hmatched hm =>
      obtain rfl := Option.some.inj (hmatched.symm.trans hin.tallied.1)
      exact .counted hin'.tallied.1 (hm.trans hle)
  | waits hticked htime =>
      have hnow : now ≤ start + pace.period := hok.ticks.trans (Nat.add_le_add_right hticked _)
      rcases Nat.lt_or_ge m i with hi | hi
      · cases hact : act.ticks L with
        | false =>
            refine .waits ?_ hnow
            show (if act.ticks L then now else x.ticked L) ≤ start
            rw [hact]
            exact hticked
        | true =>
            cases act with
            | tick n reading draw =>
                obtain rfl : n = L := of_decide_eq_true hact
                obtain ⟨k, rpc, args, hnew, hk, hsender, hpeer, hreq, hto⟩ :=
                  hin.sends hB hQ hv hne hi hlast now hstep
                exact .sent (hB.requests.trans hnew) hk hsender hpeer hreq hto hnow
                  (hnow.trans (Nat.le_add_right _ _))
            | _ => cases hact
      · exact .counted hin'.tallied.1 (hi.trans hle)
  | @sent k rpc t args hq hk hsender hpeer hreq hto ht htime =>
      have hsome := (unread_eq_some.mp hk).2.1
      have hlen := (List.getElem?_eq_some_iff.mp hsome).1
      have hnow : now ≤ start + pace.period + pace.delay :=
        (hok.arrives k hlen hq (rpc, t) hk hsender (hpeer ▸ hv)).trans (Nat.add_le_add_right ht _)
      cases hact : act.serves k with
      | false =>
          exact .sent hq (Timed.underway_note hk hstep hact now) hsender hpeer hreq hto ht hnow
      | true =>
          cases act with
          | serve j reading draw =>
              obtain rfl : j = k := of_decide_eq_true hact
              have hmem := hQ.members v hv
              obtain ⟨hsuccess, hterm⟩ := hin.accepts (Clocked.reachable hB.kept.reachable) hmem
                (hB.shielded.terms v hmem) hk hsender hpeer hreq reading draw
              obtain ⟨rpc', hj, hs'⟩ := Cluster.step_serve hcluster
              cases hj.symm.trans hsome
              have hreply : clocked.cluster.replies[x.cluster.replies.length]? = some (rpc,
                  .append ((x.cluster.core v).handleAppendEntries args reading draw).2) := by
                rw [hs']
                show (x.cluster.replies ++ [_])[_]? = _
                rw [List.getElem?_concat_length, serve_eq_direct, hreq, hpeer]
                rfl
              refine .acknowledged hr (hB.kept.returning_new le_rfl hreply rfl now) hsender
                hpeer hreq hto hsuccess hterm hnow ?_
              show now ≤ _
              unfold Instant Duration at *
              omega
          | _ => cases hact
  | @acknowledged k rpc t args reply hrk hk hsender hpeer hreq hto hsuccess hterm ht htime =>
      have hsome := (unread_eq_some.mp hk).2.1
      have hlen := (List.getElem?_eq_some_iff.mp hsome).1
      have hnow := hok.returns k hlen hrk ((rpc, .append reply), t) hk hsender (hpeer ▸ hv)
      cases hact : act.folds k with
      | false =>
          refine .acknowledged hrk (Timed.returning_note hk hstep hact now) hsender hpeer hreq hto
            hsuccess hterm ht ?_
          show now ≤ _
          dsimp only at hnow
          unfold Instant Duration at *
          omega
      | true =>
          cases act with
          | fold j =>
              obtain rfl : j = k := of_decide_eq_true hact
              have htallied :=
                fold_tallied hcluster hB.shielded.role hin.tallied hsome hsender hpeer
                hreq hsuccess (hterm.trans hB.shielded.term.symm)
              exact .counted htallied.1 (hto.trans (le_max_right _ _))
          | _ => cases hact

/-! ## Whole runs -/

/-- The state of a run in which entry `i` is on its way. -/
structure Spreads (cfg : ClusterConfig) (Q : Finset NodeId) (L : NodeId) (T : Nat)
    (offset : NodeId → Instant) (pace : Pace) (q r i : Nat) (start : Instant) (x : Timed) :
    Prop where
  beating : Beating cfg Q L T offset pace q x
  replies : r ≤ x.cluster.replies.length
  held : ∃ a, Refines cfg True x.cluster a ∧ plainTerm (a.llog T) i = some T
  members : ∀ v ∈ Q, v ≠ L → ∃ m, InStep L T x v m ∧ Progress L T pace q r i start x v

/-- A leader's log is the log of its term. -/
theorem leader_plain (hr : Refines cfg True s a) (hL : L ∈ cfg.members)
    (hrole : (s.core L).role = .leader) (hterm : (s.core L).currentTerm = T) :
    (s.core L).log.Represents (a.llog T) := by
  have hN := hr.nodes L hL
  have hlead := (hN.leadership hrole).log
  rw [← hN.mirrors.term, hterm] at hlead
  rw [hlead]
  exact hN.mirrors.log

theorem Spreads.step {offset : NodeId → Instant} {pace : Pace} {q r i : Nat} {start now : Instant}
    {x : Timed} {clocked : Clocked} (h : Spreads cfg Q L T offset pace q r i start x)
    (hQ : Majority cfg Q L)
    (hpace : cfg.timing.heartbeat + pace.period + pace.delay < cfg.timing.electionMin)
    (hok : Prompt Q L offset pace q r x (now, act)) (hle : x.time ≤ now)
    (hstep : Clocked.step cfg x.clocked act = some clocked) :
    Spreads cfg Q L T offset pace q r i start (x.note now act clocked) := by
  have hcluster := (Clocked.of_step hstep).2.1
  have hB' := h.beating.step hQ hpace hok.toPunctual hle hstep
  have hL := hQ.members L hQ.mem
  obtain ⟨a, hr, hterm⟩ := h.held
  have hlast : i ≤ (x.cluster.core L).log.lastIndex := by
    rw [(leader_plain hr hL h.beating.shielded.role h.beating.shielded.term).lastIndex_eq]
    by_contra hlt
    rw [plainTerm_eq_none _ (Nat.not_le.mp hlt)] at hterm
    cases hterm
  refine ⟨hB', h.replies.trans (Cluster.step_grows hcluster).2.1.length_le, ?_, fun v hv hne => ?_⟩
  · obtain ⟨a', hans⟩ := step_refines hr (fun hno => absurd trivial hno) hcluster
    exact ⟨a', hans.refines, plainTerm_grow ((hans.later.grows hr.safe).llog T) hterm⟩
  · obtain ⟨m, hin, hprogress⟩ := h.members v hv hne
    obtain ⟨m', hm, hin'⟩ := hin.step h.beating hQ hv hok hB'.shielded.role hstep
    exact ⟨m', hin', hprogress.step hin h.beating hQ hv hne hlast h.replies hok hstep hm hin'⟩

/-- As in `inTouchRun`; then node 1 gets the answer of node 2, and takes a command. -/
def proposedRun : List (Instant × Action) :=
  inTouchRun ++ [(1014, .fold 2), (1015, .propose 1 [7])]

theorem proposedRun_isSome :
    (run (Timed.step trio) (Timed.init trio) proposedRun).isSome = true := by decide +kernel

def proposed : Timed :=
  (run (Timed.step trio) (Timed.init trio) proposedRun).get proposedRun_isSome

end Murmur.Raft
