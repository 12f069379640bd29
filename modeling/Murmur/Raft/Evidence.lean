/-
  What stands behind an entry of a leader's `match_index`, in every reachable state: an accepted
  AppendEntries of the running term, or the leader's own snapshot boundary.

  The second case is there because a leader may take the refusal of an old InstallSnapshot for an
  acknowledgement (`misread`). What it then records is the boundary it had when it sent the offer,
  and the boundary of a process never falls.
-/
import Murmur.Raft.Standing
import Murmur.Raft.Stream

namespace Murmur.Raft

open Murmur.Basis Murmur.Protocol ConsensusModule

variable {cfg : ClusterConfig} {s s' : Cluster} {a : Ghost} {n p : NodeId} {c c' : ConsensusModule}
  {ack : NodeId → Nat → Nat → Prop}

/-! ## The boundary never falls -/

theorem reachable_stored (h : Cluster.Reachable cfg s) (n : NodeId) : Stored (s.core n) :=
  Cluster.core_invariant (P := fun _ c => Stored c) (fun _ _ _ _ _ => new_stored _ _ _ _ _ _)
    (fun _ _ _ _ hc hrun => Op.run_stored hc hrun) h n

theorem step_boundary_le (h : Cluster.Reachable cfg s) {act : Action}
    (hstep : Cluster.step cfg s act = some s') (n : NodeId) :
    (s.core n).log.snapshotIndex ≤ (s'.core n).log.snapshotIndex := by
  have hstored := reachable_stored h n
  have hmoved := Cluster.step_core hstep n
  generalize s'.core n = c at hmoved ⊢
  cases hmoved with
  | same => exact le_rfl
  | op o hcall hrun => exact (Op.saves_path hstored hrun).boundary_le
  | start epoch now draw hact =>
      show (s.core n).log.snapshotIndex ≤ (s.core n).storage.log.snapshotIndex
      rw [hstored]
      exact le_rfl

/-! ## One node -/

/-- Each entry of a leader's `match_index` is within `boundary` or acknowledged. -/
def Evident (ack : NodeId → Nat → Nat → Prop) (boundary : Nat) (v : Standing) : Prop :=
  v.role = .leader → ∀ {p m}, v.matchIndex.lookup p = some m → m ≤ boundary ∨ ack p v.currentTerm m

theorem Evident.mono {ack' : NodeId → Nat → Nat → Prop} {boundary boundary' : Nat} {v : Standing}
    (h : Evident ack boundary v) (hle : boundary ≤ boundary')
    (hmono : ∀ p term m, ack p term m → ack' p term m) : Evident ack' boundary' v := by
  intro hl p m hm
  exact (h hl hm).imp (fun hb => hb.trans hle) (hmono p _ m)

theorem recordMatch_evident {boundary : Nat} (h : Evident ack boundary c.standing) {peer : NodeId}
    {upTo : Nat} (hup : upTo ≤ boundary ∨ ack peer c.currentTerm upTo) :
    Evident ack boundary (c.recordMatch peer upTo).standing := by
  intro hl p m hm
  have hm : (c.matchIndex.insert peer
      (max ((c.matchIndex.lookup peer).getD 0) upTo)).lookup p = some m := hm
  by_cases hp : p = peer
  · subst hp
    rw [Finmap.lookup_insert] at hm
    obtain rfl := Option.some.inj hm
    rcases Nat.le_total ((c.matchIndex.lookup p).getD 0) upTo with hle | hle
    · rwa [Nat.max_eq_right hle]
    · rw [Nat.max_eq_left hle]
      cases hold : c.matchIndex.lookup p with
      | none => exact .inl (Nat.zero_le _)
      | some k => exact h hl hold
  · rw [Finmap.lookup_insert_of_ne _ hp] at hm
    exact h hl hm

theorem lead_evident (c : ConsensusModule) (term boundary : Nat) :
    Evident ack boundary (Standing.lead c term) := by
  intro _ p m hm
  rcases lookup_foldl_insert hm with hnone | rfl
  · simp at hnone
  · exact .inl (Nat.zero_le _)

/-- What the call tells a leader about a peer is so. -/
def Attested (ack : NodeId → Nat → Nat → Prop) (c : ConsensusModule) : Op → Prop
  | .handleAppendReply peer reply upTo =>
      reply.success = true → reply.term = c.currentTerm → ack peer c.currentTerm upTo
  | .handleInstallSnapshotReply _ _ upTo => upTo ≤ c.log.snapshotIndex
  | _ => True

theorem Shift.evident {o : Op} {v : Standing} (hs : Shift c o v)
    (h : Evident ack c.log.snapshotIndex c.standing) (hargs : Attested ack c o) :
    Evident ack c.log.snapshotIndex v := by
  cases hs with
  | keep | probe | preVote | backtrack => exact h
  | outdated | stepDown | yieldAppend | yieldInstall | campaign => exact nofun
  | acclaim | win => exact lead_evident c _ _
  | matchAppend peer reply upTo hrole hterm hok =>
      exact recordMatch_evident h (.inr (hargs hok hterm))
  | matchInstall peer reply upTo => exact recordMatch_evident h (.inl hargs)

/-! ## The cluster -/

/-- `p` has accepted an AppendEntries of `n` that covers `m`, in `term`. -/
def Acknowledged (s : Cluster) (n p : NodeId) (term m : Nat) : Prop :=
  ∃ rpc args reply, (rpc, .append reply) ∈ s.replies ∧ rpc.sender = n ∧ rpc.peer = p ∧
    rpc.request = .append args ∧ reply.success = true ∧ reply.term = term ∧
      m = args.prevLogIndex + args.entries.length

/-- A call that was made. -/
def Made (s : Cluster) (rpc : Rpc) : Prop :=
  rpc ∈ s.requests ∨ ∃ reply, (rpc, reply) ∈ s.replies

structure MatchInv (s : Cluster) : Prop where
  nodes : ∀ n, Evident (Acknowledged s n) (s.core n).log.snapshotIndex (s.core n).standing
  /-- What a running process has offered is within its boundary. -/
  offers : ∀ {rpc args}, Made s rpc → rpc.request = .install args →
    rpc.epoch = (s.procs rpc.sender).epoch →
      args.lastIncludedIndex ≤ (s.core rpc.sender).log.snapshotIndex

theorem MatchInv.attested {act : Action} {o : Op} (h : MatchInv s)
    (hcall : Cluster.Calls s act n o) : Attested (Acknowledged s n) (s.core n) o := by
  cases hcall with
  | @appended k rpc args reply hk hreq hepoch =>
      intro hok hterm
      rw [appendReply_over_wire] at hok hterm
      exact ⟨rpc, args, reply, List.mem_of_getElem? hk, rfl, rfl, hreq, hok, hterm, rfl⟩
  | @installed k rpc args reply hk hreq hepoch =>
      exact h.offers (.inr ⟨_, List.mem_of_getElem? hk⟩) hreq hepoch
  | vote | append | install | preVoted | voted | campaign | probe | propose | snapshot | drain =>
      trivial

theorem step_made {act : Action} (hstep : Cluster.step cfg s act = some s') {rpc : Rpc}
    (hmade : Made s' rpc) : Made s rpc ∨
      ∃ n now draw, act = .tick n now draw ∧ Cluster.Sent s n now draw rpc := by
  rcases hmade with hreq | ⟨reply, hrep⟩
  · rcases Cluster.step_requests hstep hreq with hold | ⟨n, now, draw, hact, -, hsent⟩
    · exact .inl (.inl hold)
    · exact .inr ⟨n, now, draw, hact, hsent⟩
  · rcases Cluster.step_replies hstep hrep with hold | ⟨k, now, draw, -, hk, -⟩
    · exact .inl (.inr ⟨reply, hold⟩)
    · exact .inl (.inl (List.mem_of_getElem? hk))

theorem MatchInv.step {act : Action} (hreach : Cluster.Reachable cfg s) (h : MatchInv s)
    (hstep : Cluster.step cfg s act = some s') : MatchInv s' := by
  have hboundary := step_boundary_le hreach hstep
  have hmono : ∀ n p term m, Acknowledged s n p term m → Acknowledged s' n p term m := by
    rintro n p term m ⟨rpc, args, reply, hmem, hrest⟩
    exact ⟨rpc, args, reply, Cluster.step_replies_subset hstep hmem, hrest⟩
  constructor
  · intro n
    have hle := hboundary n
    have hmoved := Cluster.step_core hstep n
    generalize s'.core n = c at hmoved hle ⊢
    cases hmoved with
    | same => exact (h.nodes n).mono hle (hmono n)
    | op o hcall hrun =>
        exact ((Op.shift hrun).evident (h.nodes n) (h.attested hcall)).mono hle (hmono n)
    | start => exact nofun
  · intro rpc args hmade hreq hepoch
    obtain ⟨a, hr⟩ := reachable_refines hreach
    rcases step_made hstep hmade with hold | ⟨n, now, draw, rfl, hsent⟩
    · -- A process that was restarted has offered nothing yet.
      have hbound : rpc.epoch ≤ (s.procs rpc.sender).epoch := by
        rcases hold with hmem | ⟨reply, hmem⟩
        · exact (hr.requests rpc hmem).epoch
        · exact (hr.replies _ hmem).1.epoch
      have hsame : (s'.procs rpc.sender).epoch = (s.procs rpc.sender).epoch := by
        by_cases hrestart : ∃ now draw, act = .restart rpc.sender now draw
        · obtain ⟨now, draw, rfl⟩ := hrestart
          have := restart_epoch hstep
          omega
        · push Not at hrestart
          exact (step_recorded hstep).epoch _ hrestart
      exact (h.offers hold hreq (hepoch.trans hsame)).trans (hboundary _)
    · cases hsent with
      | install =>
          cases hreq
          exact hboundary n
      | append | campaign | probe => cases hreq

theorem matchInv (h : Cluster.Reachable cfg s) : MatchInv s := by
  refine (h.invariant (I := fun s => Cluster.Reachable cfg s ∧ MatchInv s) ?_
    ⟨Reaches.refl _ _, fun _ => nofun, ?_⟩).2
  · rintro s act s' ⟨hreach, hinv⟩ hstep
    exact ⟨hreach.step hstep, hinv.step hreach hstep⟩
  · rintro rpc args (hmem | ⟨reply, hmem⟩)
    · simp [Cluster.init] at hmem
    · simp [Cluster.init] at hmem

/-- **What a leader takes a peer to hold** is within its own boundary, or the peer has acknowledged
    it. -/
theorem matched_acked (h : Cluster.Reachable cfg s) (hr : Refines cfg True s a)
    (hn : n ∈ cfg.members) (hl : (s.core n).role = .leader) {m : Nat}
    (hm : (s.core n).matchIndex.lookup p = some m) :
    m ≤ (s.core n).log.snapshotIndex ∨ m ≤ a.acked p (a.term n) := by
  refine ((matchInv h).nodes n hl hm).imp_right ?_
  rintro ⟨rpc, args, reply, hmem, -, rfl, hreq, hok, hterm, rfl⟩
  have hrep := (hr.replies _ hmem).2
  rw [hreq] at hrep
  obtain ⟨hsame, hack⟩ := hrep.1 hok
  have hterm : reply.term = (s.core n).currentTerm := hterm
  rwa [← hsame, hterm, (hr.nodes n hn).mirrors.term] at hack

end Murmur.Raft
