/-
  The leader hint of a node, and what `not_leader` tells a client.

  * Every path that adopts a newer term clears the hint, except one: a vote request of a newer term
    keeps it (`Shift.outdated`). `hint_goes_stale` is a run in which a deposed leader then names
    itself.
  * `informed`: no vote request of a newer term meets a hint that is wrong for that term.
  * `hint_is_current`: in runs of such steps a hint names a node that led the term.
-/
import Murmur.Raft.Safety
import Murmur.Raft.Standing
import Murmur.Raft.Steps

namespace Murmur.Raft

open Murmur.Basis Murmur.Protocol ConsensusModule

/-- The error of `not_leader`: its message, and the node its `x-leader-id` metadata names. -/
structure Status where
  message : String
  xLeaderId : Option NodeId
deriving DecidableEq, Repr

def notLeader (core : ConsensusModule) : Status :=
  { message := "not leader", xLeaderId := core.leaderId }

variable {cfg : ClusterConfig} {s s' : Cluster} {n x : NodeId} {c : ConsensusModule}
  {led : NodeId → Nat → Prop}

/-! ## Runs without stale hints -/

def leadsTerm (c : ConsensusModule) (term : Nat) : Bool := c.role = .leader ∧ c.currentTerm = term

/-- A vote request of a newer term finds no hint, or one that is right for that term. -/
def informed (s : Cluster) : Action → Bool
  | .serve k _ _ =>
    match s.requests[k]? with
    | some rpc =>
      match rpc.request with
      | .vote args => args.preVote || args.term ≤ (s.core rpc.peer).currentTerm ||
          (s.core rpc.peer).leaderId.all fun x => leadsTerm (s.core x) args.term
      | _ => true
    | none => true
  | _ => true

/-- `s'` comes after `s` by informed steps. -/
def Informed (cfg : ClusterConfig) (s s' : Cluster) : Prop :=
  Within (Cluster.step cfg) (fun s act => informed s act = true) s s'

/-- Node `x` led `term` somewhere on an informed run to `s`. -/
def Led (cfg : ClusterConfig) (s : Cluster) (x : NodeId) (term : Nat) : Prop :=
  ∃ r, Informed cfg (Cluster.init cfg) r ∧ Informed cfg r s ∧
    (r.core x).role = .leader ∧ (r.core x).currentTerm = term

theorem Led.now {term : Nat} (h : Informed cfg (Cluster.init cfg) s)
    (hrole : (s.core x).role = .leader) (hterm : (s.core x).currentTerm = term) :
    Led cfg s x term :=
  ⟨s, h, .refl, hrole, hterm⟩

theorem Led.step {term : Nat} {act : Action} (h : Led cfg s x term) (hok : informed s act = true)
    (hstep : Cluster.step cfg s act = some s') : Led cfg s' x term := by
  obtain ⟨r, hinit, hrun, hlead⟩ := h
  exact ⟨r, hinit, hrun.step act hok hstep, hlead⟩

/-! ## One node -/

/-- The hint names a node that led the term; a node that does not lead does not name itself. -/
structure Hinted (led : NodeId → Nat → Prop) (n : NodeId) (v : Standing) : Prop where
  id : v.id = n
  hint : ∀ {x}, v.leaderId = some x → led x v.currentTerm
  other : v.role ≠ .leader → v.leaderId ≠ some n

theorem Hinted.mono {led' : NodeId → Nat → Prop} {v : Standing} (h : Hinted led n v)
    (hmono : ∀ x term, led x term → led' x term) : Hinted led' n v :=
  ⟨h.id, fun hx => hmono _ _ (h.hint hx), h.other⟩

/-- What the call says about leaders is so, and leaves no wrong hint behind. -/
def Truthful (led : NodeId → Nat → Prop) (n : NodeId) (c : ConsensusModule) : Op → Prop
  | .handleRequestVote args _ _ => ¬ args.preVote = true → c.currentTerm < args.term →
      ∀ {x}, c.leaderId = some x → led x args.term ∧ x ≠ n
  | .handleAppendEntries args _ _ => led args.leaderId args.term ∧ args.leaderId ≠ n
  | .handleInstallSnapshot args _ _ => led args.leaderId args.term ∧ args.leaderId ≠ n
  | _ => True

theorem Hinted.follow {v : Standing} (h : Hinted led n v) {term : Nat} {hint : Option NodeId}
    (hhint : ∀ {x}, hint = some x → led x term ∧ x ≠ n) : Hinted led n (v.follow term hint) :=
  ⟨h.id, fun hx => (hhint hx).1, fun _ hx => (hhint hx).2 rfl⟩

theorem Shift.hinted {o : Op} {v : Standing} (hs : Shift c o v) (h : Hinted led n c.standing)
    (hargs : Truthful led n c o) (hnow : v.role = .leader → led n v.currentTerm) :
    Hinted led n v := by
  have hnamed : ∀ {term leader}, led leader term ∧ leader ≠ n →
      ∀ {x}, some leader = some x → led x term ∧ x ≠ n := by
    rintro term leader hl x ⟨⟩
    exact hl
  have hlead : ∀ {x}, some c.id = some x → x = n := by
    rintro x ⟨⟩
    exact h.id
  cases hs with
  | keep | probe | preVote | matchAppend | matchInstall | backtrack =>
      exact ⟨h.id, h.hint, h.other⟩
  | outdated args now draw hpre hnew => exact h.follow (hargs hpre hnew)
  | stepDown => exact h.follow nofun
  | yieldAppend => exact h.follow (hnamed hargs)
  | yieldInstall => exact h.follow (hnamed hargs)
  | campaign => exact ⟨h.id, nofun, nofun⟩
  | acclaim | win =>
      refine ⟨h.id, fun hx => ?_, fun hno => absurd rfl hno⟩
      rw [hlead hx]
      exact hnow rfl

/-! ## The cluster -/

/-- A leader's message names its sender, who led the term, and is for somebody else. -/
def FromLeader (led : NodeId → Nat → Prop) (rpc : Rpc) : Prop :=
  match rpc.request with
  | .vote _ => True
  | .append args => args.leaderId = rpc.sender ∧ led rpc.sender args.term ∧ rpc.peer ≠ rpc.sender
  | .install args => args.leaderId = rpc.sender ∧ led rpc.sender args.term ∧ rpc.peer ≠ rpc.sender

theorem FromLeader.mono {led' : NodeId → Nat → Prop} {rpc : Rpc} (h : FromLeader led rpc)
    (hmono : ∀ x term, led x term → led' x term) : FromLeader led' rpc := by
  unfold FromLeader at h ⊢
  split
  · trivial
  · next heq =>
      simp only [heq] at h
      exact ⟨h.1, hmono _ _ h.2.1, h.2.2⟩
  · next heq =>
      simp only [heq] at h
      exact ⟨h.1, hmono _ _ h.2.1, h.2.2⟩

structure HintInv (cfg : ClusterConfig) (s : Cluster) : Prop where
  nodes : ∀ n, Hinted (Led cfg s) n (s.core n).standing
  requests : ∀ rpc ∈ s.requests, FromLeader (Led cfg s) rpc

theorem HintInv.init (cfg : ClusterConfig) : HintInv cfg (Cluster.init cfg) :=
  ⟨fun _ => ⟨rfl, nofun, nofun⟩, nofun⟩

/-- What an informed action calls is truthful. -/
theorem HintInv.truthful {act : Action} {o : Op} (h : HintInv cfg s) (hok : informed s act = true)
    (hinit : Informed cfg (Cluster.init cfg) s) (hcall : Cluster.Calls s act n o) :
    Truthful (Led cfg s) n (s.core n) o := by
  cases hcall with
  | @vote k rpc args hk hreq now draw =>
      intro hpre hnew x hx
      simp only [informed, hk, hreq, hx, Option.all_some, Bool.or_eq_true, decide_eq_true_eq,
        leadsTerm] at hok
      have hnone : ¬ (args.preVote = true ∨ args.term ≤ (s.core rpc.peer).currentTerm) :=
        not_or.mpr ⟨hpre, by omega⟩
      obtain ⟨hrole, hterm⟩ := hok.resolve_left hnone
      refine ⟨.now hinit hrole hterm, ?_⟩
      rintro rfl
      omega
  | @append k rpc args hk hreq now draw =>
      have hfrom := h.requests rpc (List.mem_of_getElem? hk)
      simp only [FromLeader, hreq] at hfrom
      obtain ⟨hid, hled, hne⟩ := hfrom
      exact ⟨hid ▸ hled, fun heq => hne (heq ▸ hid)⟩
  | @install k rpc args hk hreq now draw =>
      have hfrom := h.requests rpc (List.mem_of_getElem? hk)
      simp only [FromLeader, hreq] at hfrom
      obtain ⟨hid, hled, hne⟩ := hfrom
      exact ⟨hid ▸ hled, fun heq => hne (heq ▸ hid)⟩
  | preVoted | voted | appended | installed | campaign | probe | propose | snapshot | drain =>
      trivial

/-- What a tick sends comes from a leader. -/
theorem HintInv.sent {now : Instant} {draw : Nat} {rpc : Rpc} (h : HintInv cfg s)
    (hinit : Informed cfg (Cluster.init cfg) s) (hn : n ∈ cfg.members)
    (hsent : Cluster.Sent s n now draw rpc) : FromLeader (Led cfg s) rpc := by
  obtain ⟨a, hr⟩ := reachable_refines (Within.reaches hinit)
  have hpeers := (hr.nodes n hn).identity.peers
  cases hsent with
  | append hrole hpeer hneed =>
      exact ⟨(h.nodes n).id, .now hinit hrole rfl, cfg.ne_of_mem_peers hn (hpeers ▸ hpeer)⟩
  | install hrole hpeer hneed =>
      exact ⟨(h.nodes n).id, .now hinit hrole rfl, cfg.ne_of_mem_peers hn (hpeers ▸ hpeer)⟩
  | campaign | probe => trivial

theorem HintInv.step {act : Action} (h : HintInv cfg s) (hinit : Informed cfg (Cluster.init cfg) s)
    (hok : informed s act = true) (hstep : Cluster.step cfg s act = some s') : HintInv cfg s' := by
  have hmono : ∀ x term, Led cfg s x term → Led cfg s' x term :=
    fun _ _ hled => hled.step hok hstep
  constructor
  · intro m
    have hmoved := Cluster.step_core hstep m
    have hnow : (s'.core m).role = .leader → Led cfg s' m (s'.core m).currentTerm :=
      fun hrole => .now (hinit.step act hok hstep) hrole rfl
    generalize s'.core m = c at hmoved hnow ⊢
    cases hmoved with
    | same => exact (h.nodes m).mono hmono
    | op o hcall hrun =>
        have htrue := h.truthful hok hinit hcall
        refine (Op.shift hrun).hinted ((h.nodes m).mono hmono) ?_ hnow
        cases o with
        | handleRequestVote args now draw =>
            exact fun hpre hnew _ hx => (htrue hpre hnew hx).imp_left (hmono _ _)
        | handleAppendEntries | handleInstallSnapshot => exact htrue.imp_left (hmono _ _)
        | _ => trivial
    | start epoch now draw hact => exact ⟨rfl, nofun, nofun⟩
  · intro rpc hrpc
    rcases Cluster.step_requests hstep hrpc with hold | ⟨n, now, draw, -, hn, hsent⟩
    · exact (h.requests rpc hold).mono hmono
    · exact (h.sent hinit hn hsent).mono hmono

theorem hintInv (h : Informed cfg (Cluster.init cfg) s) : HintInv cfg s := by
  have hinv : Informed cfg (Cluster.init cfg) s ∧ HintInv cfg s :=
    Within.invariant (I := fun s => Informed cfg (Cluster.init cfg) s ∧ HintInv cfg s)
      (fun _ act _ ⟨hrun, hs⟩ hok hstep => ⟨hrun.step act hok hstep, hs.step hrun hok hstep⟩) h
      ⟨.refl, .init cfg⟩
  exact hinv.2

/-- **The leader hint is not stale**, in runs in which no vote request of a newer term meets a hint
    that is wrong for that term: it names a node that led the node's current term earlier in the
    run, and a node that does not lead never sends a client to itself. -/
theorem hint_is_current (h : Informed cfg (Cluster.init cfg) s) (n : NodeId) :
    (∀ x, (s.core n).leaderId = some x → ∃ r, Informed cfg (Cluster.init cfg) r ∧
      Informed cfg r s ∧ (r.core x).role = .leader ∧
        (r.core x).currentTerm = (s.core n).currentTerm) ∧
    ((s.core n).role ≠ .leader → (s.core n).leaderId ≠ some n ∧
      (notLeader (s.core n)).xLeaderId ≠ some n) := by
  have hnode := (hintInv h).nodes n
  exact ⟨fun x hx => hnode.hint hx, fun hrole => ⟨hnode.other hrole, hnode.other hrole⟩⟩

/-- Node 1 is elected, and node 2 takes an AppendEntries of it. -/
def hintedRun : List Action := electedRun ++ [.tick 1 1100 0, .serve 4 1100 0]

set_option maxRecDepth 100000 in
theorem hintedRun_isSome :
    (run (fun s act => if informed s act = true then Cluster.step trio s act else none)
      (Cluster.init trio) hintedRun).isSome = true := by decide

/-- The state in which node 2 knows its leader. -/
def hinted : Cluster :=
  (run (fun s act => if informed s act = true then Cluster.step trio s act else none)
    (Cluster.init trio) hintedRun).get hintedRun_isSome

set_option maxRecDepth 100000 in
theorem hint_is_current_hinted :
    (hinted.core 2).leaderId = some 1 ∧ (hinted.core 2).currentTerm = 1 ∧
      ∃ r, Informed trio (Cluster.init trio) r ∧ Informed trio r hinted ∧
        (r.core 1).role = .leader ∧ (r.core 1).currentTerm = (hinted.core 2).currentTerm :=
  have hhint : (hinted.core 2).leaderId = some 1 := by decide
  ⟨hhint, by decide, (hint_is_current
    (Within.of_run (Option.eq_some_of_isSome hintedRun_isSome)) 2).1 1 hhint⟩

/-! ## A hint that is stale -/

/-- Node 1 leads term 1. Node 2 probes with node 3's grant, campaigns in term 2 and is elected with
    the vote of node 1, which it deposes. -/
def deposedRun : List Action :=
  electedRun ++ [.tick 2 2000 0, .serve 5 2000 0, .fold 2, .tick 2 2000 0, .serve 6 2000 0, .fold 3]

set_option maxRecDepth 100000 in
theorem deposedRun_isSome :
    (run (Cluster.step trio) (Cluster.init trio) deposedRun).isSome = true := by decide

/-- The state in which node 2 leads term 2 and node 1 follows. -/
def deposed : Cluster :=
  (run (Cluster.step trio) (Cluster.init trio) deposedRun).get deposedRun_isSome

set_option maxRecDepth 100000 in
/-- Node 1 has moved to term 2, which node 2 leads. It refuses clients, and sends them to itself. -/
theorem hint_goes_stale :
    Cluster.Reachable trio deposed ∧ (deposed.core 1).role = .follower ∧
      (deposed.core 1).currentTerm = 2 ∧ (deposed.core 1).leaderId = some 1 ∧
      notLeader (deposed.core 1) = { message := "not leader", xLeaderId := some 1 } ∧
      (deposed.core 2).role = .leader ∧ (deposed.core 2).currentTerm = 2 :=
  ⟨⟨deposedRun, Option.eq_some_of_isSome deposedRun_isSome⟩, by decide, by decide, by decide,
    by decide, by decide, by decide⟩

end Murmur.Raft
