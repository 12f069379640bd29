/-
  Pre-votes shield a leader that a majority hears from.

  Setting. `L` leads term `T`, nobody is past `T`, and `Q` is a majority around `L` none of whose
  members is probing. `Attended`: whenever a member of `Q` reads its clock, its last word from a
  leader is less than `electionMin` ago, and none of them restarts. All other nodes do as they like:
  they may be cut off, time out, probe, restart and come back, and messages are lost, delayed and
  reordered.

  * `Shielded`: the setting, with no pre-vote of a member of `Q` counted or on its way to anybody
    but `L`. A pre-vote is counted without looking at the probe it answers, so one from before the
    setting could still bring `L` down.
  * `preVotes_short`: then nobody gathers a majority of pre-votes.
  * `live_leader_kept`: so no term is opened, and `L` leads on.
-/
import Murmur.Raft.Clock
import Murmur.Raft.Lifetime
import Murmur.Raft.Terms

namespace Murmur.Raft

open Murmur.Basis Murmur.Protocol ConsensusModule

variable {cfg : ClusterConfig} {s s' : Cluster} {Q : Finset NodeId} {L n : NodeId} {T : Nat}

/-! ## The setting -/

/-- The answer grants a probe. -/
def grantsPreVote (x : Rpc × Reply) : Bool :=
  match x.1.request, x.2 with
  | .vote args, .vote reply => args.preVote ∧ reply.voteGranted
  | _, _ => false

/-- A majority, and a member of it. -/
structure Majority (cfg : ClusterConfig) (Q : Finset NodeId) (L : NodeId) : Prop where
  members : ∀ v ∈ Q, v ∈ cfg.members
  card : cfg.members.length < 2 * Q.card
  mem : L ∈ Q

structure Shielded (cfg : ClusterConfig) (Q : Finset NodeId) (L : NodeId) (T : Nat) (s : Cluster) :
    Prop where
  role : (s.core L).role = .leader
  term : (s.core L).currentTerm = T
  terms : ∀ n ∈ cfg.members, (s.core n).currentTerm ≤ T
  calm : ∀ v ∈ Q, v ≠ L → (s.core v).preCandidate = false
  tallies : ∀ n ∈ cfg.members, n ≠ L → ∀ v ∈ (s.core n).preVotes, v ∈ Q → v = n
  pending : ∀ x ∈ s.replies, x.1.sender ≠ L → x.1.peer ∈ Q →
    x.1.epoch = (s.procs x.1.sender).epoch → grantsPreVote x = false

/-- A member of `Q` that reads its clock has heard from a leader less than `electionMin` ago, and
    none of them restarts. -/
structure Attended (cfg : ClusterConfig) (Q : Finset NodeId) (L : NodeId) (x : Clocked)
    (act : Action) : Prop where
  stays : ∀ v ∈ Q, act.restarts v = false
  heard : ∀ r ∈ act.reading x.cluster, r.1 ∈ Q → r.1 ≠ L →
    r.2 < (x.cluster.core r.1).lastLeaderContact + cfg.timing.electionMin

instance (cfg : ClusterConfig) (Q : Finset NodeId) (L : NodeId) (x : Clocked) (act : Action) :
    Decidable (Attended cfg Q L x act) :=
  decidable_of_iff
    ((∀ v ∈ Q, act.restarts v = false) ∧
      ∀ r ∈ act.reading x.cluster, r.1 ∈ Q → r.1 ≠ L →
        r.2 < (x.cluster.core r.1).lastLeaderContact + cfg.timing.electionMin)
    ⟨fun ⟨hstays, hheard⟩ => ⟨hstays, hheard⟩, fun h => ⟨h.stays, h.heard⟩⟩

/-! ## Tallies -/

/-- A tally is of members. -/
theorem preVotes_members (h : Cluster.Reachable cfg s) (hn : n ∈ cfg.members) :
    ∀ v ∈ (s.core n).preVotes, v ∈ cfg.members := by
  have hinv : Cluster.Reachable cfg s ∧
      ∀ n ∈ cfg.members, ∀ v ∈ (s.core n).preVotes, v ∈ cfg.members := by
    refine h.invariant (I := fun s => Cluster.Reachable cfg s ∧
      ∀ n ∈ cfg.members, ∀ v ∈ (s.core n).preVotes, v ∈ cfg.members) ?_
      ⟨Reaches.refl _ _, fun n _ v hv => absurd hv (Finset.notMem_empty v)⟩
    rintro s act s' ⟨hreach, hs⟩ hstep
    refine ⟨hreach.step hstep, fun n hn v hv => ?_⟩
    obtain ⟨a, hr⟩ := reachable_refines hreach
    have hmoved := Cluster.step_core hstep n
    generalize s'.core n = c at hmoved hv
    cases hmoved with
    | same => exact hs n hn v hv
    | op o hcall hrun =>
        have hshift := Op.shift hrun
        have hv : v ∈ c.standing.preVotes := hv
        generalize c.standing = w at hshift hv
        cases hshift with
        | keep | matchAppend | matchInstall | backtrack => exact hs n hn v hv
        | outdated | stepDown | yieldAppend | yieldInstall | campaign | acclaim | win =>
            exact absurd hv (Finset.notMem_empty v)
        | probe =>
            rw [Finset.mem_singleton.mp hv, (hr.nodes n hn).identity.id]
            exact hn
        | preVote sender reply =>
            rcases Finset.mem_insert.mp hv with rfl | hold
            · cases hcall with
              | preVoted hk =>
                  have hrpc := (hr.replies _ (List.mem_of_getElem? hk)).1
                  exact cfg.mem_of_mem_peers hrpc.sender hrpc.peer
            · exact hs n hn v hold
    | start => exact absurd hv (Finset.notMem_empty v)
  exact hinv.2 n hn

/-- Without the members of `Q` there is no majority. -/
theorem preVotes_short (h : Cluster.Reachable cfg s) (hQ : Majority cfg Q L)
    (hs : Shielded cfg Q L T s) (hn : n ∈ cfg.members) (hrole : (s.core n).role ≠ .leader) :
    (s.core n).preVoteSucceeded = false := by
  have hne : n ≠ L := by
    rintro rfl
    exact hrole hs.role
  by_cases hnQ : n ∈ Q
  · simp [preVoteSucceeded, hs.calm n hnQ hne]
  · obtain ⟨a, hr⟩ := reachable_refines h
    have hsub : (s.core n).preVotes ⊆ cfg.members.toFinset \ Q := by
      intro v hv
      refine Finset.mem_sdiff.mpr ⟨List.mem_toFinset.mpr (preVotes_members h hn v hv), ?_⟩
      intro hvQ
      exact hnQ (hs.tallies n hn hne v hv hvQ ▸ hvQ)
    have hle := Finset.card_le_card hsub
    have hQsub : Q ⊆ cfg.members.toFinset := fun v hv => List.mem_toFinset.mpr (hQ.members v hv)
    rw [Finset.card_sdiff_of_subset hQsub, ← cfg.length_peers hn] at hle
    have hcard := hQ.card
    have hlen := cfg.length_peers hn
    rw [List.toFinset_card_of_nodup cfg.nodup] at hlen
    have hquorum := (hr.nodes n hn).identity.quorum
    have : ¬ (s.core n).preVotes.card ≥ (s.core n).quorum := by omega
    simp [preVoteSucceeded, this]

/-! ## One action -/

section Step

variable {x x' : Clocked} {act : Action}

/-- No term is opened. -/
theorem Shielded.step_terms (h : Cluster.Reachable cfg s) (hQ : Majority cfg Q L)
    (hs : Shielded cfg Q L T s) (hstep : Cluster.step cfg s act = some s') :
    ∀ n ∈ cfg.members, (s'.core n).currentTerm ≤ T := fun n hn =>
  step_terms_le h hstep hs.terms
    (fun m now draw hact hrole => by
      subst hact
      exact preVotes_short h hQ hs (Cluster.step_tick hstep).1 hrole) hn

/-- What the leader of `T` sends it does not get itself. -/
theorem not_from_other (h : Cluster.Reachable cfg s) (hL : L ∈ cfg.members)
    (hs : Shielded cfg Q L T s) {rpc : Rpc} (hrpc : rpc ∈ s.requests) (hpeer : rpc.peer = L) :
    (∀ args, rpc.request = .append args → args.term ≠ T) ∧
      ∀ args, rpc.request = .install args → args.term ≠ T := by
  obtain ⟨a, hr⟩ := reachable_refines h
  have hok := hr.requests rpc hrpc
  have hN := hr.nodes L hL
  have hlead : a.lead T = some L := by
    rw [← hs.term, hN.mirrors.term]
    exact (hN.leadership hs.role).lead
  have hself : a.lead T ≠ some rpc.sender := by
    intro hsender
    rw [hlead] at hsender
    have hp := hok.peer
    rw [← Option.some.inj hsender, hpeer] at hp
    exact cfg.ne_of_mem_peers hL hp rfl
  have hreq := hok.request
  constructor
  · rintro args hargs rfl
    rw [hargs] at hreq
    exact hself (Segment.lead hreq)
  · rintro args hargs rfl
    rw [hargs] at hreq
    exact hself (Offer.lead hreq)

/-- The leader leads on. -/
theorem Shielded.step_leader (h : Cluster.Reachable cfg s) (hQ : Majority cfg Q L)
    (hs : Shielded cfg Q L T s) (hstays : act.restarts L = false)
    (hstep : Cluster.step cfg s act = some s') :
    (s'.core L).role = .leader ∧ (s'.core L).currentTerm = T := by
  have hL := hQ.members L hQ.mem
  have hterm := hs.step_terms h hQ hstep L hL
  have hrole := hs.role
  have hcur := hs.term
  have hmoved := Cluster.step_core hstep L
  generalize s'.core L = c at hmoved hterm ⊢
  cases hmoved with
  | same => exact ⟨hrole, hcur⟩
  | op o hcall hrun =>
      have hshift := Op.shift hrun
      have hterm : c.standing.currentTerm ≤ T := hterm
      show c.standing.role = .leader ∧ c.standing.currentTerm = T
      generalize c.standing = w at hshift hterm ⊢
      cases hshift with
      | keep | preVote | matchAppend | matchInstall | backtrack => exact ⟨hrole, hcur⟩
      | outdated args now draw hpre hnew =>
          have hle : args.term ≤ T := hterm
          omega
      | stepDown _ term hnew =>
          have hle : term ≤ T := hterm
          omega
      | yieldAppend args now draw hge =>
          have hle : args.term ≤ T := hterm
          cases hcall with
          | append hk hreq =>
              exact absurd (by omega)
                ((not_from_other h hL hs (List.mem_of_getElem? hk) rfl).1 _ hreq)
      | yieldInstall args now draw hge =>
          have hle : args.term ≤ T := hterm
          cases hcall with
          | install hk hreq =>
              exact absurd (by omega)
                ((not_from_other h hL hs (List.mem_of_getElem? hk) rfl).2 _ hreq)
      | probe =>
          cases hcall with
          | probe hno => exact absurd hrole hno
      | campaign | acclaim =>
          cases hcall with
          | campaign hno => exact absurd hrole hno
      | win _ _ hcand => rw [hrole] at hcand; cases hcand
  | start epoch now draw hact =>
      rw [hact] at hstays
      simp [Action.restarts] at hstays

/-- A member of `Q` does not begin to probe. -/
theorem Shielded.step_calm (h : Clocked.Reachable cfg x) (hQ : Majority cfg Q L)
    (hs : Shielded cfg Q L T x.cluster) (hok : Attended cfg Q L x act)
    (hstep : Cluster.step cfg x.cluster act = some s') {v : NodeId} (hv : v ∈ Q) (hne : v ≠ L) :
    (s'.core v).preCandidate = false := by
  have hcalm := hs.calm v hv hne
  by_cases htick : ∃ now draw, act = .tick v now draw
  · obtain ⟨now, draw, rfl⟩ := htick
    obtain ⟨hmem, rfl⟩ := Cluster.step_tick hstep
    rw [core_update_self (n := v) rfl]
    by_cases hrole : (x.cluster.core v).role = .leader
    · rw [tick_leads hrole]
      exact hcalm
    · have hwon := preVotes_short (Clocked.reachable h) hQ hs hmem hrole
      have hnow := (hok.heard (v, now) rfl hv hne).trans_le (Clocked.timers h v).patient
      rw [tick_idle hrole (Bool.eq_false_iff.mp hwon) hnow]
      exact hcalm
  · push Not at htick
    have hmoved := Cluster.step_core hstep v
    generalize s'.core v = c at hmoved ⊢
    cases hmoved with
    | same => exact hcalm
    | op o hcall hrun =>
        have hshift := Op.shift hrun
        show c.standing.preCandidate = false
        generalize c.standing = w at hshift ⊢
        cases hshift with
        | keep | preVote | matchAppend | matchInstall | backtrack => exact hcalm
        | outdated | stepDown | yieldAppend | yieldInstall | campaign | acclaim | win => rfl
        | probe =>
            cases hcall with
            | probe => exact absurd rfl (htick _ _)
    | start => rfl

/-- Nobody else counts a pre-vote of a member of `Q`. -/
theorem Shielded.step_tallies (h : Cluster.Reachable cfg s) (hs : Shielded cfg Q L T s)
    (hstep : Cluster.step cfg s act = some s') (hn : n ∈ cfg.members) (hne : n ≠ L) :
    ∀ v ∈ (s'.core n).preVotes, v ∈ Q → v = n := by
  intro v hv hvQ
  have hold := hs.tallies n hn hne v
  have hmoved := Cluster.step_core hstep n
  generalize s'.core n = c at hmoved hv
  cases hmoved with
  | same => exact hold hv hvQ
  | op o hcall hrun =>
      have hshift := Op.shift hrun
      have hv : v ∈ c.standing.preVotes := hv
      generalize c.standing = w at hshift hv
      cases hshift with
      | keep | matchAppend | matchInstall | backtrack => exact hold hv hvQ
      | outdated | stepDown | yieldAppend | yieldInstall | campaign | acclaim | win =>
          exact absurd hv (Finset.notMem_empty v)
      | probe =>
          obtain ⟨a, hr⟩ := reachable_refines h
          rw [Finset.mem_singleton.mp hv, (hr.nodes n hn).identity.id]
      | preVote sender reply hterm hpre hgrant =>
          rcases Finset.mem_insert.mp hv with rfl | hv
          · cases hcall with
            | preVoted hk hreq hprobe hepoch =>
                have hno := hs.pending _ (List.mem_of_getElem? hk) hne hvQ hepoch
                simp [grantsPreVote, hreq, hprobe, hgrant] at hno
          · exact hold hv hvQ
  | start => exact absurd hv (Finset.notMem_empty v)

/-- A member of `Q` refuses every probe. -/
theorem Shielded.serve_refuses (h : Clocked.Reachable cfg x) (hs : Shielded cfg Q L T x.cluster)
    {k : Nat} {now : Instant} {draw : Nat} (hon : x.onTime (.serve k now draw) = true)
    (hok : Attended cfg Q L x (.serve k now draw)) {rpc : Rpc}
    (hk : x.cluster.requests[k]? = some rpc) (hpeer : rpc.peer ∈ Q) :
    grantsPreVote (rpc, (serve (x.cluster.core rpc.peer) rpc.request now draw).2) = false := by
  cases hreq : rpc.request with
  | append | install => simp [grantsPreVote, hreq]
  | vote args =>
      have hserve : (serve (x.cluster.core rpc.peer) (.vote args) now draw).2 =
          .vote ((x.cluster.core rpc.peer).handleRequestVote args now draw).2 := rfl
      cases hpre : args.preVote with
      | false => simp [grantsPreVote, hreq, hserve, hpre]
      | true =>
          have hset := Clocked.timers h rpc.peer
          have hreads : (Action.serve k now draw).reading x.cluster = some (rpc.peer, now) := by
            rw [Action.reading, hk]
            rfl
          have hclock : x.clock rpc.peer ≤ now := by
            simpa [Clocked.onTime, Action.isRestart, hreads] using hon
          have hlive : (x.cluster.core rpc.peer).role = .leader ∨
              now - (x.cluster.core rpc.peer).lastLeaderContact <
                (x.cluster.core rpc.peer).timing.electionMin := by
            by_cases hne : rpc.peer = L
            · exact .inl (hne ▸ hs.role)
            · right
              have hnow := hok.heard (rpc.peer, now) hreads hpeer hne
              have htiming : (x.cluster.core rpc.peer).timing = cfg.timing := hset.timing
              rw [htiming]
              exact Nat.sub_lt_left_of_lt_add (hset.contact_le.trans hclock) hnow
          have hno : ((x.cluster.core rpc.peer).handleRequestVote args now draw).2.voteGranted =
              false := by
            unfold handleRequestVote
            rw [if_pos hpre]
            simp [hlive]
          simp [grantsPreVote, hreq, hserve, hno]

/-- No pre-vote of a member of `Q` gets on its way. -/
theorem Shielded.step_pending (h : Clocked.Reachable cfg x) (hs : Shielded cfg Q L T x.cluster)
    (hon : x.onTime act = true) (hok : Attended cfg Q L x act)
    (hstep : Cluster.step cfg x.cluster act = some s') {y : Rpc × Reply} (hy : y ∈ s'.replies)
    (hsender : y.1.sender ≠ L) (hpeer : y.1.peer ∈ Q)
    (hepoch : y.1.epoch = (s'.procs y.1.sender).epoch) : grantsPreVote y = false := by
  rcases Cluster.step_replies hstep hy with hold | ⟨k, now, draw, rfl, hk, hreply⟩
  · obtain ⟨a, hr⟩ := reachable_refines (Clocked.reachable h)
    by_cases hre : ∃ now draw, act = .restart y.1.sender now draw
    · -- A grant for a process that is gone.
      obtain ⟨now, draw, rfl⟩ := hre
      have hle := (hr.replies y hold).1.epoch
      rw [restart_epoch hstep] at hepoch
      omega
    · push Not at hre
      rw [(step_recorded hstep).epoch _ hre] at hepoch
      exact hs.pending y hold hsender hpeer hepoch
  · obtain ⟨rpc, reply⟩ := y
    dsimp only at hreply hpeer hk
    rw [hreply]
    exact hs.serve_refuses h hon hok hk hpeer

theorem Shielded.step (h : Clocked.Reachable cfg x) (hQ : Majority cfg Q L)
    (hs : Shielded cfg Q L T x.cluster) (hok : Attended cfg Q L x act)
    (hstep : Clocked.step cfg x act = some x') : Shielded cfg Q L T x'.cluster := by
  obtain ⟨hon, hcluster, -⟩ := Clocked.of_step hstep
  have hreach := Clocked.reachable h
  obtain ⟨hrole, hterm⟩ := hs.step_leader hreach hQ (hok.stays L hQ.mem) hcluster
  exact
    { role := hrole
      term := hterm
      terms := hs.step_terms hreach hQ hcluster
      calm := fun _ hv hne => hs.step_calm h hQ hok hcluster hv hne
      tallies := fun _ hn hne => hs.step_tallies hreach hcluster hn hne
      pending := fun _ hy => hs.step_pending h hon hok hcluster hy }

end Step

/-! ## Whole runs -/

/-- Node 1 is elected, and node 2 has heard from it. -/
def heardRun : List Action := electedRun ++ [.tick 1 1010 0, .serve 4 1010 0]

set_option maxRecDepth 100000 in
theorem heardRun_isSome :
    (run (Clocked.step trio) (Clocked.init trio) heardRun).isSome = true := by decide

def heard : Clocked := (run (Clocked.step trio) (Clocked.init trio) heardRun).get heardRun_isSome

end Murmur.Raft
