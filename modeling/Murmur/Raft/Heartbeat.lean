/-
  Heartbeats keep followers from ever timing out.

  * `Punctual`: what the scheduler, the network and the clocks do for a majority `Q` around `L`. Its
    clocks run at the same rate (each with an offset of its own), `L` ticks at least once a
    `period`, a request from `L` to a member of `Q` is served within a `delay`, and none of them
    restarts. Nothing is assumed of the other nodes, nor of messages from or to them.
  * `Beating`: between two heartbeats, each member has heard from a leader since the last one, or
    the last one it has not heard yet is still on its way.
  * `heartbeats_keep_leader`: if `heartbeat + period + delay` is within `electionMin`, `L` leads on.
-/
import Murmur.Raft.Alone
import Murmur.Raft.LiveLeader
import Murmur.Raft.RealTime

namespace Murmur.Raft

open Murmur.Basis Murmur.Protocol ConsensusModule

variable {cfg : ClusterConfig} {s s' : Cluster} {Q : Finset NodeId} {L n v : NodeId} {T : Nat}
  {act : Action}

/-! ## What the driver and the handlers do to the two clocks -/

/-- A tick of a leader whose heartbeat is not due leaves its heartbeat clock alone; one whose
    heartbeat is due sets it, unless there is nobody to send to. -/
theorem tick_lastHeartbeat {w : Process} (hrole : w.core.role = .leader) {r : Instant}
    (hpast : w.lastHeartbeat ≤ r) (draw : Nat) :
    (r < w.lastHeartbeat + w.core.timing.heartbeat →
      (tick w r draw).1.lastHeartbeat = w.lastHeartbeat) ∧
    (w.lastHeartbeat + w.core.timing.heartbeat ≤ r → w.core.peers ≠ [] →
      (tick w r draw).1.lastHeartbeat = r) := by
  have hlead : w.core.isLeader = true := decide_eq_true hrole
  unfold tick
  rw [if_pos hlead]
  dsimp only
  constructor
  · intro hearly
    have hnot : ¬ r - w.lastHeartbeat ≥ w.core.timing.heartbeat := fun hge =>
      absurd hearly (Nat.not_lt.mpr (Nat.add_le_of_le_sub' hpast hge))
    rw [decide_eq_false hnot]
    split
    · rfl
    · rfl
  · intro hdue hpeers
    have hyes : r - w.lastHeartbeat ≥ w.core.timing.heartbeat := Nat.le_sub_of_add_le' hdue
    rw [decide_eq_true hyes]
    split
    · next hempty =>
        obtain ⟨p, hp⟩ := List.exists_mem_of_ne_nil _ hpeers
        have hmem := mem_replicate (c := w.core) hp
        rw [List.isEmpty_iff.mp hempty] at hmem
        cases hmem
    · rfl

/-- Only its own ticks, and restarts, touch a node's heartbeat clock. -/
theorem step_lastHeartbeat (h : Cluster.step cfg s act = some s')
    (htick : ∀ r draw, act ≠ .tick n r draw) (hre : act.restarts n = false) :
    (s'.procs n).lastHeartbeat = (s.procs n).lastHeartbeat := by
  have hcore : ∀ m c, ((s.setCore m c).procs n).lastHeartbeat = (s.procs n).lastHeartbeat := by
    intro m c
    unfold Cluster.setCore
    dsimp only
    by_cases hm : n = m
    · subst hm
      rw [Function.update_self]
    · rw [Function.update_of_ne hm]
  cases act with
  | tick m r draw =>
      obtain ⟨-, rfl⟩ := Cluster.step_tick h
      have hm : n ≠ m := by
        rintro rfl
        exact htick r draw rfl
      show (Function.update s.procs m _ n).lastHeartbeat = _
      rw [Function.update_of_ne hm]
  | serve k r draw => obtain ⟨rpc, -, rfl⟩ := Cluster.step_serve h; exact hcore _ _
  | fold k => obtain ⟨rpc, reply, -, -, rfl⟩ := Cluster.step_fold h; exact hcore _ _
  | propose m command => obtain ⟨-, rfl⟩ := Cluster.step_propose h; exact hcore _ _
  | snapshot m index data =>
      obtain ⟨-, core, taken, -, rfl, -⟩ := Cluster.step_snapshot h
      exact hcore _ _
  | drain m => obtain ⟨-, core, out, -, rfl⟩ := Cluster.step_drain h; exact hcore _ _
  | restart m r draw =>
      obtain ⟨-, rfl⟩ := Cluster.step_restart h
      have hm : n ≠ m := by
        rintro rfl
        exact Action.ne_restart hre r draw rfl
      show (Function.update s.procs m _ n).lastHeartbeat = _
      rw [Function.update_of_ne hm]

/-- A node's last word from a leader stays, or comes now. -/
theorem step_contact (h : Cluster.step cfg s act = some s') (hre : act.restarts n = false) :
    (s'.core n).lastLeaderContact = (s.core n).lastLeaderContact ∨
      act.reading s = some (n, (s'.core n).lastLeaderContact) := by
  have hmoved := Cluster.step_core h n
  generalize s'.core n = c at hmoved ⊢
  cases hmoved with
  | same => exact .inl rfl
  | op o hcall hrun =>
      have hrearms := Op.rearms hrun
      have hcontact : c.lastLeaderContact = c.timer.contact := rfl
      rw [hcontact]
      generalize c.timer = t at hrearms ⊢
      cases hrearms with
      | keep | arm => exact .inl rfl
      | hear hreading => exact .inr (Clocked.reading_of_calls hcall hreading).2
  | start epoch r draw hact => exact absurd hact (Action.ne_restart hre r draw)

/-- The word of a leader of term `T`. -/
def Request.leads (T : Nat) : Request → Bool
  | .append args => args.term = T
  | .install args => args.term = T
  | .vote _ => false

/-- Whoever is not past `T` takes note of it. -/
theorem serve_hears {c : ConsensusModule} {request : Request} (hreq : request.leads T = true)
    (hterm : c.currentTerm ≤ T) (r : Instant) (draw : Nat) :
    (serve c request r draw).1.lastLeaderContact = r := by
  have hyield : ∀ leader, (c.yieldTo T leader r draw).lastLeaderContact = r := fun leader =>
    congrArg Timer.contact (yieldTo_timer (c := c) T leader r draw)
  rw [serve_eq_direct]
  cases request with
  | vote args => cases hreq
  | append args =>
      obtain rfl : args.term = T := of_decide_eq_true hreq
      show (c.handleAppendEntries args r draw).1.lastLeaderContact = r
      unfold handleAppendEntries
      rw [if_neg (Nat.not_lt.mpr hterm)]
      dsimp only
      split
      · exact hyield _
      · have htimer :=
          (followCommit_timer (c := (c.yieldTo args.term args.leaderId r draw).storeEntries
          args.prevLogIndex args.entries) args.leaderCommit).trans (storeEntries_timer _ _)
        exact (congrArg Timer.contact htimer).trans (hyield args.leaderId)
  | install args =>
      obtain rfl : args.term = T := of_decide_eq_true hreq
      show (c.handleInstallSnapshot args r draw).1.lastLeaderContact = r
      unfold handleInstallSnapshot
      rw [if_neg (Nat.not_lt.mpr hterm)]
      dsimp only
      split
      · exact hyield args.leaderId
      · exact hyield args.leaderId

/-- What a leader sends is its word. -/
theorem nextRequest_leads (c : ConsensusModule) (p : NodeId) :
    (nextRequest c p).leads c.currentTerm = true := by
  unfold nextRequest
  split
  · exact decide_eq_true rfl
  · exact decide_eq_true rfl

/-! ## The setting -/

/-- How often the leader ticks at least, and how long a request from it takes at most. -/
structure Pace where
  period : Duration
  delay : Duration

/-- What the majority `Q` around `L` can count on. The first `q` requests are from before. -/
structure Punctual (Q : Finset NodeId) (L : NodeId) (offset : NodeId → Instant) (pace : Pace)
    (q : Nat) (x : Timed) (event : Instant × Action) : Prop where
  stays : ∀ v ∈ Q, event.2.restarts v = false
  clocks : ∀ r ∈ event.2.reading x.cluster, r.1 ∈ Q → r.2 = event.1 + offset r.1
  ticks : event.1 ≤ x.ticked L + pace.period
  arrives : ∀ k < x.cluster.requests.length, q ≤ k → ∀ m ∈ x.underway k, m.1.sender = L →
    m.1.peer ∈ Q → event.1 ≤ m.2 + pace.delay

instance (Q : Finset NodeId) (L : NodeId) (offset : NodeId → Instant) (pace : Pace) (q : Nat)
    (x : Timed) (event : Instant × Action) : Decidable (Punctual Q L offset pace q x event) :=
  decidable_of_iff
    ((∀ v ∈ Q, event.2.restarts v = false) ∧
      (∀ r ∈ event.2.reading x.cluster, r.1 ∈ Q → r.2 = event.1 + offset r.1) ∧
      event.1 ≤ x.ticked L + pace.period ∧
      ∀ k < x.cluster.requests.length, q ≤ k → ∀ m ∈ x.underway k, m.1.sender = L →
        m.1.peer ∈ Q → event.1 ≤ m.2 + pace.delay)
    ⟨fun ⟨hstays, hclocks, hticks, harrives⟩ => ⟨hstays, hclocks, hticks, harrives⟩,
      fun h => ⟨h.stays, h.clocks, h.ticks, h.arrives⟩⟩

variable {offset : NodeId → Instant} {pace : Pace} {q : Nat} {beat now : Instant} {x y : Timed}
  {clocked : Clocked}

/-- The last heartbeat of `L` was at `beat`, and none has been due at a tick since. -/
structure Beats (cfg : ClusterConfig) (L : NodeId) (offset : NodeId → Instant) (beat : Instant)
    (x : Timed) : Prop where
  last : (x.cluster.procs L).lastHeartbeat = beat + offset L
  past : beat ≤ x.time
  recent : x.ticked L ≤ beat + cfg.timing.heartbeat

/-- Word from `L` is on its way to `v`, sent at most a heartbeat and a tick after `v` heard from a
    leader last. -/
def Expects (cfg : ClusterConfig) (L : NodeId) (T : Nat) (offset : NodeId → Instant) (pace : Pace)
    (q : Nat) (x : Timed) (v : NodeId) : Prop :=
  ∃ k rpc t, q ≤ k ∧ x.underway k = some (rpc, t) ∧ rpc.sender = L ∧ rpc.peer = v ∧
    rpc.request.leads T = true ∧
    t + offset v ≤ (x.cluster.core v).lastLeaderContact + cfg.timing.heartbeat + pace.period

structure Beating (cfg : ClusterConfig) (Q : Finset NodeId) (L : NodeId) (T : Nat)
    (offset : NodeId → Instant) (pace : Pace) (q : Nat) (x : Timed) : Prop where
  kept : Timed.Kept cfg x
  shielded : Shielded cfg Q L T x.cluster
  requests : q ≤ x.cluster.requests.length
  beats : ∀ v ∈ Q, v ≠ L → ∃ beat, Beats cfg L offset beat x ∧
    (beat + offset v ≤ (x.cluster.core v).lastLeaderContact ∨ Expects cfg L T offset pace q x v)

/-! ## One event -/

/-- A member of `Q` that reads its clock has heard from a leader in time. -/
theorem Beating.attended (h : Beating cfg Q L T offset pace q x)
    (hpace : cfg.timing.heartbeat + pace.period + pace.delay < cfg.timing.electionMin)
    (hok : Punctual Q L offset pace q x (now, act)) : Attended cfg Q L x.clocked act := by
  refine ⟨hok.stays, ?_⟩
  rintro ⟨v, r⟩ hreads hv hne
  obtain rfl : r = now + offset v := hok.clocks (v, r) hreads hv
  obtain ⟨beat, hb, hheard | ⟨k, rpc, t, hq, hk, hsender, hpeer, -, hnear⟩⟩ := h.beats v hv hne
  · -- It has heard since the last heartbeat, which is at most a heartbeat and a tick old.
    have hnow := hok.ticks
    have hrecent := hb.recent
    show now + offset v < (x.cluster.core v).lastLeaderContact + cfg.timing.electionMin
    unfold Instant Duration at *
    omega
  · -- What is on its way takes at most a delay.
    have hlen := (List.getElem?_eq_some_iff.mp (unread_eq_some.mp hk).2.1).1
    have hnow := hok.arrives k hlen hq (rpc, t) hk hsender (hpeer ▸ hv)
    show now + offset v < (x.cluster.core v).lastLeaderContact + cfg.timing.electionMin
    unfold Instant Duration at *
    omega

/-- A heartbeat that is due at a tick is sent to every peer. -/
theorem Beats.tick (hb : Beats cfg L offset beat x) (hx : Timed.Kept cfg x) (hL : L ∈ cfg.members)
    (hrole : (x.cluster.core L).role = .leader) {p : NodeId} (hp : p ∈ cfg.peers L) {draw : Nat}
    (hle : x.time ≤ now)
    (hstep : Clocked.step cfg x.clocked (.tick L (now + offset L) draw) = some clocked) :
    Beats cfg L offset beat (x.note now (.tick L (now + offset L) draw) clocked) ∨
      Beats cfg L offset now (x.note now (.tick L (now + offset L) draw) clocked) ∧
      ∃ k rpc, x.cluster.requests.length ≤ k ∧ clocked.cluster.requests[k]? = some rpc ∧
        rpc.sender = L ∧ rpc.peer = p ∧ rpc.request = nextRequest (x.cluster.core L) p := by
  obtain ⟨-, hcluster⟩ := Cluster.step_tick (Clocked.of_step hstep).2.1
  obtain ⟨a, hr⟩ := reachable_refines (Clocked.reachable hx.reachable)
  have hpeers := (hr.nodes L hL).identity.peers
  have hpeer : p ∈ (x.cluster.procs L).core.peers := hpeers ▸ hp
  have htiming : (x.cluster.procs L).core.timing = cfg.timing :=
    (Clocked.timers hx.reachable L).timing
  have hrole : (x.cluster.procs L).core.role = .leader := hrole
  have hpast : (x.cluster.procs L).lastHeartbeat ≤ now + offset L := by
    rw [hb.last]
    exact Nat.add_le_add_right (hb.past.trans hle) _
  obtain ⟨hearly, hdue⟩ := tick_lastHeartbeat hrole hpast draw
  rw [htiming, hb.last] at hearly hdue
  have hprocs : (clocked.cluster.procs L).lastHeartbeat =
      (Raft.tick (x.cluster.procs L) (now + offset L) draw).1.lastHeartbeat := by
    rw [hcluster]
    show (Function.update x.cluster.procs L _ L).lastHeartbeat = _
    rw [Function.update_self]
  have hticked : (x.note now (.tick L (now + offset L) draw) clocked).ticked L = now := by
    simp [Timed.note, Action.ticks]
  rcases Nat.lt_or_ge now (beat + cfg.timing.heartbeat) with hlt | hge
  · left
    refine ⟨hprocs.trans (hearly ?_), hb.past.trans hle, hticked.trans_le hlt.le⟩
    rw [Nat.add_right_comm]
    exact Nat.add_lt_add_right hlt _
  · right
    have hbeat : beat + offset L + cfg.timing.heartbeat ≤ now + offset L := by
      rw [Nat.add_right_comm]
      exact Nat.add_le_add_right hge _
    have hlate : (x.cluster.procs L).lastHeartbeat +
        (x.cluster.procs L).core.timing.heartbeat ≤ now + offset L := by
      rwa [htiming, hb.last]
    refine ⟨⟨hprocs.trans (hdue hbeat (List.ne_nil_of_mem hpeer)), le_rfl,
      hticked.trans_le (Nat.le_add_right _ _)⟩, ?_⟩
    have hmsg := tick_beats hrole hlate draw (mem_replicate hpeer)
    obtain ⟨k, hnew, hk⟩ := Cluster.step_sends (Clocked.of_step hstep).2.1 hmsg
    exact ⟨k, _, hnew, hk, rfl, rfl, rfl⟩

theorem Beats.other (hb : Beats cfg L offset beat x) (hact : act.ticks L = false)
    (hre : act.restarts L = false) (hle : x.time ≤ now)
    (hstep : Clocked.step cfg x.clocked act = some clocked) :
    Beats cfg L offset beat (x.note now act clocked) := by
  have htick : ∀ r draw, act ≠ .tick L r draw := by
    rintro r draw rfl
    simp [Action.ticks] at hact
  have hticked : (x.note now act clocked).ticked L = x.ticked L := by
    simp [Timed.note, hact]
  exact ⟨(step_lastHeartbeat (Clocked.of_step hstep).2.1 htick hre).trans hb.last,
    hb.past.trans hle,
    hticked.trans_le hb.recent⟩

/-- The beat goes on: the last heartbeat is the one it was, or one is sent now, to `p` among
    others. -/
theorem Beats.step (hb : Beats cfg L offset beat x) (hx : Timed.Kept cfg x)
    (hQ : Majority cfg Q L) (hrole : (x.cluster.core L).role = .leader) {p : NodeId}
    (hp : p ∈ cfg.peers L) (hok : Punctual Q L offset pace q x (now, act)) (hle : x.time ≤ now)
    (hstep : Clocked.step cfg x.clocked act = some clocked) :
    Beats cfg L offset beat (x.note now act clocked) ∨
      Beats cfg L offset now (x.note now act clocked) ∧
      ∃ k rpc, x.cluster.requests.length ≤ k ∧
        (x.note now act clocked).underway k = some (rpc, now) ∧ rpc.sender = L ∧ rpc.peer = p ∧
        rpc.request = nextRequest (x.cluster.core L) p := by
  cases hact : act.ticks L with
  | false => exact .inl (hb.other hact (hok.stays L hQ.mem) hle hstep)
  | true =>
      cases act with
      | tick m r draw =>
          obtain rfl : m = L := of_decide_eq_true hact
          obtain rfl : r = now + offset m := hok.clocks (m, r) rfl hQ.mem
          refine (hb.tick hx (hQ.members m hQ.mem) hrole hp hle hstep).imp_right ?_
          rintro ⟨hnow, k, rpc, hnew, hk, hrest⟩
          exact ⟨hnow, k, rpc, hnew, hx.underway_new hnew hk rfl now, hrest⟩
      | _ => cases hact

/-- A request that arrives at a member is heard there. -/
theorem Beating.hears (h : Beating cfg Q L T offset pace q x) (hv : v ∈ Q) {k : Nat} {rpc : Rpc}
    {t : Instant} (hQ : Majority cfg Q L) (hk : x.underway k = some (rpc, t)) (hpeer : rpc.peer = v)
    (hleads : rpc.request.leads T = true) (hok : Punctual Q L offset pace q x (now, act))
    (hact : act.serves k = true) (hstep : Clocked.step cfg x.clocked act = some clocked) :
    (clocked.cluster.core v).lastLeaderContact = now + offset v := by
  cases act with
  | serve j r draw =>
      obtain rfl : j = k := of_decide_eq_true hact
      obtain ⟨rpc', hj, hcluster⟩ := Cluster.step_serve (Clocked.of_step hstep).2.1
      obtain rfl : rpc' = rpc :=
        Option.some.inj (hj.symm.trans (unread_eq_some.mp hk).2.1)
      have hreads : (Action.serve j r draw).reading x.cluster = some (rpc'.peer, r) := by
        rw [Action.reading, hj]
        rfl
      subst hpeer
      obtain rfl : r = now + offset rpc'.peer := hok.clocks _ hreads hv
      have hcore : clocked.cluster.core rpc'.peer =
          (serve (x.cluster.core rpc'.peer) rpc'.request (now + offset rpc'.peer) draw).1 := by
        rw [hcluster]
        exact Cluster.core_setCore_self x.cluster _ _
      rw [hcore]
      exact serve_hears hleads (h.shielded.terms _ (hQ.members _ hv)) _ _
  | _ => cases hact

theorem Beating.step (h : Beating cfg Q L T offset pace q x) (hQ : Majority cfg Q L)
    (hpace : cfg.timing.heartbeat + pace.period + pace.delay < cfg.timing.electionMin)
    (hok : Punctual Q L offset pace q x (now, act)) (hle : x.time ≤ now)
    (hstep : Clocked.step cfg x.clocked act = some clocked) :
    Beating cfg Q L T offset pace q (x.note now act clocked) := by
  have hcluster := (Clocked.of_step hstep).2.1
  refine
    { kept := h.kept.step hle hstep
      shielded := h.shielded.step h.kept.reachable hQ (h.attended hpace hok) hstep
      requests := h.requests.trans (Cluster.step_grows hcluster).1.length_le
      beats := fun v hv hne => ?_ }
  obtain ⟨beat, hb, hheard⟩ := h.beats v hv hne
  have hp : v ∈ cfg.peers L :=
    cfg.mem_peers (hQ.members L hQ.mem) (hQ.members v hv) hne
  have hbeat := hb.step h.kept hQ h.shielded.role hp hok hle hstep
  -- Whoever hears now has heard since the last heartbeat, whichever that is.
  have hnow : (clocked.cluster.core v).lastLeaderContact = now + offset v →
      ∃ beat, Beats cfg L offset beat (x.note now act clocked) ∧
        (beat + offset v ≤ (clocked.cluster.core v).lastLeaderContact ∨
          Expects cfg L T offset pace q (x.note now act clocked) v) := by
    intro hcontact
    rcases hbeat with hsame | ⟨hnew, -⟩
    · exact ⟨beat, hsame, .inl (hcontact ▸ Nat.add_le_add_right hsame.past _)⟩
    · exact ⟨now, hnew, .inl hcontact.ge⟩
  rcases step_contact hcluster (hok.stays v hv) with hcontact | hreads
  · rcases hheard with hheard | ⟨k, rpc, t, hq, hk, hsender, hpeer, hleads, hnear⟩
    · rcases hbeat with hsame | ⟨hnew, k, rpc, hlen, hk, hsender, hpeer, hreq⟩
      · exact ⟨beat, hsame, .inl (hheard.trans_eq hcontact.symm)⟩
      · refine ⟨now, hnew, .inr ⟨k, rpc, now, h.requests.trans hlen, hk, hsender, hpeer, ?_, ?_⟩⟩
        · rw [hreq, ← h.shielded.term]
          exact nextRequest_leads _ _
        · show now + offset v ≤ (clocked.cluster.core v).lastLeaderContact +
            cfg.timing.heartbeat + pace.period
          have hcontact : (clocked.cluster.core v).lastLeaderContact =
            (x.cluster.core v).lastLeaderContact := hcontact
          have hticks := hok.ticks
          have hrecent := hb.recent
          unfold Instant Duration at *
          omega
    · cases hact : act.serves k with
      | true => exact hnow (h.hears hv hQ hk hpeer hleads hok hact hstep)
      | false =>
          have hexpects : Expects cfg L T offset pace q (x.note now act clocked) v :=
            ⟨k, rpc, t, hq, Timed.underway_note hk hstep hact now, hsender, hpeer, hleads,
              hnear.trans_eq (by rw [← hcontact]; rfl)⟩
          rcases hbeat with hsame | ⟨hnew, -⟩
          · exact ⟨beat, hsame, .inr hexpects⟩
          · exact ⟨now, hnew, .inr hexpects⟩
  · exact hnow (hok.clocks _ hreads hv)

/-! ## Whole runs -/

/-- Node 1 is elected and sends its first heartbeats, the one to node 2 arrives. The clock of node 2
    is 5 s ahead. -/
def inTouchRun : List (Instant × Action) :=
  [(1000, .tick 1 1000 0), (1000, .serve 0 6000 0), (1000, .fold 0), (1000, .tick 1 1000 0),
    (1000, .serve 2 6000 0), (1000, .fold 1), (1010, .tick 1 1010 0), (1012, .serve 4 6012 0)]

end Murmur.Raft
