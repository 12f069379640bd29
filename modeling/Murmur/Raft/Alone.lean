/-
  Runs in which only the nodes of a set `M` take part.

  They tick, talk to each other, take commands and apply them. Nobody restarts or takes a snapshot,
  and of the messages on record when the run begins none arrives: the first `q` requests and the
  first `r` replies are lost, and so is every message from or to a node outside `M`.

  * `Turn`: a part of such a run, with the nodes it touches.
  * `Stage.tick`, `Stage.roundTrip`: a tick, and a request on record that is served and answered.
  * `Stage.poll`: one request put to several peers, one after the other.
  * `Stage.exchange`: a round between a leader and a peer.
-/
import Murmur.Raft.Clock
import Murmur.Raft.Exchange

namespace Murmur.Raft

open Murmur.Basis Murmur.Protocol ConsensusModule

variable {cfg : ClusterConfig} {M : Finset NodeId} {q r : Nat} {x y z : Clocked} {n p : NodeId}

/-! ## The runs -/

/-- What the nodes `M` do among themselves, with new messages only. -/
def Action.among (M : Finset NodeId) (q r : Nat) (s : Cluster) : Action → Bool
  | .tick n _ _ => n ∈ M
  | .serve k _ _ => q ≤ k ∧ (s.requests[k]?).all fun rpc => rpc.sender ∈ M ∧ rpc.peer ∈ M
  | .fold k => r ≤ k ∧ (s.replies[k]?).all fun a => a.1.sender ∈ M ∧ a.1.peer ∈ M
  | .propose .. | .drain .. | .snapshot .. | .restart .. => false

/-- What they do for their state machines. -/
def Action.hosted (M : Finset NodeId) : Action → Bool
  | .propose n _ | .drain n => n ∈ M
  | .tick .. | .serve .. | .fold .. | .snapshot .. | .restart .. => false

def Among (cfg : ClusterConfig) (M : Finset NodeId) (q r : Nat) (x y : Clocked) : Prop :=
  Within (Clocked.step cfg) (fun x act => act.among M q r x.cluster = true) x y

def Alone (cfg : ClusterConfig) (M : Finset NodeId) (q r : Nat) (x y : Clocked) : Prop :=
  Within (Clocked.step cfg)
    (fun x act => act.among M q r x.cluster = true ∨ act.hosted M = true) x y

/-- A state in such a run. -/
structure Stage (cfg : ClusterConfig) (q r : Nat) (x : Clocked) : Prop where
  reachable : Cluster.Reachable cfg x.cluster
  requests : q ≤ x.cluster.requests.length
  replies : r ≤ x.cluster.replies.length

/-- A part of such a run, of Raft's own work, that changes the nodes in `A` only. -/
structure Turn (cfg : ClusterConfig) (M : Finset NodeId) (q r : Nat) (A : Set NodeId)
    (x y : Clocked) : Prop where
  run : Among cfg M q r x y
  stage : Stage cfg q r y
  core : ∀ m, m ∉ A → y.cluster.core m = x.cluster.core m
  epoch : ∀ m, (y.cluster.procs m).epoch = (x.cluster.procs m).epoch
  delivered : y.cluster.delivered = x.cluster.delivered
  requests : x.cluster.requests <+: y.cluster.requests

theorem Turn.refl (hx : Stage cfg q r x) (A : Set NodeId) : Turn cfg M q r A x x :=
  ⟨.refl, hx, fun _ _ => rfl, fun _ => rfl, rfl, List.prefix_rfl⟩

theorem Turn.trans {A B : Set NodeId} (h : Turn cfg M q r A x y) (h' : Turn cfg M q r B y z) :
    Turn cfg M q r (A ∪ B) x z where
  run := Within.trans h.run h'.run
  stage := h'.stage
  core m hm := by
    rw [Set.mem_union, not_or] at hm
    rw [h'.core m hm.2, h.core m hm.1]
  epoch m := (h'.epoch m).trans (h.epoch m)
  delivered := h'.delivered.trans h.delivered
  requests := h.requests.trans h'.requests

theorem Turn.alone {A : Set NodeId} (h : Turn cfg M q r A x y) : Alone cfg M q r x y :=
  Within.mono (fun _ _ hact => Or.inl hact) h.run

theorem Turn.mono {A B : Set NodeId} (h : Turn cfg M q r A x y) (hAB : A ⊆ B) :
    Turn cfg M q r B x y :=
  { h with core := fun m hm => h.core m fun hA => hm (hAB hA) }

/-- A request that can be served. -/
def Pending (q : Nat) (x : Clocked) (rpc : Rpc) : Prop :=
  ∃ k, q ≤ k ∧ x.cluster.requests[k]? = some rpc

theorem Pending.later {rpc : Rpc} (h : Pending q x rpc)
    (hpre : x.cluster.requests <+: y.cluster.requests) : Pending q y rpc := by
  obtain ⟨k, hk, hget⟩ := h
  exact ⟨k, hk, getElem?_of_pre hpre hget⟩

/-! ## Ticks -/

theorem Stage.tick (hx : Stage cfg q r x) (hn : n ∈ M) (hmem : n ∈ cfg.members) {now : Instant}
    (hnow : x.clock n ≤ now) (draw : Nat) :
    ∃ y, Turn cfg M q r {n} x y ∧
      y.cluster.core n = (Raft.tick (x.cluster.procs n) now draw).1.core ∧
      (∀ m, m ≠ n → y.clock m = x.clock m) ∧
      ∀ msg ∈ (Raft.tick (x.cluster.procs n) now draw).2,
        Pending q y ⟨n, (x.cluster.procs n).epoch, msg.1, msg.2⟩ := by
  let s : Cluster := { x.cluster with
    procs := Function.update x.cluster.procs n (Raft.tick (x.cluster.procs n) now draw).1
    requests := x.cluster.requests ++ x.cluster.sends n now draw }
  let y : Clocked := ⟨s, Function.update x.clock n now⟩
  have hstep : Clocked.step cfg x (.tick n now draw) = some y := by
    unfold Clocked.step Cluster.step
    simp only [Clocked.onTime, Action.isRestart, Action.reading, Option.all_some, hnow, decide_true,
      Bool.or_true, if_true, hmem]
    rfl
  have hrun : Among cfg M q r x y :=
    Within.refl.step (.tick n now draw) (decide_eq_true hn) hstep
  have hlen : q ≤ y.cluster.requests.length := by
    have := hx.requests
    show q ≤ (x.cluster.requests ++ _).length
    rw [List.length_append]
    omega
  refine ⟨y, ⟨hrun, ⟨hx.reachable.step (Clocked.of_step hstep).2.1, hlen, hx.replies⟩,
    fun m hm => ?_, fun m => ?_, rfl, List.prefix_append _ _⟩, core_update_self rfl,
    fun m hm => Function.update_of_ne hm _ _, ?_⟩
  · exact core_update_ne rfl hm
  · show (Function.update x.cluster.procs n _ m).epoch = _
    by_cases hm : m = n
    · subst hm
      rw [Function.update_self, tick_epoch]
    · rw [Function.update_of_ne hm]
  · intro msg hmsg
    obtain ⟨k, hnew, hk⟩ := Cluster.step_sends (Clocked.of_step hstep).2.1 hmsg
    exact ⟨k, hx.requests.trans hnew, hk⟩

/-! ## Round trips -/

theorem Cluster.epoch_setCore (s : Cluster) (n : NodeId) (c : ConsensusModule) (m : NodeId) :
    ((s.setCore n c).procs m).epoch = (s.procs m).epoch := by
  unfold Cluster.setCore
  dsimp only
  by_cases hm : m = n
  · subst hm
    rw [Function.update_self]
  · rw [Function.update_of_ne hm]

/-- A request is served and its answer folded in. -/
theorem Stage.roundTrip (hx : Stage cfg q r x) {rpc : Rpc} (hrpc : Pending q x rpc)
    (hs : rpc.sender ∈ M) (hp : rpc.peer ∈ M) (hne : rpc.sender ≠ rpc.peer)
    (hepoch : rpc.epoch = (x.cluster.procs rpc.sender).epoch) {now : Instant}
    (hnow : x.clock rpc.peer ≤ now) (draw : Nat) :
    ∃ y, Turn cfg M q r {rpc.sender, rpc.peer} x y ∧
      y.cluster.core rpc.peer =
        (serve (x.cluster.core rpc.peer) rpc.request now draw).1 ∧
      y.cluster.core rpc.sender = fold (x.cluster.core rpc.sender) rpc
        (serve (x.cluster.core rpc.peer) rpc.request now draw).2 ∧
      y.clock rpc.peer = now := by
  obtain ⟨k, hk, hget⟩ := hrpc
  let answer := serve (x.cluster.core rpc.peer) rpc.request now draw
  let s₁ : Cluster := { x.cluster.setCore rpc.peer answer.1 with
    replies := x.cluster.replies ++ [(rpc, answer.2)] }
  let x₁ : Clocked := ⟨s₁, Function.update x.clock rpc.peer now⟩
  have hserve : Clocked.step cfg x (.serve k now draw) = some x₁ := by
    unfold Clocked.step Cluster.step
    simp only [Clocked.onTime, Action.isRestart, Action.reading, hget, Option.map_some,
      Option.all_some, hnow, decide_true, Bool.or_true, if_true, Clocked.advance]
    rfl
  have hlen : s₁.replies[x.cluster.replies.length]? = some (rpc, answer.2) := by
    show (x.cluster.replies ++ [_])[_]? = _
    simp
  have hcore₁ : s₁.core rpc.sender = x.cluster.core rpc.sender :=
    Cluster.core_setCore_ne x.cluster answer.1 hne
  have hepoch₁ : rpc.epoch = (s₁.procs rpc.sender).epoch := by
    show _ = (Function.update x.cluster.procs rpc.peer _ rpc.sender).epoch
    rw [Function.update_of_ne hne, hepoch]
  let y : Clocked :=
    ⟨s₁.setCore rpc.sender (fold (s₁.core rpc.sender) rpc answer.2), x₁.clock⟩
  have hfold : Clocked.step cfg x₁ (.fold x.cluster.replies.length) = some y := by
    have hlen : x₁.cluster.replies[x.cluster.replies.length]? = some (rpc, answer.2) := hlen
    unfold Clocked.step Cluster.step
    simp only [Clocked.onTime, Action.isRestart, Action.reading, Option.all_none, Bool.or_true,
      if_true, hlen]
    rw [if_pos hepoch₁]
    rfl
  have hreach₁ := hx.reachable.step (Clocked.of_step hserve).2.1
  have hrun₁ : Among cfg M q r x x₁ := by
    refine Within.refl.step _ ?_ hserve
    simp [Action.among, hget, hk, hs, hp]
  have hrun : Among cfg M q r x y := by
    refine hrun₁.step _ ?_ hfold
    have hlen : x₁.cluster.replies[x.cluster.replies.length]? = some (rpc, answer.2) := hlen
    simp [Action.among, hlen, hx.replies, hs, hp]
  have hreplies : r ≤ y.cluster.replies.length := by
    have := hx.replies
    show r ≤ (x.cluster.replies ++ [_]).length
    rw [List.length_append]
    omega
  refine ⟨y, ⟨hrun, ⟨hreach₁.step (Clocked.of_step hfold).2.1, hx.requests, hreplies⟩,
    fun m hm => ?_, fun m => ?_, rfl, List.prefix_rfl⟩, ?_, ?_, Function.update_self _ _ _⟩
  · have hms : m ≠ rpc.sender := fun heq => hm (Or.inl heq)
    have hmp : m ≠ rpc.peer := fun heq => hm (Or.inr heq)
    exact (Cluster.core_setCore_ne s₁ _ hms).trans (Cluster.core_setCore_ne x.cluster _ hmp)
  · exact (Cluster.epoch_setCore s₁ _ _ m).trans (Cluster.epoch_setCore x.cluster _ _ m)
  · exact (Cluster.core_setCore_ne s₁ _ hne.symm).trans (Cluster.core_setCore_self x.cluster _ _)
  · show (s₁.setCore rpc.sender _).core rpc.sender = _
    rw [Cluster.core_setCore_self, hcore₁]

/-! ## Polls -/

/-- A request that is pending at each of the peers `ps` is put to them one after the other, to each
    at an instant that is late enough. `I` is kept by every answer; the peers are as `V` says. By
    induction on the peers still to be asked. -/
theorem Stage.poll (hx : Stage cfg q r x) (request : Request) (V : NodeId → ConsensusModule)
    (bound : NodeId → Instant) (I : List NodeId → ConsensusModule → Prop) {c : NodeId} {e : Nat}
    {ps done : List NodeId} (hc : c ∈ M) (hepoch : e = (x.cluster.procs c).epoch)
    (hnodup : ps.Nodup) (hps : ∀ p ∈ ps, p ∈ M ∧ p ≠ c)
    (hpending : ∀ p ∈ ps, Pending q x ⟨c, e, p, request⟩)
    (hV : ∀ p ∈ ps, x.cluster.core p = V p)
    (hI : ∀ p ∈ ps, ∀ done d now, bound p ≤ now → I done d →
      I (p :: done) (fold d ⟨c, e, p, request⟩ (serve (V p) request now 0).2))
    (hstart : I done (x.cluster.core c)) :
    ∃ y, Turn cfg M q r (insert c {p | p ∈ ps}) x y ∧ I (ps.reverse ++ done) (y.cluster.core c) ∧
      ∀ p ∈ ps, ∃ now, bound p ≤ now ∧ y.cluster.core p = (serve (V p) request now 0).1 := by
  induction ps generalizing x done with
  | nil => exact ⟨x, .refl hx _, hstart, nofun⟩
  | cons p ps ih =>
      obtain ⟨hfresh, hnodup⟩ := List.nodup_cons.mp hnodup
      obtain ⟨⟨hp, hpc⟩, hps⟩ := List.forall_mem_cons.mp hps
      obtain ⟨hpend, hpending⟩ := List.forall_mem_cons.mp hpending
      obtain ⟨hVp, hV⟩ := List.forall_mem_cons.mp hV
      let now := max (x.clock p) (bound p)
      have hnow : x.clock p ≤ now := le_max_left _ _
      obtain ⟨y, hturn, hpeer, hsender, -⟩ := hx.roundTrip hpend hc hp hpc.symm hepoch hnow 0
      dsimp only at hturn hpeer hsender
      have hother : ∀ m ∈ ps, y.cluster.core m = x.cluster.core m := by
        intro m hm
        refine hturn.core m ?_
        rintro (rfl | rfl)
        · exact (hps m hm).2 rfl
        · exact hfresh hm
      have hstart' := hI p List.mem_cons_self done _ now (le_max_right _ _) hstart
      rw [hVp] at hpeer hsender
      rw [← hsender] at hstart'
      obtain ⟨z, hturn', hdone, hserved⟩ :=
        ih hturn.stage (hepoch.trans (hturn.epoch c).symm) hnodup
        hps (fun m hm => (hpending m hm).later hturn.requests)
        (fun m hm => (hother m hm).trans (hV m hm))
        (fun m hm => hI m (List.mem_cons_of_mem p hm)) hstart'
      refine ⟨z, (hturn.trans hturn').mono ?_, ?_, ?_⟩
      · rintro m ((rfl | rfl) | rfl | hm)
        · exact Or.inl rfl
        · exact Or.inr List.mem_cons_self
        · exact Or.inl rfl
        · exact Or.inr (List.mem_cons_of_mem p hm)
      · rw [List.reverse_cons, List.append_assoc]
        exact hdone
      · refine List.forall_mem_cons.mpr ⟨⟨now, le_max_right _ _, ?_⟩, hserved⟩
        rw [← hpeer]
        refine hturn'.core p ?_
        rintro (rfl | hm)
        · exact hpc rfl
        · exact hfresh hm

/-! ## Rounds of a leader -/

/-- What a leader sends when a heartbeat is due. -/
theorem tick_beats {w : Process} (hrole : w.core.role = .leader) {now : Instant}
    (hdue : w.lastHeartbeat + w.core.timing.heartbeat ≤ now) (draw : Nat) {msg : NodeId × Request}
    (hmsg : msg ∈ replicate w.core true) : msg ∈ (tick w now draw).2 := by
  have hlead : w.core.isLeader = true := decide_eq_true hrole
  have hdue : decide (now - w.lastHeartbeat ≥ w.core.timing.heartbeat) = true :=
    decide_eq_true (Nat.le_sub_of_add_le' hdue)
  unfold tick
  rw [if_pos hlead]
  dsimp only
  rw [hdue]
  split
  · next hempty =>
      rw [List.isEmpty_iff.mp hempty] at hmsg
      exact hmsg
  · exact hmsg

/-- A heartbeat puts the leader's request to `p` on its way, and changes no node. -/
theorem Stage.beat (hx : Stage cfg q r x) (hn : n ∈ M) (hmem : n ∈ cfg.members)
    (hp : p ∈ cfg.peers n) (hrole : (x.cluster.core n).role = .leader) :
    ∃ y, Turn cfg M q r ∅ x y ∧ (∀ m, m ≠ n → y.clock m = x.clock m) ∧
      Pending q y ⟨n, (x.cluster.procs n).epoch, p, nextRequest (x.cluster.core n) p⟩ := by
  obtain ⟨a, hr⟩ := reachable_refines hx.reachable
  have hpeers := (hr.nodes n hmem).identity.peers
  have hrole : (x.cluster.procs n).core.role = .leader := hrole
  let due := (x.cluster.procs n).lastHeartbeat + (x.cluster.procs n).core.timing.heartbeat
  obtain ⟨y, hturn, hcore, hclock, hsent⟩ := hx.tick hn hmem (le_max_left (x.clock n) due) 0
  rw [tick_leads hrole] at hcore
  refine ⟨y, { hturn with core := fun m _ => ?_ }, hclock, ?_⟩
  · by_cases hm : m = n
    · subst hm
      exact hcore
    · exact hturn.core m hm
  · exact hsent _ (tick_beats hrole (le_max_right _ _) 0 (mem_replicate (hpeers ▸ hp)))

/-- One round between a leader and a peer, served when the peer's clock reads `now`. -/
theorem Stage.exchange (hx : Stage cfg q r x) (he : Engaged cfg n p x.cluster) (hn : n ∈ M)
    (hp : p ∈ M) {now : Instant} (hnow : x.clock p ≤ now) :
    ∃ y, Turn cfg M q r {n, p} x y ∧ y.clock p = now ∧ Engaged cfg n p y.cluster ∧
      y.cluster.session n p = (Raft.exchange (x.cluster.session n p) now 0).after := by
  have hne := cfg.ne_of_mem_peers he.member he.peer
  obtain ⟨w, hturn, hclock, hpend⟩ := hx.beat hn he.member he.peer he.role
  have hepoch : (x.cluster.procs n).epoch = (w.cluster.procs n).epoch := (hturn.epoch n).symm
  have hnow : w.clock p ≤ now := by rwa [hclock p hne]
  obtain ⟨y, hturn', hpeer, hsender, hread⟩ :=
    hturn.stage.roundTrip hpend hn hp hne.symm hepoch hnow 0
  dsimp only at hturn' hpeer hsender hread
  rw [hturn.core p (Set.notMem_empty p)] at hpeer hsender
  rw [hturn.core n (Set.notMem_empty n)] at hsender
  have hsession : y.cluster.session n p = (Raft.exchange (x.cluster.session n p) now 0).after := by
    obtain ⟨a, hr⟩ := reachable_refines he.reachable
    have hid := (hr.nodes p he.follower).identity.id
    show Session.mk (y.cluster.core n) (y.cluster.core p) = _
    rw [hpeer, hsender]
    unfold Raft.exchange Cluster.session
    dsimp only
    rw [hid]
    rfl
  obtain ⟨hrole, hterm, -, hcur⟩ := exchange_stays now 0 he
  rw [← hsession] at hrole hterm hcur
  refine ⟨y, (hturn.trans hturn').mono ?_, hread, ?_, hsession⟩
  · rintro m (hm | hm)
    · exact absurd hm (Set.notMem_empty m)
    · exact hm
  · exact ⟨hturn'.stage.reachable, he.member, he.peer, hrole,
      (hcur.trans hterm.symm).le⟩

end Murmur.Raft
