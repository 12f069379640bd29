/-
  A majority on its own elects a leader.

  From any reachable state, whatever was lost, the nodes of a majority `M` come to have a leader
  among them that none of them is ahead of (`majority_elects`). Unless there is one already:

  * a leader of an older term learns of the newest one from the first peer it sends to (`depose`);
  * the node with the most up-to-date log learns of it when it asks for votes (`sync`);
  * with no leader left in `M` and timers run out, all of `M` grants its probe (`win_probe`), and
    then its campaign (`win_campaign`).
-/
import Murmur.Raft.Alone
import Murmur.Raft.CommitCurrent
import Murmur.Raft.Terms
import Mathlib.Data.Finset.Max
import Mathlib.Data.Prod.Lex

namespace Murmur.Raft

open Murmur.Basis Murmur.Protocol ConsensusModule

variable {cfg : ClusterConfig} {M : Finset NodeId} {q r : Nat} {x : Clocked} {n p : NodeId}
  {c d f : ConsensusModule} {T : Nat}

/-! ## Newer terms -/

/-- The node has followed the newer term `T`, with its log as it was. -/
structure Followed (T : Nat) (c d : ConsensusModule) : Prop where
  role : d.role = .follower
  term : d.currentTerm = T
  log : d.log = c.log

theorem stepDown_followed (hnew : c.currentTerm < T) :
    Followed T c { c.stepDown T with leaderId := none } := by
  rw [stepDown_newer hnew]
  exact ⟨rfl, rfl, rfl⟩

/-- An answer of a newer term is followed, whatever was asked. -/
theorem fold_outranked {rpc : Rpc} {now : Instant} {draw : Nat}
    (hT : (serve f rpc.request now draw).2.term = T) (hnew : c.currentTerm < T) :
    Followed T c (fold c rpc (serve f rpc.request now draw).2) := by
  subst hT
  obtain ⟨sender, epoch, peer, request⟩ := rpc
  cases request with
  | vote args =>
      change c.currentTerm < (f.handleRequestVote args now draw).2.term at hnew
      change Followed (f.handleRequestVote args now draw).2.term c
        (fold c _ (.vote (f.handleRequestVote args now draw).2))
      generalize (f.handleRequestVote args now draw).2 = reply at hnew ⊢
      show Followed _ c (if args.preVote then c.recordPreVoteReply peer reply
        else c.recordVoteReply peer reply)
      split
      · unfold recordPreVoteReply
        rw [if_pos hnew]
        exact stepDown_followed hnew
      · unfold recordVoteReply
        rw [if_pos hnew]
        exact stepDown_followed hnew
  | append args =>
      rw [serve_eq_direct] at hnew ⊢
      change c.currentTerm < (f.handleAppendEntries args now draw).2.term at hnew
      change Followed (f.handleAppendEntries args now draw).2.term c
        (fold c _ (.append (f.handleAppendEntries args now draw).2))
      generalize (f.handleAppendEntries args now draw).2 = reply at hnew ⊢
      show Followed _ c (c.handleAppendReply peer (appendReplyFromPb (appendReplyToPb reply)) _)
      unfold handleAppendReply
      rw [appendReply_over_wire, if_pos hnew]
      exact stepDown_followed hnew
  | install args =>
      change c.currentTerm < (f.handleInstallSnapshot args now draw).2.term at hnew
      change Followed (f.handleInstallSnapshot args now draw).2.term c
        (fold c _ (.install (f.handleInstallSnapshot args now draw).2))
      generalize (f.handleInstallSnapshot args now draw).2 = reply at hnew ⊢
      show Followed _ c (c.handleInstallSnapshotReply peer reply _)
      unfold handleInstallSnapshotReply
      rw [if_pos hnew]
      exact stepDown_followed hnew

/-- A leader of an older term is told so, and changes nothing. -/
theorem serve_outdated {l : ConsensusModule} (hold : l.currentTerm < f.currentTerm) (peer : NodeId)
    (now : Instant) (draw : Nat) :
    (serve f (nextRequest l peer) now draw).1 = f ∧
      (serve f (nextRequest l peer) now draw).2.term = f.currentTerm := by
  rw [serve_eq_direct]
  unfold nextRequest
  split
  · have hlt : (l.installSnapshotArgs peer).term < f.currentTerm := hold
    show (f.handleInstallSnapshot (l.installSnapshotArgs peer) now draw).1 = f ∧
      (f.handleInstallSnapshot (l.installSnapshotArgs peer) now draw).2.term = f.currentTerm
    unfold handleInstallSnapshot
    rw [if_pos hlt]
    exact ⟨rfl, rfl⟩
  · have hlt : (l.appendArgsFor peer).term < f.currentTerm := hold
    show (f.handleAppendEntries (l.appendArgsFor peer) now draw).1 = f ∧
      (f.handleAppendEntries (l.appendArgsFor peer) now draw).2.term = f.currentTerm
    unfold handleAppendEntries
    rw [if_pos hlt]
    exact ⟨rfl, rfl⟩

/-! ## Leaders of older terms -/

/-- A node whose request reaches a peer in a newer term, and leaves the peer as it is, follows
    it. -/
theorem Stage.outranked {request : Request} (hx : Stage cfg q r x)
    (hpend : Pending q x ⟨n, (x.cluster.procs n).epoch, p, request⟩) (hn : n ∈ M) (hp : p ∈ M)
    (hlt : (x.cluster.core n).currentTerm < (x.cluster.core p).currentTerm)
    (hserve : ∀ now draw, (serve (x.cluster.core p) request now draw).1 = x.cluster.core p ∧
      (serve (x.cluster.core p) request now draw).2.term = (x.cluster.core p).currentTerm) :
    ∃ y, Turn cfg M q r {n} x y ∧
      Followed (x.cluster.core p).currentTerm (x.cluster.core n) (y.cluster.core n) := by
  have hne : n ≠ p := by
    rintro rfl
    exact absurd hlt (lt_irrefl _)
  obtain ⟨y, hturn, hserved, hfolded, -⟩ := hx.roundTrip hpend hn hp hne rfl le_rfl 0
  dsimp only at hturn hserved hfolded
  obtain ⟨hkeep, hterm⟩ := hserve (x.clock p) 0
  refine ⟨y, { hturn with core := fun m hm => ?_ }, ?_⟩
  · by_cases hmp : m = p
    · subst hmp
      rw [hserved, hkeep]
    · exact hturn.core m (by rintro (rfl | rfl) <;> contradiction)
  · rw [hfolded]
    exact fold_outranked hterm hlt

/-- A leader that sends to a peer in a newer term follows it. -/
theorem Stage.depose (hx : Stage cfg q r x) (hM : ∀ v ∈ M, v ∈ cfg.members) (hn : n ∈ M)
    (hp : p ∈ M) (hrole : (x.cluster.core n).role = .leader)
    (hlt : (x.cluster.core n).currentTerm < (x.cluster.core p).currentTerm) :
    ∃ y, Turn cfg M q r {n} x y ∧
      Followed (x.cluster.core p).currentTerm (x.cluster.core n) (y.cluster.core n) := by
  have hne : p ≠ n := by
    rintro rfl
    exact absurd hlt (lt_irrefl _)
  have hpeer := cfg.mem_peers (hM n hn) (hM p hp) hne
  obtain ⟨w, hturn, -, hpend⟩ := hx.beat hn (hM n hn) hpeer hrole
  have hsame : ∀ m, w.cluster.core m = x.cluster.core m := fun m =>
    hturn.core m (Set.notMem_empty m)
  rw [← hturn.epoch n] at hpend
  rw [← hsame n, ← hsame p] at hlt
  obtain ⟨y, hturn', hfol⟩ := hturn.stage.outranked hpend hn hp hlt fun now draw => by
    rw [hsame n, hsame p] at hlt
    rw [hsame p]
    exact serve_outdated hlt p now draw
  rw [hsame n, hsame p] at hfol
  exact ⟨y, (hturn.trans hturn').mono (by rw [Set.empty_union]), hfol⟩

/-- One after the other, all of them. By induction on those still to be deposed. -/
theorem Stage.depose_all {h : NodeId} (hx : Stage cfg q r x) (ps : List NodeId)
    (hM : ∀ v ∈ M, v ∈ cfg.members) (hh : h ∈ M) (hps : ∀ p ∈ ps, p ∈ M)
    (hlead : ∀ m ∈ M, (x.cluster.core m).role = .leader →
      (x.cluster.core m).currentTerm < (x.cluster.core h).currentTerm) :
    ∃ y, Turn cfg M q r {m | m ∈ M} x y ∧ (∀ p ∈ ps, (y.cluster.core p).role ≠ .leader) ∧
      ∀ m, y.cluster.core m = x.cluster.core m ∨
        Followed (x.cluster.core h).currentTerm (x.cluster.core m) (y.cluster.core m) := by
  induction ps with
  | nil => exact ⟨x, .refl hx _, nofun, fun m => .inl rfl⟩
  | cons p ps ih =>
      obtain ⟨hp, hps⟩ := List.forall_mem_cons.mp hps
      obtain ⟨y, hturn, hdone, hsame⟩ := ih hps
      by_cases hrole : (y.cluster.core p).role = .leader
      · -- Still as it was, so of an older term.
        have hp' : y.cluster.core p = x.cluster.core p := by
          rcases hsame p with heq | hfol
          · exact heq
          · rw [hfol.role] at hrole
            cases hrole
        have hlt := hlead p hp (hp' ▸ hrole)
        have hh' : (y.cluster.core h).currentTerm = (x.cluster.core h).currentTerm := by
          rcases hsame h with heq | hfol
          · rw [heq]
          · exact hfol.term
        obtain ⟨z, hturn', hfol⟩ := hturn.stage.depose hM hp hh hrole (by rw [hp', hh']; exact hlt)
        rw [hh', hp'] at hfol
        have hother : ∀ m, m ≠ p → z.cluster.core m = y.cluster.core m := fun m hm =>
          hturn'.core m hm
        refine ⟨z, (hturn.trans hturn').mono ?_, List.forall_mem_cons.mpr ⟨?_, ?_⟩, fun m => ?_⟩
        · rintro m (hm | rfl)
          · exact hm
          · exact hp
        · rw [hfol.role]
          exact nofun
        · intro m hm
          by_cases hmp : m = p
          · subst hmp
            rw [hfol.role]
            exact nofun
          · rw [hother m hmp]
            exact hdone m hm
        · by_cases hmp : m = p
          · subst hmp
            exact .inr hfol
          · rw [hother m hmp]
            exact hsame m
      · exact ⟨y, hturn, List.forall_mem_cons.mpr ⟨hrole, hdone⟩, hsame⟩

/-! ## The candidate's own term -/

/-- A probe, and a campaign of an older term, leave the peer as it is and tell its term. -/
theorem serve_vote_outdated {args : RequestVoteArgs}
    (h : args.preVote = true ∨ args.term < f.currentTerm) (now : Instant) (draw : Nat) :
    (serve f (.vote args) now draw).1 = f ∧
      (serve f (.vote args) now draw).2.term = f.currentTerm := by
  show (f.handleRequestVote args now draw).1 = f ∧
    (f.handleRequestVote args now draw).2.term = f.currentTerm
  unfold handleRequestVote
  split
  · exact ⟨rfl, rfl⟩
  · next hpre =>
      rw [if_pos (h.resolve_left hpre)]
      exact ⟨rfl, rfl⟩

/-- A candidate of `T` with the votes of `done`, or the leader it has become. -/
structure Tally (T quorum : Nat) (log : Log) (done : List NodeId) (d : ConsensusModule) : Prop where
  outcome : d.role = .leader ∨
    d.role = .candidate ∧ d.votes.card < quorum ∧ ∀ v ∈ done, v ∈ d.votes
  term : d.currentTerm = T
  log : d.log = log
  quorum : d.quorum = quorum

theorem maybeBecomeLeader_tally {done : List NodeId} (hrole : d.role = .candidate)
    (hdone : ∀ v ∈ done, v ∈ d.votes) :
    Tally d.currentTerm d.quorum d.log done d.maybeBecomeLeader := by
  unfold maybeBecomeLeader
  split
  · exact ⟨.inl rfl, rfl, rfl, rfl⟩
  · next hno =>
      exact ⟨.inr ⟨hrole, Nat.not_le.mp fun hcard => hno ⟨hrole, hcard⟩, hdone⟩, rfl, rfl, rfl⟩

theorem startElection_tally (c : ConsensusModule) (now : Instant) (draw : Nat) :
    Tally (c.currentTerm + 1) c.quorum c.log [c.id] (c.startElection now draw).1 := by
  rw [startElection_eq]
  refine maybeBecomeLeader_tally (d := campaigning c now draw) rfl fun v hv => ?_
  rw [List.mem_singleton.mp hv]
  exact Finset.mem_singleton_self c.id

theorem recordVoteReply_tally {quorum : Nat} {log : Log} {done : List NodeId}
    (h : Tally T quorum log done d) (p : NodeId) :
    Tally T quorum log (p :: done) (d.recordVoteReply p ⟨T, true⟩) := by
  obtain ⟨hout, rfl, rfl, rfl⟩ := h
  unfold recordVoteReply
  rw [if_neg (lt_irrefl d.currentTerm)]
  rcases hout with hlead | ⟨hcand, -, hdone⟩
  · rw [if_pos (Or.inl (by rw [hlead]; exact nofun))]
    exact ⟨.inl hlead, rfl, rfl, rfl⟩
  · rw [if_neg (by simp [hcand]), if_pos rfl]
    refine maybeBecomeLeader_tally (d := { d with votes := insert p d.votes }) hcand fun v hv => ?_
    rcases List.mem_cons.mp hv with rfl | hv
    · exact Finset.mem_insert_self _ _
    · exact Finset.mem_insert_of_mem (hdone v hv)

/-- Where there are others, nobody wins on its own. -/
theorem startElection_waits (hq : 1 < c.quorum) (now : Instant) (draw : Nat) :
    (c.startElection now draw).1.role ≠ .leader := by
  rw [startElection_eq]
  unfold maybeBecomeLeader
  rw [if_neg]
  · exact nofun
  · rintro ⟨-, hcard⟩
    have hcard : ({c.id} : Finset NodeId).card ≥ c.quorum := hcard
    rw [Finset.card_singleton] at hcard
    omega

/-- A node that does not lead comes to the term of a peer that is ahead, by asking it for its
    vote. -/
theorem Stage.sync {h : NodeId} (hx : Stage cfg q r x) (hM : ∀ v ∈ M, v ∈ cfg.members) (hn : n ∈ M)
    (hh : h ∈ M) (hrole : (x.cluster.core n).role ≠ .leader)
    (hle : (x.cluster.core n).currentTerm ≤ (x.cluster.core h).currentTerm) :
    ∃ y, Turn cfg M q r {n} x y ∧ (y.cluster.core n).role ≠ .leader ∧
      (y.cluster.core n).currentTerm = (x.cluster.core h).currentTerm ∧
      (y.cluster.core n).log = (x.cluster.core n).log := by
  rcases Nat.eq_or_lt_of_le hle with heq | hlt
  · exact ⟨x, .refl hx _, hrole, heq, rfl⟩
  have hne : h ≠ n := by
    rintro rfl
    exact absurd hlt (lt_irrefl _)
  obtain ⟨a, hr⟩ := reachable_refines hx.reachable
  have hid := (hr.nodes n (hM n hn)).identity
  have hpeers : h ∈ (x.cluster.core n).peers := hid.peers ▸ cfg.mem_peers (hM n hn) (hM h hh) hne
  have hquorum : 1 < (x.cluster.core n).quorum := by
    rw [hid.quorum]
    have := List.length_pos_of_mem (cfg.mem_peers (hM n hn) (hM h hh) hne)
    omega
  -- Its timer runs out, and it asks `h`.
  obtain ⟨w, hturn, hcore, -, hsent⟩ := hx.tick hn (hM n hn)
    (le_max_left (x.clock n) (x.cluster.core n).electionDeadline) 0
  have hother : w.cluster.core h = x.cluster.core h := hturn.core h hne
  have hdue := le_max_right (x.clock n) (x.cluster.core n).electionDeadline
  generalize max (x.clock n) (x.cluster.core n).electionDeadline = now at hcore hsent hdue
  have hrole : (x.cluster.procs n).core.role ≠ .leader := hrole
  by_cases hwon : (x.cluster.procs n).core.preVoteSucceeded = true
  · -- It had a majority of pre-votes already, and campaigns.
    obtain ⟨hsame, hargs⟩ := startElection_asks (x.cluster.core n) now 0
    have htally := startElection_tally (x.cluster.core n) now 0
    have hwaits := startElection_waits hquorum now 0
    rw [tick_campaign hrole hwon] at hcore hsent
    dsimp only at hcore hsent
    change w.cluster.core n = ((x.cluster.core n).startElection now 0).1 at hcore
    rw [← hcore] at htally hwaits
    rcases Nat.eq_or_lt_of_le (Nat.succ_le_of_lt hlt) with heq | hlt
    · exact ⟨w, hturn, hwaits, htally.term.trans heq, htally.log⟩
    · have hpend := hsent _ (List.mem_map.mpr ⟨h, hsame.symm ▸ hpeers, rfl⟩)
      rw [← hturn.epoch n] at hpend
      obtain ⟨y, hturn', hfol⟩ := hturn.stage.outranked hpend hn hh
        (by rw [htally.term, hother]; exact hlt)
        fun now' draw => serve_vote_outdated (.inr (by rw [hother]; exact hargs ▸ hlt)) now' draw
      refine ⟨y, (hturn.trans hturn').mono (by rw [Set.union_self]), ?_, ?_,
        hfol.log.trans htally.log⟩
      · rw [hfol.role]
        exact nofun
      · rw [hfol.term, hother]
  · rw [tick_probe hrole hwon hdue] at hcore hsent
    have hpend := hsent _ (List.mem_map.mpr ⟨h, hpeers, rfl⟩)
    rw [← hturn.epoch n] at hpend
    obtain ⟨y, hturn', hfol⟩ := hturn.stage.outranked hpend hn hh
      (by rw [hcore, hother]; exact hlt) fun now' draw => serve_vote_outdated (.inl rfl) now' draw
    refine ⟨y, (hturn.trans hturn').mono (by rw [Set.union_self]), ?_, ?_, ?_⟩
    · rw [hfol.role]
      exact nofun
    · rw [hfol.term, hother]
    · rw [hfol.log, hcore]
      rfl

/-! ## The probe -/

/-- `f` has nothing against `c`: its term is no newer, nor is its log. -/
structure Backs (f c : ConsensusModule) : Prop where
  term : f.currentTerm ≤ c.currentTerm
  log : f.logIsUpToDate c.log.lastIndex c.log.lastTerm = true

/-- A prober of `T` with the pre-votes of `done`. -/
structure Probed (T quorum : Nat) (log : Log) (done : List NodeId) (d : ConsensusModule) :
    Prop where
  role : d.role ≠ .leader
  probing : d.preCandidate = true
  preVotes : ∀ v ∈ done, v ∈ d.preVotes
  term : d.currentTerm = T
  log : d.log = log
  quorum : d.quorum = quorum

theorem recordPreVoteReply_probed {quorum t : Nat} {log : Log} {done : List NodeId}
    (h : Probed T quorum log done d) (ht : t ≤ T) (p : NodeId) :
    Probed T quorum log (p :: done) (d.recordPreVoteReply p ⟨t, true⟩) := by
  have hold : ¬ t > d.currentTerm := by
    rw [h.term]
    exact Nat.not_lt.mpr ht
  unfold recordPreVoteReply
  rw [if_neg hold, if_pos ⟨h.probing, rfl⟩]
  refine ⟨h.role, h.probing, fun v hv => ?_, h.term, h.log, h.quorum⟩
  rcases List.mem_cons.mp hv with rfl | hv
  · exact Finset.mem_insert_self _ _
  · exact Finset.mem_insert_of_mem (h.preVotes v hv)

/-- A node that does not lead, and has not heard from a leader for long enough, grants the probe. -/
theorem serve_probe {args : RequestVoteArgs} {now : Instant} (hpre : args.preVote = true)
    (hrole : f.role ≠ .leader) (hterm : f.currentTerm ≤ args.term)
    (hlog : f.logIsUpToDate args.lastLogIndex args.lastLogTerm = true)
    (hquiet : f.lastLeaderContact + f.timing.electionMin ≤ now) (draw : Nat) :
    serve f (.vote args) now draw = (f, .vote ⟨f.currentTerm, true⟩) := by
  have hquiet : ¬ now - f.lastLeaderContact < f.timing.electionMin :=
    Nat.not_lt.mpr (Nat.le_sub_of_add_le' hquiet)
  show ((f.handleRequestVote args now draw).1, Reply.vote (f.handleRequestVote args now draw).2) = _
  unfold handleRequestVote
  rw [if_pos hpre]
  simp [hrole, hterm, hlog, hquiet]

/-- Everybody but the asker, and the asker. -/
theorem mem_asked {v : NodeId} (hv : v ∈ M) : v ∈ (M.erase n).toList.reverse ++ [n] := by
  by_cases hvn : v = n
  · simp [hvn]
  · simp [hvn, hv]

theorem mem_others {v : NodeId} (hv : v ∈ (M.erase n).toList) : v ∈ M ∧ v ≠ n :=
  (Finset.mem_erase.mp (Finset.mem_toList.mp hv)).symm

theorem Stage.win_probe (hx : Stage cfg q r x) (hM : ∀ v ∈ M, v ∈ cfg.members)
    (hcard : cfg.members.length < 2 * M.card) (hn : n ∈ M)
    (hidle : ∀ m ∈ M, (x.cluster.core m).role ≠ .leader)
    (hback : ∀ m ∈ M, Backs (x.cluster.core m) (x.cluster.core n)) :
    ∃ y, Turn cfg M q r {n} x y ∧ (y.cluster.core n).role ≠ .leader ∧
      (y.cluster.core n).preVoteSucceeded = true ∧
      (y.cluster.core n).currentTerm = (x.cluster.core n).currentTerm ∧
      (y.cluster.core n).log = (x.cluster.core n).log := by
  have hrole : (x.cluster.procs n).core.role ≠ .leader := hidle n hn
  by_cases hwon : (x.cluster.procs n).core.preVoteSucceeded = true
  · exact ⟨x, .refl hx _, hrole, hwon, rfl, rfl⟩
  obtain ⟨a, hr⟩ := reachable_refines hx.reachable
  have hid := (hr.nodes n (hM n hn)).identity
  obtain ⟨w, hturn, hcore, -, hsent⟩ := hx.tick hn (hM n hn)
    (le_max_left (x.clock n) (x.cluster.core n).electionDeadline) 0
  have hdue := le_max_right (x.clock n) (x.cluster.core n).electionDeadline
  generalize max (x.clock n) (x.cluster.core n).electionDeadline = now at hcore hsent hdue
  rw [tick_probe hrole hwon hdue] at hcore hsent
  have hpeers : ∀ p ∈ (M.erase n).toList, p ∈ (x.cluster.core n).peers := fun p hp =>
    hid.peers ▸ cfg.mem_peers (hM n hn) (hM p (mem_others hp).1) (mem_others hp).2
  have hgrant : ∀ p ∈ (M.erase n).toList, ∀ now',
      (x.cluster.core p).lastLeaderContact + (x.cluster.core p).timing.electionMin ≤ now' →
      serve (x.cluster.core p) (.vote ((x.cluster.core n).startPreElection now 0).2) now' 0 =
        (x.cluster.core p, .vote ⟨(x.cluster.core p).currentTerm, true⟩) := by
    intro p hp now' hlate
    have hp := (mem_others hp).1
    exact serve_probe rfl (hidle p hp) ((hback p hp).term.trans (Nat.le_succ _)) (hback p hp).log
      hlate 0
  have hstart : Probed (x.cluster.core n).currentTerm (x.cluster.core n).quorum
      (x.cluster.core n).log [n] (w.cluster.core n) := by
    rw [hcore]
    refine ⟨hrole, rfl, fun v hv => ?_, rfl, rfl, rfl⟩
    rw [List.mem_singleton.mp hv]
    exact Finset.mem_singleton.mpr hid.id.symm
  -- All the others are asked, each when it has not heard from a leader for long enough.
  obtain ⟨y, hturn', hprobed, hserved⟩ := hturn.stage.poll
    (.vote ((x.cluster.core n).startPreElection now 0).2) x.cluster.core
    (fun p => (x.cluster.core p).lastLeaderContact + (x.cluster.core p).timing.electionMin)
    (Probed (x.cluster.core n).currentTerm (x.cluster.core n).quorum (x.cluster.core n).log)
    hn (hturn.epoch n).symm (Finset.nodup_toList (M.erase n)) (fun p hp => mem_others hp)
    (fun p hp => hsent _ (List.mem_map.mpr ⟨p, hpeers p hp, rfl⟩))
    (fun p hp => hturn.core p (mem_others hp).2)
    (fun p hp done d now' hlate hd => by
      rw [hgrant p hp now' hlate]
      exact recordPreVoteReply_probed hd (hback p (mem_others hp).1).term p)
    hstart
  have hasked : M ⊆ (y.cluster.core n).preVotes := fun v hv => hprobed.preVotes v (mem_asked hv)
  have hwon : (y.cluster.core n).preVoteSucceeded = true := by
    refine decide_eq_true ⟨hprobed.probing, ?_⟩
    rw [hprobed.quorum]
    exact (quorum_le_card hcard (hM n hn) hid.quorum).trans (Finset.card_le_card hasked)
  refine ⟨y, { hturn.trans hturn' with core := fun m hm => ?_ }, hprobed.role, hwon, hprobed.term,
    hprobed.log⟩
  by_cases hm' : m ∈ (M.erase n).toList
  · obtain ⟨now', hlate, hm'⟩ := hserved m ‹_›
    rw [hm', hgrant m ‹_› now' hlate]
  · rw [hturn'.core m (by rintro (rfl | h) <;> contradiction), hturn.core m hm]

/-! ## The campaign -/

/-- A node of an older term adopts the candidate's, and votes for it. -/
theorem serve_campaign {args : RequestVoteArgs} (hpre : args.preVote = false)
    (hterm : f.currentTerm < args.term)
    (hlog : f.logIsUpToDate args.lastLogIndex args.lastLogTerm = true) (now : Instant)
    (draw : Nat) :
    (serve f (.vote args) now draw).2 = .vote ⟨args.term, true⟩ ∧
      (serve f (.vote args) now draw).1.currentTerm = args.term := by
  have hvote : (f.stepDown args.term).logIsUpToDate args.lastLogIndex args.lastLogTerm = true := by
    rw [stepDown_newer hterm]
    exact hlog
  have hfree : (f.stepDown args.term).votedFor = none := by
    rw [stepDown_newer hterm]
    rfl
  have hnew : (f.stepDown args.term).currentTerm = args.term := by
    rw [stepDown_newer hterm]
    rfl
  show Reply.vote (f.handleRequestVote args now draw).2 = _ ∧
    (f.handleRequestVote args now draw).1.currentTerm = _
  unfold handleRequestVote
  rw [if_neg (by simp [hpre]), if_neg (Nat.not_lt.mpr hterm.le), if_pos hterm]
  unfold castVote
  simp only [hfree, hvote, Option.isNone_none, true_or, decide_true, and_self, if_true]
  exact ⟨congrArg (fun t => Reply.vote ⟨t, true⟩) hnew, hnew⟩

/-- The campaign is won, in the next term, and nobody in `M` is ahead of it. -/
theorem Stage.win_campaign (hx : Stage cfg q r x) (hM : ∀ v ∈ M, v ∈ cfg.members)
    (hcard : cfg.members.length < 2 * M.card) (hn : n ∈ M)
    (hrole : (x.cluster.core n).role ≠ .leader)
    (hwon : (x.cluster.core n).preVoteSucceeded = true)
    (hback : ∀ m ∈ M, m ≠ n → Backs (x.cluster.core m) (x.cluster.core n)) :
    ∃ y, Turn cfg M q r {m | m ∈ M} x y ∧ (y.cluster.core n).role = .leader ∧
      ∀ m ∈ M, (y.cluster.core m).currentTerm ≤ (y.cluster.core n).currentTerm := by
  obtain ⟨a, hr⟩ := reachable_refines hx.reachable
  have hid := (hr.nodes n (hM n hn)).identity
  obtain ⟨w, hturn, hcore, -, hsent⟩ := hx.tick hn (hM n hn) le_rfl 0
  rw [tick_campaign hrole hwon] at hcore hsent
  obtain ⟨hsame, hargs⟩ := startElection_asks (x.cluster.core n) (x.clock n) 0
  have htally := startElection_tally (x.cluster.core n) (x.clock n) 0
  change ∀ msg ∈ ((x.cluster.core n).startElection (x.clock n) 0).1.peers.map
    (fun peer => (peer, Request.vote ((x.cluster.core n).startElection (x.clock n) 0).2)),
    _ at hsent
  rw [hsame] at hsent
  change w.cluster.core n = ((x.cluster.core n).startElection (x.clock n) 0).1 at hcore
  rw [← hcore, hid.id] at htally
  generalize ((x.cluster.core n).startElection (x.clock n) 0).2 = args at hsent hargs
  have hpeers : ∀ p ∈ (M.erase n).toList, p ∈ (x.cluster.core n).peers := fun p hp =>
    hid.peers ▸ cfg.mem_peers (hM n hn) (hM p (mem_others hp).1) (mem_others hp).2
  have hgrant : ∀ p ∈ (M.erase n).toList, ∀ now',
      (serve (x.cluster.core p) (.vote args) now' 0).2 =
          .vote ⟨(x.cluster.core n).currentTerm + 1, true⟩ ∧
        (serve (x.cluster.core p) (.vote args) now' 0).1.currentTerm =
          (x.cluster.core n).currentTerm + 1 := by
    intro p hp now'
    obtain ⟨hpM, hpn⟩ := mem_others hp
    subst hargs
    exact serve_campaign rfl (Nat.lt_succ_of_le (hback p hpM hpn).term) (hback p hpM hpn).log now' 0
  obtain ⟨y, hturn', hdone, hserved⟩ := hturn.stage.poll (.vote args) x.cluster.core (fun _ => 0)
    (Tally ((x.cluster.core n).currentTerm + 1) (x.cluster.core n).quorum (x.cluster.core n).log)
    hn (hturn.epoch n).symm (Finset.nodup_toList (M.erase n)) (fun p hp => mem_others hp)
    (fun p hp => hsent _ (List.mem_map.mpr ⟨p, hpeers p hp, rfl⟩))
    (fun p hp => hturn.core p (mem_others hp).2)
    (fun p hp done d now' _ hd => by
      rw [(hgrant p hp now').1]
      have hpre : args.preVote = false := by rw [hargs]
      show Tally _ _ _ _ (if args.preVote then _ else d.recordVoteReply p _)
      rw [hpre]
      exact recordVoteReply_tally hd p)
    htally
  refine ⟨y, (hturn.trans hturn').mono ?_, ?_, fun m hm => ?_⟩
  · rintro m (rfl | rfl | hm)
    · exact hn
    · exact hn
    · exact (mem_others hm).1
  · -- All of `M` voted for it, and that is a quorum.
    rcases hdone.outcome with hlead | ⟨-, hfew, hvotes⟩
    · exact hlead
    · have hasked : M ⊆ (y.cluster.core n).votes := fun v hv => hvotes v (mem_asked hv)
      have hle := (quorum_le_card hcard (hM n hn) hid.quorum).trans (Finset.card_le_card hasked)
      exact absurd hfew (Nat.not_lt.mpr hle)
  · rw [hdone.term]
    by_cases hmn : m = n
    · rw [hmn, hdone.term]
    · obtain ⟨now', -, hm'⟩ := hserved m (Finset.mem_toList.mpr (Finset.mem_erase.mpr ⟨hmn, hm⟩))
      rw [hm', (hgrant m (Finset.mem_toList.mpr (Finset.mem_erase.mpr ⟨hmn, hm⟩)) now').2]

/-! ## The election -/

/-- A leader in `M` that nobody in `M` is ahead of. -/
structure Foremost (M : Finset NodeId) (l : NodeId) (x : Clocked) : Prop where
  mem : l ∈ M
  role : (x.cluster.core l).role = .leader
  newest : ∀ m ∈ M, (x.cluster.core m).currentTerm ≤ (x.cluster.core l).currentTerm

/-- Of some nodes, one has a log that is up to date for all of them. -/
theorem exists_most_upToDate (core : NodeId → ConsensusModule) (hM : M.Nonempty) :
    ∃ n ∈ M, ∀ m ∈ M,
      (core m).logIsUpToDate (core n).log.lastIndex (core n).log.lastTerm = true := by
  obtain ⟨n, hn, hmax⟩ := M.exists_max_image
    (fun m => toLex ((core m).log.lastTerm, (core m).log.lastIndex)) hM
  refine ⟨n, hn, fun m hm => decide_eq_true ?_⟩
  rcases Prod.Lex.le_iff.mp (hmax m hm) with hlt | ⟨heq, hle⟩
  · exact .inl hlt
  · exact .inr ⟨heq.symm, hle⟩

theorem majority_elects (hx : Stage cfg q r x) (hM : ∀ v ∈ M, v ∈ cfg.members)
    (hcard : cfg.members.length < 2 * M.card) :
    ∃ y l, Turn cfg M q r {m | m ∈ M} x y ∧ Foremost M l y := by
  have hne : M.Nonempty := Finset.card_pos.mp (by omega)
  obtain ⟨h, hh, hnewest⟩ := M.exists_max_image (fun m => (x.cluster.core m).currentTerm) hne
  by_cases hled : ∃ l ∈ M, (x.cluster.core l).role = .leader ∧
      (x.cluster.core l).currentTerm = (x.cluster.core h).currentTerm
  · obtain ⟨l, hl, hrole, hterm⟩ := hled
    exact ⟨x, l, .refl hx _, hl, hrole, fun m hm => hterm ▸ hnewest m hm⟩
  have hold : ∀ m ∈ M, (x.cluster.core m).role = .leader →
      (x.cluster.core m).currentTerm < (x.cluster.core h).currentTerm := fun m hm hrole =>
    lt_of_le_of_ne (hnewest m hm) fun heq => hled ⟨m, hm, hrole, heq⟩
  obtain ⟨w, hturn, hidle, hsame⟩ := hx.depose_all M.toList hM hh
    (fun p hp => Finset.mem_toList.mp hp) hold
  have hidle : ∀ m ∈ M, (w.cluster.core m).role ≠ .leader := fun m hm =>
    hidle m (Finset.mem_toList.mpr hm)
  have hnewest : ∀ m ∈ M, (w.cluster.core m).currentTerm ≤ (w.cluster.core h).currentTerm := by
    have hterm : (w.cluster.core h).currentTerm = (x.cluster.core h).currentTerm := by
      rcases hsame h with heq | hfol
      · rw [heq]
      · exact hfol.term
    intro m hm
    rcases hsame m with heq | hfol
    · rw [heq, hterm]
      exact hnewest m hm
    · rw [hfol.term, hterm]
  -- The node with the most up-to-date log comes to the newest term, and stands.
  obtain ⟨c, hc, hlogs⟩ := exists_most_upToDate w.cluster.core hne
  obtain ⟨u, hturnS, hroleS, htermS, hlogS⟩ := hturn.stage.sync hM hc hh (hidle c hc) (hnewest c hc)
  have hidleS : ∀ m ∈ M, (u.cluster.core m).role ≠ .leader := by
    intro m hm
    by_cases hmc : m = c
    · rw [hmc]
      exact hroleS
    · rw [hturnS.core m hmc]
      exact hidle m hm
  have hbackS : ∀ m ∈ M, Backs (u.cluster.core m) (u.cluster.core c) := by
    intro m hm
    have hlog := hlogs m hm
    by_cases hmc : m = c
    · subst hmc
      rw [← hlogS] at hlog
      refine ⟨le_rfl, ?_⟩
      unfold logIsUpToDate at hlog ⊢
      rwa [hlogS] at hlog ⊢
    · rw [hturnS.core m hmc]
      exact ⟨htermS ▸ hnewest m hm, hlogS.symm ▸ hlog⟩
  obtain ⟨v, hturnP, hroleP, hwonP, htermP, hlogP⟩ :=
    hturnS.stage.win_probe hM hcard hc hidleS hbackS
  have hbackP : ∀ m ∈ M, m ≠ c → Backs (v.cluster.core m) (v.cluster.core c) := by
    intro m hm hmc
    rw [hturnP.core m hmc]
    exact ⟨htermP ▸ (hbackS m hm).term, hlogP.symm ▸ (hbackS m hm).log⟩
  obtain ⟨y, hturnC, hlead, hterms⟩ := hturnP.stage.win_campaign hM hcard hc hroleP hwonP hbackP
  refine ⟨y, c, (((hturn.trans hturnS).trans hturnP).trans hturnC).mono ?_, hc, hlead, hterms⟩
  rintro m (((hm | rfl) | rfl) | hm)
  · exact hm
  · exact hc
  · exact hc
  · exact hm

end Murmur.Raft
