/-
  A majority on its own gets a command through.

  From any reachable state, whatever was lost and whoever is down or cut off, the nodes of a
  majority `M` can commit a new command and hand it to the state machine on each of them
  (`majority_available`):

  * they have a leader, or elect one (`majority_elects`), and it takes the command;
  * `catchUp`: rounds between the leader and a peer, as in log repair, until the peer has the
    leader's log and as much of it committed as the leader had; `catchUp_all`: with all of `M`, one
    by one;
  * after a first pass the command is on a majority, and a leader is never behind with its commit
    index; after a second pass all of `M` know.
-/
import Murmur.Raft.Campaign
import Murmur.Raft.Repair

namespace Murmur.Raft

open Murmur.Basis Murmur.Protocol ConsensusModule

variable {cfg : ClusterConfig} {M : Finset NodeId} {q r : Nat} {x y : Clocked} {n p : NodeId}
  {c d f : ConsensusModule} {s : Cluster} {T : Nat}

/-! ## What a round leaves alone -/

theorem yieldTo_lastApplied (term : Nat) (leader : NodeId) (now : Instant) (draw : Nat) :
    (c.yieldTo term leader now draw).lastApplied = c.lastApplied := by
  unfold yieldTo stepDown
  dsimp only
  split
  · rfl
  · rfl

theorem handleAppendEntries_lastApplied (args : AppendEntriesArgs) (now : Instant) (draw : Nat) :
    (c.handleAppendEntries args now draw).1.lastApplied = c.lastApplied := by
  have hkeep : ∀ d : ConsensusModule, ((d.storeEntries args.prevLogIndex args.entries).followCommit
      args.leaderCommit).lastApplied = d.lastApplied := by
    intro d
    unfold followCommit storeEntries
    dsimp only
    split
    · split
      · rfl
      · rfl
    · split
      · rfl
      · rfl
  unfold handleAppendEntries
  split
  · rfl
  · dsimp only
    split
    · exact yieldTo_lastApplied _ _ now draw
    · exact (hkeep _).trans (yieldTo_lastApplied _ _ now draw)

/-- A snapshot moves the cursor to its boundary, or leaves it. -/
theorem handleInstallSnapshot_lastApplied (args : InstallSnapshotArgs) (now : Instant)
    (draw : Nat) : (c.handleInstallSnapshot args now draw).1.lastApplied ≤
      max c.lastApplied args.lastIncludedIndex := by
  have hyield := yieldTo_lastApplied (c := c) args.term args.leaderId now draw
  unfold handleInstallSnapshot
  split
  · exact le_max_left _ _
  · dsimp only
    split
    · exact hyield.le.trans (le_max_left _ _)
    · exact le_max_right _ _

theorem maybeAdvanceCommit_keeps (c : ConsensusModule) :
    c.maybeAdvanceCommit.lastApplied = c.lastApplied ∧
      c.maybeAdvanceCommit.matchIndex = c.matchIndex ∧
      c.commitIndex ≤ c.maybeAdvanceCommit.commitIndex := by
  unfold maybeAdvanceCommit
  rcases advanceCommitFrom_spec (c := c) c.log.lastIndex with ⟨heq, -⟩ | ⟨j, hj, -, -, -, heq⟩
  · rw [heq]
    exact ⟨rfl, rfl, le_rfl⟩
  · rw [heq]
    exact ⟨rfl, rfl, hj.le⟩

/-- What rounds with `p` leave alone: the leader's log and cursor, and what it knows of the others.
    Its commit index does not fall, and the follower's cursor moves to the leader's boundary at
    most. -/
structure Proceeds (p : NodeId) (u v : Session) : Prop where
  term : v.leader.currentTerm = u.leader.currentTerm
  log : v.leader.log = u.leader.log
  applied : v.leader.lastApplied = u.leader.lastApplied
  commit : u.leader.commitIndex ≤ v.leader.commitIndex
  others : ∀ m, m ≠ p → v.leader.matchIndex.lookup m = u.leader.matchIndex.lookup m
  follower : v.follower.lastApplied ≤ max u.follower.lastApplied u.leader.log.snapshotIndex

theorem Proceeds.refl (p : NodeId) (u : Session) : Proceeds p u u :=
  ⟨rfl, rfl, rfl, le_rfl, fun _ _ => rfl, le_max_left _ _⟩

theorem Proceeds.trans {u v w : Session} (h : Proceeds p u v) (h' : Proceeds p v w) :
    Proceeds p u w where
  term := h'.term.trans h.term
  log := h'.log.trans h.log
  applied := h'.applied.trans h.applied
  commit := h.commit.trans h'.commit
  others m hm := (h'.others m hm).trans (h.others m hm)
  follower := by
    refine h'.follower.trans (max_le h.follower ?_)
    rw [h.log]
    exact le_max_right _ _

theorem recordMatch_proceeds (c : ConsensusModule) (p : NodeId) (upTo : Nat)
    (hf : d.lastApplied ≤ max f.lastApplied c.log.snapshotIndex) :
    Proceeds p ⟨c, f⟩ ⟨(c.recordMatch p upTo).maybeAdvanceCommit, d⟩ := by
  obtain ⟨-, hterm, hlog⟩ := recordMatch_stays c p upTo
  obtain ⟨happlied, hmatch, hcommit⟩ := maybeAdvanceCommit_keeps (c.recordMatch p upTo)
  refine ⟨hterm, hlog, happlied, hcommit, fun m hm => ?_, hf⟩
  show (c.recordMatch p upTo).maybeAdvanceCommit.matchIndex.lookup m = _
  rw [hmatch]
  exact Finmap.lookup_insert_of_ne _ hm

theorem serve_lastApplied (l f : ConsensusModule) (peer : NodeId) (now : Instant) (draw : Nat) :
    (serve f (nextRequest l peer) now draw).1.lastApplied ≤
      max f.lastApplied l.log.snapshotIndex := by
  rw [serve_eq_direct]
  unfold nextRequest
  split
  · exact handleInstallSnapshot_lastApplied (l.installSnapshotArgs peer) now draw
  · exact (handleAppendEntries_lastApplied (l.appendArgsFor peer) now draw).le.trans
      (le_max_left _ _)

theorem exchange_proceeds (he : Engaged cfg n p s) (now : Instant) (draw : Nat) :
    Proceeds p (s.session n p) (exchange (s.session n p) now draw).after := by
  have hfollower : (exchange (s.session n p) now draw).after.follower.lastApplied ≤
      max (s.core p).lastApplied (s.core n).log.snapshotIndex :=
    serve_lastApplied (s.core n) (s.core p) (s.core p).id now draw
  by_cases hneed : (s.core n).needsSnapshot p = true
  · obtain ⟨-, -, -, hleader, -⟩ := exchange_install now draw he hneed
    generalize (exchange (s.session n p) now draw).after = v at hleader hfollower ⊢
    obtain ⟨leader, follower⟩ := v
    cases hleader
    exact recordMatch_proceeds (s.core n) p _ hfollower
  · by_cases hcons : (s.core p).consistent ((s.core n).appendArgsFor p) = true
    · obtain ⟨-, hleader, -⟩ := exchange_accepted now draw he hneed hcons
      generalize (exchange (s.session n p) now draw).after = v at hleader hfollower ⊢
      obtain ⟨leader, follower⟩ := v
      cases hleader
      exact recordMatch_proceeds (s.core n) p _ hfollower
    · obtain ⟨-, -, -, hleader, -⟩ := exchange_rejected now draw he hneed hcons
      generalize (exchange (s.session n p) now draw).after = v at hleader hfollower ⊢
      obtain ⟨leader, follower⟩ := v
      cases hleader
      exact ⟨rfl, rfl, rfl, le_rfl, fun _ _ => rfl, hfollower⟩

/-! ## Catching up -/

/-- The rounds of a repair are a part of such a run. By induction on them. -/
theorem Stage.rounds {front : List Round} {last : Round} (hx : Stage cfg q r x)
    (he : Engaged cfg n p x.cluster) (hn : n ∈ M) (hp : p ∈ M)
    (h : Raft.rounds (fun _ => (x.clock p, 0)) (front.length + 1) (x.cluster.session n p) =
      front ++ [last]) :
    ∃ y, Turn cfg M q r {n, p} x y ∧ Engaged cfg n p y.cluster ∧
      Proceeds p (x.cluster.session n p) (y.cluster.session n p) ∧
      last = Raft.exchange (y.cluster.session n p) (y.clock p) 0 := by
  induction front generalizing x with
  | nil =>
      refine ⟨x, .refl hx _, he, .refl p _, ?_⟩
      exact (List.cons.inj h).1.symm
  | cons round front ih =>
      obtain ⟨y, hturn, hclock, he', hsession⟩ := hx.exchange he hn hp le_rfl
      have hproceeds := exchange_proceeds he (x.clock p) 0
      rw [← hsession] at hproceeds
      have hrest := (List.cons.inj h).2
      obtain ⟨z, hturn', he'', hproceeds', hlast⟩ := ih hturn.stage he' (by
        rw [hsession, hclock]
        exact hrest)
      exact ⟨z, (hturn.trans hturn').mono (by rw [Set.union_self]), he'',
        hproceeds.trans hproceeds',
        hlast⟩

/-- A round that is accepted was one with entries, and the follower had the one before them. -/
theorem consistent_of_accepted (he : Engaged cfg n p s) {now : Instant} {draw : Nat}
    (h : (exchange (s.session n p) now draw).accepted = true) :
    ¬ (s.core n).needsSnapshot p = true ∧
      (s.core p).consistent ((s.core n).appendArgsFor p) = true := by
  by_cases hneed : (s.core n).needsSnapshot p = true
  · have hno := (exchange_install now draw he hneed).2.1
    rw [h] at hno
    cases hno
  · refine ⟨hneed, ?_⟩
    by_contra hcons
    have hno := (exchange_rejected now draw he hneed hcons).2.1
    rw [h] at hno
    cases hno

/-- A leader of `T` with log `log`, which has not applied its last entry. -/
structure Reigns (T : Nat) (log : Log) (c : ConsensusModule) : Prop where
  role : c.role = .leader
  term : c.currentTerm = T
  holds : c.log = log
  applied : c.lastApplied < log.lastIndex

/-- A follower of `T` that has committed up to `commit`, and not applied the last entry of `log`. -/
structure Supplied (T : Nat) (log : Log) (commit : Nat) (f : ConsensusModule) : Prop where
  term : f.currentTerm = T
  committed : commit ≤ f.commitIndex
  applied : f.lastApplied < log.lastIndex

/-- After an accepted round the leader knows, and the follower has committed what the leader had. -/
theorem accepted_supplied (he : Engaged cfg n p s) {now : Instant} {draw : Nat}
    (h : (exchange (s.session n p) now draw).accepted = true) :
    (∃ k, (exchange (s.session n p) now draw).after.leader.matchIndex.lookup p = some k ∧
      (s.core n).log.lastIndex ≤ k) ∧
    (exchange (s.session n p) now draw).after.follower.currentTerm = (s.core n).currentTerm ∧
    (s.core n).commitIndex ≤ (exchange (s.session n p) now draw).after.follower.commitIndex := by
  obtain ⟨hneed, hcons⟩ := consistent_of_accepted he h
  obtain ⟨a, hr⟩ := reachable_refines he.reachable
  have hN := hr.nodes n he.member
  obtain ⟨-, hleader, hcur⟩ := exchange_accepted now draw he hneed hcons
  have hsettled := (accepted_settled he hneed hcons now draw).last
  have hlog := (exchange_stays now draw he).2.2.1
  rw [hlog] at hsettled
  have hcovers := (appendArgsFor_covers hN he.role hneed).2
  rw [← hN.mirrors.log.lastIndex_eq] at hcovers
  rw [hcovers] at hleader
  refine ⟨⟨max (((s.core n).matchIndex.lookup p).getD 0) (s.core n).log.lastIndex, ?_,
    le_max_right _ _⟩, hcur, ?_⟩
  · rw [hleader, (maybeAdvanceCommit_keeps _).2.1]
    exact Finmap.lookup_insert _
  · -- It follows the leader's commit index as far as its log goes, and that is as far as the
    -- leader's.
    obtain ⟨-, -, hlog', hcommit⟩ := handleAppendEntries_accepted he.append_term hcons now draw
    have hbound : (s.core n).commitIndex ≤ (s.core n).log.lastIndex := by
      rw [hN.mirrors.log.lastIndex_eq]
      exact hN.cursors.commit_le
    rw [exchange_append now draw he hneed] at hsettled ⊢
    dsimp only at hsettled ⊢
    rw [hcommit]
    rw [hlog'] at hsettled
    split
    · exact le_min le_rfl (hbound.trans hsettled)
    · next hle => exact Nat.not_lt.mp hle

/-- The leader's view of a peer that it has caught up. -/
def Matched (log : Log) (p : NodeId) (c : ConsensusModule) : Prop :=
  ∃ k, c.matchIndex.lookup p = some k ∧ log.lastIndex ≤ k

theorem Stage.catchUp {log : Log} (hx : Stage cfg q r x) (hn : n ∈ M) (hp : p ∈ M)
    (he : Engaged cfg n p x.cluster) (hreigns : Reigns T log (x.cluster.core n))
    (hsnap : log.snapshotIndex < log.lastIndex)
    (happlied : (x.cluster.core p).lastApplied < log.lastIndex) :
    ∃ y, Turn cfg M q r {n, p} x y ∧ Reigns T log (y.cluster.core n) ∧
      (x.cluster.core n).commitIndex ≤ (y.cluster.core n).commitIndex ∧
      (∀ m, m ≠ p → Matched log m (x.cluster.core n) → Matched log m (y.cluster.core n)) ∧
      Matched log p (y.cluster.core n) ∧
      Supplied T log (x.cluster.core n).commitIndex (y.cluster.core p) := by
  obtain ⟨front, last, hrounds, hrepaired⟩ := converges he rfl fun _ => (x.clock p, 0)
  obtain ⟨w, hturn, he', hproceeds, hlast⟩ := hx.rounds he hn hp hrounds
  have haccepted := hlast ▸ hrepaired.accepted
  obtain ⟨y, hturn', -, he'', hsession⟩ := hturn.stage.exchange he' hn hp le_rfl
  obtain ⟨hmatch, hcur, hcommit⟩ := accepted_supplied he' haccepted
  have hproceeds' := hproceeds.trans (exchange_proceeds he' (w.clock p) 0)
  rw [← hsession] at hmatch hcur hcommit hproceeds'
  have hlog : (w.cluster.core n).log = log := hproceeds.log.trans hreigns.holds
  have hterm : (w.cluster.core n).currentTerm = T := hproceeds.term.trans hreigns.term
  rw [hlog] at hmatch
  refine ⟨y, (hturn.trans hturn').mono (by rw [Set.union_self]), ⟨he''.role,
    hproceeds'.term.trans hreigns.term, hproceeds'.log.trans hreigns.holds, ?_⟩,
    hproceeds'.commit, fun m hm hk => ?_, hmatch, ⟨hcur.trans hterm, hproceeds.commit.trans hcommit,
    ?_⟩⟩
  · exact hproceeds'.applied.symm ▸ hreigns.applied
  · obtain ⟨k, hk, hle⟩ := hk
    exact ⟨k, (hproceeds'.others m hm).trans hk, hle⟩
  · refine hproceeds'.follower.trans_lt (max_lt happlied ?_)
    have hsnap' : (x.cluster.core n).log.snapshotIndex < log.lastIndex := hreigns.holds.symm ▸ hsnap
    exact hsnap'

/-- One after the other, all of them. By induction on those still to be caught up. -/
theorem Stage.catchUp_all {log : Log} {ps : List NodeId} (hx : Stage cfg q r x)
    (hM : ∀ v ∈ M, v ∈ cfg.members) (hn : n ∈ M) (hps : ∀ p ∈ ps, p ∈ M ∧ p ≠ n)
    (hnodup : ps.Nodup) (hreigns : Reigns T log (x.cluster.core n))
    (hsnap : log.snapshotIndex < log.lastIndex)
    (hready : ∀ p ∈ ps, (x.cluster.core p).currentTerm ≤ T ∧
      (x.cluster.core p).lastApplied < log.lastIndex) :
    ∃ y, Turn cfg M q r {m | m ∈ M} x y ∧ Reigns T log (y.cluster.core n) ∧
      (x.cluster.core n).commitIndex ≤ (y.cluster.core n).commitIndex ∧
      (∀ m, Matched log m (x.cluster.core n) → Matched log m (y.cluster.core n)) ∧
      (∀ p, p ∉ ps → p ≠ n → y.cluster.core p = x.cluster.core p) ∧
      ∀ p ∈ ps, Matched log p (y.cluster.core n) ∧
        Supplied T log (x.cluster.core n).commitIndex (y.cluster.core p) := by
  induction ps generalizing x with
  | nil =>
      exact ⟨x, .refl hx _, hreigns, le_rfl, fun _ hm => hm, fun _ _ _ => rfl, nofun⟩
  | cons p ps ih =>
      obtain ⟨hfresh, hnodup⟩ := List.nodup_cons.mp hnodup
      obtain ⟨⟨hp, hpn⟩, hps⟩ := List.forall_mem_cons.mp hps
      obtain ⟨⟨hterm, happlied⟩, hready⟩ := List.forall_mem_cons.mp hready
      have he : Engaged cfg n p x.cluster := ⟨hx.reachable, hM n hn,
        cfg.mem_peers (hM n hn) (hM p hp) hpn, hreigns.role, hreigns.term.symm ▸ hterm⟩
      obtain ⟨w, hturn, hreigns', hcommit, hothers, hmatched, hsupplied⟩ :=
        hx.catchUp hn hp he hreigns hsnap happlied
      have hsame : ∀ m, m ≠ n → m ≠ p → w.cluster.core m = x.cluster.core m := by
        intro m hmn hmp
        exact hturn.core m (by rintro (rfl | rfl) <;> contradiction)
      have hready' : ∀ m ∈ ps, (w.cluster.core m).currentTerm ≤ T ∧
          (w.cluster.core m).lastApplied < log.lastIndex := by
        intro m hm
        rw [hsame m (hps m hm).2 (by rintro rfl; exact hfresh hm)]
        exact hready m hm
      obtain ⟨y, hturn', hreigns'', hcommit', hothers', hsame', hdone⟩ :=
        ih hturn.stage hps hnodup hreigns' hready'
      refine ⟨y, (hturn.trans hturn').mono ?_, hreigns'', hcommit.trans hcommit', fun m hm => ?_,
        fun m hm hmn => ?_, List.forall_mem_cons.mpr ⟨⟨hothers' p hmatched, ?_⟩, fun m hm => ?_⟩⟩
      · rintro m ((rfl | rfl) | hm)
        · exact hn
        · exact hp
        · exact hm
      · by_cases hmp : m = p
        · exact hothers' m (hmp ▸ hmatched)
        · exact hothers' m (hothers m hmp hm)
      · rw [List.mem_cons, not_or] at hm
        rw [hsame' m hm.2 hmn, hsame m hmn hm.1]
      · rw [hsame' p hfresh hpn]
        exact hsupplied
      · obtain ⟨hm, hsup⟩ := hdone m hm
        exact ⟨hm, { hsup with committed := hcommit.trans hsup.committed }⟩

/-! ## Deliveries -/

theorem mem_commandsOf_of_get {full : List LogEntry} {lo hi i : Nat} {e : LogEntry} (hlo : lo ≤ i)
    (hhi : i < hi) (he : full[i]? = some e) :
    .command { index := i + 1, term := e.term, command := e.command } ∈ commandsOf full lo hi := by
  unfold commandsOf
  refine List.mem_filterMap.mpr ⟨i, ?_, by rw [he]; rfl⟩
  rw [List.mem_range'_1]
  omega

/-- The node has `entry` committed at `index`, and has not handed it over. -/
structure Due (index : Nat) (entry : LogEntry) (c : ConsensusModule) : Prop where
  get : c.log.get index = some entry
  applied : c.lastApplied < index
  committed : index ≤ c.commitIndex

/-- What is due is handed over next. -/
theorem Due.taken {lax : Prop} {taken : List Taken} {a : Ghost} {index : Nat} {entry : LogEntry}
    (hdue : Due index entry c) (hnode : NodeInv cfg lax taken a n c) :
    ∃ d out, c.takeApplies = some (d, out) ∧
      Apply.command ⟨index, entry.term, entry.command⟩ ∈ out := by
  obtain ⟨hentry, -⟩ := hnode.mirrors.log.getElem?_of_get hdue.get
  have happlied := hdue.applied
  obtain ⟨k, rfl⟩ : ∃ k, index = k + 1 := ⟨index - 1, by omega⟩
  have hitem := mem_commandsOf_of_get (Nat.lt_succ_iff.mp happlied)
    (Nat.lt_of_succ_le hdue.committed) hentry
  exact ⟨_, _, takeApplies_eq hnode, List.mem_append_right _ hitem⟩

theorem Stage.drain {index : Nat} {entry : LogEntry} (hx : Stage cfg q r x) (hn : n ∈ M)
    (hmem : n ∈ cfg.members) (hdue : Due index entry (x.cluster.core n)) :
    ∃ y out, Alone cfg M q r x y ∧ Stage cfg q r y ∧
      y.cluster.delivered = x.cluster.delivered ++ out ∧
      (n, Apply.command ⟨index, entry.term, entry.command⟩) ∈ out ∧
      ∀ m, m ≠ n → y.cluster.core m = x.cluster.core m := by
  obtain ⟨a, hr⟩ := reachable_refines hx.reachable
  obtain ⟨c, out, htake, hitem⟩ := hdue.taken (hr.nodes n hmem)
  let y : Clocked := ⟨{ x.cluster.setCore n c with
    delivered := x.cluster.delivered ++ out.map fun item => (n, item) }, x.clock⟩
  have hstep : Clocked.step cfg x (.drain n) = some y := by
    unfold Clocked.step Cluster.step
    simp only [Clocked.onTime, Action.isRestart, Action.reading, Option.all_none, Bool.or_true,
      if_true, hmem, htake, Option.map_some]
    rfl
  have hrun : Alone cfg M q r x y :=
    Within.refl.step (.drain n) (Or.inr (decide_eq_true hn)) hstep
  refine ⟨y, _, hrun, ⟨hx.reachable.step (Clocked.of_step hstep).2.1, hx.requests, hx.replies⟩, rfl,
    ?_, fun m hm => ?_⟩
  · exact List.mem_map.mpr ⟨_, hitem, rfl⟩
  · exact Cluster.core_setCore_ne x.cluster c hm

/-- All of them hand it over. By induction on those that still have to. -/
theorem Stage.drain_all {index : Nat} {entry : LogEntry} {ps : List NodeId} (hx : Stage cfg q r x)
    (hM : ∀ v ∈ M, v ∈ cfg.members) (hps : ∀ p ∈ ps, p ∈ M) (hnodup : ps.Nodup)
    (hdue : ∀ p ∈ ps, Due index entry (x.cluster.core p)) :
    ∃ y out, Alone cfg M q r x y ∧ y.cluster.delivered = x.cluster.delivered ++ out ∧
      ∀ p ∈ ps, (p, Apply.command ⟨index, entry.term, entry.command⟩) ∈ out := by
  induction ps generalizing x with
  | nil => exact ⟨x, [], .refl, (List.append_nil _).symm, nofun⟩
  | cons p ps ih =>
      obtain ⟨hfresh, hnodup⟩ := List.nodup_cons.mp hnodup
      obtain ⟨hp, hps⟩ := List.forall_mem_cons.mp hps
      obtain ⟨hduep, hdue⟩ := List.forall_mem_cons.mp hdue
      obtain ⟨w, out, hrun, hw, hdel, hmem, hsame⟩ := hx.drain hp (hM p hp) hduep
      obtain ⟨y, out', hrun', hdel', hmem'⟩ := ih hw hps hnodup fun m hm => by
        rw [hsame m (by rintro rfl; exact hfresh hm)]
        exact hdue m hm
      refine ⟨y, out ++ out', Within.trans hrun hrun', ?_, List.forall_mem_cons.mpr
        ⟨List.mem_append_left _ hmem, fun m hm => List.mem_append_right _ (hmem' m hm)⟩⟩
      rw [hdel', hdel, List.append_assoc]

/-! ## The command -/

/-- Nobody in an older term has applied more than the leader holds. -/
theorem applied_le_leader (h : Cluster.Reachable cfg s) (hn : n ∈ cfg.members)
    (hp : p ∈ cfg.members) (hrole : (s.core n).role = .leader)
    (hterm : (s.core p).currentTerm ≤ (s.core n).currentTerm) :
    (s.core p).lastApplied ≤ (s.core n).log.lastIndex := by
  obtain ⟨a, hr⟩ := reachable_refines h
  have hN := hr.nodes n hn
  have hP := hr.nodes p hp
  have hL := hN.leadership hrole
  rw [hN.mirrors.term, hP.mirrors.term] at hterm
  have hpre := (hP.cursors.committed.mono hterm).pre_llog hr.safe hL.lead
  rw [hL.log] at hpre
  have hlen := hpre.length_le
  rw [List.length_take, Nat.min_eq_left hP.cursors.commit_le] at hlen
  rw [hN.mirrors.log.lastIndex_eq]
  exact hP.cursors.applied_le.trans hlen

/-- `l` leads `T`, and `command` is the last entry of its log, which nobody has applied. -/
structure Proposed (M : Finset NodeId) (l : NodeId) (T : Nat) (log : Log) (command : Bytes)
    (s : Cluster) : Prop where
  mem : l ∈ M
  reigns : Reigns T log (s.core l)
  retained : log.snapshotIndex < log.lastIndex
  last : log.get log.lastIndex = some ⟨T, command⟩
  newest : ∀ m ∈ M, (s.core m).currentTerm ≤ T
  unapplied : ∀ m ∈ M, (s.core m).lastApplied < log.lastIndex

/-- The leader takes a command. -/
theorem Foremost.propose {l : NodeId} (hled : Foremost M l x) (h : Cluster.Reachable cfg x.cluster)
    (hM : ∀ v ∈ M, v ∈ cfg.members) (command : Bytes) {s' : Cluster}
    (hself : s'.core l = ((x.cluster.core l).submitCommand command).1)
    (hother : ∀ m, m ≠ l → s'.core m = x.cluster.core m) :
    ∃ log, Proposed M l (x.cluster.core l).currentTerm log command s' ∧
      ((x.cluster.core l).submitCommand command).2 = some log.lastIndex := by
  obtain ⟨hindex, hlog, hstanding⟩ := submitCommand_effect hled.role command
  have happlied : ((x.cluster.core l).submitCommand command).1.lastApplied =
      (x.cluster.core l).lastApplied := by
    unfold submitCommand
    rw [if_neg (not_not_intro hled.role)]
    exact (maybeAdvanceCommit_keeps _).1
  have hget := Log.get_append_last (x.cluster.core l).log ⟨(x.cluster.core l).currentTerm, command⟩
  have hlast :
      ((x.cluster.core l).log.append ⟨(x.cluster.core l).currentTerm, command⟩).1.lastIndex =
      (x.cluster.core l).log.lastIndex + 1 := by
    simp [Log.append, Log.lastIndex, Nat.add_assoc]
  have hbase :
      ((x.cluster.core l).log.append ⟨(x.cluster.core l).currentTerm, command⟩).1.snapshotIndex
      ≤ (x.cluster.core l).log.lastIndex := Nat.le_add_right _ _
  have hunapplied : ∀ m ∈ M, (x.cluster.core m).lastApplied ≤ (x.cluster.core l).log.lastIndex :=
    fun m hm => applied_le_leader h (hM l hled.mem) (hM m hm) hled.role (hled.newest m hm)
  have hrole := congrArg Standing.role hstanding
  have hterm := congrArg Standing.currentTerm hstanding
  rw [← hself] at hlog hrole hterm happlied
  generalize ((x.cluster.core l).log.append ⟨(x.cluster.core l).currentTerm, command⟩).1 = log at *
  rw [← hlast] at hget hindex
  refine ⟨log, ⟨hled.mem, ⟨hrole.trans hled.role, hterm, hlog, ?_⟩, by omega, hget, fun m hm => ?_,
    fun m hm => ?_⟩, hindex⟩
  · have := hunapplied l hled.mem
    omega
  · by_cases hml : m = l
    · rw [hml]
      exact hterm.le
    · rw [hother m hml]
      exact hled.newest m hm
  · have := hunapplied m hm
    by_cases hml : m = l
    · rw [hml] at this ⊢
      omega
    · rw [hother m hml]
      omega

/-- After two passes over `M` everybody in it has the command committed. -/
theorem Stage.settles {l : NodeId} {log : Log} {command : Bytes} (hx : Stage cfg q r x)
    (hM : ∀ v ∈ M, v ∈ cfg.members) (hcard : cfg.members.length < 2 * M.card)
    (h : Proposed M l T log command x.cluster) :
    ∃ y, Turn cfg M q r {m | m ∈ M} x y ∧ ∀ m ∈ M,
      Due log.lastIndex ⟨T, command⟩ (y.cluster.core m) := by
  have hl := h.mem
  have hsnap := h.retained
  have hget := h.last
  have hlast : log.termAt log.lastIndex = some T := by
    obtain ⟨a, hr⟩ := reachable_refines hx.reachable
    have hlog := (hr.nodes l (hM l hl)).mirrors.log
    rw [h.reigns.holds] at hlog
    obtain ⟨hentry, -⟩ := hlog.getElem?_of_get hget
    obtain ⟨k, hk⟩ : ∃ k, log.lastIndex = k + 1 := ⟨log.lastIndex - 1, by omega⟩
    rw [hk] at hentry
    rw [hlog.termAt_eq hsnap.le, hk, plainTerm_succ]
    exact congrArg (Option.map LogEntry.term) hentry
  -- The first pass: the command is on a majority.
  obtain ⟨v, hturnA, hreignsA, -, -, -, hdoneA⟩ := hx.catchUp_all hM hl
    (fun p hp => mem_others hp) (Finset.nodup_toList (M.erase l)) h.reigns hsnap fun p hp =>
      ⟨h.newest p (mem_others hp).1, h.unapplied p (mem_others hp).1⟩
  have hcommitted := committed_of_matched hturnA.stage.reachable hM hcard hl hreignsA.role
    (by rw [hreignsA.holds, hreignsA.term]; exact hlast)
    fun p hp => (hdoneA p (Finset.mem_toList.mpr hp)).1
  -- The second one: they all know.
  obtain ⟨y, hturnB, hreignsB, hcommitB, -, -, hdoneB⟩ := hturnA.stage.catchUp_all hM hl
    (fun p hp => mem_others hp) (Finset.nodup_toList (M.erase l)) hreignsA hsnap fun p hp =>
      ⟨(hdoneA p hp).2.term.le, (hdoneA p hp).2.applied⟩
  refine ⟨y, (hturnA.trans hturnB).mono (by rw [Set.union_self]), fun m hm => ?_⟩
  by_cases hml : m = l
  · rw [hml]
    exact ⟨hreignsB.holds.symm ▸ hget, hreignsB.applied, hcommitted.trans hcommitB⟩
  have hsupplied := (hdoneB m (Finset.mem_toList.mpr (Finset.mem_erase.mpr ⟨hml, hm⟩))).2
  have hcommit := hcommitted.trans hsupplied.committed
  refine ⟨?_, hsupplied.applied, hcommit⟩
  -- A follower's committed prefix is the leader's.
  obtain ⟨a, hr⟩ := reachable_refines hturnB.stage.reachable
  have he : Engaged cfg l m y.cluster := ⟨hturnB.stage.reachable, hM l hl,
    cfg.mem_peers (hM l hl) (hM m hm) hml, hreignsB.role,
    (hsupplied.term.trans hreignsB.term.symm).le⟩
  have hN := (hr.nodes l (hM l hl)).mirrors.log
  have hP := hr.nodes m (hM m hm)
  rw [hreignsB.holds] at hN
  have hentry := (hN.getElem?_of_get hget).1
  have hpre := pre_of_committed hr he (hsupplied.term.trans hreignsB.term.symm) hcommit
  rw [hP.mirrors.log.get_eq (hP.cursors.snapshot_le.trans_lt hsupplied.applied)]
  refine getElem?_of_pre hpre ?_
  rw [List.getElem?_take_of_lt (by omega)]
  exact hentry

theorem Stage.propose {l : NodeId} (hx : Stage cfg q r x) (hM : ∀ v ∈ M, v ∈ cfg.members)
    (hled : Foremost M l x) (command : Bytes) :
    ∃ y log, Alone cfg M q r x y ∧ Stage cfg q r y ∧ y.cluster.delivered = x.cluster.delivered ∧
      Proposed M l (x.cluster.core l).currentTerm log command y.cluster := by
  let y : Clocked :=
    ⟨x.cluster.setCore l ((x.cluster.core l).submitCommand command).1, x.clock⟩
  have hstep : Clocked.step cfg x (.propose l command) = some y := by
    unfold Clocked.step Cluster.step
    simp only [Clocked.onTime, Action.isRestart, Action.reading, Option.all_none, Bool.or_true,
      if_true, hM l hled.mem]
    rfl
  have hrun : Alone cfg M q r x y :=
    Within.refl.step (.propose l command) (Or.inr (decide_eq_true hled.mem)) hstep
  obtain ⟨log, hproposed, -⟩ := hled.propose hx.reachable hM command
    (Cluster.core_setCore_self x.cluster l _) fun m hm => Cluster.core_setCore_ne x.cluster _ hm
  exact ⟨y, log, hrun, ⟨hx.reachable.step (Clocked.of_step hstep).2.1, hx.requests, hx.replies⟩,
    rfl,
    hproposed⟩

/-- **A majority is enough.** Take any reachable state, any majority `M` of the cluster and any
    command. The nodes of `M` can go on alone, without a message from before and without one from or
    to the others, to a state in which each of them has handed the command to its state machine, at
    one index. -/
theorem majority_available (h : Clocked.Reachable cfg x) (hM : ∀ v ∈ M, v ∈ cfg.members)
    (hcard : cfg.members.length < 2 * M.card) (command : Bytes) :
    ∃ y index term out,
      Alone cfg M x.cluster.requests.length x.cluster.replies.length x y ∧
      y.cluster.delivered = x.cluster.delivered ++ out ∧
      ∀ m ∈ M, (m, .command { index, term, command }) ∈ out := by
  have hx : Stage cfg x.cluster.requests.length x.cluster.replies.length x :=
    ⟨Clocked.reachable h, le_rfl, le_rfl⟩
  obtain ⟨u, l, hturn, hled⟩ := majority_elects hx hM hcard
  obtain ⟨v, log, hrun, hv, hdel, hproposed⟩ := hturn.stage.propose hM hled command
  obtain ⟨w, hturn', hdue⟩ := hv.settles hM hcard hproposed
  obtain ⟨y, out, hrun', hdel', hout⟩ := hturn'.stage.drain_all hM
    (fun p hp => Finset.mem_toList.mp hp) (Finset.nodup_toList M)
    (fun p hp => hdue p (Finset.mem_toList.mp hp))
  refine ⟨y, log.lastIndex, _, out,
    Within.trans (Within.trans (Within.trans hturn.alone hrun) hturn'.alone) hrun', ?_,
    fun m hm => hout m (Finset.mem_toList.mpr hm)⟩
  rw [hdel', hturn'.delivered, hdel, hturn.delivered]

set_option maxRecDepth 100000 in
theorem strandedRun_isSome :
    (run (Clocked.step trio) (Clocked.init trio) uncommittedRun).isSome = true := by decide

/-- Node 1 leads, and node 2 has its first entry, which is not committed. -/
def stranded : Clocked :=
  (run (Clocked.step trio) (Clocked.init trio) uncommittedRun).get strandedRun_isSome

set_option maxRecDepth 100000 in
/-- Nodes 2 and 3 go on without the leader. -/
theorem majority_available_stranded :
    (stranded.cluster.core 1).role = .leader ∧ (stranded.cluster.core 2).log.lastIndex = 1 ∧
    ∃ y index term out,
      Alone trio {2, 3} stranded.cluster.requests.length stranded.cluster.replies.length
        stranded y ∧
      y.cluster.delivered = stranded.cluster.delivered ++ out ∧
      ∀ m ∈ ({2, 3} : Finset NodeId), (m, .command { index, term, command := [8] }) ∈ out :=
  have hreach : Clocked.Reachable trio stranded :=
    ⟨uncommittedRun, Option.eq_some_of_isSome strandedRun_isSome⟩
  ⟨by decide, by decide, majority_available hreach (by decide) (by decide) [8]⟩

end Murmur.Raft
