/-
  The service of `src/app.rs` on a majority of its nodes.

  From any state the service can get to, whatever was lost and whoever is down or cut off, the
  processes of a majority `M` can take a request, commit it, apply it and answer it
  (`majority_answers`):

  * `ClockedKv`, `Served`: the service with the clocks of its nodes, and its runs in which only `M`
    takes part and no other request is made;
  * `Round`: a part of such a run in which no call goes on. What Raft does by itself is one
    (`Round.lift`), and so is an iteration of the apply loop (`Round.finish`, `Round.take`);
  * `Served.ask`: the leader draws a nonce for the request, registers it and proposes it;
  * `Round.workOff`: the apply loop gets to the entry of the request. This fails only if it has to
    capture a state machine that is too large to be written into one byte vector
    (`KvService.Choked`).
-/
import Murmur.App.Wakeup
import Murmur.App.Retention
import Murmur.Raft.Availability

namespace Murmur.App

open Murmur.Raft (Bytes NodeId Instant Cluster ClusterConfig Clocked Action Apply Applied Log)
open Murmur.Basis

variable {σ : Type} {cfg : ClusterConfig} {db : Db σ} {codec : Codec}

/-! ## The runs -/

/-- The service with the clocks of its nodes. -/
structure ClockedKv (σ : Type) where
  kv : KvCluster σ
  clock : NodeId → Instant

/-- What Raft does in an action that reads a clock. -/
def KvAction.timed : KvAction → Option Action
  | .raft act => some act
  | .restart n now draw => some (.restart n now draw)
  | _ => none

/-- A request that is to be made: how many requests and replies of Raft are from before it, which
    call it will be, and what it asks. -/
structure Errand where
  requests : Nat
  replies : Nat
  call : Nat
  command : Command

/-- What the nodes `M` do without the others and without restarts, with new messages only. The only
    request that is taken, or goes on, is the one of the errand. -/
def KvAction.among (M : Finset NodeId) (e : Errand) (s : KvCluster σ) : KvAction → Bool
  | .raft act => act.among M e.requests e.replies s.raft
  | .execute n command => n ∈ M ∧ command = e.command ∧ s.calls.length = e.call
  | .drain n | .apply n _ | .check n | .capture n _ _ => n ∈ M
  | .register k | .propose k | .respond k =>
    k = e.call ∧ (s.calls[k]?).all fun call => call.node ∈ M
  | .expire _ | .cleanup _ | .restart .. => false

namespace ClockedKv

def raft (x : ClockedKv σ) : Clocked := ⟨x.kv.raft, x.clock⟩

def step (cfg : ClusterConfig) (db : Db σ) (codec : Codec) (x : ClockedKv σ) (act : KvAction) :
    Option (ClockedKv σ) :=
  match act.timed with
  | some timed =>
    if x.raft.onTime timed then
      (x.kv.step cfg db codec act).map fun kv => { kv, clock := x.raft.advance timed }
    else none
  | none => (x.kv.step cfg db codec act).map fun kv => { x with kv }

end ClockedKv

/-- The runs of the nodes `M` alone, in which nonces are not drawn twice. -/
def Served (cfg : ClusterConfig) (db : Db σ) (codec : Codec) (M : Finset NodeId) (e : Errand) :
    ClockedKv σ → ClockedKv σ → Prop :=
  Within (ClockedKv.step cfg db codec) fun x act =>
    act.among M e x.kv = true ∧ Scarce x.kv act ∧ Retired x.kv act

variable {M : Finset NodeId} {e : Errand} {x y z : ClockedKv σ} {n : NodeId}

theorem ClockedKv.of_step {act : KvAction} (h : x.step cfg db codec act = some y) :
    x.kv.step cfg db codec act = some y.kv := by
  unfold ClockedKv.step at h
  split at h
  · split at h
    · obtain ⟨kv, hkv, rfl⟩ := Option.map_eq_some_iff.mp h
      exact hkv
    · cases h
  · obtain ⟨kv, hkv, rfl⟩ := Option.map_eq_some_iff.mp h
    exact hkv

theorem ClockedKv.step_untimed {act : KvAction} {kv : KvCluster σ} (hact : act.timed = none)
    (h : x.kv.step cfg db codec act = some kv) : x.step cfg db codec act = some ⟨kv, x.clock⟩ := by
  unfold ClockedKv.step
  rw [hact, h]
  rfl

theorem Served.trans (h : Served cfg db codec M e x y) (h' : Served cfg db codec M e y z) :
    Served cfg db codec M e x z := Within.trans h h'

theorem Served.distinctly {store : NodeId → σ} (h : Served cfg db codec M e x y)
    (hx : Distinctly cfg db codec store x.kv) : Distinctly cfg db codec store y.kv := by
  refine h.invariant (I := fun y : ClockedKv σ => Distinctly cfg db codec store y.kv) ?_ hx
  intro x act y hx hok hstep
  exact hx.step act hok.2 (ClockedKv.of_step hstep)

theorem Served.reachable (h : Served cfg db codec M e x y)
    (hx : Cluster.Reachable cfg x.kv.raft) : Cluster.Reachable cfg y.kv.raft :=
  h.invariant (I := fun y => Cluster.Reachable cfg y.kv.raft)
    (fun _ _ _ hx _ hstep => KvCluster.step_reachable hx (ClockedKv.of_step hstep)) hx

/-- A part of such a run in which the calls only get outcomes. -/
structure Round (cfg : ClusterConfig) (db : Db σ) (codec : Codec) (M : Finset NodeId) (e : Errand)
    (x y : ClockedKv σ) : Prop where
  run : Served cfg db codec M e x y
  epoch : ∀ m, y.kv.epoch m = x.kv.epoch m
  calls : ∀ (k : Nat) (call : Call), x.kv.calls[k]? = some call →
    ∃ received, y.kv.calls[k]? = some { call with received }

namespace Round

theorem refl (x : ClockedKv σ) : Round cfg db codec M e x x :=
  ⟨.refl, fun _ => rfl, fun _ call hk => ⟨call.received, hk⟩⟩

theorem trans (h : Round cfg db codec M e x y) (h' : Round cfg db codec M e y z) :
    Round cfg db codec M e x z := by
  refine ⟨h.run.trans h'.run, fun m => (h'.epoch m).trans (h.epoch m), fun k call hk => ?_⟩
  obtain ⟨_, hk'⟩ := h.calls k call hk
  obtain ⟨received, hk''⟩ := h'.calls k _ hk'
  exact ⟨received, hk''⟩

/-- One action, of a node of `M`. -/
theorem single (act : KvAction) {kv : KvCluster σ} (hact : act.timed = none)
    (hok : act.among M e x.kv = true ∧ Scarce x.kv act ∧ Retired x.kv act)
    (hstep : x.kv.step cfg db codec act = some kv)
    (hcalls : ∀ (k : Nat) (call : Call), x.kv.calls[k]? = some call →
      ∃ received, kv.calls[k]? = some { call with received }) :
    Round cfg db codec M e x ⟨kv, x.clock⟩ := by
  refine ⟨Within.refl.step act hok (ClockedKv.step_untimed hact hstep), fun m => ?_, hcalls⟩
  refine KvCluster.step_epoch hstep ?_
  rintro now draw rfl
  cases hact

/-- What Raft does by itself, the service does. -/
theorem lift {u : Clocked} (h : Raft.Among cfg M e.requests e.replies x.raft u) :
    Served cfg db codec M e x ⟨{ x.kv with raft := u.cluster }, u.clock⟩ := by
  refine h.invariant (I := fun u : Clocked =>
    Served cfg db codec M e x ⟨{ x.kv with raft := u.cluster }, u.clock⟩) ?_ Within.refl
  intro u act v hrun hact hstep
  obtain ⟨hon, hcluster, hclock⟩ := Clocked.of_step hstep
  have hinternal : internal act = true := by
    cases act with
    | tick | serve | fold => rfl
    | propose | drain | snapshot | restart => cases hact
  refine hrun.step (.raft act) ⟨hact, trivial, trivial⟩ ?_
  have hkv : KvCluster.step cfg db codec { x.kv with raft := u.cluster } (.raft act) =
      some { x.kv with raft := v.cluster } := by
    simp [KvCluster.step, hinternal, hcluster]
  show (if Clocked.onTime u act then _ else _) = _
  rw [if_pos hon, hkv, hclock]
  rfl

theorem of_turn {A : Set NodeId} {u : Clocked}
    (h : Raft.Turn cfg M e.requests e.replies A x.raft u) :
    Round cfg db codec M e x ⟨{ x.kv with raft := u.cluster }, u.clock⟩ :=
  ⟨lift h.run, h.epoch, fun _ call hk => ⟨call.received, hk⟩⟩

end Round

/-! ## The apply loop -/

/-- The apply loop is to capture the state machine, and its image does not fit into one byte vector,
    in whichever order the tables are read. -/
def KvService.Choked (db : Db σ) (sv : KvService σ) : Prop :=
  (∃ index, sv.loop = .capturing index) ∧
    ∀ dedup keys, 2 ^ 63 ≤ (sv.replica.buildSnapshot db dedup keys).length

theorem exists_iter {α : Type} [DecidableEq α] (table : Multiset α) :
    ∃ (l : List α) (order : Iter table), Iter.of l table = some order := by
  obtain ⟨l, hl⟩ := Quot.exists_rep table
  exact ⟨l, ⟨l, hl⟩, Iter.of_order ⟨l, hl⟩⟩

/-- A snapshot can be taken whenever the apply loop asks for one. -/
theorem step_snapshot_isSome {s : Cluster} (h : Cluster.Reachable cfg s) (hn : n ∈ cfg.members)
    (index : Nat) (data : Bytes) : ∃ s', s.step cfg (.snapshot n index data) = some s' := by
  obtain ⟨a, hr⟩ := Raft.reachable_refines h
  have hnode := hr.nodes n hn
  have htake : ∃ core, (s.core n).takeSnapshot index data = some core := by
    by_cases hin : index ≤ (s.core n).log.snapshotIndex ∨ index > (s.core n).lastApplied
    · exact ⟨_, if_pos hin⟩
    · have := hnode.cursors.applied_le
      obtain ⟨t, ht, -⟩ := Raft.termAt_of_applied hnode index (by omega) (by omega)
      exact ⟨_, Raft.takeSnapshot_effect hin ht⟩
  obtain ⟨core, hcore⟩ := htake
  unfold Cluster.step
  simp [hn, hcore]

namespace Round

theorem capture (hx : Cluster.Reachable cfg x.kv.raft) (hn : n ∈ M) (hmem : n ∈ cfg.members)
    {index : Nat} (hloop : (x.kv.services n).loop = .capturing index) :
    ∃ y, Round cfg db codec M e x y ∧ ((y.kv.services n).Choked db ∨
      (y.kv.services n).loop = .receiving ∧
        (y.kv.services n).applies = (x.kv.services n).applies) := by
  by_cases hfit : ∃ dedup keys,
      ((x.kv.services n).replica.buildSnapshot db dedup keys).length < 2 ^ 63
  · obtain ⟨dedup, keys, hfit⟩ := hfit
    obtain ⟨raft, hraft⟩ := step_snapshot_isSome hx hmem index
      ((x.kv.services n).replica.buildSnapshot db dedup keys)
    have hstep : x.kv.step cfg db codec (.capture n dedup.1 keys.1) =
        some (KvCluster.setService { x.kv with raft } n
          { x.kv.services n with loop := .receiving }) := by
      simp only [KvCluster.step, hloop, Iter.of_order, hraft, guard, hfit, if_true,
        Option.bind_eq_bind, Option.bind_some, Option.pure_def]
    refine ⟨_, single (.capture n dedup.1 keys.1) rfl ⟨decide_eq_true hn, trivial, trivial⟩ hstep
      fun _ call hk => ⟨call.received, hk⟩, ?_⟩
    simp [KvCluster.setService]
  · push Not at hfit
    exact ⟨x, .refl x, Or.inl ⟨⟨index, hloop⟩, hfit⟩⟩

/-- The apply loop ends the iteration it is in. -/
theorem finish (db : Db σ) (codec : Codec) (e : Errand) (hx : Cluster.Reachable cfg x.kv.raft)
    (hn : n ∈ M) (hmem : n ∈ cfg.members) :
    ∃ y, Round cfg db codec M e x y ∧ ((y.kv.services n).Choked db ∨
      (y.kv.services n).loop = .receiving ∧
        (y.kv.services n).applies = (x.kv.services n).applies) := by
  cases hloop : (x.kv.services n).loop with
  | receiving => exact ⟨x, .refl x, Or.inr ⟨hloop, rfl⟩⟩
  | capturing index => exact capture hx hn hmem hloop
  | applied index =>
      let loop : LoopState :=
        if (x.kv.raft.core n).raftLogLen ≥ snapshotThreshold then .capturing index else .receiving
      have hstep : x.kv.step cfg db codec (.check n) =
          some (x.kv.setService n { x.kv.services n with loop }) := by
        simp [KvCluster.step, hloop, loop]
      have hround : Round cfg db codec M e x
          ⟨x.kv.setService n { x.kv.services n with loop }, x.clock⟩ :=
        single (.check n) rfl ⟨decide_eq_true hn, trivial, trivial⟩ hstep
          fun _ call hk => ⟨call.received, hk⟩
      have hservice : (x.kv.setService n { x.kv.services n with loop }).services n =
          { x.kv.services n with loop } := Function.update_self ..
      by_cases hlong : (x.kv.raft.core n).raftLogLen ≥ snapshotThreshold
      · have hcapturing : ((x.kv.setService n { x.kv.services n with loop }).services n).loop =
            .capturing index := by
          rw [hservice]
          exact if_pos hlong
        obtain ⟨y, hround', hy⟩ := capture (hround.run.reachable hx) hn hmem hcapturing
        rw [hservice] at hy
        exact ⟨y, hround.trans hround', hy⟩
      · refine ⟨_, hround, Or.inr ?_⟩
        rw [hservice]
        exact ⟨if_neg hlong, rfl⟩

end Round

/-- Of a call, `apply` changes at most what it was sent. -/
theorem apply_calls (db : Db σ) (s : KvCluster σ) (n : NodeId) (entry : Applied)
    (command : Command) {k : Nat} {call : Call} (hk : s.calls[k]? = some call) :
    ∃ received, (s.apply db n entry command).calls[k]? = some { call with received } := by
  unfold KvCluster.apply
  dsimp only
  split
  · next j hw =>
    unfold KvCluster.send
    split
    · next target hj =>
      by_cases hkj : k = j
      · subst hkj
        have heq : call = target := Option.some.inj (hk.symm.trans hj)
        subst heq
        exact ⟨_, List.getElem?_set_self (List.getElem?_eq_some_iff.mp hk).1⟩
      · refine ⟨call.received, ?_⟩
        show (s.calls.set j _)[k]? = _
        rw [List.getElem?_set_ne (Ne.symm hkj)]
        exact hk
    · exact ⟨call.received, hk⟩
  · exact ⟨call.received, hk⟩

namespace Round

/-- The apply loop takes the next item. -/
theorem take (hn : n ∈ M) (hmem : n ∈ cfg.members) (hloop : (x.kv.services n).loop = .receiving)
    {item : Apply} {rest : List Apply} (happlies : (x.kv.services n).applies = item :: rest) :
    ∃ y, Round cfg db codec M e x y ∧ (y.kv.services n).applies = rest ∧
      ∀ entry command, item = .command entry → codec.decode entry.command = some command →
        ∃ outcome, ⟨n, x.kv.epoch n, entry, command, outcome⟩ ∈ y.kv.performed := by
  cases item with
  | snapshot sn =>
      obtain ⟨choice, order, horder⟩ := exists_iter (x.kv.services n).replica.keys.val
      have hstep : x.kv.step cfg db codec (.apply n choice) = some (x.kv.setService n
          { x.kv.services n with
            applies := rest
            replica := (x.kv.services n).replica.installSnapshot db order sn.data
            cursor := sn.lastIncludedIndex }) := by
        simp [KvCluster.step, hmem, hloop, happlies, horder, guard]
      refine ⟨_, single (.apply n choice) rfl ⟨decide_eq_true hn, trivial, trivial⟩ hstep
        fun _ call hk => ⟨call.received, hk⟩, ?_, nofun⟩
      simp [KvCluster.setService]
  | command entry =>
      let sv : KvService σ := { x.kv.services n with
        applies := rest, loop := .applied entry.index, cursor := entry.index }
      cases hdec : codec.decode entry.command with
      | none =>
          have hstep : x.kv.step cfg db codec (.apply n []) = some (x.kv.setService n sv) := by
            simp [KvCluster.step, hmem, hloop, happlies, hdec, guard, sv]
          refine ⟨_, single (.apply n []) rfl ⟨decide_eq_true hn, trivial, trivial⟩ hstep
            fun _ call hk => ⟨call.received, hk⟩, ?_, ?_⟩
          · simp [KvCluster.setService, sv]
          · intro _ command heq hsome
            cases heq
            rw [hdec] at hsome
            cases hsome
      | some command =>
          have hstep : x.kv.step cfg db codec (.apply n []) =
              some ((x.kv.setService n sv).apply db n entry command) := by
            simp [KvCluster.step, hmem, hloop, happlies, hdec, guard, sv]
          refine ⟨_, single (.apply n []) rfl ⟨decide_eq_true hn, trivial, trivial⟩ hstep
            fun _ call hk => apply_calls db (x.kv.setService n sv) n entry command hk, ?_⟩
          obtain ⟨waiters, calls, -, heq⟩ := apply_result (s := x.kv) (n := n) db sv entry command
          dsimp only
          rw [heq]
          refine ⟨by simp [sv], fun _ command' hitem hsome => ?_⟩
          cases hitem
          cases hdec.symm.trans hsome
          exact ⟨_, List.mem_append_right _ List.mem_cons_self⟩

/-- The apply loop gets to a command in its channel. By induction on what is before it. -/
theorem workOff (db : Db σ) (e : Errand) (hx : Cluster.Reachable cfg x.kv.raft) (hn : n ∈ M)
    (hmem : n ∈ cfg.members) {front rest : List Apply} {entry : Applied} {command : Command}
    (happlies : (x.kv.services n).applies = front ++ .command entry :: rest)
    (hdec : codec.decode entry.command = some command) :
    ∃ y, Round cfg db codec M e x y ∧ ((y.kv.services n).Choked db ∨
      ∃ outcome, ⟨n, x.kv.epoch n, entry, command, outcome⟩ ∈ y.kv.performed) := by
  induction front generalizing x with
  | nil =>
      obtain ⟨w, hround, hlarge | ⟨hloop, hsame⟩⟩ := finish db codec e hx hn hmem
      · exact ⟨w, hround, Or.inl hlarge⟩
      obtain ⟨y, hround', -, hdone⟩ := take hn hmem hloop (hsame.trans happlies)
      refine ⟨y, hround.trans hround', Or.inr ?_⟩
      rw [← hround.epoch n]
      exact hdone entry command rfl hdec
  | cons item front ih =>
      obtain ⟨w, hround, hlarge | ⟨hloop, hsame⟩⟩ := finish db codec e hx hn hmem
      · exact ⟨w, hround, Or.inl hlarge⟩
      obtain ⟨u, hround', hrest, -⟩ := take hn hmem hloop (hsame.trans happlies)
      have hboth := hround.trans hround'
      obtain ⟨y, hround'', hdone⟩ := ih (hboth.run.reachable hx) hrest
      refine ⟨y, hboth.trans hround'', ?_⟩
      rw [← hboth.epoch n]
      exact hdone

/-- The driver moves what is due into the channel. -/
theorem drain (db : Db σ) (codec : Codec) (e : Errand) (hx : Cluster.Reachable cfg x.kv.raft)
    (hn : n ∈ M) (hmem : n ∈ cfg.members) {index : Nat} {entry : Raft.LogEntry}
    (hdue : Raft.Due index entry (x.kv.raft.core n)) :
    ∃ y front rest, Round cfg db codec M e x y ∧ (y.kv.services n).applies =
      front ++ .command ⟨index, entry.term, entry.command⟩ :: rest := by
  obtain ⟨a, href⟩ := Raft.reachable_refines hx
  obtain ⟨core, out, htake, hitem⟩ := hdue.taken (href.nodes n hmem)
  obtain ⟨front, rest, rfl⟩ := List.append_of_mem hitem
  have hraft : ∃ raft, x.kv.raft.step cfg (.drain n) = some raft := by
    unfold Cluster.step
    simp [hmem, htake]
  obtain ⟨raft, hraft⟩ := hraft
  have hstep : x.kv.step cfg db codec (.drain n) = some (KvCluster.setService { x.kv with raft } n
      { x.kv.services n with
        applies := (x.kv.services n).applies ++
          (front ++ .command ⟨index, entry.term, entry.command⟩ :: rest) }) := by
    simp [KvCluster.step, hraft, htake]
  refine ⟨_, (x.kv.services n).applies ++ front, rest, single (.drain n) rfl
    ⟨decide_eq_true hn, trivial, trivial⟩ hstep fun _ call hk => ⟨call.received, hk⟩, ?_⟩
  simp [KvCluster.setService]

end Round

/-! ## The request -/

/-- Call `k`, of the running process of `n`, waits for the entry at `index`. -/
def Awaits (k : Nat) (n : NodeId) (command : Command) (index term : Nat) (s : KvCluster σ) : Prop :=
  ∃ received, s.calls[k]? = some
    { node := n, epoch := s.epoch n, command, phase := .waiting, entry := some (index, term),
      received }

theorem Awaits.later {k index term : Nat} {command : Command}
    (h : Awaits k n command index term x.kv) (hround : Round cfg db codec M e x y) :
    Awaits k n command index term y.kv := by
  obtain ⟨received, hk⟩ := h
  obtain ⟨received', hk'⟩ := hround.calls k _ hk
  refine ⟨received', ?_⟩
  rw [hround.epoch n]
  exact hk'

theorem KvCluster.callIn_eq {s : KvCluster σ} {k : Nat} {phases : List Phase} {call : Call}
    (hk : s.calls[k]? = some call) (hlive : call.epoch = s.epoch call.node)
    (hphase : call.phase ∈ phases) : s.callIn k phases = some call := by
  simp [KvCluster.callIn, hk, hlive, hphase, guard]

/-- The request draws its nonce. -/
theorem Served.execute (db : Db σ) (codec : Codec) (hn : n ∈ M) (hmem : n ∈ cfg.members)
    (hcall : x.kv.calls.length = e.call) (hscarce : Scarce x.kv (.execute n e.command))
    (hretired : Retired x.kv (.execute n e.command)) :
    ∃ y, Served cfg db codec M e x y ∧ y.raft = x.raft ∧ y.kv.calls[e.call]? = some
      { node := n, epoch := x.kv.epoch n
        command := { e.command with nonce := nextNonce n (x.kv.services n).nonce } } := by
  let call : Call :=
    { node := n, epoch := x.kv.epoch n
      command := { e.command with nonce := nextNonce n (x.kv.services n).nonce } }
  let s : KvCluster σ := KvCluster.setService { x.kv with calls := x.kv.calls ++ [call] } n
    { x.kv.services n with nonce := (x.kv.services n).nonce + 1 }
  have hstep : x.kv.step cfg db codec (.execute n e.command) = some s := by
    simp [KvCluster.step, hmem, guard, s, call]
  have hnew : s.calls[e.call]? = some call := hcall ▸ List.getElem?_concat_length ..
  exact ⟨⟨s, x.clock⟩, Within.refl.step (.execute n e.command)
    ⟨decide_eq_true ⟨hn, rfl, hcall⟩, hscarce, hretired⟩ (ClockedKv.step_untimed rfl hstep),
      rfl, hnew⟩

section Handler

variable {call : Call}

/-- A step of the handler of the request. -/
theorem Served.handler {act : KvAction} {s : KvCluster σ} (hk : x.kv.calls[e.call]? = some call)
    (hn : call.node ∈ M)
    (hact : act = .register e.call ∨ act = .propose e.call ∨ act = .respond e.call)
    (hstep : x.kv.step cfg db codec act = some s) :
    Served cfg db codec M e x ⟨s, x.clock⟩ := by
  have hok : act.among M e x.kv = true ∧ Scarce x.kv act ∧ Retired x.kv act := by
    rcases hact with rfl | rfl | rfl <;> simp [KvAction.among, Scarce, Retired, hk, hn]
  have htimed : act.timed = none := by
    rcases hact with rfl | rfl | rfl <;> rfl
  exact Within.refl.step act hok (ClockedKv.step_untimed htimed hstep)

theorem Served.register (db : Db σ) (codec : Codec) (hk : x.kv.calls[e.call]? = some call)
    (hn : call.node ∈ M) (hlive : call.epoch = x.kv.epoch call.node)
    (hphase : call.phase = .drawn) :
    ∃ y, Served cfg db codec M e x y ∧ y.raft = x.raft ∧
      y.kv.calls[e.call]? = some { call with phase := .registered } := by
  have hin : x.kv.callIn e.call [.drawn] = some call :=
    KvCluster.callIn_eq hk hlive (List.mem_singleton.mpr hphase)
  have hstep : x.kv.step cfg db codec (.register e.call) =
      some ((x.kv.setCall e.call { call with phase := .registered }).setService call.node
        { x.kv.services call.node with
          waiters := (x.kv.services call.node).waiters.insert call.command.nonce e.call }) := by
    simp [KvCluster.step, hin]
  exact ⟨_, handler hk hn (Or.inl rfl) hstep, rfl,
    List.getElem?_set_self (List.getElem?_eq_some_iff.mp hk).1⟩

/-- The leader takes what the request proposes. -/
theorem Served.propose (db : Db σ) (codec : Codec)
    (hx : Cluster.Reachable cfg x.kv.raft) (hM : ∀ v ∈ M, v ∈ cfg.members)
    (hk : x.kv.calls[e.call]? = some call) (hled : Raft.Foremost M call.node x.raft)
    (hlive : call.epoch = x.kv.epoch call.node) (hphase : call.phase = .registered)
    (hnone : call.received = none) :
    ∃ y log term, Served cfg db codec M e x y ∧
      y.kv.raft.requests = x.kv.raft.requests ∧ y.kv.raft.replies = x.kv.raft.replies ∧
      Awaits e.call call.node call.command log.lastIndex term y.kv ∧
      Raft.Proposed M call.node term log (codec.encode call.command) y.kv.raft := by
  let submitted := (x.kv.raft.core call.node).submitCommand (codec.encode call.command)
  let raft : Cluster := x.kv.raft.setCore call.node submitted.1
  obtain ⟨log, hproposed, hindex⟩ := hled.propose hx hM (codec.encode call.command)
    (Cluster.core_setCore_self x.kv.raft call.node submitted.1)
    fun m hm => Cluster.core_setCore_ne x.kv.raft submitted.1 hm
  let term := (x.kv.raft.core call.node).currentTerm
  let waiting : Call := { call with phase := .waiting, entry := some (log.lastIndex, term) }
  have hin : x.kv.callIn e.call [.registered] = some call :=
    KvCluster.callIn_eq hk hlive (List.mem_singleton.mpr hphase)
  have hraft : x.kv.raft.step cfg (.propose call.node (codec.encode call.command)) = some raft :=
    if_pos (hM _ hled.mem)
  have hindex : ((x.kv.raft.core call.node).submitCommand (codec.encode call.command)).2 =
      some log.lastIndex := hindex
  have hstep : x.kv.step cfg db codec (.propose e.call) =
      some (KvCluster.setCall { x.kv with raft } e.call waiting) := by
    simp [KvCluster.step, hin, hraft, hindex, waiting, term]
  refine ⟨_, log, term, handler hk hled.mem (Or.inr (Or.inl rfl)) hstep, rfl, rfl, ⟨none, ?_⟩,
    hproposed⟩
  have hepoch : (raft.procs call.node).epoch = call.epoch :=
    (Raft.Cluster.epoch_setCore x.kv.raft call.node _ call.node).trans hlive.symm
  show (x.kv.calls.set e.call waiting)[e.call]? =
    some (Call.mk call.node (raft.procs call.node).epoch _ _ _ _)
  rw [hepoch, ← hnone]
  exact List.getElem?_set_self (List.getElem?_eq_some_iff.mp hk).1

theorem Served.respond (db : Db σ) (codec : Codec) (hk : x.kv.calls[e.call]? = some call)
    (hn : call.node ∈ M) (hlive : call.epoch = x.kv.epoch call.node)
    (hphase : call.phase = .waiting)
    {outcome : Outcome} (hreceived : call.received = some outcome) :
    ∃ y, Served cfg db codec M e x y ∧ y.kv.performed = x.kv.performed ∧
      y.kv.calls[e.call]? = some { call with phase := .returned outcome } := by
  have hin : x.kv.callIn e.call [.waiting] = some call :=
    KvCluster.callIn_eq hk hlive (List.mem_singleton.mpr hphase)
  have hstep : x.kv.step cfg db codec (.respond e.call) =
      some (x.kv.setCall e.call { call with phase := .returned outcome }) := by
    simp [KvCluster.step, hin, hreceived]
  exact ⟨_, handler hk hn (Or.inr (Or.inr rfl)) hstep, rfl,
    List.getElem?_set_self (List.getElem?_eq_some_iff.mp hk).1⟩

end Handler

/-- The handler of a request at the leader, up to its wait. -/
theorem Served.ask {l : NodeId} (db : Db σ) (codec : Codec)
    (hx : Cluster.Reachable cfg x.kv.raft) (hM : ∀ v ∈ M, v ∈ cfg.members)
    (hled : Raft.Foremost M l x.raft) (hcall : x.kv.calls.length = e.call)
    (hscarce : Scarce x.kv (.execute l e.command))
    (hretired : Retired x.kv (.execute l e.command)) :
    ∃ y request log term, Served cfg db codec M e x y ∧
      request = { e.command with nonce := request.nonce } ∧
      y.kv.raft.requests = x.kv.raft.requests ∧ y.kv.raft.replies = x.kv.raft.replies ∧
      Awaits e.call l request log.lastIndex term y.kv ∧
      Raft.Proposed M l term log (codec.encode request) y.kv.raft := by
  obtain ⟨u, hrun, hsame, hk⟩ := execute db codec hled.mem (hM l hled.mem) hcall hscarce hretired
  have hraft : u.kv.raft = x.kv.raft := congrArg Clocked.cluster hsame
  have hlive : x.kv.epoch l = u.kv.epoch l := by
    unfold KvCluster.epoch
    rw [hraft]
  obtain ⟨v, hrun', hsame', hk'⟩ := register db codec hk hled.mem hlive rfl
  have hraft' : v.kv.raft = u.kv.raft := congrArg Clocked.cluster hsame'
  have hlive' : x.kv.epoch l = v.kv.epoch l := by
    unfold KvCluster.epoch
    rw [hraft', hraft]
  have hreach : Cluster.Reachable cfg v.kv.raft := by
    rw [hraft', hraft]
    exact hx
  have hled' : Raft.Foremost M l v.raft := by
    rw [hsame', hsame]
    exact hled
  obtain ⟨y, log, term, hrun'', hrequests, hreplies, hawaits, hproposed⟩ :=
    propose db codec hreach hM hk' hled' hlive' rfl rfl
  refine ⟨y, _, log, term, (hrun.trans hrun').trans hrun'', rfl, ?_, ?_, hawaits, hproposed⟩
  · rw [hrequests, hraft', hraft]
  · rw [hreplies, hraft', hraft]

/-! ## The answer -/

/-- Call `k` was put to a node of `M` with `command`, which its process has run, and returned the
    outcome. -/
def Replied (M : Finset NodeId) (k : Nat) (command : Command) (s : KvCluster σ) : Prop :=
  ∃ call p, s.calls[k]? = some call ∧ call.node ∈ M ∧
    call.command = { command with nonce := call.command.nonce } ∧
    p ∈ s.performed ∧ Ran call p ∧ p.command = call.command ∧ call.phase = .returned p.outcome

/-- **A majority answers.** Take any state of the service, reached with whatever was lost and
    restarted in a run of `Distinctly`, any majority `M` of the nodes and any request, with node ids
    below 2^16. The nodes of `M` can go on alone, without a message from before, without one from or
    to the others and without any other request, to a state in which the request has run on one of
    them and was answered with its outcome; unless what the logs hold with this request makes a
    state machine too large for its image. -/
theorem majority_answers {store : NodeId → σ} (hcodec : codec.Lossless)
    (hids : ∀ n ∈ cfg.members, n < 2 ^ 16) (hrun : Distinctly cfg db codec store x.kv)
    (hM : ∀ v ∈ M, v ∈ cfg.members) (hcard : cfg.members.length < 2 * M.card) {command : Command}
    (hfresh : ∀ n ∈ M, Scarce x.kv (.execute n command) ∧ Retired x.kv (.execute n command)) :
    ∃ y, Served cfg db codec M
        ⟨x.kv.raft.requests.length, x.kv.raft.replies.length, x.kv.calls.length, command⟩ x y ∧
      (Replied M x.kv.calls.length command y.kv ∨ ∃ n ∈ M, (y.kv.services n).Choked db) := by
  generalize he : Errand.mk x.kv.raft.requests.length x.kv.raft.replies.length x.kv.calls.length
    command = e
  have hreach : Cluster.Reachable cfg x.kv.raft := by
    have hinit : Cluster.Reachable cfg (KvCluster.init cfg store).raft := Reaches.refl _ _
    exact hrun.invariant (I := fun s => Cluster.Reachable cfg s.raft)
      (fun _ _ _ hs _ hstep => KvCluster.step_reachable hs hstep) hinit
  have hcall : x.kv.calls.length = e.call := congrArg Errand.call he
  have hcommand : command = e.command := congrArg Errand.command he
  rw [hcall]
  rw [hcommand] at hfresh ⊢
  -- A leader.
  have hstage : Raft.Stage cfg e.requests e.replies x.raft :=
    ⟨hreach, (congrArg Errand.requests he).ge, (congrArg Errand.replies he).ge⟩
  obtain ⟨u, l, hturn, hled⟩ := Raft.majority_elects hstage hM hcard
  have hround : Round cfg db codec M e x _ := .of_turn hturn
  have hl := hled.mem
  have hretired : Retired { x.kv with raft := u.cluster } (.execute l e.command) := by
    intro call hcall hnode hold
    rw [show KvCluster.epoch _ l = x.kv.epoch l from hround.epoch l] at hold
    exact (hfresh l hl).2 call hcall hnode hold
  -- The request.
  obtain ⟨v, request, log, term, hask, hrequest, hrequests, hreplies, hawaits, hproposed⟩ :=
    Served.ask db codec (hround.run.reachable hreach) hM hled hcall (hfresh l hl).1 hretired
  have hrun₁ := hround.run.trans hask
  have hreach₁ := hrun₁.reachable hreach
  -- Everybody has it committed, and the leader hands it over.
  have hstage₁ : Raft.Stage cfg e.requests e.replies v.raft := by
    refine ⟨hreach₁, ?_, ?_⟩
    · show e.requests ≤ v.kv.raft.requests.length
      rw [hrequests]
      exact hturn.stage.requests
    · show e.replies ≤ v.kv.raft.replies.length
      rw [hreplies]
      exact hturn.stage.replies
  obtain ⟨w, hturn', hdue⟩ := hstage₁.settles hM hcard hproposed
  have hround₁ : Round cfg db codec M e v _ := .of_turn hturn'
  obtain ⟨d, front, rest, hround₂, happlies⟩ :=
    Round.drain db codec e (hround₁.run.reachable hreach₁) hl (hM l hl) (hdue l hl)
  have hround₂ := hround₁.trans hround₂
  -- The apply loop gets to it.
  obtain ⟨z, hround₃, hlarge | ⟨outcome, hperformed⟩⟩ := Round.workOff db e
    (hround₂.run.reachable hreach₁) hl (hM l hl) happlies (hcodec request)
  · exact ⟨z, hrun₁.trans (hround₂.trans hround₃).run, Or.inr ⟨l, hl, hlarge⟩⟩
  have hrun₃ := hrun₁.trans (hround₂.trans hround₃).run
  obtain ⟨received, hk⟩ := hawaits.later (hround₂.trans hround₃)
  -- It has woken the call.
  obtain ⟨b, hrings⟩ := exists_rings hcodec hids (hrun₃.distinctly hrun)
  have hreceived : received = some outcome :=
    hrings.bells.woken hk nofun _ hperformed ⟨rfl, (hround₃.epoch l).symm, rfl⟩
  obtain ⟨y, hrun₄, hsame, hreturned⟩ :=
    Served.respond db codec hk hl rfl rfl hreceived
  rw [← hsame] at hperformed
  exact ⟨y, hrun₃.trans hrun₄, Or.inl ⟨_, _, hreturned, hl, hrequest, hperformed,
    ⟨rfl, (hround₃.epoch l).symm, rfl⟩, rfl, rfl⟩⟩

/-- Node 1 is elected and takes a request, which is not on its way to the others yet. -/
def cutOffRun : List KvAction :=
  Raft.electedRun.map .raft ++ [.execute 1 (.put [7] [1] 5 1), .register 0, .propose 0]

theorem cutOffRun_isSome :
    (run (fun s act => if Scarce s act ∧ Retired s act then
      s.step Raft.trio mapDb Protobuf.codec act else none)
      (.init Raft.trio fun _ _ => none) cutOffRun).isSome = true := by
  decide +kernel

def cutOff : KvCluster (Bytes → Option Bytes) :=
  (run (fun s act => if Scarce s act ∧ Retired s act then
    s.step Raft.trio mapDb Protobuf.codec act else none)
    (.init Raft.trio fun _ _ => none) cutOffRun).get cutOffRun_isSome

theorem cutOff_distinctly :
    Distinctly Raft.trio mapDb Protobuf.codec (fun _ _ => none) cutOff :=
  Within.of_run (Option.eq_some_of_isSome cutOffRun_isSome)

/-- Nodes 2 and 3 answer another request without the leader. -/
theorem majority_answers_cut_off :
    (cutOff.raft.core 1).role = .leader ∧ cutOff.calls.length = 1 ∧
    ∃ y, Served Raft.trio mapDb Protobuf.codec {2, 3}
        ⟨cutOff.raft.requests.length, cutOff.raft.replies.length, cutOff.calls.length, .get [7]⟩
        ⟨cutOff, fun _ => 2000⟩ y ∧
      (Replied {2, 3} cutOff.calls.length (.get [7]) y.kv ∨
        ∃ n ∈ ({2, 3} : Finset NodeId), (y.kv.services n).Choked mapDb) :=
  ⟨by decide +kernel, by decide +kernel,
    majority_answers (x := ⟨cutOff, fun _ => 2000⟩) Protobuf.codec_lossless (by decide)
      cutOff_distinctly (by decide) (by decide) (by decide +kernel)⟩

end Murmur.App
