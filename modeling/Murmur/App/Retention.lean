/-
  How much log a node keeps: compaction by the apply loop of `src/app.rs`.

  * `Trimmed`: what the apply loop's position says about the boundary of the compacted log.
  * `log_is_trimmed`: besides the entries its state machine has not reached, a node never holds more
    than `snapshotThreshold` entries. Restarts, installs and all orders of steps are included.
-/
import Murmur.App.Waiters
import Murmur.Raft.Evidence

namespace Murmur.App

open Murmur.Raft (NodeId Cluster ClusterConfig Action Apply Applied LogEntry Ghost Answers)
open Murmur.Basis Murmur.Protocol

variable {σ : Type} {cfg : ClusterConfig} {db : Db σ} {codec : Codec} {s s' : KvCluster σ}
  {a a' : Ghost} {n : NodeId} {act : KvAction}

/-! ## Raft under the service -/

/-- An action of the service is at most one action of Raft. -/
theorem KvCluster.step_raft (hstep : s.step cfg db codec act = some s') :
    s'.raft = s.raft ∨ ∃ act, s.raft.step cfg act = some s'.raft := by
  cases KvCluster.step_sound hstep with
  | raft _ hraft | drain hraft _ | accepted _ hraft _ | refused _ hraft _ | capture _ _ hraft
  | restart hraft => exact Or.inr ⟨_, hraft⟩
  | @applied n order entry command hn hloop hitem hdec =>
      obtain ⟨waiters, calls, -, heq⟩ := applied_result s db n entry command
      rw [heq]
      exact Or.inl rfl
  | execute | register | expire | cleanup | respond | skipped | installed | check =>
      exact Or.inl rfl

theorem KvCluster.step_reachable (h : Cluster.Reachable cfg s.raft)
    (hstep : s.step cfg db codec act = some s') : Cluster.Reachable cfg s'.raft := by
  rcases KvCluster.step_raft hstep with hsame | ⟨act, hact⟩
  · rw [hsame]
    exact h
  · exact h.step hact

/-- The protocol moves along with a step of the service: nothing committed is lost, and what is new
    in a log is the command of a call. -/
structure Fed.Moves (cfg : ClusterConfig) (codec : Codec) (s : KvCluster σ) (a a' : Ghost) :
    Prop where
  later : Later cfg.quorums LogEntry.term a a'
  adds : ∀ {t i e}, Owns LogEntry.term a' t i e → Owns LogEntry.term a t i e ∨
    ∃ call ∈ s.calls, e.command = codec.encode call.command

theorem Fed.Moves.refl : Fed.Moves cfg codec s a a := ⟨.refl, Or.inl⟩

/-- An action of Raft other than a proposal. -/
theorem Fed.Moves.of_answers {raft : Cluster} {ract : Action}
    (h : Answers cfg True s.raft a ract raft a') (hno : ∀ n command, ract ≠ .propose n command) :
    Fed.Moves cfg codec s a a' := by
  refine ⟨h.later, fun hown => (h.adds hown).imp_right ?_⟩
  rintro ⟨n, command, hact, -⟩
  exact absurd hact (hno n command)

theorem Fed.Moves.of_proposed {raft : Cluster} {call : Call} {k : Nat}
    (hin : s.callIn k [.registered] = some call)
    (h : Answers cfg True s.raft a (.propose call.node (codec.encode call.command)) raft a') :
    Fed.Moves cfg codec s a a' := by
  refine ⟨h.later, fun hown => (h.adds hown).imp_right ?_⟩
  rintro ⟨n, command, hact, -, -, rfl⟩
  cases hact
  exact ⟨call, List.mem_of_getElem? (KvCluster.of_callIn hin).1, rfl⟩

/-- Every process takes its stream in order, whatever the nonces are. -/
theorem Fed.step (h : Fed cfg s.raft s.services a) (hstep : s.step cfg db codec act = some s') :
    ∃ a', Fed.Moves cfg codec s a a' ∧ Fed cfg s'.raft s'.services a' := by
  cases KvCluster.step_sound hstep with
  | @raft act raft hact hraft =>
      have hdrain : ∀ n, act ≠ .drain n := by
        rintro n rfl
        cases hact
      have hrestart : ∀ n now draw, act ≠ .restart n now draw := by
        rintro n now draw rfl
        cases hact
      have hpropose : ∀ n command, act ≠ .propose n command := by
        rintro n command rfl
        cases hact
      obtain ⟨a', hans, hfed⟩ := h.advance hraft hdrain hrestart
      exact ⟨a', .of_answers hans hpropose, hfed⟩
  | @drain n raft core out hraft htake =>
      obtain ⟨a', hans, hfed⟩ := h.drain hraft htake
        { s.services n with applies := (s.services n).applies ++ out } rfl rfl
      exact ⟨a', .of_answers hans nofun, hfed⟩
  | execute | register | cleanup | check => exact ⟨a, .refl, h.update_frame rfl rfl⟩
  | accepted hin hraft hindex | refused hin hraft hindex =>
      obtain ⟨a', hans, hfed⟩ := h.advance hraft nofun nofun
      exact ⟨a', .of_proposed hin hans, hfed⟩
  | expire | respond => exact ⟨a, .refl, h⟩
  | @applied n order entry command hn hloop hitem hdec =>
      obtain ⟨waiters, calls, -, heq⟩ := applied_result s db n entry command
      obtain ⟨-, i, hi, rfl⟩ := h.next hn hitem
      rw [heq]
      exact ⟨a, .refl, h.take hn hitem ⟨hi, rfl⟩ rfl⟩
  | skipped hn hloop hitem hdec =>
      obtain ⟨-, i, hi, rfl⟩ := h.next hn hitem
      exact ⟨a, .refl, h.take hn hitem ⟨hi, rfl⟩ rfl⟩
  | installed hn hloop hitem =>
      obtain ⟨-, i, hi, rfl⟩ := h.next hn hitem
      exact ⟨a, .refl, h.take hn hitem ⟨hi, rfl⟩ rfl⟩
  | capture hloop hfit hraft =>
      obtain ⟨a', hans, hfed⟩ := h.advance hraft nofun nofun
      exact ⟨a', .of_answers hans nofun, hfed.update_frame rfl rfl⟩
  | @restart n now draw raft hraft =>
      obtain ⟨a', hans, hfed⟩ := h.restart hraft (.start (s.services n).replica.store) rfl rfl
      exact ⟨a', .of_answers hans nofun, hfed⟩

/-! ## The boundary follows the apply loop -/

/-- The apply loop against the boundary of the log. Only between two items is the threshold itself
    kept to; the entry just applied may be one over. -/
structure Trimmed (boundary : Nat) (sv : KvService σ) : Prop where
  beyond : sv.cursor ≤ boundary + snapshotThreshold
  idle : sv.loop = .receiving → sv.cursor < boundary + snapshotThreshold
  busy : ∀ i, sv.loop = .applied i ∨ sv.loop = .capturing i → i = sv.cursor
  queued : ∀ sn, .snapshot sn ∈ sv.applies → sn.lastIncludedIndex ≤ boundary

theorem Trimmed.mono {boundary boundary' : Nat} {sv : KvService σ} (h : Trimmed boundary sv)
    (hle : boundary ≤ boundary') : Trimmed boundary' sv where
  beyond := h.beyond.trans (by omega)
  idle hloop := by
    have := h.idle hloop
    omega
  busy := h.busy
  queued sn hsn := (h.queued sn hsn).trans hle

/-- Waiters, nonce and replica do not matter. -/
theorem Trimmed.frame {boundary : Nat} {sv sv' : KvService σ} (h : Trimmed boundary sv)
    (hcursor : sv'.cursor = sv.cursor) (hloop : sv'.loop = sv.loop)
    (happlies : sv'.applies = sv.applies) : Trimmed boundary sv' := by
  obtain ⟨hover, hidle, hbusy, hqueued⟩ := h
  refine ⟨?_, ?_, ?_, ?_⟩
  · rwa [hcursor]
  · rwa [hcursor, hloop]
  · rwa [hcursor, hloop]
  · rwa [happlies]

theorem Trimmed.start (boundary : Nat) (store : σ) : Trimmed boundary (KvService.start store) where
  beyond := Nat.zero_le _
  idle _ := Nat.lt_of_lt_of_le (by decide : 0 < snapshotThreshold) (Nat.le_add_left _ _)
  busy i hi := by rcases hi with hi | hi <;> cases hi
  queued := nofun

/-- The next command is taken. -/
theorem Trimmed.take {boundary : Nat} {sv sv' : KvService σ} (h : Trimmed boundary sv)
    {entry : Applied} (hloop : sv.loop = .receiving) (hnext : entry.index = sv.cursor + 1)
    (hcursor : sv'.cursor = entry.index) (hloop' : sv'.loop = .applied entry.index)
    (happlies : sv'.applies = sv.applies.tail) : Trimmed boundary sv' where
  beyond := by
    have := h.idle hloop
    omega
  idle hno := by
    rw [hloop'] at hno
    cases hno
  busy i hi := by
    rw [hloop'] at hi
    rcases hi with hi | hi
    · cases hi
      exact hcursor.symm
    · cases hi
  queued sn hsn := h.queued sn (List.mem_of_mem_tail (happlies ▸ hsn))

/-- A snapshot is installed: Raft has moved the boundary there already. -/
theorem Trimmed.install {boundary : Nat} {sv sv' : KvService σ} (h : Trimmed boundary sv)
    {sn : Raft.Snapshot} (hitem : sv.applies.head? = some (.snapshot sn))
    (hloop' : sv'.loop = .receiving) (hcursor : sv'.cursor = sn.lastIncludedIndex)
    (happlies : sv'.applies = sv.applies.tail) : Trimmed boundary sv' := by
  have hle := h.queued sn (List.mem_of_mem_head? hitem)
  have hpos : 0 < snapshotThreshold := by decide
  refine ⟨by omega, fun _ => by omega, fun i hi => ?_, fun sn hsn => ?_⟩
  · rw [hloop'] at hi
    rcases hi with hi | hi <;> cases hi
  · exact h.queued sn (List.mem_of_mem_tail (happlies ▸ hsn))

/-- What is drained has its snapshot at the boundary. -/
theorem Trimmed.drain {lax : Prop} {taken : List Raft.Taken} {c c' : Raft.ConsensusModule}
    {sv : KvService σ} (h : Trimmed c.log.snapshotIndex sv)
    (hnode : Raft.NodeInv cfg lax taken a n c) {out : List Apply}
    (htake : c.takeApplies = some (c', out)) :
    Trimmed c'.log.snapshotIndex { sv with applies := sv.applies ++ out } := by
  rw [Raft.takeApplies_eq hnode] at htake
  cases htake
  refine ⟨h.beyond, h.idle, h.busy, fun sn hsn => ?_⟩
  rcases List.mem_append.mp hsn with hold | hnew
  · exact h.queued sn hold
  · rcases List.mem_append.mp hnew with hpending | hcommand
    · obtain ⟨sn', hsn', heq⟩ := List.mem_map.mp hpending
      cases heq
      exact Nat.le_of_eq (hnode.cursors.pending (Option.mem_toList.mp hsn')).2.1
    · obtain ⟨i, e, -, -, -, heq⟩ := Raft.mem_commandsOf hcommand
      cases heq

/-- A short log has its boundary close behind the cursor. -/
theorem Trimmed.check {c : Raft.ConsensusModule} {sv : KvService σ}
    (h : Trimmed c.log.snapshotIndex sv) (hlast : sv.cursor ≤ c.log.lastIndex) {index : Nat}
    (hloop : sv.loop = .applied index) :
    Trimmed c.log.snapshotIndex { sv with
      loop := if c.raftLogLen ≥ snapshotThreshold then .capturing index else .receiving } := by
  refine ⟨h.beyond, fun hidle => ?_, fun i hi => ?_, h.queued⟩
  · dsimp only at hidle ⊢
    split at hidle
    · cases hidle
    · next hshort =>
      have hlen : c.log.lastIndex = c.log.snapshotIndex + c.raftLogLen := rfl
      omega
  · dsimp only at hi
    split at hi
    · rcases hi with hi | hi
      · cases hi
      · cases hi
        exact h.busy _ (Or.inl hloop)
    · rcases hi with hi | hi <;> cases hi

/-- After a capture the boundary is at the cursor, or beyond. -/
theorem Trimmed.capture {c c' : Raft.ConsensusModule} {sv : KvService σ}
    (h : Trimmed c.log.snapshotIndex sv) (happlied : sv.cursor ≤ c.lastApplied) {index : Nat}
    (hloop : sv.loop = .capturing index) {data : Raft.Bytes}
    (hcore : c.takeSnapshot index data = some c') :
    Trimmed c'.log.snapshotIndex { sv with loop := .receiving } := by
  have hindex := h.busy index (Or.inr hloop)
  have hpos : 0 < snapshotThreshold := by decide
  have hle : c.log.snapshotIndex ≤ c'.log.snapshotIndex ∧ sv.cursor ≤ c'.log.snapshotIndex := by
    unfold Raft.ConsensusModule.takeSnapshot at hcore
    split at hcore
    · next hout =>
      cases hcore
      omega
    · next hin =>
      split at hcore
      · cases hcore
      · next term hterm =>
        cases hcore
        have hboundary : (c.log.compact index term).snapshotIndex = index := by
          unfold Raft.Log.compact
          rw [if_neg (by omega)]
        show c.log.snapshotIndex ≤ (c.log.compact index term).snapshotIndex ∧
          sv.cursor ≤ (c.log.compact index term).snapshotIndex
        omega
  refine ⟨by dsimp only; omega, fun _ => by dsimp only; omega, fun i hi => ?_, fun sn hsn => ?_⟩
  · rcases hi with hi | hi <;> cases hi
  · exact (h.queued sn hsn).trans hle.1

/-! ## Runs -/

/-- The invariant of a cluster. -/
structure Tidy (cfg : ClusterConfig) (s : KvCluster σ) (a : Ghost) : Prop where
  reachable : Cluster.Reachable cfg s.raft
  fed : Fed cfg s.raft s.services a
  trimmed : ∀ n ∈ cfg.members, Trimmed (s.raft.core n).log.snapshotIndex (s.services n)

namespace Tidy

theorem cursor_le_last (h : Tidy cfg s a) (hn : n ∈ cfg.members) :
    (s.services n).cursor ≤ (s.raft.core n).log.lastIndex := by
  have hN := h.fed.refines.nodes n hn
  rw [hN.mirrors.log.lastIndex_eq]
  exact (h.fed.cursor_le hn).trans (hN.cursors.applied_le.trans hN.cursors.commit_le)

/-- The processes other than `n` are as they were. -/
theorem update (h : Tidy cfg s a) (hle : ∀ m, (s.raft.core m).log.snapshotIndex ≤
      (s'.raft.core m).log.snapshotIndex) {sv : KvService σ}
    (hservices : s'.services = Function.update s.services n sv)
    (hsv : n ∈ cfg.members → Trimmed (s'.raft.core n).log.snapshotIndex sv) :
    ∀ m ∈ cfg.members, Trimmed (s'.raft.core m).log.snapshotIndex (s'.services m) := by
  intro m hm
  rw [hservices]
  by_cases hmn : m = n
  · subst hmn
    rw [Function.update_self]
    exact hsv hm
  · rw [Function.update_of_ne hmn]
    exact (h.trimmed m hm).mono (hle m)

theorem step (h : Tidy cfg s a) (hstep : s.step cfg db codec act = some s') :
    ∃ a', Tidy cfg s' a' := by
  obtain ⟨a', -, hfed⟩ := h.fed.step hstep
  have hunder := KvCluster.step_raft hstep
  have hreach := KvCluster.step_reachable h.reachable hstep
  have hle : ∀ m, (s.raft.core m).log.snapshotIndex ≤ (s'.raft.core m).log.snapshotIndex := by
    intro m
    rcases hunder with hsame | ⟨act, hact⟩
    · rw [hsame]
    · exact Raft.step_boundary_le h.reachable hact m
  refine ⟨a', hreach, hfed, ?_⟩
  cases KvCluster.step_sound hstep with
  | raft | accepted | refused | expire | respond => exact fun m hm => (h.trimmed m hm).mono (hle m)
  | execute | register | cleanup =>
      exact h.update hle rfl fun hn => (h.trimmed _ hn).frame rfl rfl rfl
  | @drain n raft core out hraft htake =>
      refine h.update hle rfl fun hn => ?_
      have htrim := (h.trimmed n hn).drain (h.fed.refines.nodes n hn) htake
      obtain ⟨-, core', out', htake', rfl⟩ := Raft.Cluster.step_drain hraft
      rw [htake] at htake'
      cases htake'
      show Trimmed ((s.raft.setCore n core).core n).log.snapshotIndex _
      rw [Cluster.core_setCore_self]
      exact htrim
  | @applied n order entry command hn hloop hitem hdec =>
      obtain ⟨waiters, calls, -, heq⟩ := applied_result s db n entry command
      obtain ⟨-, i, hi, -⟩ := h.fed.next hn hitem
      exact h.update hle (congrArg KvCluster.services heq) fun hn =>
        ((h.trimmed n hn).mono (hle n)).take hloop hi rfl rfl rfl
  | skipped hn hloop hitem hdec =>
      obtain ⟨-, i, hi, -⟩ := h.fed.next hn hitem
      exact h.update hle rfl fun hn => (h.trimmed _ hn).take hloop hi rfl rfl rfl
  | installed hn hloop hitem =>
      exact h.update hle rfl fun hn => (h.trimmed _ hn).install hitem hloop rfl rfl
  | check hloop =>
      exact h.update hle rfl fun hn => (h.trimmed _ hn).check (h.cursor_le_last hn) hloop
  | @capture n index _ _ dedup keys raft hloop hfit hraft =>
      refine h.update hle rfl fun hn => ?_
      obtain ⟨-, core, taken, hcore, rfl, -⟩ := Raft.Cluster.step_snapshot hraft
      have htrim := (h.trimmed n hn).capture (h.fed.cursor_le hn) hloop hcore
      show Trimmed ((s.raft.setCore n core).core n).log.snapshotIndex _
      rw [Cluster.core_setCore_self]
      exact htrim
  | restart hraft => exact h.update hle rfl fun _ => Trimmed.start _ _

theorem init (store : NodeId → σ) : Tidy cfg (.init cfg store) State.init where
  reachable := Reaches.refl _ _
  fed := ⟨Raft.init_refines cfg True, fun _ _ => ⟨0, rfl, Or.inl ⟨rfl, rfl⟩⟩, nofun⟩
  trimmed n _ := Trimmed.start _ (store n)

end Tidy

/-- **The log is trimmed.** Whatever a cluster has been through, a node holds at most
    `snapshotThreshold` entries besides those its state machine has not reached. -/
theorem log_is_trimmed {store : NodeId → σ}
    (hrun : Reaches (KvCluster.step cfg db codec) (.init cfg store) s) (hn : n ∈ cfg.members) :
    (s.raft.core n).raftLogLen ≤
      snapshotThreshold + ((s.raft.core n).log.lastIndex - (s.services n).cursor) := by
  obtain ⟨a, h⟩ : ∃ a, Tidy cfg s a :=
    hrun.invariant (I := fun s => ∃ a, Tidy cfg s a) (fun _ _ _ ⟨_, h⟩ hstep => h.step hstep)
      ⟨State.init, Tidy.init store⟩
  have hover := (h.trimmed n hn).beyond
  have hlast := h.cursor_le_last hn
  have hlen : (s.raft.core n).log.lastIndex =
      (s.raft.core n).log.snapshotIndex + (s.raft.core n).raftLogLen := rfl
  omega

/-- One node elects itself, appends two entries and has applied one of them. -/
def halfwayRun : List KvAction :=
  [.raft (.tick 1 1000 0), .raft (.tick 1 1000 0), .execute 1 (.put [7] [1] 5 1), .register 0,
    .propose 0, .drain 1, .apply 1 [], .check 1, .execute 1 (.get [7]), .register 1, .propose 1]

theorem halfwayRun_isSome :
    (run (KvCluster.step Raft.solo mapDb Protobuf.codec) soloStart halfwayRun).isSome = true := by
  decide +kernel

def halfway : KvCluster (Raft.Bytes → Option Raft.Bytes) :=
  (run (KvCluster.step Raft.solo mapDb Protobuf.codec) soloStart halfwayRun).get halfwayRun_isSome

theorem log_is_trimmed_halfway :
    (halfway.services 1).cursor = 1 ∧ (halfway.raft.core 1).raftLogLen ≤
      snapshotThreshold + ((halfway.raft.core 1).log.lastIndex - (halfway.services 1).cursor) :=
  ⟨by decide +kernel,
    log_is_trimmed ⟨halfwayRun, Option.eq_some_of_isSome halfwayRun_isSome⟩ (by decide)⟩

end Murmur.App
