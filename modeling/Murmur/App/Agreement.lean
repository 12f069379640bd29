/-
  In runs without restarts every replica is the reference at its position in the committed log.

  * `commands`: the committed log as the state machine reads it.
  * `Agrees`: replicas, the snapshots taken of them and the outcomes of the commands they applied
    are those of the reference on a committed log.
  * `Agrees.step`: every step other than a restart keeps it.
-/
import Murmur.App.Reference
import Murmur.App.Waiters

namespace Murmur.App

open Murmur.Raft (Bytes NodeId Cluster ClusterConfig Action Apply Applied LogEntry Ghost Commits)
open Murmur.Basis Murmur.Protocol

variable {σ : Type} {cfg : ClusterConfig} {db : Db σ} {codec : Codec}
  {contents : σ → Bytes → Option Bytes} {s s' : KvCluster σ} {a a' : Ghost} {n : NodeId}
  {p q : List LogEntry}

/-- The commands of a log; an entry that cannot be decoded is skipped, as a read is. -/
def commands (codec : Codec) (p : List LogEntry) : List Command :=
  p.map fun e => (codec.decode e.command).getD (.get [])

theorem length_commands : (commands codec p).length = p.length := List.length_map _

theorem commands_getElem? {i : Nat} {e : LogEntry} {c : Command} (he : p[i]? = some e)
    (hdec : codec.decode e.command = some c) : (commands codec p)[i]? = some c := by
  unfold commands
  rw [List.getElem?_map, he]
  simp [hdec]

theorem commands_pre (h : p <+: q) : commands codec p <+: commands codec q := h.map _

/-- The reference at an index does not depend on what comes after. -/
theorem reference_extend {log log' : List Command} (h : log <+: log') {i : Nat}
    (hi : i ≤ log.length) : reference log i = reference log' i :=
  reference_congr (take_eq_of_pre h hi)

theorem reference_pre (h : p <+: q) {i : Nat} (hi : i ≤ p.length) :
    reference (commands codec p) i = reference (commands codec q) i :=
  reference_extend (commands_pre h) (by rwa [length_commands])

/-- The process is the reference at its cursor, and between two items it stands where it says. -/
def InStep (cfg : ClusterConfig) (codec : Codec) (contents : σ → Bytes → Option Bytes) (a : Ghost)
    (sv : KvService σ) : Prop :=
  (∃ T p, Commits cfg a T p ∧ p.length = sv.cursor ∧
    sv.replica.view contents = reference (commands codec p) sv.cursor) ∧
  ∀ i, sv.loop = .applied i ∨ sv.loop = .capturing i → i = sv.cursor

/-- The outcome is that of the reference at the entry. -/
def Matches (cfg : ClusterConfig) (codec : Codec) (a : Ghost) (r : Performed) : Prop :=
  0 < r.entry.index ∧ ∃ T p, Commits cfg a T p ∧
    (commands codec p)[r.entry.index - 1]? = some r.command ∧
    r.outcome = outcomeAt (commands codec p) (r.entry.index - 1) r.command

structure Agrees (cfg : ClusterConfig) (codec : Codec) (contents : σ → Bytes → Option Bytes)
    (s : KvCluster σ) (a : Ghost) : Prop where
  inStep : ∀ n ∈ cfg.members, InStep cfg codec contents a (s.services n)
  taken : ∀ r ∈ s.raft.taken, ∃ T p, Commits cfg a T p ∧ p.length = r.index ∧
    (reference (commands codec p) r.index).IsImage r.data
  performed : ∀ r ∈ s.performed, Matches cfg codec a r
  covered : ∃ T p, Commits cfg a T p ∧ ∀ r ∈ s.performed, r.entry.index ≤ p.length

/-! ## Growth and frames -/

theorem InStep.grow {sv : KvService σ} (h : InStep cfg codec contents a sv) (hg : Grows a a') :
    InStep cfg codec contents a' sv := by
  obtain ⟨⟨T, p, hp, hrest⟩, hloop⟩ := h
  exact ⟨⟨T, p, hp.grow hg, hrest⟩, hloop⟩

theorem Agrees.grow (h : Agrees cfg codec contents s a) (hg : Grows a a') :
    Agrees cfg codec contents s a' where
  inStep n hn := (h.inStep n hn).grow hg
  taken r hr := by
    obtain ⟨T, p, hp, hrest⟩ := h.taken r hr
    exact ⟨T, p, hp.grow hg, hrest⟩
  performed r hr := by
    obtain ⟨hpos, T, p, hp, hrest⟩ := h.performed r hr
    exact ⟨hpos, T, p, hp.grow hg, hrest⟩
  covered := by
    obtain ⟨T, p, hp, hall⟩ := h.covered
    exact ⟨T, p, hp.grow hg, hall⟩

/-- One process changes. -/
theorem inStep_update {services : NodeId → KvService σ} {sv : KvService σ}
    (h : ∀ n ∈ cfg.members, InStep cfg codec contents a (services n))
    (hsv : n ∈ cfg.members → InStep cfg codec contents a sv) :
    ∀ m ∈ cfg.members, InStep cfg codec contents a (Function.update services n sv m) := by
  intro m hm
  by_cases hmn : m = n
  · subst hmn
    rw [Function.update_self]
    exact hsv hm
  · rw [Function.update_of_ne hmn]
    exact h m hm

/-- A step that applies nothing and takes no snapshot. -/
theorem Agrees.frame (h : Agrees cfg codec contents s a)
    (hservices : ∀ n ∈ cfg.members, InStep cfg codec contents a (s'.services n))
    (htaken : ∀ r ∈ s'.raft.taken, r ∈ s.raft.taken) (hperformed : s'.performed = s.performed) :
    Agrees cfg codec contents s' a where
  inStep := hservices
  taken r hr := h.taken r (htaken r hr)
  performed r hr := h.performed r (hperformed ▸ hr)
  covered := hperformed ▸ h.covered

/-! ## The apply loop -/

/-- The entry the apply loop takes next extends the log its replica stands for. -/
theorem InStep.next {sv : KvService σ} (h : InStep cfg codec contents a sv) (hs : Raft.Safe cfg a)
    {T i : Nat} (hq : Commits cfg a T q) (hi : i = sv.cursor + 1) (hlen : i ≤ q.length) :
    sv.replica.view contents = reference (commands codec q) sv.cursor := by
  obtain ⟨⟨T', p, hp, hplen, hview⟩, -⟩ := h
  rw [hview]
  rcases hp.comparable hs hq with hpq | hqp
  · exact reference_pre hpq (by omega)
  · have := hqp.length_le
    omega

/-- The apply loop applies the next command. -/
theorem Agrees.apply_command (h : Agrees cfg codec contents s a) (hkv : KvInv cfg codec s a)
    (hdb : Faithful db contents) (hn : n ∈ cfg.members) {entry : Applied}
    (hitem : (s.services n).applies.head? = some (.command entry)) {command : Command}
    (hdec : codec.decode entry.command = some command) (sv : KvService σ)
    (hreplica : sv.replica = ((s.services n).replica.applyCommitted db command).1)
    (hloop : sv.loop = .applied entry.index) (hcursor : sv.cursor = entry.index)
    (hservices : s'.services = Function.update s.services n sv) (hraft : s'.raft = s.raft)
    (hperformed : s'.performed = s.performed ++ [⟨n, s.epoch n, entry, command,
      ((s.services n).replica.applyCommitted db command).2⟩]) :
    Agrees cfg codec contents s' a := by
  have hs := hkv.fed.refines.safe
  obtain ⟨⟨hpos, T, q, hq, he⟩, i, hnext, -⟩ := hkv.fed.next hn hitem
  have hlen : entry.index ≤ q.length := by
    have := (List.getElem?_eq_some_iff.mp he).1
    omega
  have hcmd := commands_getElem? he hdec
  have hview := (h.inStep n hn).next hs hq hnext hlen
  have happly := Replica.applyCommitted_view hdb (s.services n).replica command
  rw [hview] at happly
  have hat : entry.index - 1 = (s.services n).cursor := by omega
  refine ⟨?_, fun r hr => h.taken r (hraft ▸ hr), fun r hr => ?_, ?_⟩
  · rw [hservices]
    refine inStep_update h.inStep fun _ => ⟨⟨T, q.take entry.index, ?_, ?_, ?_⟩, fun i hi => ?_⟩
    · exact hq.of_pre <| List.take_prefix _ _
    · rw [List.length_take, hcursor]
      omega
    · have htake : q.take entry.index <+: q := List.take_prefix _ _
      rw [hreplica, hcursor, reference_pre htake (by rw [List.length_take]; omega), hnext,
        reference_succ (hat ▸ hcmd), happly]
    · rw [hloop] at hi
      rcases hi with hi | hi
      · cases hi
        exact hcursor.symm
      · cases hi
  · rw [hperformed] at hr
    rcases List.mem_append.mp hr with hold | hnew
    · exact h.performed r hold
    · rw [List.mem_singleton.mp hnew]
      refine ⟨hpos, T, q, hq, hcmd, ?_⟩
      unfold outcomeAt
      rw [hat, happly]
  · -- Of the two committed lists the longer one covers both.
    obtain ⟨T', p, hp, hall⟩ := h.covered
    rw [hperformed]
    rcases hp.comparable hs hq with hpq | hqp
    · refine ⟨T, q, hq, fun r hr => ?_⟩
      rcases List.mem_append.mp hr with hold | hnew
      · exact (hall r hold).trans hpq.length_le
      · rw [List.mem_singleton.mp hnew]
        exact hlen
    · refine ⟨T', p, hp, fun r hr => ?_⟩
      rcases List.mem_append.mp hr with hold | hnew
      · exact hall r hold
      · rw [List.mem_singleton.mp hnew]
        exact hlen.trans hqp.length_le

/-- The apply loop installs a snapshot. -/
theorem Agrees.install (h : Agrees cfg codec contents s a) (hkv : KvInv cfg codec s a)
    (hdb : Faithful db contents) (hn : n ∈ cfg.members) {sn : Raft.Snapshot}
    (hitem : (s.services n).applies.head? = some (.snapshot sn))
    (order : Iter (s.services n).replica.keys.val) (sv : KvService σ)
    (hreplica : sv.replica = (s.services n).replica.installSnapshot db order sn.data)
    (hloop : sv.loop = .receiving) (hcursor : sv.cursor = sn.lastIncludedIndex) :
    InStep cfg codec contents a sv := by
  obtain ⟨⟨hpos, T, q, hq, hqlen, -, hb⟩, -⟩ := hkv.fed.next hn hitem
  obtain ⟨r, hr, hidx, hdata⟩ := hb.supplied (by omega)
  obtain ⟨T', p, hp, hplen, himage⟩ := h.taken r hr
  obtain ⟨⟨-, p₀, -, -, hview⟩, -⟩ := h.inStep n hn
  have hlisted : ((s.services n).replica.view contents).Listed := by
    rw [hview]
    exact reference_listed _
  have hcur : r.index = sv.cursor := by omega
  refine ⟨⟨T', p, hp, hplen.trans hcur, ?_⟩, fun i hi => ?_⟩
  · rw [hreplica, ← hcur]
    exact Replica.installSnapshot_isImage hdb hlisted order (reference_listed _) (hdata ▸ himage)
  · rw [hloop] at hi
    rcases hi with hi | hi <;> cases hi

/-- The apply loop hands its state to Raft. -/
theorem Agrees.capture (h : Agrees cfg codec contents s a) (hdb : Faithful db contents)
    (hn : n ∈ cfg.members) {index : Nat} (hloop : (s.services n).loop = .capturing index)
    (dedup : Iter (s.services n).replica.dedup.entries)
    (keys : Iter (s.services n).replica.keys.val)
    (hfit : ((s.services n).replica.buildSnapshot db dedup keys).length < 2 ^ 63) :
    ∃ T p, Commits cfg a T p ∧ p.length = index ∧
      (reference (commands codec p) index).IsImage
        ((s.services n).replica.buildSnapshot db dedup keys) := by
  obtain ⟨⟨T, p, hp, hlen, hview⟩, hat⟩ := h.inStep n hn
  have hindex := hat index (Or.inr hloop)
  refine ⟨T, p, hp, hlen.trans hindex.symm, ?_⟩
  rw [hindex, ← hview]
  exact Replica.buildSnapshot_isImage hdb _ dedup keys (Nat.lt_trans hfit (by decide))

/-! ## One step -/

/-- The actions other than a restart. -/
def KvAction.crashFree : KvAction → Bool
  | .restart .. => false
  | _ => true

/-- The services of a step that touches neither replica nor cursor nor loop of any process. -/
theorem inStep_keep {services : NodeId → KvService σ} {sv : KvService σ}
    (h : ∀ n ∈ cfg.members, InStep cfg codec contents a (services n))
    (hreplica : sv.replica = (services n).replica) (hloop : sv.loop = (services n).loop)
    (hcursor : sv.cursor = (services n).cursor) :
    ∀ m ∈ cfg.members, InStep cfg codec contents a (Function.update services n sv m) := by
  refine inStep_update h fun hn => ?_
  unfold InStep
  rw [hreplica, hloop, hcursor]
  exact h n hn

/-- **Replicas stay in step.** -/
theorem Agrees.step (h : Agrees cfg codec contents s a) (hkv : KvInv cfg codec s a)
    (hcodec : codec.Lossless) (hdb : Faithful db contents) {act : KvAction}
    (hact : act.crashFree = true) (hstep : s.step cfg db codec act = some s') :
    Agrees cfg codec contents s' a := by
  -- What Raft records when it takes no snapshot.
  have htaken : ∀ {act : Action} {raft : Cluster}, s.raft.step cfg act = some raft →
      (∀ n i d, act ≠ .snapshot n i d) → ∀ r ∈ raft.taken, r ∈ s.raft.taken := by
    intro act raft hraft hno r hr
    rcases (Raft.step_recorded hraft).taken r hr with hold | hnew
    · exact hold
    · exact absurd hnew (hno _ _ _)
  cases KvCluster.step_sound hstep with
  | raft hinternal hraft =>
      exact h.frame h.inStep (htaken hraft (by rintro n i d rfl; cases hinternal)) rfl
  | drain hraft htake => exact h.frame (inStep_keep h.inStep rfl rfl rfl) (htaken hraft nofun) rfl
  | execute | register | cleanup =>
      exact h.frame (inStep_keep h.inStep rfl rfl rfl) (fun r hr => hr) rfl
  | accepted hin hraft hindex | refused hin hraft hindex =>
      exact h.frame h.inStep (htaken hraft nofun) rfl
  | expire | respond => exact h.frame h.inStep (fun r hr => hr) rfl
  | @applied n order entry command hn hloop hitem hdec =>
      obtain ⟨waiters, calls, -, heq⟩ := applied_result s db n entry command
      rw [heq]
      exact h.apply_command hkv hdb hn hitem hdec _ rfl rfl rfl rfl rfl rfl
  | @skipped n order entry hn hloop hitem hdec =>
      -- Every committed entry is the encoding of a call's command.
      obtain ⟨⟨-, T, p, hp, he⟩, -⟩ := hkv.fed.next hn hitem
      obtain ⟨k, call, -, -, hbytes⟩ := hkv.source hp he
      have hbytes : entry.command = codec.encode call.command := hbytes
      rw [hbytes, hcodec] at hdec
      cases hdec
  | installed hn hloop hitem =>
      exact h.frame (inStep_update h.inStep fun _ => h.install hkv hdb hn hitem _ _ rfl
        hloop rfl) (fun r hr => hr) rfl
  | @check n index hloop =>
      refine h.frame (inStep_update h.inStep fun hn => ?_) (fun r hr => hr) rfl
      obtain ⟨hreplica, hat⟩ := h.inStep n hn
      refine ⟨hreplica, fun i hi => ?_⟩
      have hindex := hat index (Or.inl hloop)
      dsimp only at hi
      split at hi
      · rcases hi with hi | hi
        · cases hi
        · cases hi
          exact hindex
      · rcases hi with hi | hi <;> cases hi
  | @capture n index _ _ dedup keys _ hloop hfit hraft =>
      have hn : n ∈ cfg.members := (Raft.Cluster.step_snapshot hraft).1
      refine ⟨inStep_update h.inStep fun hn => ?_, fun r hr => ?_, h.performed, h.covered⟩
      · exact ⟨(h.inStep n hn).1, fun i hi => by rcases hi with hi | hi <;> cases hi⟩
      · rcases (Raft.step_recorded hraft).taken r hr with hold | hnew
        · exact h.taken r hold
        · obtain ⟨-, rfl, hdata⟩ := Action.snapshot.inj hnew
          rw [← hdata]
          exact h.capture hdb hn hloop dedup keys hfit
  | restart => cases hact

end Murmur.App
