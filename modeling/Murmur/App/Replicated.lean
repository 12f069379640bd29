/-
  The service as one replicated state machine, in runs in which no process is restarted.

  * `Explains`: one list of commands accounts for all that can be seen of a cluster: the replicas,
    the snapshots Raft holds for them, the outcomes, and what the requests were answered.
  * `one_log_explains`: there is such a list in every state, and over a run it only grows.
-/
import Murmur.App.Agreement
import Murmur.Raft.Broadcast

namespace Murmur.App

open Murmur.Raft (Bytes NodeId ClusterConfig LogEntry Ghost Commits)
open Murmur.Basis Murmur.Protocol

variable {σ : Type} {cfg : ClusterConfig} {db : Db σ} {codec : Codec}
  {contents : σ → Bytes → Option Bytes} {s s' : KvCluster σ} {a a' : Ghost} {n : NodeId}
  {p : List LogEntry} {T : Nat}

/-- `log` accounts for the state of the cluster. -/
structure Explains (cfg : ClusterConfig) (contents : σ → Bytes → Option Bytes) (s : KvCluster σ)
    (log : List Command) : Prop where
  /-- Every entry is the command of one request. -/
  asked : ∀ (i : Nat) (c : Command), log[i]? = some c →
    ∃ call ∈ s.calls, call.command = c ∧ ∃ t, call.entry = some (i + 1, t)
  /-- No request has two entries. -/
  once : (log.map Command.nonce).Nodup
  /-- A replica has run the log up to its cursor. -/
  replicas : ∀ n ∈ cfg.members, (s.services n).cursor ≤ log.length ∧
    (s.services n).replica.view contents = reference log (s.services n).cursor
  /-- The snapshot of a node is an image of what the log makes up to its index. -/
  snapshots : ∀ n ∈ cfg.members, ∀ data, (s.raft.core n).snapshot = some data →
    (s.raft.core n).log.snapshotIndex ≤ log.length ∧
      (reference log (s.raft.core n).log.snapshotIndex).IsImage data
  /-- An outcome is that of the command at its place in the log. -/
  performed : ∀ r ∈ s.performed, log[r.entry.index - 1]? = some r.command ∧
    r.outcome = outcomeAt log (r.entry.index - 1) r.command
  /-- So is what a request returned. -/
  returned : ∀ call ∈ s.calls, ∀ o, call.phase = .returned o →
    ∃ i, log[i]? = some call.command ∧ o = outcomeAt log i call.command

/-- The processes are the first of their nodes, and in step with a committed log. -/
structure InUnison (cfg : ClusterConfig) (codec : Codec) (contents : σ → Bytes → Option Bytes)
    (s : KvCluster σ) (a : Ghost) : Prop where
  kv : KvInv cfg codec s a
  agrees : Agrees cfg codec contents s a
  drawn : Drawn cfg s
  first : ∀ n, s.epoch n = 0

/-- No restart, and no nonce counter runs over. -/
def Uninterrupted (s : KvCluster σ) (act : KvAction) : Prop :=
  Scarce s act ∧ act.crashFree = true

instance (s : KvCluster σ) (act : KvAction) : Decidable (Uninterrupted s act) :=
  inferInstanceAs (Decidable (_ ∧ _))

theorem InUnison.step (h : InUnison cfg codec contents s a) (hcodec : codec.Lossless)
    (hdb : Faithful db contents) (hids : ∀ n ∈ cfg.members, n < 2 ^ 16) {act : KvAction}
    (hact : Uninterrupted s act) (hstep : s.step cfg db codec act = some s') :
    ∃ a', Later cfg.quorums LogEntry.term a a' ∧ InUnison cfg codec contents s' a' := by
  have hretired : Retired s act := by
    cases act with
    | execute n command =>
        intro call _ _ hpast
        rw [h.first] at hpast
        omega
    | _ => trivial
  have hun := h.drawn.unambiguous hids hstep hact.1 hretired
  obtain ⟨a', hlater, hkv⟩ := h.kv.step hcodec hun hstep
  refine ⟨a', hlater, hkv, ?_, h.drawn.step hstep hact.1, fun n => ?_⟩
  · exact (h.agrees.step h.kv hcodec hdb hact.2 hstep).grow (hlater.grows h.kv.fed.refines.safe)
  · rw [KvCluster.step_epoch hstep, h.first]
    rintro now draw rfl
    exact absurd hact.2 Bool.false_ne_true

theorem InUnison.run (h : InUnison cfg codec contents s a) (hcodec : codec.Lossless)
    (hdb : Faithful db contents) (hids : ∀ n ∈ cfg.members, n < 2 ^ 16)
    (hrun : Within (KvCluster.step cfg db codec) Uninterrupted s s') :
    ∃ a', Later cfg.quorums LogEntry.term a a' ∧ InUnison cfg codec contents s' a' :=
  hrun.simulate (fun _ => .refl) (fun _ _ _ hlater hlater' => hlater.trans hlater')
    (fun _ _ _ _ hs hact hstep => hs.step hcodec hdb hids hact hstep) h

theorem Agrees.init {store : NodeId → σ} (hempty : ∀ n, contents (store n) = fun _ => none) :
    Agrees cfg codec contents (.init cfg store) State.init where
  inStep n _ := by
    refine ⟨⟨0, [], Committed.nil _ _, rfl, ?_⟩, nofun⟩
    show (Replica.start (store n)).view contents = reference _ 0
    rw [reference_zero, Replica.start_view (hempty n)]
  taken := nofun
  performed := nofun
  covered := ⟨0, [], Committed.nil _ _, nofun⟩

theorem InUnison.init {store : NodeId → σ} (hempty : ∀ n, contents (store n) = fun _ => none) :
    InUnison cfg codec contents (.init cfg store) State.init where
  kv := KvInv.init store
  agrees := Agrees.init hempty
  drawn := nofun
  first _ := rfl

/-! ## The log -/

namespace InUnison

section

variable (h : InUnison cfg codec contents s a) (hcodec : codec.Lossless) (hp : Commits cfg a T p)

include h hp

/-- Any committed list makes the same of the entries it shares with `p`. -/
theorem reference_eq {T' i : Nat} {q : List LogEntry} (hq : Commits cfg a T' q)
    (hiq : i ≤ q.length) (hip : i ≤ p.length) :
    reference (commands codec q) i = reference (commands codec p) i := by
  rcases hq.comparable h.kv.fed.refines.safe hp with hqp | hpq
  · exact reference_pre hqp hiq
  · exact (reference_pre hpq hip).symm

theorem outcome_eq {r : Performed} (hr : r ∈ s.performed) (hle : r.entry.index ≤ p.length) :
    (commands codec p)[r.entry.index - 1]? = some r.command ∧
      r.outcome = outcomeAt (commands codec p) (r.entry.index - 1) r.command := by
  obtain ⟨hpos, T', q, hq, hcmd, hout⟩ := h.agrees.performed r hr
  have hlt := (List.getElem?_eq_some_iff.mp hcmd).1
  rw [length_commands] at hlt
  refine ⟨?_, ?_⟩
  · rcases hq.comparable h.kv.fed.refines.safe hp with hqp | hpq
    · exact getElem?_of_pre (commands_pre hqp) hcmd
    · rw [getElem?_pre_of_lt (commands_pre hpq) (by rw [length_commands]; omega)]
      exact hcmd
  · rw [hout]
    unfold outcomeAt
    rw [h.reference_eq hp hq (by omega) (by omega)]

/-- The snapshot of a node was taken of a replica, and so of the reference. -/
theorem snapshot_isImage (hn : n ∈ cfg.members) {data : Bytes}
    (hdata : (s.raft.core n).snapshot = some data)
    (hle : (s.raft.core n).log.snapshotIndex ≤ p.length) :
    (reference (commands codec p) (s.raft.core n).log.snapshotIndex).IsImage data := by
  have hN := (h.kv.fed.refines.nodes n hn).cursors
  obtain ⟨hpos, hbacked⟩ := hN.backed hdata
  have hlen : ((a.log n).take (s.raft.core n).log.snapshotIndex).length =
      (s.raft.core n).log.snapshotIndex := by
    have := hN.snapshot_le.trans (hN.applied_le.trans hN.commit_le)
    rw [List.length_take]
    omega
  obtain ⟨r, hr, hindex, hdata⟩ := hbacked.supplied (by omega)
  obtain ⟨T', q, hq, hqlen, himage⟩ := h.agrees.taken r hr
  rw [hlen] at hindex
  rw [← hindex, ← hdata, ← h.reference_eq hp hq (by omega) (by omega)]
  exact himage

include hcodec

theorem asked {i : Nat} {c : Command} (hc : (commands codec p)[i]? = some c) :
    ∃ (k : Nat) (call : Call), s.calls[k]? = some call ∧ call.command = c ∧
      ∃ t, call.entry = some (i + 1, t) := by
  unfold commands at hc
  rw [List.getElem?_map] at hc
  obtain ⟨e, he, hdec⟩ := Option.map_eq_some_iff.mp hc
  obtain ⟨k, call, hk, hentry, hbytes⟩ := h.kv.source hp he
  rw [hbytes, hcodec] at hdec
  exact ⟨k, call, hk, hdec, _, hentry⟩

/-- Two entries with one nonce would be two proposals of one call. -/
theorem nonces_nodup : ((commands codec p).map Command.nonce).Nodup := by
  refine List.nodup_iff_getElem?_ne_getElem?.mpr fun i j hij hj heq => ?_
  rw [List.getElem?_map, List.getElem?_map] at heq
  rw [List.length_map] at hj
  have hcj := List.getElem?_eq_getElem hj
  have hci := List.getElem?_eq_getElem (hij.trans hj)
  rw [hci, hcj] at heq
  obtain ⟨k, call, hk, hcall, t, hentry⟩ := h.asked hcodec hp hci
  obtain ⟨k', call', hk', hcall', t', hentry'⟩ := h.asked hcodec hp hcj
  have hnonce : call'.command.nonce = call.command.nonce := by
    rw [hcall, hcall']
    exact (Option.some.inj heq).symm
  by_cases hkk : k' = k
  · subst hkk
    rw [hk] at hk'
    cases hk'
    rw [hentry] at hentry'
    cases hentry'
    omega
  · have hpast := h.kv.table.past hk
    rw [h.first] at hpast
    obtain ⟨-, hlt, -⟩ := h.kv.table.distinct hk hk' hkk hnonce (by rw [h.first]; omega)
    omega

/-- A long enough committed list explains the state. -/
theorem explains (hcursors : ∀ n ∈ cfg.members, (s.services n).cursor ≤ p.length)
    (hsnapshots : ∀ n ∈ cfg.members, (s.raft.core n).log.snapshotIndex ≤ p.length)
    (hperformed : ∀ r ∈ s.performed, r.entry.index ≤ p.length) :
    Explains cfg contents s (commands codec p) where
  asked i c hc := by
    obtain ⟨k, call, hk, hrest⟩ := h.asked hcodec hp hc
    exact ⟨call, List.mem_of_getElem? hk, hrest⟩
  once := h.nonces_nodup hcodec hp
  replicas n hn := by
    obtain ⟨⟨T', q, hq, hlen, hview⟩, -⟩ := h.agrees.inStep n hn
    have hle := hcursors n hn
    refine ⟨by rwa [length_commands], ?_⟩
    rw [hview, h.reference_eq hp hq (by omega) hle]
  snapshots n hn data hdata := by
    have hle := hsnapshots n hn
    exact ⟨by rwa [length_commands], h.snapshot_isImage hp hn hdata hle⟩
  performed r hr := h.outcome_eq hp hr (hperformed r hr)
  returned call hcall o hret := by
    obtain ⟨k, hk⟩ := List.mem_iff_getElem?.mp hcall
    obtain ⟨index, term, -, hdone⟩ := h.kv.table.returned hk hret
    exact ⟨index - 1, h.outcome_eq hp hdone (hperformed _ hdone)⟩

end

/-- Whatever list is committed, a committed extension of it explains the state. -/
theorem exists_log (h : InUnison cfg codec contents s a) (hcodec : codec.Lossless)
    (hp : Commits cfg a T p) :
    ∃ q T', p <+: q ∧ Commits cfg a T' q ∧ Explains cfg contents s (commands codec q) := by
  obtain ⟨T₁, p₁, hp₁, hcovered⟩ := h.agrees.covered
  have hnodes := h.kv.fed.refines.nodes
  obtain ⟨q, hpq, ⟨T', hq⟩, hall⟩ := Raft.exists_order h.kv.fed.refines.safe ⟨T, hp⟩
    (p₁ :: cfg.members.map fun n => (a.log n).take (s.raft.core n).commitIndex) (by
      refine List.forall_mem_cons.mpr ⟨⟨T₁, hp₁⟩, fun l hl => ?_⟩
      obtain ⟨n, hn, rfl⟩ := List.mem_map.mp hl
      exact ⟨_, (hnodes n hn).cursors.committed⟩)
  obtain ⟨hp₁q, hall⟩ := List.forall_mem_cons.mp hall
  -- What a node has applied or compacted it takes as committed.
  have hcommit : ∀ n ∈ cfg.members, (s.raft.core n).commitIndex ≤ q.length := by
    intro n hn
    have hle := (hall _ (List.mem_map_of_mem hn)).length_le
    have := (hnodes n hn).cursors.commit_le
    rw [List.length_take] at hle
    omega
  refine ⟨q, T', hpq, hq, h.explains hcodec hq (fun n hn => ?_) (fun n hn => ?_)
    fun r hr => (hcovered r hr).trans hp₁q.length_le⟩
  · have := h.kv.fed.cursor_le hn
    have := (hnodes n hn).cursors.applied_le
    have := hcommit n hn
    omega
  · have hN := (hnodes n hn).cursors
    exact (hN.snapshot_le.trans hN.applied_le).trans (hcommit n hn)

end InUnison

/-- **One log explains the cluster.** In a run without restarts, with node ids below 2^16 and fewer
    than 2^48 requests a process, replicas, snapshots, outcomes and answers are those of one log of
    requests, in which no request stands twice; and the log that explains a later state extends the
    one that explains an earlier state. -/
theorem one_log_explains (hcodec : codec.Lossless) (hdb : Faithful db contents)
    (hids : ∀ n ∈ cfg.members, n < 2 ^ 16) {store : NodeId → σ}
    (hempty : ∀ n, contents (store n) = fun _ => none)
    (h : Within (KvCluster.step cfg db codec) Uninterrupted (.init cfg store) s)
    (h' : Within (KvCluster.step cfg db codec) Uninterrupted s s') :
    ∃ log log', log <+: log' ∧ Explains cfg contents s log ∧ Explains cfg contents s' log' := by
  obtain ⟨a, -, hs⟩ := (InUnison.init hempty).run hcodec hdb hids h
  obtain ⟨p, T, -, hp, hexplains⟩ := hs.exists_log hcodec (Committed.nil _ _ : Commits cfg a 0 [])
  obtain ⟨a', hlater, hs'⟩ := hs.run hcodec hdb hids h'
  have hgrown := hp.grow (hlater.grows hs.kv.fed.refines.safe)
  obtain ⟨q, T', hpq, -, hexplains'⟩ := hs'.exists_log hcodec hgrown
  exact ⟨_, _, commands_pre hpq, hexplains, hexplains'⟩

/-- One node elects itself, and a request is on its way. -/
def askedRun : List KvAction :=
  [.raft (.tick 1 1000 0), .raft (.tick 1 1000 0), .execute 1 (.put [7] [1] 5 1), .register 0,
    .propose 0]

/-- Its entry is applied and it is answered. -/
def repliedRun : List KvAction := [.drain 1, .apply 1 [], .respond 0, .check 1]

theorem askedRun_isSome :
    (run (fun s act => if Uninterrupted s act then
      s.step Raft.solo mapDb Protobuf.codec act else none) soloStart askedRun).isSome = true := by
  decide +kernel

def asked : KvCluster (Bytes → Option Bytes) :=
  (run (fun s act => if Uninterrupted s act then
    s.step Raft.solo mapDb Protobuf.codec act else none) soloStart askedRun).get askedRun_isSome

theorem repliedRun_isSome :
    (run (fun s act => if Uninterrupted s act then
      s.step Raft.solo mapDb Protobuf.codec act else none) asked repliedRun).isSome = true := by
  decide +kernel

def replied : KvCluster (Bytes → Option Bytes) :=
  (run (fun s act => if Uninterrupted s act then
    s.step Raft.solo mapDb Protobuf.codec act else none) asked repliedRun).get repliedRun_isSome

theorem one_log_explains_replied :
    (∃ call ∈ replied.calls, call.phase = .returned .done) ∧
      ∃ log log', log <+: log' ∧ Explains Raft.solo id asked log ∧
        Explains Raft.solo id replied log' :=
  ⟨by decide +kernel,
    one_log_explains Protobuf.codec_lossless mapDb_faithful (by decide) (fun _ => rfl)
      (Within.of_run (Option.eq_some_of_isSome askedRun_isSome))
      (Within.of_run (Option.eq_some_of_isSome repliedRun_isSome))⟩

end Murmur.App
