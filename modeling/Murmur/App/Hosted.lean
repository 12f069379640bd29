/-
  Every node of a cluster is a host.

  `Murmur.App.Restart` follows the application layer of one node over its crashes, with the log and
  the leaders' snapshots given. Here the node is one of a `KvCluster`: the log is what the cluster
  commits, and the snapshots are what the other nodes captured.

  * `Portrays`: a host shows what Raft and the service of a node hold for the state machine.
  * `NodeStep`: what a step of the cluster is for one node; `Portrays.step`: the host takes at most
    one step with it, and a restart is its crash.
  * `nodes_are_hosts`: in a run whose requests are reads, puts and deletes every node is a host over
    one committed log, with as many crashes as it had restarts.
  * `replicas_copy_the_log`: so whatever has crashed, table and directory of a node, and the values
    of the directory's keys, are those of the log up to its position.
  * `nodes_recover`: and so is the whole engine, under the conditions on the host's run that
    `Murmur.App.Restart` states.
-/
import Murmur.App.Agreement
import Murmur.App.Restart
import Murmur.App.Retention
import Murmur.Raft.Broadcast
import Murmur.Raft.Shelf

namespace Murmur.App

open Murmur.Raft (Bytes NodeId Instant Cluster ClusterConfig Action Apply Applied LogEntry Ghost
  Commits Shelf)
open Murmur.Basis Murmur.Protocol

variable {σ : Type} {db : Db σ} {contents : σ → Bytes → Option Bytes} {log log' : List Command}
  {host next : Host σ} {sv sv' : KvService σ} {shelf shelf' : Shelf}

/-! ## The log a host runs over -/

theorem Genuine.extend {held : Held} (h : Genuine log held) (hpre : log <+: log') :
    Genuine log' held := by
  obtain ⟨hlen, hfit, hdata⟩ := h
  rw [reference_extend hpre hlen] at hdata
  exact ⟨hlen.trans hpre.length_le, hfit, hdata⟩

/-- What a host can do it can do over a longer log. -/
theorem hostStep_extend {act : HostAction} (h : hostStep db log host act = some next)
    (hpre : log <+: log') : hostStep db log' host act = some next := by
  cases act with
  | apply =>
      unfold hostStep at h ⊢
      obtain ⟨hboot, h⟩ := of_guard h
      obtain ⟨c, hc, h⟩ := Option.bind_eq_some_iff.mp h
      simp [hboot, getElem?_of_pre hpre hc, ← h]
  | receive index dedup keys =>
      have hlen : index ≤ log.length := (of_guard h).1.2.2
      have hlen' := hlen.trans hpre.length_le
      dsimp only [hostStep] at h ⊢
      rw [reference_extend hpre hlen] at h
      simpa only [hlen, hlen'] using h
  | snapshot | install | reload | crash => exact h

def HostAction.isCrash : HostAction → Bool
  | .crash => true
  | _ => false

/-- A run over `log` from the engine state `store` with so many crashes leads to `host`. -/
def Survives (db : Db σ) (log : List Command) (store : σ) (crashes : Nat) (host : Host σ) : Prop :=
  ∃ acts, run (hostStep db log) (.init store) acts = some host ∧
    acts.countP HostAction.isCrash = crashes

namespace Survives

variable {store : σ} {crashes : Nat} {act : HostAction}

theorem init : Survives db log store 0 (.init store) := ⟨[], rfl, rfl⟩

theorem extend (h : Survives db log store crashes host) (hpre : log <+: log') :
    Survives db log' store crashes host := by
  obtain ⟨acts, hrun, hcount⟩ := h
  refine ⟨acts, ?_, hcount⟩
  generalize Host.init store = start at hrun
  induction acts generalizing start crashes with
  | nil => exact hrun
  | cons act acts ih =>
      rw [run_cons] at hrun ⊢
      obtain ⟨mid, hmid, hrest⟩ := Option.bind_eq_some_iff.mp hrun
      rw [hostStep_extend hmid hpre]
      exact ih rfl mid hrest

theorem step (h : Survives db log store crashes host)
    (hnext : hostStep db log host act = some next) :
    Survives db log store (if act.isCrash then crashes + 1 else crashes) next := by
  obtain ⟨acts, hrun, rfl⟩ := h
  refine ⟨acts ++ [act], ?_, ?_⟩
  · rw [run_append, hrun]
    show (hostStep db log host act).bind _ = _
    rw [hnext]
    rfl
  · rw [List.countP_append]
    cases hact : act.isCrash <;> simp [hact]

theorem exact (h : Survives db log store crashes host) (hdb : Faithful db contents)
    (hlog : ∀ c ∈ log, c.overwrites) : Exact contents log host := by
  obtain ⟨acts, hrun, -⟩ := h
  exact Reaches.invariant (fun _ _ _ hs hstep => hs.step hdb hlog hstep) ⟨acts, hrun⟩ (.init store)

end Survives

/-! ## A host and a node -/

/-- A snapshot item of the apply stream. -/
def heldOf (sn : Raft.Snapshot) : Held := ⟨sn.lastIncludedIndex, sn.data⟩

/-- The snapshot a node has persisted. -/
def heldOn (shelf : Shelf) : Option Held := shelf.data.map fun data => ⟨shelf.index, data⟩

/-- What the apply loop has still to take: its channel, and what waits in Raft. -/
def upcoming (sv : KvService σ) (shelf : Shelf) : List Apply :=
  sv.applies ++ shelf.pending.toList.map .snapshot

/-- The snapshots to come are those received, or the first of them is the one of the start. -/
inductive Backlog (boot : Option Held) (received : List Held) : List Apply → Prop
  | loaded {sn : Raft.Snapshot} {items : List Apply} (hboot : boot = some (heldOf sn))
      (hitems : ∀ sn, .snapshot sn ∈ items → heldOf sn ∈ received) :
      Backlog boot received (.snapshot sn :: items)
  /-- A snapshot accepted before the one of the start was handed over takes its place. -/
  | received {items : List Apply} (hfirst : boot = none ∨ ∃ sn rest, items = .snapshot sn :: rest)
      (hitems : ∀ sn, .snapshot sn ∈ items → heldOf sn ∈ received) : Backlog boot received items

/-- The host shows what Raft (`shelf`) and the process (`sv`) of a node hold for the state
    machine. -/
structure Portrays (host : Host σ) (shelf : Shelf) (sv : KvService σ) : Prop where
  replica : host.replica = sv.replica
  cursor : host.cursor = sv.cursor
  saved : host.saved = heldOn shelf
  backlog : Backlog host.boot host.received (upcoming sv shelf)
  between : ∀ i, sv.loop = .applied i ∨ sv.loop = .capturing i → i = sv.cursor ∧ host.boot = none

/-- What a step of the cluster is for a node that is not restarted by it. -/
inductive NodeStep (db : Db σ) (log : List Command) (sv : KvService σ) (shelf : Shelf) :
    KvService σ → Shelf → Prop
  /-- Nothing that has to do with the state machine; the apply loop may be done with an item. -/
  | idle {sv' : KvService σ} (hreplica : sv'.replica = sv.replica)
      (hcursor : sv'.cursor = sv.cursor) (happlies : sv'.applies = sv.applies)
      (hloop : ∀ i, sv'.loop = .applied i ∨ sv'.loop = .capturing i →
        sv.loop = .applied i ∨ sv.loop = .capturing i) : NodeStep db log sv shelf sv' shelf
  /-- Raft accepts a snapshot. -/
  | receive (sn : Raft.Snapshot) (hnew : shelf.index < sn.lastIncludedIndex)
      (hahead : sv.cursor < sn.lastIncludedIndex) (hgen : Genuine log (heldOf sn)) :
      NodeStep db log sv shelf sv
        { index := sn.lastIncludedIndex, data := some sn.data, pending := some sn }
  /-- What waits in Raft, and the commands committed since, go into the channel. -/
  | hand {out : List Apply} (hout : ∀ sn, .snapshot sn ∉ out) :
      NodeStep db log sv shelf
        { sv with applies := sv.applies ++ (shelf.pending.toList.map .snapshot ++ out) }
        { shelf with pending := none }
  | apply {entry : Applied} {rest : List Apply} {c : Command} {sv' : KvService σ}
      (happlies : sv.applies = .command entry :: rest) (hindex : entry.index = sv.cursor + 1)
      (hc : log[sv.cursor]? = some c)
      (hreplica : sv'.replica = (sv.replica.applyCommitted db c).1)
      (hcursor : sv'.cursor = entry.index) (hrest : sv'.applies = rest)
      (hloop : sv'.loop = .applied entry.index) : NodeStep db log sv shelf sv' shelf
  | install {sn : Raft.Snapshot} {rest : List Apply} (order : Iter sv.replica.keys.val)
      (happlies : sv.applies = .snapshot sn :: rest) (hahead : sv.cursor < sn.lastIncludedIndex)
      (hloop : sv.loop = .receiving) :
      NodeStep db log sv shelf
        { sv with
          applies := rest
          replica := sv.replica.installSnapshot db order sn.data
          cursor := sn.lastIncludedIndex } shelf
  | capture {index : Nat} (dedup : Iter sv.replica.dedup.entries) (keys : Iter sv.replica.keys.val)
      (hloop : sv.loop = .capturing index) (hnew : shelf.index < index)
      (hfit : (sv.replica.buildSnapshot db dedup keys).length < 2 ^ 63) :
      NodeStep db log sv shelf { sv with loop := .receiving }
        { shelf with index, data := some (sv.replica.buildSnapshot db dedup keys) }

/-! ## Steps of the stream -/

namespace Backlog

variable {boot : Option Held} {received : List Held} {items rest : List Apply} {sn : Raft.Snapshot}

/-- Commands come after. -/
theorem append (h : Backlog boot received items) {out : List Apply}
    (hout : ∀ sn, .snapshot sn ∉ out) : Backlog boot received (items ++ out) := by
  have hold : ∀ {l : List Apply}, (∀ sn, .snapshot sn ∈ l → heldOf sn ∈ received) →
      ∀ sn, .snapshot sn ∈ l ++ out → heldOf sn ∈ received := by
    intro l hl sn hsn
    exact hl sn ((List.mem_append.mp hsn).resolve_right (hout sn))
  cases h with
  | loaded hboot hitems => exact .loaded hboot (hold hitems)
  | received hfirst hitems =>
      refine .received (hfirst.imp_right ?_) (hold hitems)
      rintro ⟨sn, rest, rfl⟩
      exact ⟨sn, rest ++ out, rfl⟩

/-- An accepted snapshot takes the place of one that waits in Raft. -/
theorem accept {channel : List Apply} (h : Backlog boot received (channel ++ rest))
    (sn : Raft.Snapshot) : Backlog boot (received ++ [heldOf sn]) (channel ++ [.snapshot sn]) := by
  have hnew : ∀ {l : List Apply}, (∀ b, .snapshot b ∈ l → heldOf b ∈ received) →
      ∀ b, .snapshot b ∈ l ++ [.snapshot sn] → heldOf b ∈ received ++ [heldOf sn] := by
    intro l hl b hb
    rcases List.mem_append.mp hb with hold | hb
    · exact List.mem_append_left _ (hl b hold)
    · cases List.mem_singleton.mp hb
      exact List.mem_append_right _ List.mem_cons_self
  cases channel with
  | nil => exact .received (Or.inr ⟨sn, [], rfl⟩) (hnew nofun)
  | cons item channel =>
      generalize hl : item :: channel ++ rest = l at h
      cases h with
      | loaded hboot hitems =>
          cases hl
          exact .loaded hboot (hnew fun b hb => hitems b (List.mem_append_left _ hb))
      | received hfirst hitems =>
          subst hl
          refine .received (hfirst.imp_right ?_)
            (hnew fun b hb => hitems b (List.mem_append_left _ hb))
          rintro ⟨b, tail, heq⟩
          cases heq
          exact ⟨b, _, rfl⟩

theorem command {entry : Applied} (h : Backlog boot received (.command entry :: items)) :
    boot = none ∧ Backlog boot received items := by
  cases h with
  | received hfirst hitems =>
      have hboot : boot = none := by
        refine hfirst.resolve_right ?_
        rintro ⟨sn, rest, heq⟩
        cases heq
      exact ⟨hboot, .received (Or.inl hboot) fun sn hsn => hitems sn (List.mem_cons_of_mem _ hsn)⟩

theorem snapshot (h : Backlog boot received (.snapshot sn :: items)) :
    (boot = some (heldOf sn) ∨ heldOf sn ∈ received) ∧ Backlog none received items := by
  cases h with
  | loaded hboot hitems => exact ⟨Or.inl hboot, .received (Or.inl rfl) hitems⟩
  | received hfirst hitems =>
      exact ⟨Or.inr (hitems sn List.mem_cons_self),
        .received (Or.inl rfl) fun b hb => hitems b (List.mem_cons_of_mem _ hb)⟩

end Backlog

/-! ## Steps of the host -/

/-- The host is still there, or has taken a step other than a crash. -/
def HostMoves (db : Db σ) (log : List Command) (host host' : Host σ) : Prop :=
  host' = host ∨ ∃ act, act.isCrash = false ∧ hostStep db log host act = some host'

namespace HostMoves

theorem apply (hboot : host.boot = none) {c : Command} (hc : log[host.cursor]? = some c) :
    HostMoves db log host
      { host with replica := (host.replica.applyCommitted db c).1, cursor := host.cursor + 1 } := by
  refine Or.inr ⟨.apply, rfl, ?_⟩
  simp [hostStep, hboot, hc]

theorem snapshot {r : Replica σ} (hr : host.replica = r) (hboot : host.boot = none)
    (hnew : host.savedIndex < host.cursor) (dedup : Iter r.dedup.entries) (keys : Iter r.keys.val)
    (hfit : (r.buildSnapshot db dedup keys).length < 2 ^ 63) :
    HostMoves db log host
      { host with saved := some ⟨host.cursor, r.buildSnapshot db dedup keys⟩ } := by
  subst hr
  refine Or.inr ⟨.snapshot dedup.1 keys.1, rfl, ?_⟩
  have hguard : host.boot.isNone = true ∧ host.savedIndex < host.cursor :=
    ⟨by rw [hboot]; rfl, hnew⟩
  simp only [hostStep, guard, if_pos hguard, Iter.of_order, if_pos hfit, Option.bind_eq_bind,
    Option.bind_some, Option.pure_def]

theorem receive {held : Held} (hgen : Genuine log held) (hnew : host.savedIndex < held.index)
    (hahead : host.cursor < held.index) :
    HostMoves db log host
      { host with
        saved := some held
        received := host.received ++ [held] } := by
  obtain ⟨hlen, hfit, dedup, keys, hdata⟩ := hgen
  refine Or.inr ⟨.receive held.index dedup.1 keys.1, rfl, ?_⟩
  have hguard : host.savedIndex < held.index ∧ host.cursor < held.index ∧
      held.index ≤ log.length := ⟨hnew, hahead, hlen⟩
  simp only [hostStep, guard, if_pos hguard, Iter.of_order, ← hdata, if_pos hfit,
    Option.bind_eq_bind, Option.bind_some, Option.pure_def]

theorem install {r : Replica σ} (hr : host.replica = r) {held : Held}
    (hheld : host.boot = some held ∨ held ∈ host.received) (hahead : host.cursor < held.index)
    (order : Iter r.keys.val) :
    HostMoves db log host
      { host with
        replica := r.installSnapshot db order held.data
        cursor := held.index
        boot := none } := by
  subst hr
  rcases hheld with hboot | hheld
  · refine Or.inr ⟨.reload order.1, rfl, ?_⟩
    simp [hostStep, hboot, Host.process]
  · obtain ⟨which, hwhich⟩ := List.mem_iff_getElem?.mp hheld
    refine Or.inr ⟨.install which order.1, rfl, ?_⟩
    simp [hostStep, hwhich, hahead, Host.process]

theorem survives {store : σ} {crashes : Nat} {host' : Host σ} (h : HostMoves db log host host')
    (hs : Survives db log store crashes host) : Survives db log store crashes host' := by
  rcases h with rfl | ⟨act, hact, hstep⟩
  · exact hs
  · have hnext := hs.step hstep
    rwa [hact] at hnext

end HostMoves

theorem not_between_receiving {i : Nat} :
    ¬(LoopState.receiving = .applied i ∨ LoopState.receiving = .capturing i) := by
  rintro (hi | hi) <;> cases hi

theorem Portrays.savedIndex_le (h : Portrays host shelf sv) : host.savedIndex ≤ shelf.index := by
  unfold Host.savedIndex
  rw [h.saved]
  unfold heldOn
  cases shelf.data with
  | none => exact Nat.zero_le _
  | some data => exact Nat.le_refl _

/-- **A step of the node is at most one step of its host.** -/
theorem Portrays.step (h : Portrays host shelf sv) (hnode : NodeStep db log sv shelf sv' shelf') :
    ∃ host', HostMoves db log host host' ∧ Portrays host' shelf' sv' := by
  cases hnode with
  | idle hreplica hcursor happlies hloop =>
      refine ⟨host, Or.inl rfl, h.replica.trans hreplica.symm, h.cursor.trans hcursor.symm, h.saved,
        ?_, fun i hi => ?_⟩
      · have hbacklog := h.backlog
        unfold upcoming at hbacklog ⊢
        rwa [happlies]
      · rw [hcursor]
        exact h.between i (hloop i hi)
  | receive sn hnew hahead hgen =>
      have hsaved := h.savedIndex_le
      exact ⟨_, .receive hgen (hsaved.trans_lt hnew) (h.cursor ▸ hahead), h.replica, h.cursor, rfl,
        h.backlog.accept _, h.between⟩
  | hand hout =>
      refine ⟨host, Or.inl rfl, h.replica, h.cursor, h.saved, ?_, h.between⟩
      have hbacklog := h.backlog.append hout
      unfold upcoming at hbacklog ⊢
      simpa using hbacklog
  | @apply entry rest c _ happlies hindex hc hreplica hcursor hrest hloop =>
      have hbacklog := h.backlog
      unfold upcoming at hbacklog
      rw [happlies] at hbacklog
      obtain ⟨hboot, hbacklog⟩ := hbacklog.command
      refine ⟨_, .apply hboot (h.cursor ▸ hc), ?_, ?_, h.saved, ?_, fun i hi => ⟨?_, hboot⟩⟩
      · rw [hreplica, h.replica]
      · show host.cursor + 1 = sv'.cursor
        rw [hcursor, hindex, h.cursor]
      · unfold upcoming
        rwa [hrest]
      · rw [hloop] at hi
        rcases hi with hi | hi
        · cases hi
          exact hcursor.symm
        · cases hi
  | @install sn rest order happlies hahead hloop =>
      have hbacklog := h.backlog
      unfold upcoming at hbacklog
      rw [happlies] at hbacklog
      obtain ⟨hheld, hbacklog⟩ := hbacklog.snapshot
      refine ⟨_, .install h.replica hheld (h.cursor ▸ hahead) order, rfl, rfl, h.saved, hbacklog,
        fun _ hi => ?_⟩
      rw [hloop] at hi
      exact absurd hi not_between_receiving
  | @capture index dedup keys hloop hnew hfit =>
      obtain ⟨hindex, hboot⟩ := h.between index (Or.inr hloop)
      have hsaved := h.savedIndex_le
      have hcursor := h.cursor
      refine ⟨_, .snapshot h.replica hboot (by omega) dedup keys hfit, h.replica, hcursor, ?_,
        h.backlog, fun _ hi => absurd hi not_between_receiving⟩
      rw [hindex, ← hcursor]
      rfl

/-- **A restart of the node is a crash of its host.** -/
theorem Portrays.restart (h : Portrays host shelf sv) (db : Db σ) (log : List Command)
    (term : Nat) :
    ∃ host', hostStep db log host .crash = some host' ∧
      Portrays host'
        { shelf with pending := shelf.data.map fun data => ⟨shelf.index, term, data⟩ }
        (.start sv.replica.store) := by
  refine ⟨_, rfl, ?_, rfl, h.saved, ?_, fun _ hi => absurd hi not_between_receiving⟩
  · show Replica.start host.replica.store = .start sv.replica.store
    rw [h.replica]
  · show Backlog host.saved [] _
    rw [h.saved]
    unfold heldOn upcoming
    cases shelf.data with
    | none => exact .received (Or.inl rfl) nofun
    | some data => exact .loaded rfl nofun

/-! ## The cluster, seen from one node -/

variable {cfg : ClusterConfig} {codec : Codec} {s s' : KvCluster σ} {a a' : Ghost} {n m : NodeId}
  {p q : List LogEntry} {act : KvAction}

theorem NodeStep.refl : NodeStep db log sv shelf sv shelf := .idle rfl rfl rfl fun _ hi => hi

/-- Raft does something for node `m` that neither hands over nor captures nor starts anything. -/
theorem Fed.raft_nodeStep (h : Fed cfg s.raft s.services a)
    (htaken : ∀ r ∈ s.raft.taken, Genuine log ⟨r.index, r.data⟩) {ract : Action} {raft : Cluster}
    (hraft : s.raft.step cfg ract = some raft) (hr : Raft.Refines cfg True raft a')
    (hm : m ∈ cfg.members) (hdrain : ract ≠ .drain m)
    (hrestart : ∀ now draw, ract ≠ .restart m now draw)
    (hown : ∀ index data, ract ≠ .snapshot m index data) :
    NodeStep db log (s.services m) (s.raft.core m).shelf (s.services m) (raft.core m).shelf := by
  have hmoved := Raft.Cluster.step_core hraft m
  have hnode := hr.nodes m hm
  generalize raft.core m = c at hmoved hnode ⊢
  cases hmoved with
  | same => exact .refl
  | op o hcall hrun =>
      have hshelves := Raft.Op.shelves hrun
      generalize hshelf : c.shelf = shelf' at hshelves ⊢
      cases hshelves with
      | keep => exact .refl
      | @compact index data =>
          cases hcall
          exact absurd rfl (hown index data)
      | @accept args now draw hterm hnew =>
          have hcursor := h.cursor_le hm
          have hN := (h.refines.nodes m hm).cursors
          have hsnap := hN.snapshot_le
          have happ := hN.applied_le
          have hbelow : (s.raft.core m).log.snapshotIndex < args.lastIncludedIndex := by omega
          have hahead : (s.services m).cursor < args.lastIncludedIndex := by omega
          rw [max_eq_right hbelow.le] at hshelf ⊢
          -- What a node persists some node has captured.
          have hindex : c.log.snapshotIndex = args.lastIncludedIndex := congrArg Shelf.index hshelf
          have hN' := hnode.cursors
          obtain ⟨hpos, hbacked⟩ := hN'.backed (congrArg Shelf.data hshelf)
          have hlen : ((a'.log m).take c.log.snapshotIndex).length = args.lastIncludedIndex := by
            have := hN'.snapshot_le.trans (hN'.applied_le.trans hN'.commit_le)
            rw [List.length_take]
            omega
          obtain ⟨r, hr, hri, hrd⟩ := hbacked.supplied (by omega)
          have hold : r ∈ s.raft.taken := by
            refine ((Raft.step_recorded hraft).taken r hr).resolve_right ?_
            rintro rfl
            cases hcall
          have hgen := htaken r hold
          rw [hri, hrd, hlen] at hgen
          exact .receive ⟨args.lastIncludedIndex, args.lastIncludedTerm, args.data⟩ hbelow hahead
            hgen
      | hand =>
          cases hcall
          exact absurd rfl hdrain
  | start epoch now draw hact => exact absurd hact (hrestart now draw)

/-- An entry that is delivered stands in every committed list that is long enough. -/
theorem commits_getElem? (hs : Raft.Safe cfg a) {T T' i : Nat} (hp : Commits cfg a T p)
    (hq : Commits cfg a T' q) {e : LogEntry} (he : q[i]? = some e) (hi : i < p.length) :
    p[i]? = some e := by
  rcases hq.comparable hs hp with hqp | hpq
  · exact getElem?_of_pre hqp he
  · rw [getElem?_pre_of_lt hpq hi]
    exact he

/-- One process changes. -/
theorem NodeStep.update {services : NodeId → KvService σ}
    (hself : m = n → NodeStep db log (services m) shelf sv shelf')
    (hother : m ≠ n → NodeStep db log (services m) shelf (services m) shelf') :
    NodeStep db log (services m) shelf (Function.update services n sv m) shelf' := by
  by_cases hmn : m = n
  · subst hmn
    rw [Function.update_self]
    exact hself rfl
  · rw [Function.update_of_ne hmn]
    exact hother hmn

theorem NodeStep.update_idle {services : NodeId → KvService σ}
    (hreplica : sv.replica = (services n).replica) (hcursor : sv.cursor = (services n).cursor)
    (happlies : sv.applies = (services n).applies)
    (hloop : ∀ i, sv.loop = .applied i ∨ sv.loop = .capturing i →
      (services n).loop = .applied i ∨ (services n).loop = .capturing i) :
    NodeStep db log (services m) shelf (Function.update services n sv m) shelf := by
  refine .update ?_ fun _ => .refl
  rintro rfl
  exact .idle hreplica hcursor happlies hloop

/-- The snapshot of a node that captures. -/
theorem capture_shelf {index : Nat} {data : Bytes} {raft : Cluster}
    (hraft : s.raft.step cfg (.snapshot n index data) = some raft) :
    Raft.Shelves (s.raft.core n) (.snapshot index data) (raft.core n).shelf := by
  obtain ⟨-, core, taken, hcore, heq, -⟩ := Raft.Cluster.step_snapshot hraft
  have hself : raft.core n = core := Raft.core_update_self (congrArg Cluster.procs heq)
  rw [hself]
  exact Raft.takeSnapshot_shelves hcore

/-- The channel gets a pending snapshot and the commands that are committed. -/
theorem drain_nodeStep (hnode : Raft.NodeInv cfg True s.raft.taken a n (s.raft.core n))
    {raft : Cluster} {core : Raft.ConsensusModule} {out : List Apply}
    (hraft : s.raft.step cfg (.drain n) = some raft)
    (htake : (s.raft.core n).takeApplies = some (core, out)) :
    NodeStep db log (s.services n) (s.raft.core n).shelf
      { s.services n with applies := (s.services n).applies ++ out } (raft.core n).shelf := by
  obtain ⟨-, core', out', htake', heq⟩ := Raft.Cluster.step_drain hraft
  rw [htake] at htake'
  cases htake'
  have hself : raft.core n = core := Raft.core_update_self (congrArg Cluster.procs heq)
  rw [hself, Raft.takeApplies_shelf htake]
  rw [Raft.takeApplies_eq hnode] at htake
  cases htake
  exact .hand fun sn hsn => by
    obtain ⟨i, -, hi⟩ := List.mem_filterMap.mp hsn
    obtain ⟨e, -, heq⟩ := Option.map_eq_some_iff.mp hi
    cases heq

/-- The command the apply loop takes is the next one of the log. -/
theorem Fed.next_command (h : Fed cfg s.raft s.services a) {T : Nat} (hp : Commits cfg a T p)
    (hn : n ∈ cfg.members) (hcover : (s.raft.core n).commitIndex ≤ p.length) {entry : Applied}
    (hitem : (s.services n).applies.head? = some (.command entry)) :
    entry.index = (s.services n).cursor + 1 ∧ (commands codec p)[(s.services n).cursor]? =
      some ((codec.decode entry.command).getD (.get [])) := by
  obtain ⟨rest, hrest⟩ := List.head?_eq_some_iff.mp hitem
  obtain ⟨⟨hpos, T', q, hq, he⟩, i, hindex, -⟩ := h.next hn hitem
  have hlen : entry.index ≤ p.length := by
    obtain ⟨j, hfollows, hfeeds⟩ := h.streams n hn
    rw [hrest] at hfollows
    have := hfollows.2.le
    have := (h.refines.nodes n hn).cursors.applied_le
    rcases hfeeds with ⟨-, hj⟩ | ⟨-, hj⟩ <;> omega
  have hget := commits_getElem? h.refines.safe hp hq he (by omega)
  refine ⟨hindex, ?_⟩
  unfold commands
  rw [List.getElem?_map, show (s.services n).cursor = entry.index - 1 by omega, hget]
  rfl

theorem Fed.command_nodeStep (h : Fed cfg s.raft s.services a) {T : Nat} (hp : Commits cfg a T p)
    (hn : n ∈ cfg.members) (hcover : (s.raft.core n).commitIndex ≤ p.length) {entry : Applied}
    (hitem : (s.services n).applies.head? = some (.command entry))
    (hreplica : sv.replica = ((s.services n).replica.applyCommitted db
      ((codec.decode entry.command).getD (.get []))).1)
    (hcursor : sv.cursor = entry.index) (happlies : sv.applies = (s.services n).applies.tail)
    (hloop : sv.loop = .applied entry.index) :
    NodeStep db (commands codec p) (s.services n) shelf sv shelf := by
  obtain ⟨hindex, hcommand⟩ := h.next_command hp hn hcover hitem
  obtain ⟨rest, hrest⟩ := List.head?_eq_some_iff.mp hitem
  exact .apply hrest hindex hcommand hreplica hcursor (by rw [happlies, hrest]; rfl) hloop

/-- **What a step of the cluster is for a node that it does not restart.** -/
theorem Fed.nodeStep (h : Fed cfg s.raft s.services a) (h' : Fed cfg s'.raft s'.services a')
    {T : Nat} (hp : Commits cfg a T p)
    (hcover : ∀ n ∈ cfg.members, (s.raft.core n).commitIndex ≤ p.length)
    (htaken : ∀ r ∈ s.raft.taken, Genuine (commands codec p) ⟨r.index, r.data⟩)
    (hstep : s.step cfg db codec act = some s') (hm : m ∈ cfg.members)
    (hno : ∀ now draw, act ≠ .restart m now draw) :
    NodeStep db (commands codec p) (s.services m) (s.raft.core m).shelf (s'.services m)
      (s'.raft.core m).shelf := by
  have hr' := h'.refines
  cases KvCluster.step_sound hstep with
  | @raft ract raft hact hraft =>
      exact h.raft_nodeStep htaken hraft hr' hm (by rintro rfl; cases hact)
        (by rintro _ _ rfl; cases hact) (by rintro _ _ rfl; cases hact)
  | @drain n raft core out hraft htake =>
      refine .update ?_ fun hmn => ?_
      · rintro rfl
        exact drain_nodeStep (h.refines.nodes m hm) hraft htake
      · exact h.raft_nodeStep htaken hraft hr' hm (fun heq => hmn (Action.drain.inj heq).symm)
          nofun nofun
  | execute | register | cleanup => exact .update_idle rfl rfl rfl fun _ hi => hi
  | accepted hin hraft | refused hin hraft =>
      exact h.raft_nodeStep htaken hraft hr' hm nofun nofun nofun
  | expire | respond => exact .refl
  | @applied n order entry command hn hloop hitem hdec =>
      obtain ⟨waiters, calls, -, heq⟩ := applied_result s db n entry command
      rw [heq]
      refine .update ?_ fun _ => .refl
      rintro rfl
      exact h.command_nodeStep hp hn (hcover m hn) hitem (by rw [hdec]; rfl) rfl rfl rfl
  | @skipped n order entry hn hloop hitem hdec =>
      refine .update ?_ fun _ => .refl
      rintro rfl
      refine h.command_nodeStep hp hn (hcover m hn) hitem ?_ rfl rfl rfl
      -- An entry that is skipped is a read to the host.
      rw [hdec]
      exact (congrArg Prod.fst (Replica.apply_bypass db (Or.inl rfl))).trans
        (Replica.run_read db rfl) |>.symm
  | @installed n choice sn order hn hloop hitem =>
      refine .update ?_ fun _ => .refl
      rintro rfl
      obtain ⟨rest, hrest⟩ := List.head?_eq_some_iff.mp hitem
      obtain ⟨-, i, hahead, -⟩ := h.next hn hitem
      have hnode : NodeStep db (commands codec p) _ (s.raft.core m).shelf _ _ :=
        .install order hrest hahead hloop
      rw [hrest]
      exact hnode
  | @check n index hloop =>
      refine .update_idle rfl rfl rfl fun i hi => ?_
      dsimp only at hi
      split at hi
      · rcases hi with hi | hi
        · cases hi
        · cases hi
          exact Or.inl hloop
      · exact absurd hi not_between_receiving
  | @capture n index _ _ dedup keys raft hloop hfit hraft =>
      refine .update ?_ fun hmn => ?_
      · rintro rfl
        have hshelves := capture_shelf hraft
        show NodeStep _ _ _ _ _ (raft.core m).shelf
        generalize (raft.core m).shelf = shelf at hshelves
        cases hshelves with
        | keep => exact .idle rfl rfl rfl fun _ hi => absurd hi not_between_receiving
        | compact hnew => exact .capture dedup keys hloop hnew hfit
      · exact h.raft_nodeStep htaken hraft hr' hm nofun nofun
          fun _ _ heq => hmn (Action.snapshot.inj heq).1.symm
  | @restart n now draw raft hraft =>
      have hmn : m ≠ n := by
        rintro rfl
        exact hno now draw rfl
      refine .update (fun heq => absurd heq hmn) fun _ => ?_
      exact h.raft_nodeStep htaken hraft hr' hm nofun
        (fun _ _ heq => hmn (Action.restart.inj heq).1.symm) nofun

/-! ## Runs of the cluster -/

/-- Requests are reads, puts and deletes. -/
def Overwriting (_ : KvCluster σ) : KvAction → Prop
  | .execute _ command => command.overwrites
  | _ => True

instance (s : KvCluster σ) (act : KvAction) : Decidable (Overwriting s act) :=
  match act with
  | .execute _ command => inferInstanceAs (Decidable command.overwrites)
  | .raft _ | .drain _ | .register _ | .propose _ | .expire _ | .cleanup _ | .respond _
  | .apply .. | .check _ | .capture .. | .restart .. => .isTrue trivial

/-- The list `p` is committed, and over its commands every node is a host. -/
structure Hosted (cfg : ClusterConfig) (db : Db σ) (codec : Codec) (store : NodeId → σ)
    (s : KvCluster σ) (a : Ghost) (p : List LogEntry) : Prop where
  fed : Fed cfg s.raft s.services a
  committed : ∃ T, Commits cfg a T p
  asked : ∀ call ∈ s.calls, call.command.overwrites
  owned : ∀ {t i e}, Owns LogEntry.term a t i e →
    ((codec.decode e.command).getD (.get [])).overwrites
  hosts : ∀ n ∈ cfg.members, ∃ host,
    Survives db (commands codec p) (store n) (s.epoch n) host ∧
      Portrays host (s.raft.core n).shelf (s.services n)
  taken : ∀ r ∈ s.raft.taken, Genuine (commands codec p) ⟨r.index, r.data⟩
  performed : ∀ r ∈ s.performed, 0 < r.entry.index ∧
    (commands codec p)[r.entry.index - 1]? = some r.command

namespace Hosted

variable {store : NodeId → σ}

theorem init (store : NodeId → σ) :
    Hosted cfg db codec store (.init cfg store) State.init [] where
  fed := ⟨Raft.init_refines cfg True, fun n hn => ⟨0, rfl, Or.inl ⟨rfl, rfl⟩⟩, nofun⟩
  committed := ⟨0, Committed.nil _ _⟩
  asked := nofun
  owned := by
    rintro t i e ⟨he, -⟩
    cases he
  hosts n _ := by
    refine ⟨.init (store n), .init, rfl, rfl, rfl, .received (Or.inl rfl) nofun, fun _ hi => ?_⟩
    exact absurd hi not_between_receiving
  taken := nofun
  performed := nofun

theorem overwrites (h : Hosted cfg db codec store s a p) :
    ∀ c ∈ commands codec p, c.overwrites := by
  intro c hc
  obtain ⟨e, he, rfl⟩ := List.mem_map.mp hc
  obtain ⟨i, hi⟩ := List.mem_iff_getElem?.mp he
  obtain ⟨T, hp⟩ := h.committed
  exact h.owned (hp.owns h.fed.refines.safe hi)

/-- A longer committed list does as well. -/
theorem extend (h : Hosted cfg db codec store s a p) {T : Nat} (hq : Commits cfg a T q)
    (hpq : p <+: q) : Hosted cfg db codec store s a q where
  fed := h.fed
  committed := ⟨T, hq⟩
  asked := h.asked
  owned := h.owned
  hosts n hn := by
    obtain ⟨host, hsurvives, hportrays⟩ := h.hosts n hn
    exact ⟨host, hsurvives.extend (commands_pre hpq), hportrays⟩
  taken r hr := (h.taken r hr).extend (commands_pre hpq)
  performed r hr := by
    obtain ⟨hpos, hget⟩ := h.performed r hr
    exact ⟨hpos, getElem?_of_pre (commands_pre hpq) hget⟩

/-- In particular one that holds all that the nodes know to be committed. -/
theorem cover (h : Hosted cfg db codec store s a p) :
    ∃ q, Hosted cfg db codec store s a q ∧
      ∀ n ∈ cfg.members, (s.raft.core n).commitIndex ≤ q.length := by
  have hnodes := h.fed.refines.nodes
  obtain ⟨q, hpq, ⟨T, hq⟩, hall⟩ := Raft.exists_order h.fed.refines.safe h.committed
    (cfg.members.map fun n => (a.log n).take (s.raft.core n).commitIndex) (by
      intro l hl
      obtain ⟨n, hn, rfl⟩ := List.mem_map.mp hl
      exact ⟨_, (hnodes n hn).cursors.committed⟩)
  refine ⟨q, h.extend hq hpq, fun n hn => ?_⟩
  have hle := (hall _ (List.mem_map_of_mem hn)).length_le
  have := (hnodes n hn).cursors.commit_le
  rw [List.length_take] at hle
  omega

theorem asked_step (h : Hosted cfg db codec store s a p) (hact : Overwriting s act)
    (hstep : s.step cfg db codec act = some s') : ∀ call ∈ s'.calls, call.command.overwrites := by
  intro call hcall
  by_cases hex : ∃ n command, act = .execute n command
  · obtain ⟨n, command, rfl⟩ := hex
    cases KvCluster.step_sound hstep with
    | execute =>
        rcases List.mem_append.mp hcall with hold | hnew
        · exact h.asked call hold
        · cases List.mem_singleton.mp hnew
          exact hact
  · push Not at hex
    obtain ⟨old, hold, hsame⟩ := (step_keeps hex hstep).origin hcall
    have hcommand : old.command = call.command := congrArg (fun i => i.2.2) hsame
    exact hcommand ▸ h.asked old hold

/-- A snapshot that is taken is genuine: the replica it is taken of copies the log. -/
theorem taken_step (h : Hosted cfg db codec store s a p) (hdb : Faithful db contents)
    (hstep : s.step cfg db codec act = some s') :
    ∀ r ∈ s'.raft.taken, Genuine (commands codec p) ⟨r.index, r.data⟩ := by
  intro r hr
  have hold : ∀ {ract : Action} {raft : Cluster}, s.raft.step cfg ract = some raft →
      (∀ n index data, ract ≠ .snapshot n index data) → r ∈ raft.taken →
      Genuine (commands codec p) ⟨r.index, r.data⟩ := by
    intro ract raft hraft hno hr
    exact h.taken r (((Raft.step_recorded hraft).taken r hr).resolve_right (hno _ _ _))
  cases KvCluster.step_sound hstep with
  | raft hact hraft => exact hold hraft (by rintro _ _ _ rfl; cases hact) hr
  | drain hraft | accepted _ hraft | refused _ hraft | restart hraft => exact hold hraft nofun hr
  | @applied n order entry command hn hloop hitem hdec =>
      obtain ⟨waiters, calls, -, heq⟩ := applied_result s db n entry command
      rw [heq] at hr
      exact h.taken r hr
  | @capture n index _ _ dedup keys raft hloop hfit hraft =>
      rcases (Raft.step_recorded hraft).taken r hr with hr | hnew
      · exact h.taken r hr
      · obtain ⟨-, rfl, hdata⟩ := Action.snapshot.inj hnew
        obtain ⟨host, hsurvives, hportrays⟩ := h.hosts n (Raft.Cluster.step_snapshot hraft).1
        have hcopies := (hsurvives.exact hdb h.overwrites).copies
        rw [hportrays.replica, hportrays.cursor,
          ← (hportrays.between _ (Or.inr hloop)).1] at hcopies
        rw [← hdata]
        exact hcopies.genuine hdb dedup keys hfit
  | execute | register | expire | cleanup | respond | skipped | installed | check =>
      exact h.taken r hr

theorem performed_step (h : Hosted cfg db codec store s a p)
    (hcover : ∀ n ∈ cfg.members, (s.raft.core n).commitIndex ≤ p.length)
    (hstep : s.step cfg db codec act = some s') :
    ∀ r ∈ s'.performed, 0 < r.entry.index ∧
      (commands codec p)[r.entry.index - 1]? = some r.command := by
  intro r hr
  cases KvCluster.step_sound hstep with
  | @applied n order entry command hn hloop hitem hdec =>
      obtain ⟨waiters, calls, -, heq⟩ := applied_result s db n entry command
      rw [heq] at hr
      rcases List.mem_append.mp hr with hold | hnew
      · exact h.performed r hold
      · obtain ⟨T, hp⟩ := h.committed
        obtain ⟨hindex, hcommand⟩ := h.fed.next_command hp hn (hcover n hn) hitem
        have hat : entry.index - 1 = (s.services n).cursor := by omega
        rw [hdec, ← hat] at hcommand
        rw [List.mem_singleton.mp hnew]
        exact ⟨by show 0 < entry.index; omega, hcommand⟩
  | _ => exact h.performed r hr

/-- A node that is restarted. -/
theorem restart_host (h : Hosted cfg db codec store s a p) (hn : n ∈ cfg.members) {now : Instant}
    {draw : Nat} (hstep : s.step cfg db codec (.restart n now draw) = some s') :
    ∃ host, Survives db (commands codec p) (store n) (s'.epoch n) host ∧
      Portrays host (s'.raft.core n).shelf (s'.services n) := by
  obtain ⟨host, hsurvives, hportrays⟩ := h.hosts n hn
  cases KvCluster.step_sound hstep with
  | @restart _ _ _ raft hraft =>
      have hcore : raft.core n = _ :=
        Raft.core_update_self (congrArg Cluster.procs (Raft.Cluster.step_restart hraft).2)
      have hepoch : (raft.procs n).epoch = s.epoch n + 1 := Raft.restart_epoch hraft
      obtain ⟨host', hcrash, hportrays'⟩ := hportrays.restart db (commands codec p)
        (s.raft.core n).log.snapshotTerm
      refine ⟨host', ?_, ?_⟩
      · show Survives db (commands codec p) (store n) (raft.procs n).epoch host'
        rw [hepoch]
        exact hsurvives.step hcrash
      · show Portrays host' (raft.core n).shelf (Function.update s.services n _ n)
        rw [Function.update_self, hcore, Raft.startNode_shelf (h.fed.refines.stored n hn)]
        exact hportrays'

theorem step (h : Hosted cfg db codec store s a p) (hcodec : codec.Lossless)
    (hdb : Faithful db contents) (hact : Overwriting s act)
    (hstep : s.step cfg db codec act = some s') :
    ∃ a' q, Hosted cfg db codec store s' a' q := by
  obtain ⟨q, h, hcover⟩ := h.cover
  obtain ⟨T, hq⟩ := h.committed
  obtain ⟨a', hmoves, hfed⟩ := h.fed.step hstep
  have hgrown := hq.grow (hmoves.later.grows h.fed.refines.safe)
  refine ⟨a', q, hfed, ⟨T, hgrown⟩, h.asked_step hact hstep, fun hown => ?_, fun n hn => ?_,
    h.taken_step hdb hstep, h.performed_step hcover hstep⟩
  · rcases hmoves.adds hown with hold | ⟨call, hcall, hbytes⟩
    · exact h.owned hold
    · rw [hbytes, hcodec]
      exact h.asked call hcall
  · by_cases hre : ∃ now draw, act = .restart n now draw
    · obtain ⟨now, draw, rfl⟩ := hre
      exact h.restart_host hn hstep
    · push Not at hre
      obtain ⟨host, hsurvives, hportrays⟩ := h.hosts n hn
      have hnode := h.fed.nodeStep hfed hq hcover h.taken hstep hn hre
      obtain ⟨host', hmoved, hportrays'⟩ := hportrays.step hnode
      rw [KvCluster.step_epoch hstep hre]
      exact ⟨host', hmoved.survives hsurvives, hportrays'⟩

end Hosted

theorem hosted_of_within (hcodec : codec.Lossless) (hdb : Faithful db contents) {store : NodeId → σ}
    (h : Within (KvCluster.step cfg db codec) Overwriting (.init cfg store) s) :
    ∃ a p, Hosted cfg db codec store s a p := by
  refine h.invariant (I := fun s => ∃ a p, Hosted cfg db codec store s a p) ?_ ⟨_, _, .init store⟩
  rintro s act s' ⟨a, p, hs⟩ hact hstep
  exact hs.step hcodec hdb hact hstep

/-- **Every node is a host.** In a run whose requests are reads, puts and deletes, with crashes
    anywhere, one log holds every command that was applied; and what a node's state machine and Raft
    hold is where a run of `hostStep` over this log leads, with a crash for each restart. -/
theorem nodes_are_hosts (hcodec : codec.Lossless) (hdb : Faithful db contents) {store : NodeId → σ}
    (h : Within (KvCluster.step cfg db codec) Overwriting (.init cfg store) s) :
    ∃ log : List Command, (∀ c ∈ log, c.overwrites) ∧
      (∀ r ∈ s.performed, 0 < r.entry.index ∧ log[r.entry.index - 1]? = some r.command) ∧
      ∀ n ∈ cfg.members, ∃ acts host,
        run (hostStep db log) (.init (store n)) acts = some host ∧
          acts.countP HostAction.isCrash = s.epoch n ∧
          Portrays host (s.raft.core n).shelf (s.services n) := by
  obtain ⟨a, p, hs⟩ := hosted_of_within hcodec hdb h
  refine ⟨commands codec p, hs.overwrites, hs.performed, fun n hn => ?_⟩
  obtain ⟨host, ⟨acts, hrun, hcount⟩, hportrays⟩ := hs.hosts n hn
  exact ⟨acts, host, hrun, hcount, hportrays⟩

/-- **Replicas copy the log, whatever has crashed.** In a run whose requests are reads, puts and
    deletes, one log holds every command that was applied; and at every node the dedup table, the
    directory and the values of its keys are those of the log up to the node's position, and the
    snapshot Raft holds is an image of the log at its index. -/
theorem replicas_copy_the_log (hcodec : codec.Lossless) (hdb : Faithful db contents)
    {store : NodeId → σ}
    (h : Within (KvCluster.step cfg db codec) Overwriting (.init cfg store) s) :
    ∃ log : List Command,
      (∀ r ∈ s.performed, 0 < r.entry.index ∧ log[r.entry.index - 1]? = some r.command) ∧
      ∀ n ∈ cfg.members,
        Copies log (s.services n).cursor ((s.services n).replica.view contents) ∧
        ∀ data, (s.raft.core n).snapshot = some data →
          (s.raft.core n).log.snapshotIndex ≤ log.length ∧
            (reference log (s.raft.core n).log.snapshotIndex).IsImage data := by
  obtain ⟨a, p, hs⟩ := hosted_of_within hcodec hdb h
  refine ⟨commands codec p, hs.performed, fun n hn => ?_⟩
  obtain ⟨host, hsurvives, hportrays⟩ := hs.hosts n hn
  have hexact := hsurvives.exact hdb hs.overwrites
  refine ⟨?_, fun data hdata => ?_⟩
  · have hcopies := hexact.copies
    rwa [hportrays.replica, hportrays.cursor] at hcopies
  · have hsaved : host.saved = some ⟨(s.raft.core n).log.snapshotIndex, data⟩ := by
      rw [hportrays.saved]
      show (s.raft.core n).snapshot.map _ = _
      rw [hdata]
      rfl
    have hgen := hexact.saved _ hsaved
    exact ⟨hgen.1, hgen.isImage⟩

/-- One node applies a put, restarts, elects itself again, and applies the put and a delete. -/
def revivedRun : List KvAction :=
  [.raft (.tick 1 1000 0), .raft (.tick 1 1000 0), .execute 1 (.put [7] [1] 5 1), .register 0,
    .propose 0, .drain 1, .apply 1 [], .check 1, .restart 1 2000 0, .raft (.tick 1 3000 0),
    .raft (.tick 1 3000 0), .execute 1 (.delete [7] 5 2), .register 1, .propose 1, .drain 1,
    .apply 1 [], .check 1, .apply 1 [], .check 1]

theorem revivedRun_isSome :
    (run (fun s act => if Overwriting s act then
      s.step Raft.solo mapDb Protobuf.codec act else none) soloStart revivedRun).isSome = true := by
  decide +kernel

def revived : KvCluster (Bytes → Option Bytes) :=
  (run (fun s act => if Overwriting s act then
    s.step Raft.solo mapDb Protobuf.codec act else none) soloStart revivedRun).get revivedRun_isSome

theorem replicas_copy_the_log_revived :
    (revived.epoch 1 = 1 ∧ (revived.services 1).cursor = 2 ∧ revived.performed.length = 3) ∧
      ∃ log : List Command,
        (∀ r ∈ revived.performed, 0 < r.entry.index ∧ log[r.entry.index - 1]? = some r.command) ∧
        ∀ n ∈ Raft.solo.members,
          Copies log (revived.services n).cursor ((revived.services n).replica.view id) ∧
          ∀ data, (revived.raft.core n).snapshot = some data →
            (revived.raft.core n).log.snapshotIndex ≤ log.length ∧
              (reference log (revived.raft.core n).log.snapshotIndex).IsImage data :=
  ⟨by decide +kernel,
    replicas_copy_the_log Protobuf.codec_lossless mapDb_faithful
      (Within.of_run (Option.eq_some_of_isSome revivedRun_isSome))⟩

/-- **Nodes recover.** If the host of a node is one that a run with settling snapshots leads to
    (`Lives`), and the node has caught up with its former self, its engine holds what the log
    makes. -/
theorem nodes_recover (hcodec : codec.Lossless) (hdb : Faithful db contents) {store : NodeId → σ}
    (hempty : ∀ n, contents (store n) = fun _ => none)
    (h : Within (KvCluster.step cfg db codec) Overwriting (.init cfg store) s) :
    ∃ log : List Command, ∀ n ∈ cfg.members, ∃ acts host,
      run (hostStep db log) (.init (store n)) acts = some host ∧
        acts.countP HostAction.isCrash = s.epoch n ∧
        (Lives contents log db (store n) host → host.formerly ≤ (s.services n).cursor →
          contents (s.services n).replica.store = (reference log (s.services n).cursor).store) := by
  obtain ⟨log, hlog, -, hhosts⟩ := nodes_are_hosts hcodec hdb h
  refine ⟨log, fun n hn => ?_⟩
  obtain ⟨acts, host, hrun, hcount, hportrays⟩ := hhosts n hn
  refine ⟨acts, host, hrun, hcount, fun hlives hcaught => ?_⟩
  rw [← hportrays.cursor] at hcaught ⊢
  rw [← hportrays.replica]
  exact (lives_sound hdb hlog (hempty n) hlives).shadows.recovered hcaught

end Murmur.App
