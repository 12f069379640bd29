/-
  The application layer of one node across crashes: the engine's data survives, the dedup table, the
  key directory and the position in the apply stream do not.

  * `Host`: one node over its incarnations. `hostStep` is what the apply loop of `src/app.rs` does
    with the items of the stream, what Raft persists for it, and the crash. That the nodes of a
    cluster are hosts is `nodes_are_hosts` in `Murmur.App.Hosted`.
  * `Exact`: table, directory and the values of its keys are those of the log in every run, and so
    are the snapshots.
  * `Settles`: no key outside the directory and the image is left behind by an install.
  * `restart_recovers`: if every leader's snapshot settles, a node that has caught up with its
    former self holds what a replica that never crashed holds.
-/
import Murmur.App.Reference
import Murmur.Basis.Run

namespace Murmur.App

open Murmur.Raft (Bytes HashMap)
open Murmur.Basis

/-- A snapshot Raft holds for the state machine: the index it covers, and the image. -/
structure Held where
  index : Nat
  data : Bytes

/-- One node's application layer. -/
structure Host (σ : Type) where
  replica : Replica σ
  /-- The last index processed by this process. -/
  cursor : Nat
  /-- The snapshot Raft has persisted. -/
  saved : Option Held
  /-- The persisted snapshot this process started with, until it is processed. -/
  boot : Option Held
  /-- Snapshots accepted from leaders by this process. -/
  received : List Held
  /-- The highest index processed by earlier processes. -/
  formerly : Nat
  /-- Whether the state in `boot` was once in the engine. -/
  settled : Bool

inductive HostAction where
  /-- Process the next command. -/
  | apply
  /-- Capture the state machine and hand it to Raft; the orders in which the tables are read. -/
  | snapshot (dedup : List DedupEntry) (keys : List Bytes)
  /-- Raft accepts and persists a leader's snapshot at `index`, as some replica captured it. -/
  | receive (index : Nat) (dedup : List DedupEntry) (keys : List Bytes)
  /-- Process a received snapshot; the order in which the directory is cleared. -/
  | install (which : Nat) (order : List Bytes)
  /-- Process the snapshot loaded at startup. -/
  | reload (order : List Bytes)
  | crash

namespace Host

variable {σ : Type} (db : Db σ) (log : List Command)

def init (store : σ) : Host σ :=
  { replica := .start store, cursor := 0, saved := none, boot := none, received := [],
    formerly := 0, settled := false }

/-- The boundary of the persisted snapshot. -/
def savedIndex (self : Host σ) : Nat := (self.saved.map Held.index).getD 0

/-- Process a snapshot item of the stream. -/
def process (self : Host σ) (held : Held) (order : List Bytes) : Option (Host σ) := do
  let order ← Iter.of order self.replica.keys.val
  return { self with
    replica := self.replica.installSnapshot db order held.data
    cursor := held.index
    boot := none }

end Host

open Host in
/-- One step of a node whose committed log is `log`. -/
def hostStep {σ : Type} (db : Db σ) (log : List Command) (self : Host σ) :
    HostAction → Option (Host σ)
  | .apply => do
    -- A loaded snapshot comes first in the stream.
    guard self.boot.isNone
    let c ← log[self.cursor]?
    return { self with replica := (self.replica.applyCommitted db c).1, cursor := self.cursor + 1 }
  | .snapshot dedup keys => do
    -- `ConsensusModule::snapshot` ignores an index at or below its boundary.
    guard (self.boot.isNone ∧ self.savedIndex < self.cursor)
    let dedup ← Iter.of dedup self.replica.dedup.entries
    let keys ← Iter.of keys self.replica.keys.val
    let data := self.replica.buildSnapshot db dedup keys
    -- A byte vector has fewer than 2^63 elements.
    guard (data.length < 2 ^ 63)
    return { self with saved := some { index := self.cursor, data } }
  | .receive index dedup keys => do
    guard (self.savedIndex < index ∧ self.cursor < index ∧ index ≤ log.length)
    let dedup ← Iter.of dedup (reference log index).dedup.entries
    let keys ← Iter.of keys (reference log index).keys.val
    let data := (reference log index).buildSnapshot mapDb dedup keys
    guard (data.length < 2 ^ 63)
    return { self with
      saved := some { index, data }
      received := self.received ++ [{ index, data }] }
  | .install which order => do
    let held ← self.received[which]?
    guard (self.cursor < held.index)
    self.process db held order
  | .reload order => do
    let held ← self.boot
    self.process db held order
  | .crash =>
    some
      { replica := .start self.replica.store
        cursor := 0
        saved := self.saved
        boot := self.saved
        received := []
        formerly := max self.formerly self.cursor
        settled := self.savedIndex ≤ self.cursor ∨
          self.settled ∧ self.boot.map Held.index = some self.savedIndex }

/-- What an action does, with what has to hold before it. -/
inductive Host.Step {σ : Type} (db : Db σ) (log : List Command) (self : Host σ) :
    HostAction → Host σ → Prop
  | apply {c : Command} (hboot : self.boot = none) (hc : log[self.cursor]? = some c) :
      Step db log self .apply
        { self with replica := (self.replica.applyCommitted db c).1, cursor := self.cursor + 1 }
  | snapshot {entries : List DedupEntry} {choice : List Bytes}
      {dedup : Iter self.replica.dedup.entries} {keys : Iter self.replica.keys.val}
      (hboot : self.boot = none) (hnew : self.savedIndex < self.cursor)
      (hfit : (self.replica.buildSnapshot db dedup keys).length < 2 ^ 63) :
      Step db log self (.snapshot entries choice)
        { self with saved := some ⟨self.cursor, self.replica.buildSnapshot db dedup keys⟩ }
  | receive {index : Nat} {entries : List DedupEntry} {choice : List Bytes}
      {dedup : Iter (reference log index).dedup.entries}
      {keys : Iter (reference log index).keys.val}
      {held : Held} (hnew : self.savedIndex < index) (hahead : self.cursor < index)
      (hlen : index ≤ log.length)
      (hheld : held = ⟨index, (reference log index).buildSnapshot mapDb dedup keys⟩)
      (hfit : held.data.length < 2 ^ 63) :
      Step db log self (.receive index entries choice)
        { self with saved := some held, received := self.received ++ [held] }
  | install {which : Nat} {choice : List Bytes} {held : Held}
      {order : Iter self.replica.keys.val} (hheld : self.received[which]? = some held)
      (hahead : self.cursor < held.index) :
      Step db log self (.install which choice)
        { self with
          replica := self.replica.installSnapshot db order held.data
          cursor := held.index
          boot := none }
  | reload {choice : List Bytes} {held : Held} {order : Iter self.replica.keys.val}
      (hheld : self.boot = some held) :
      Step db log self (.reload choice)
        { self with
          replica := self.replica.installSnapshot db order held.data
          cursor := held.index
          boot := none }
  | crash {next : Host σ} (hnext : hostStep db log self .crash = some next) :
      Step db log self .crash next

theorem hostStep_sound {σ : Type} {db : Db σ} {log : List Command} {host next : Host σ}
    {act : HostAction} (h : hostStep db log host act = some next) :
    Host.Step db log host act next := by
  cases act with
  | apply =>
      obtain ⟨hboot, h⟩ := of_guard h
      obtain ⟨c, hc, heq⟩ := Option.bind_eq_some_iff.mp h
      cases heq
      exact .apply (Option.isNone_iff_eq_none.mp hboot) hc
  | snapshot entries choice =>
      obtain ⟨⟨hboot, hnew⟩, h⟩ := of_guard h
      obtain ⟨dedup, -, h⟩ := Option.bind_eq_some_iff.mp h
      obtain ⟨keys, -, h⟩ := Option.bind_eq_some_iff.mp h
      obtain ⟨hfit, heq⟩ := of_guard h
      cases heq
      exact .snapshot (Option.isNone_iff_eq_none.mp hboot) hnew hfit
  | receive index entries choice =>
      obtain ⟨⟨hnew, hahead, hlen⟩, h⟩ := of_guard h
      obtain ⟨dedup, -, h⟩ := Option.bind_eq_some_iff.mp h
      obtain ⟨keys, -, h⟩ := Option.bind_eq_some_iff.mp h
      obtain ⟨hfit, heq⟩ := of_guard h
      cases heq
      exact .receive hnew hahead hlen rfl hfit
  | install which choice =>
      obtain ⟨held, hheld, h⟩ := Option.bind_eq_some_iff.mp h
      obtain ⟨hahead, h⟩ := of_guard h
      obtain ⟨order, -, heq⟩ := Option.bind_eq_some_iff.mp h
      cases heq
      exact .install hheld hahead
  | reload choice =>
      obtain ⟨held, hheld, h⟩ := Option.bind_eq_some_iff.mp h
      obtain ⟨order, -, heq⟩ := Option.bind_eq_some_iff.mp h
      cases heq
      exact .reload hheld
  | crash => exact .crash h

/-! ## Over the map, a put or a delete overwrites its key -/

/-- The operations other than `Append`. -/
def Command.overwrites (c : Command) : Prop :=
  Op.tryFrom c.op = some .get ∨ Op.tryFrom c.op = some .put ∨ Op.tryFrom c.op = some .delete

instance (c : Command) : Decidable c.overwrites := inferInstanceAs (Decidable (_ ∨ _ ∨ _))

namespace Replica

/-- The value a put or a delete leaves at its key does not depend on the state. -/
theorem run_overwrites {c : Command} (hc : c.overwrites) (hm : c.isMutation = true) :
    ∃ value, ∀ r : Replica (Bytes → Option Bytes),
      r.run mapDb (Op.tryFrom c.op) c = (r.write c.key value, .done) := by
  unfold Command.isMutation at hm
  rcases hc with hop | hop | hop
  · rw [hop] at hm
    cases hm
  · exact ⟨some c.value, fun r => by rw [hop]; rfl⟩
  · exact ⟨none, fun r => by rw [hop]; rfl⟩

section Overwrite

variable {r₀ ref : Replica (Bytes → Option Bytes)} {done : List Command} {c : Command}

/-- An effective one overwrites its key, in every replica with this table alike. -/
theorem apply_effective (h : Tracks mapDb r₀ done ref) (hc : c.overwrites)
    (hyes : isEffective done c = true) :
    ∃ value table, ∀ r : Replica (Bytes → Option Bytes), r.dedup = ref.dedup →
      (r.applyCommitted mapDb c).1 = { r.write c.key value with dedup := table } := by
  have hm := (isEffective_iff.mp hyes).1
  obtain ⟨value, hrun⟩ := run_overwrites hc hm
  by_cases hid : c.clientId = 0
  · refine ⟨value, ref.dedup, fun r hr => ?_⟩
    rw [apply_bypass mapDb (Or.inr hid), hrun, ← hr]
    rfl
  · refine ⟨value, ref.dedup.insert c.clientId { seq := c.seq, outcome := .done }, fun r hr => ?_⟩
    have hfresh := (h.effective_iff hm hid).mp hyes
    rw [← hr] at hfresh
    rw [apply_fresh mapDb hm hid hfresh, runOnce, hrun, ← hr]
    rfl

end Overwrite

end Replica

/-! ## The reference state machine -/

section Reference

variable {log : List Command} {n : Nat}

/-- Entry `i + 1` of the log is a mutation of `key` that reaches the engine. -/
def Hit (log : List Command) (i : Nat) (key : Bytes) : Prop :=
  ∃ c, log[i]? = some c ∧ isEffective (effective [] (log.take i)) c = true ∧ c.key = key

/-- Between two indices a key changes only by a mutation that reaches the engine. -/
theorem reference_frame (hlog : ∀ c ∈ log, c.overwrites) {m : Nat} (hmn : m ≤ n)
    (hn : n ≤ log.length) {key : Bytes} (hno : ∀ i, m ≤ i → i < n → ¬ Hit log i key) :
    (reference log n).store key = (reference log m).store key := by
  induction n, hmn using Nat.le_induction with
  | base => rfl
  | succ n hmn ih =>
      rw [← ih (by omega) fun i hi hin => hno i hi (by omega)]
      have hc : log[n]? = some log[n] := List.getElem?_eq_getElem (by omega)
      rw [reference_succ hc]
      have htr := reference_tracks log n
      cases heff : isEffective (effective [] (log.take n)) log[n] with
      | false => rw [Replica.apply_idle htr heff _ rfl]
      | true =>
          have hne : key ≠ log[n].key := by
            intro hkey
            exact hno n hmn (Nat.lt_succ_self n) ⟨_, hc, heff, hkey.symm⟩
          obtain ⟨value, table, hall⟩ :=
            Replica.apply_effective htr (hlog _ (List.getElem_mem _)) heff
          rw [hall _ rfl]
          exact Function.update_of_ne hne _ _

end Reference

/-! ## Runs in which every leader's snapshot settles -/

section Recovery

variable {σ : Type} (contents : σ → Bytes → Option Bytes) (log : List Command)

/-- Whatever the engine holds outside the directory and outside the image is overwritten again
    between the snapshot and the highest index processed by earlier processes. -/
def Settles (host : Host σ) (held : Held) : Prop :=
  ∀ key, (contents host.replica.store key).isSome → key ∉ host.replica.keys →
    key ∉ (reference log held.index).keys →
      ∃ i, held.index ≤ i ∧ i < host.formerly ∧ Hit log i key

/-- A snapshot whose state was never in this engine settles when it is processed. -/
def Meets (host : Host σ) : HostAction → Prop
  | .install which _ => ∀ held, host.received[which]? = some held → Settles contents log host held
  | .reload _ => ∀ held, host.boot = some held →
      host.settled = true ∨ Settles contents log host held
  | _ => True

/-- The states of a node that began over the engine state `store`, in runs that meet the
    condition. -/
abbrev Lives (db : Db σ) (store : σ) : Host σ → Prop :=
  Within (hostStep db log) (Meets contents log) (.init store)

/-- Captured from the reference state machine at its index. -/
def Genuine (held : Held) : Prop :=
  held.index ≤ log.length ∧ held.data.length < 2 ^ 63 ∧
    ∃ (dedup : Iter (reference log held.index).dedup.entries)
      (keys : Iter (reference log held.index).keys.val),
      held.data = (reference log held.index).buildSnapshot mapDb dedup keys

/-- What the engine holds differs from the reference at `n` only where an entry in between `n` and
    `top` overwrites it. -/
def Clean (top n : Nat) (store : Bytes → Option Bytes) : Prop :=
  ∀ key, store key ≠ (reference log n).store key → ∃ i, n ≤ i ∧ i < top ∧ Hit log i key

/-- Table, directory and the values of its keys are those of the reference at `n`. -/
structure Copies (n : Nat) (r : Replica (Bytes → Option Bytes)) : Prop where
  within : n ≤ log.length
  dedup : r.dedup = (reference log n).dedup
  keys : r.keys = (reference log n).keys
  values : ∀ key ∈ r.keys, r.store key = (reference log n).store key

/-- In addition any other key of the engine is overwritten before `formerly`. -/
structure Shadows (formerly n : Nat) (r : Replica (Bytes → Option Bytes)) : Prop extends
    Copies log n r where
  stale : ∀ key, key ∉ r.keys → (r.store key).isSome →
    ∃ i, n ≤ i ∧ i < formerly ∧ Hit log i key

variable {log} {formerly n : Nat} {r : Replica (Bytes → Option Bytes)}

theorem reference_unlisted {k : Bytes} (h : k ∉ (reference log n).keys) :
    (reference log n).store k = none := by
  rwa [← Option.not_isSome_iff_eq_none, ← reference_listed n k]

/-- A replica that has caught up with its former self holds what the reference holds. -/
theorem Shadows.recovered (h : Shadows log formerly n r) (hn : formerly ≤ n) :
    r.store = (reference log n).store := by
  funext key
  by_cases hk : key ∈ r.keys
  · exact h.values key hk
  · have hnone : r.store key = none := by
      rw [← Option.not_isSome_iff_eq_none]
      intro hsome
      obtain ⟨i, hi, hlt, -⟩ := h.stale key hk hsome
      omega
    rw [hnone, reference_unlisted (h.keys ▸ hk)]

/-- Behind its position the engine is clean. -/
theorem Shadows.clean (h : Shadows log formerly n r) (hlog : ∀ c ∈ log, c.overwrites) {m : Nat}
    (hm : m ≤ n) : Clean log (max formerly n) m r.store := by
  intro key hne
  by_contra hno
  push Not at hno
  have hframe := reference_frame hlog hm h.within fun i hi hlt => hno i hi (by omega)
  by_cases hk : key ∈ r.keys
  · exact hne ((h.values key hk).trans hframe)
  · rw [← hframe, reference_unlisted (h.keys ▸ hk)] at hne
    obtain ⟨i, hi, hlt, hhit⟩ := h.stale key hk (Option.isSome_iff_ne_none.mpr hne)
    exact hno i (by omega) (by omega) hhit

/-- What the next command does to the replica it does to the reference. -/
theorem Copies.apply_cases (h : Copies log n r) (hlog : ∀ c ∈ log, c.overwrites) {c : Command}
    (hc : log[n]? = some c) :
    (isEffective (effective [] (log.take n)) c = false ∧ (r.applyCommitted mapDb c).1 = r ∧
      reference log (n + 1) = reference log n) ∨
    ∃ value table, (r.applyCommitted mapDb c).1 = { r.write c.key value with dedup := table } ∧
      reference log (n + 1) = { (reference log n).write c.key value with dedup := table } := by
  have htr := reference_tracks log n
  rw [reference_succ hc]
  cases heff : isEffective (effective [] (log.take n)) c with
  | false =>
      exact Or.inl ⟨rfl, Replica.apply_idle htr heff _ h.dedup, Replica.apply_idle htr heff _ rfl⟩
  | true =>
      obtain ⟨value, table, hall⟩ :=
        Replica.apply_effective htr (hlog c (List.mem_of_getElem? hc)) heff
      exact Or.inr ⟨value, table, hall _ h.dedup, hall _ rfl⟩

/-- The next command. -/
theorem Copies.apply (h : Copies log n r) (hlog : ∀ c ∈ log, c.overwrites) {c : Command}
    (hc : log[n]? = some c) : Copies log (n + 1) (r.applyCommitted mapDb c).1 := by
  have hlt : n < log.length := (List.getElem?_eq_some_iff.mp hc).1
  rcases h.apply_cases hlog hc with ⟨-, hr, href⟩ | ⟨value, table, hr, href⟩
  · rw [hr]
    exact ⟨hlt, href ▸ h.dedup, href ▸ h.keys, href ▸ h.values⟩
  · rw [hr]
    refine ⟨hlt, by rw [href], ?_, fun key hk => ?_⟩
    · rw [href]
      show (r.write c.key value).keys = ((reference log n).write c.key value).keys
      unfold Replica.write
      rw [h.keys]
    · rw [href]
      by_cases hkey : key = c.key
      · subst hkey
        exact Replica.write_store_self.trans Replica.write_store_self.symm
      · have hk' := (Replica.mem_write_of_ne hkey).mp hk
        exact (Replica.write_store_of_ne hkey).trans
          ((h.values key hk').trans (Replica.write_store_of_ne hkey).symm)

theorem Shadows.apply (h : Shadows log formerly n r) (hlog : ∀ c ∈ log, c.overwrites)
    {c : Command} (hc : log[n]? = some c) :
    Shadows log formerly (n + 1) (r.applyCommitted mapDb c).1 := by
  refine ⟨h.toCopies.apply hlog hc, fun key hk hsome => ?_⟩
  rcases h.apply_cases hlog hc with ⟨heff, hr, -⟩ | ⟨value, table, hr, -⟩
  · rw [hr] at hk hsome
    obtain ⟨i, hi, hif, hhit⟩ := h.stale key hk hsome
    -- The entry just passed does not reach the engine, so it is not the one that overwrites.
    have hne : i ≠ n := by
      rintro rfl
      obtain ⟨d, hd, hdeff, -⟩ := hhit
      rw [hc, Option.some.injEq] at hd
      rw [← hd, heff] at hdeff
      cases hdeff
    exact ⟨i, by omega, hif, hhit⟩
  · rw [hr] at hk hsome
    have hkey : key ≠ c.key := by
      rintro rfl
      have hself : (r.write c.key value).store c.key = value := Replica.write_store_self
      rw [show Replica.store { r.write c.key value with dedup := table } c.key = value
        from hself] at hsome
      exact hk (Replica.mem_write_self.mpr hsome)
    have hold : (r.write c.key value).store key = r.store key := Replica.write_store_of_ne hkey
    rw [show Replica.store { r.write c.key value with dedup := table } key = r.store key
      from hold] at hsome
    obtain ⟨i, hi, hif, hhit⟩ :=
      h.stale key (fun hin => hk ((Replica.mem_write_of_ne hkey).mpr hin)) hsome
    have hne : i ≠ n := by
      rintro rfl
      obtain ⟨d, hd, -, hdkey⟩ := hhit
      rw [hc, Option.some.injEq] at hd
      rw [← hd] at hdkey
      exact hkey hdkey.symm
    exact ⟨i, by omega, hif, hhit⟩

/-- Clear the directory's keys and load the image of the reference at `m`. -/
theorem Copies.install {m : Nat} (hm : m ≤ log.length) (keys : Iter (reference log m).keys.val)
    (store : Bytes → Option Bytes) :
    Copies log m
      ((keys.1.map ((reference log m).imagePair mapDb)).foldl (fun r p => r.write p.1 (some p.2))
        { store, dedup := (reference log m).dedup, keys := ∅ }) := by
  rw [Replica.writes_image]
  have hmem := Replica.mem_order keys
  have hkeys : ∅ ∪ keys.1.toFinset = (reference log m).keys := by
    ext k
    rw [Finset.empty_union, List.mem_toFinset]
    exact hmem k
  refine ⟨hm, rfl, hkeys, fun key hk => ?_⟩
  rw [hkeys] at hk
  have hsome := (reference_listed m key).mp hk
  dsimp only
  rw [if_pos ((hmem key).mpr hk)]
  obtain ⟨v, hv⟩ := Option.isSome_iff_exists.mp hsome
  rw [hv]
  rfl

theorem Shadows.install {m : Nat} (hm : m ≤ log.length) (keys : Iter (reference log m).keys.val)
    (hsettles : ∀ key, (r.store key).isSome → key ∉ r.keys → key ∉ (reference log m).keys →
      ∃ i, m ≤ i ∧ i < formerly ∧ Hit log i key) :
    Shadows log formerly m
      ((keys.1.map ((reference log m).imagePair mapDb)).foldl (fun r p => r.write p.1 (some p.2))
        { store := fun k => if k ∈ r.keys then none else r.store k,
          dedup := (reference log m).dedup, keys := ∅ }) := by
  have hcopies := Copies.install hm keys fun k => if k ∈ r.keys then none else r.store k
  refine ⟨hcopies, fun key hk hsome => ?_⟩
  rw [hcopies.keys] at hk
  rw [Replica.writes_image] at hsome
  dsimp only at hsome
  rw [if_neg fun hin => hk ((Replica.mem_order keys key).mp hin)] at hsome
  split at hsome
  · cases hsome
  · next hout => exact hsettles key hsome hout hk

theorem Copies.start (store : Bytes → Option Bytes) : Copies log 0 (.start store) :=
  ⟨Nat.zero_le _, by rw [reference_zero]; rfl, by rw [reference_zero]; rfl, nofun⟩

theorem Shadows.start {store : Bytes → Option Bytes} (h : Clean log formerly 0 store) :
    Shadows log formerly 0 (.start store) := by
  refine ⟨.start store, fun key _ hsome => h key ?_⟩
  rw [reference_zero]
  exact Option.isSome_iff_ne_none.mp hsome

/-! ## Any run -/

variable (log) in
/-- What a node captures, persists and processes is genuine, whether snapshots settle or not. -/
structure Exact (host : Host σ) : Prop where
  copies : Copies log host.cursor (host.replica.view contents)
  saved : ∀ held, host.saved = some held → Genuine log held
  boot : ∀ held, host.boot = some held → Genuine log held
  received : ∀ held ∈ host.received, Genuine log held

variable {contents} {db : Db σ} {host : Host σ}

theorem Exact.init (store : σ) : Exact contents log (.init store) :=
  ⟨.start _, nofun, nofun, nofun⟩

theorem Genuine.isImage {held : Held} (h : Genuine log held) :
    (reference log held.index).IsImage held.data := by
  obtain ⟨-, hfit, dedup, keys, hdata⟩ := h
  rw [hdata] at hfit ⊢
  exact Replica.buildSnapshot_isImage mapDb_faithful _ dedup keys (Nat.lt_trans hfit (by decide))

/-- What a replica captures that copies the reference is genuine. -/
theorem Copies.genuine {r : Replica σ} (h : Copies log n (r.view contents))
    (hdb : Faithful db contents) (dedup : Iter r.dedup.entries) (keys : Iter r.keys.val)
    (hfit : (r.buildSnapshot db dedup keys).length < 2 ^ 63) :
    Genuine log ⟨n, r.buildSnapshot db dedup keys⟩ := by
  have hdedup : r.dedup = (reference log n).dedup := h.dedup
  have hkeys : r.keys = (reference log n).keys := h.keys
  refine ⟨h.within, hfit, ⟨dedup.1, hdedup ▸ dedup.2⟩, ⟨keys.1, hkeys ▸ keys.2⟩, ?_⟩
  show encodeImage _ _ = encodeImage _ _
  congr 1
  refine List.map_congr_left fun key hk => ?_
  have hvalue : contents r.store key = (reference log n).store key :=
    h.values key ((Replica.mem_order keys key).mp hk)
  unfold Replica.imagePair
  rw [hdb.store_get, mapDb_faithful.store_get, hvalue]

/-- Processing a genuine snapshot. -/
theorem Exact.process (h : Exact contents log host) (hdb : Faithful db contents) {held : Held}
    (hgen : Genuine log held) (order : Iter host.replica.keys.val) :
    Exact contents log { host with
      replica := host.replica.installSnapshot db order held.data
      cursor := held.index
      boot := none } := by
  obtain ⟨keys, hdata⟩ := hgen.isImage
  refine ⟨?_, h.saved, nofun, h.received⟩
  show Copies log held.index ((host.replica.installSnapshot db order held.data).view contents)
  rw [Replica.installSnapshot_view hdb host.replica order hdata]
  exact .install hgen.1 keys _

theorem Exact.step (h : Exact contents log host) (hdb : Faithful db contents)
    (hlog : ∀ c ∈ log, c.overwrites) {act : HostAction} {next : Host σ}
    (hnext : hostStep db log host act = some next) : Exact contents log next := by
  cases hostStep_sound hnext with
  | apply _ hc =>
      refine ⟨?_, h.saved, h.boot, h.received⟩
      have happly := h.copies.apply hlog hc
      rwa [Replica.applyCommitted_view hdb] at happly
  | @snapshot _ _ dedup keys _ _ hfit =>
      refine ⟨h.copies, fun held hheld => ?_, h.boot, h.received⟩
      cases hheld
      exact h.copies.genuine hdb dedup keys hfit
  | @receive index _ _ dedup keys held _ _ hlen hheld hfit =>
      have hgen : Genuine log held := by
        subst hheld
        exact ⟨hlen, hfit, dedup, keys, rfl⟩
      refine ⟨h.copies, fun b hb => ?_, h.boot, fun b hb => ?_⟩
      · cases hb
        exact hgen
      · rcases List.mem_append.mp hb with hold | hnew
        · exact h.received b hold
        · rw [List.mem_singleton.mp hnew]
          exact hgen
  | install hheld => exact h.process hdb (h.received _ (List.mem_of_getElem? hheld)) _
  | reload hheld => exact h.process hdb (h.boot _ hheld) _
  | crash hcrash =>
      cases hcrash
      exact ⟨.start _, h.saved, h.saved, nofun⟩

/-! ## Runs in which snapshots settle -/

variable (contents log) in
/-- In addition, what the engine holds outside the directory is overwritten again. -/
structure Sound (host : Host σ) : Prop extends Exact contents log host where
  stale : ∀ key, key ∉ host.replica.keys → (contents host.replica.store key).isSome →
    ∃ i, host.cursor ≤ i ∧ i < host.formerly ∧ Hit log i key
  settled : ∀ held, host.boot = some held → host.settled = true →
    Clean log host.formerly held.index (contents host.replica.store)

theorem Sound.shadows (h : Sound contents log host) :
    Shadows log host.formerly host.cursor (host.replica.view contents) :=
  ⟨h.copies, h.stale⟩

theorem Sound.init {store : σ} (hempty : contents store = fun _ => none) :
    Sound contents log (.init store) := by
  refine ⟨.init store, fun key _ hsome => ?_, nofun⟩
  rw [show contents (Host.init store).replica.store key = none from congrFun hempty key] at hsome
  cases hsome

theorem Clean.mono {top top' m : Nat} {store : Bytes → Option Bytes} (h : Clean log top m store)
    (hle : top ≤ top') : Clean log top' m store := by
  intro key hne
  obtain ⟨i, hi, hlt, hhit⟩ := h key hne
  exact ⟨i, hi, by omega, hhit⟩

/-- A snapshot whose state was once in the engine settles. -/
theorem Clean.settles {held : Held}
    (h : Clean log host.formerly held.index (contents host.replica.store)) :
    Settles contents log host held := by
  intro key hsome _ hout
  refine h key ?_
  rw [reference_unlisted hout]
  exact Option.isSome_iff_ne_none.mp hsome

/-- Processing a snapshot that settles leaves no key behind for good. -/
theorem Sound.process (h : Sound contents log host) (hdb : Faithful db contents) {held : Held}
    (hgen : Genuine log held) (hsettles : Settles contents log host held)
    (order : Iter host.replica.keys.val) :
    Sound contents log { host with
      replica := host.replica.installSnapshot db order held.data
      cursor := held.index
      boot := none } := by
  have hexact := h.toExact.process hdb hgen order
  obtain ⟨keys, hdata⟩ := hgen.isImage
  have hshadows : Shadows log host.formerly held.index
      ((host.replica.installSnapshot db order held.data).view contents) := by
    rw [Replica.installSnapshot_view hdb host.replica order hdata]
    exact Shadows.install (r := host.replica.view contents) hgen.1 keys hsettles
  exact ⟨hexact, hshadows.stale, nofun⟩

theorem Sound.crash (h : Sound contents log host) (hlog : ∀ c ∈ log, c.overwrites) {next : Host σ}
    (hexact : Exact contents log next) (hnext : hostStep db log host .crash = some next) :
    Sound contents log next := by
  cases hnext
  refine ⟨hexact, (Shadows.start (h.shadows.clean hlog (Nat.zero_le _))).stale, ?_⟩
  intro held hheld hsettled
  have hindex : host.savedIndex = held.index := by
    unfold Host.savedIndex
    rw [show host.saved = some held from hheld]
    rfl
  rw [decide_eq_true_iff, hindex] at hsettled
  rcases hsettled with hle | ⟨hold, hboot⟩
  · exact h.shadows.clean hlog hle
  · -- The process had not begun: the engine is as the one before left it.
    obtain ⟨b, hb, hbi⟩ := Option.map_eq_some_iff.mp hboot
    have hclean := h.settled b hb hold
    rw [hbi] at hclean
    exact hclean.mono (Nat.le_max_left _ _)

theorem Sound.step (h : Sound contents log host) (hdb : Faithful db contents)
    (hlog : ∀ c ∈ log, c.overwrites) {act : HostAction} (hmeets : Meets contents log host act)
    {next : Host σ} (hnext : hostStep db log host act = some next) :
    Sound contents log next := by
  have hexact := h.toExact.step hdb hlog hnext
  cases hostStep_sound hnext with
  | apply hboot hc =>
      have happly := h.shadows.apply hlog hc
      rw [Replica.applyCommitted_view hdb] at happly
      refine ⟨hexact, happly.stale, fun held hheld => ?_⟩
      rw [show host.boot = some held from hheld] at hboot
      cases hboot
  | snapshot | receive => exact ⟨hexact, h.stale, h.settled⟩
  | install hheld =>
      exact h.process hdb (h.received _ (List.mem_of_getElem? hheld)) (hmeets _ hheld) _
  | reload hheld =>
      have hsettles := (hmeets _ hheld).elim (fun hold => (h.settled _ hheld hold).settles) id
      exact h.process hdb (h.boot _ hheld) hsettles _
  | crash hcrash => exact h.crash hlog hexact hcrash

theorem lives_sound (hdb : Faithful db contents) (hlog : ∀ c ∈ log, c.overwrites) {store : σ}
    (hempty : contents store = fun _ => none) (h : Lives contents log db store host) :
    Sound contents log host :=
  h.invariant (fun _ _ _ hs hmeets hnext => hs.step hdb hlog hmeets hnext) (Sound.init hempty)

/-- **Restarts recover.** In a run in which every leader's snapshot settles, a node that has
    processed its stream at least as far as its earlier processes did holds exactly what applying
    the log up to there to an empty replica gives. -/
theorem restart_recovers (hdb : Faithful db contents) (hlog : ∀ c ∈ log, c.overwrites) {store : σ}
    (hempty : contents store = fun _ => none) (hlives : Lives contents log db store host)
    (hn : host.formerly ≤ host.cursor) :
    let replayed := ((Replica.start store).applyAll db (log.take host.cursor)).1
    contents host.replica.store = contents replayed.store ∧
      host.replica.dedup = replayed.dedup ∧ host.replica.keys = replayed.keys ∧
        ∀ key ∉ replayed.keys, contents host.replica.store key = none := by
  intro replayed
  have hsound := lives_sound hdb hlog hempty hlives
  have href : reference log host.cursor = replayed.view contents :=
    congrArg Prod.fst (Replica.history_view hdb hempty (log.take host.cursor))
  have hstore : contents host.replica.store = contents replayed.store := by
    rw [show contents replayed.store = (reference log host.cursor).store by rw [href]; rfl]
    exact hsound.shadows.recovered hn
  have hdedup := hsound.shadows.dedup
  have hkeys := hsound.shadows.keys
  rw [href] at hdedup hkeys
  refine ⟨hstore, hdedup, hkeys, fun key hk => ?_⟩
  have hnone := reference_unlisted (k := key) (href ▸ hk : key ∉ (reference log host.cursor).keys)
  rw [hstore]
  rwa [href] at hnone

/-- A node applies a put, captures it, applies a delete, crashes, and comes back. -/
theorem restart_recovers_reloaded :
    ∃ host : Host (Bytes → Option Bytes),
      Lives (fun s => s) [.put [97] [49] 7 1, .delete [97] 7 2] mapDb (fun _ => none) host ∧
        host.formerly = 2 ∧ host.cursor = 2 ∧ host.replica.store [97] = none := by
  have hlives : Lives (fun s => s) [.put [97] [49] 7 1, .delete [97] 7 2] mapDb (fun _ => none) _ :=
    .step .apply (.step (.reload []) (.step .crash (.step .apply
      (.step (.snapshot [⟨7, ⟨1, .done⟩⟩] [[97]]) (.step .apply .refl trivial rfl) trivial rfl)
      trivial rfl) trivial rfl) (fun _ _ => Or.inl rfl) rfl) trivial rfl
  refine ⟨_, hlives, rfl, rfl, ?_⟩
  exact (restart_recovers mapDb_faithful (by decide) rfl hlives (by decide)).2.2.2 [97] (by decide)

/-- Without the condition a deleted key can survive: a node applies a put and crashes, and the
    leader's snapshot, taken after the delete, is installed over an empty directory. -/
theorem deleted_key_survives :
    ∃ host : Host (Bytes → Option Bytes),
      run (hostStep mapDb [.put [97] [49] 7 1, .delete [97] 7 2]) (.init fun _ => none)
        [.apply, .crash, .receive 2 [⟨7, ⟨2, .done⟩⟩] [], .install 0 []] = some host ∧
      host.formerly = 1 ∧ host.cursor = 2 ∧ host.replica.store [97] = some [49] ∧
        ((Replica.start fun _ => none).applyAll mapDb
          [.put [97] [49] 7 1, .delete [97] 7 2]).1.store [97] = none :=
  ⟨_, rfl, rfl, rfl, rfl, rfl⟩

end Recovery

end Murmur.App
