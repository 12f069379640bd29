/-
  `src/app.rs`, the replicated state machine: running a command against the engine, and the dedup
  table that makes identified mutations apply once.

  * `Replica`: the engine with the dedup table and the key directory.
  * `Replica.view`: over a faithful engine a replica is one over the plain map.
  * `exactly_once`: over any history from an empty table, the engine sees the effective mutations
    only, no identified one twice, and a repeated request gets the outcome of its first run.
-/
import Murmur.App.Command
import Murmur.App.Store
import Murmur.Raft.Consensus

namespace Murmur.App

open Murmur.Raft (Bytes HashMap)

/-- The result of applying one command. -/
inductive Outcome where
  | value (v : Option Bytes)
  | done
  | failed (msg : String)
deriving DecidableEq, Repr

/-- The last request applied for a client. -/
structure LastApplied where
  seq : UInt64
  outcome : Outcome
deriving DecidableEq, Repr

/-- The state machine: `store`, `dedup` and `keys` of `AppState`. -/
structure Replica (σ : Type) where
  store : σ
  dedup : HashMap UInt64 LastApplied
  keys : Finset Bytes

namespace Replica

variable {σ : Type} (db : Db σ)

/-- A replica that has applied nothing, over the engine state `store`. -/
def start (store : σ) : Replica σ := { store, dedup := ∅, keys := ∅ }

/-- Execute a decoded operation against the engine, keeping the key directory in step. -/
def run (self : Replica σ) (op : Option Op) (command : Command) : Replica σ × Outcome :=
  match op with
  | some .get =>
    match KvStore.get db self.store command.key with
    | .ok value => (self, .value value)
    | .error e => (self, .failed e.toString)
  | some .put =>
    match KvStore.put db self.store command.key command.value with
    | (.ok (), store) => ({ self with store, keys := insert command.key self.keys }, .done)
    | (.error e, store) => ({ self with store }, .failed e.toString)
  | some .delete =>
    match KvStore.delete db self.store command.key with
    | (.ok (), store) => ({ self with store, keys := self.keys.erase command.key }, .done)
    | (.error e, store) => ({ self with store }, .failed e.toString)
  | some .append =>
    match KvStore.get db self.store command.key with
    | .error e => (self, .failed e.toString)
    | .ok v =>
      let value := v.getD [] ++ command.value
      match KvStore.put db self.store command.key value with
      | (.ok (), store) =>
        ({ self with store, keys := insert command.key self.keys }, .value (some value))
      | (.error e, store) => ({ self with store }, .failed e.toString)
  | none => (self, .failed ("unknown op " ++ toString command.op.toInt))

/-- Run an identified mutation and remember its result. -/
def runOnce (self : Replica σ) (op : Option Op) (command : Command) : Replica σ × Outcome :=
  let (self, outcome) := self.run db op command
  ({ self with dedup := self.dedup.insert command.clientId { seq := command.seq, outcome } },
    outcome)

/-- `apply_committed`: consult the dedup table, then run the command. -/
def applyCommitted (self : Replica σ) (command : Command) : Replica σ × Outcome :=
  let op := Op.tryFrom command.op
  -- Reads and unidentified writes bypass the table.
  if !command.isMutation ∨ command.clientId = 0 then
    self.run db op command
  else
    match self.dedup.lookup command.clientId with
    | some last =>
        if command.seq ≤ last.seq then (self, last.outcome) else self.runOnce db op command
    | none => self.runOnce db op command

/-- The state after a history, and the outcomes on the way. -/
def applyAll (self : Replica σ) : List Command → Replica σ × List Outcome
  | [] => (self, [])
  | c :: cs =>
    let (self, outcome) := self.applyCommitted db c
    let (self, outcomes) := applyAll self cs
    (self, outcome :: outcomes)

/-- The engine after running a list of commands one by one, with no table in between. -/
def runAll (self : Replica σ) (cs : List Command) : Replica σ :=
  cs.foldl (fun r c => (r.run db (Op.tryFrom c.op) c).1) self

/-! ## What a command does to the table -/

variable {r : Replica σ} {c d : Command}

/-- The engine does not see the table. -/
theorem run_dedup (t : HashMap UInt64 LastApplied) (op : Option Op) :
    ({ r with dedup := t } : Replica σ).run db op c =
      ({ (r.run db op c).1 with dedup := t }, (r.run db op c).2) := by
  unfold run
  cases op with
  | none => rfl
  | some op =>
      cases op with
      | get => dsimp only; split <;> rfl
      | put => dsimp only; split <;> rfl
      | delete => dsimp only; split <;> rfl
      | append =>
          dsimp only
          split
          · rfl
          · split <;> rfl

theorem run_keeps_dedup (op : Option Op) : (r.run db op c).1.dedup = r.dedup := by
  have h := run_dedup db (r := r) (c := c) r.dedup op
  exact congrArg (fun x => x.1.dedup) h

theorem runOnce_dedup (op : Option Op) : (r.runOnce db op c).1.dedup =
    r.dedup.insert c.clientId { seq := c.seq, outcome := (r.runOnce db op c).2 } := by
  show Finmap.insert c.clientId _ (r.run db op c).1.dedup = _
  rw [run_keeps_dedup]
  rfl

theorem run_read (h : c.isMutation = false) : (r.run db (Op.tryFrom c.op) c).1 = r := by
  unfold Command.isMutation at h
  unfold run
  cases hop : Op.tryFrom c.op with
  | none => rfl
  | some op =>
      rw [hop] at h
      cases op with
      | get => dsimp only; split <;> rfl
      | put | delete | append => cases h

theorem apply_bypass (h : c.isMutation = false ∨ c.clientId = 0) :
    r.applyCommitted db c = r.run db (Op.tryFrom c.op) c := by
  unfold applyCommitted
  dsimp only
  rw [if_pos]
  rcases h with h | h
  · exact Or.inl (by rw [h]; rfl)
  · exact Or.inr h

theorem apply_repeated (hm : c.isMutation = true) (hid : c.clientId ≠ 0) {last : LastApplied}
    (hl : r.dedup.lookup c.clientId = some last) (hle : c.seq ≤ last.seq) :
    r.applyCommitted db c = (r, last.outcome) := by
  unfold applyCommitted
  dsimp only
  rw [if_neg (by simp [hm, hid]), hl]
  dsimp only
  rw [if_pos hle]

theorem apply_fresh (hm : c.isMutation = true) (hid : c.clientId ≠ 0)
    (hl : ∀ last, r.dedup.lookup c.clientId = some last → last.seq < c.seq) :
    r.applyCommitted db c = r.runOnce db (Op.tryFrom c.op) c := by
  unfold applyCommitted
  dsimp only
  rw [if_neg (by simp [hm, hid])]
  cases hk : r.dedup.lookup c.clientId with
  | none => rfl
  | some last =>
      dsimp only
      rw [if_neg (UInt64.not_le.mpr (hl last hk))]

/-- Only a fresh identified mutation writes the table, at its own client. -/
theorem apply_lookup {id : UInt64} {last : LastApplied} (hl : r.dedup.lookup id = some last)
    (hc : c.isMutation = true → c.clientId = id → c.seq ≤ last.seq) :
    (r.applyCommitted db c).1.dedup.lookup id = some last := by
  by_cases hby : c.isMutation = false ∨ c.clientId = 0
  · rw [apply_bypass db hby, run_keeps_dedup]
    exact hl
  · push Not at hby
    have hm : c.isMutation = true := by simpa using hby.1
    by_cases hsame : c.clientId = id
    · have hrep := apply_repeated db hm hby.2 (hsame ▸ hl) (hc hm hsame)
      rw [hrep]
      exact hl
    · unfold applyCommitted
      dsimp only
      rw [if_neg (by simp [hm, hby.2])]
      have hother : (r.runOnce db (Op.tryFrom c.op) c).1.dedup.lookup id = some last := by
        rw [runOnce_dedup, Finmap.lookup_insert_of_ne _ (Ne.symm hsame)]
        exact hl
      split
      · split
        · exact hl
        · exact hother
      · exact hother

theorem applyAll_append (cs ds : List Command) :
    r.applyAll db (cs ++ ds) = (((r.applyAll db cs).1.applyAll db ds).1,
      (r.applyAll db cs).2 ++ ((r.applyAll db cs).1.applyAll db ds).2) := by
  induction cs generalizing r with
  | nil => rfl
  | cons c cs ih =>
      have h := ih (r := (r.applyCommitted db c).1)
      show (((r.applyCommitted db c).1.applyAll db (cs ++ ds)).1,
        (r.applyCommitted db c).2 :: ((r.applyCommitted db c).1.applyAll db (cs ++ ds)).2) = _
      rw [h]
      rfl

theorem applyAll_length (cs : List Command) : (r.applyAll db cs).2.length = cs.length := by
  induction cs generalizing r with
  | nil => rfl
  | cons c cs ih => exact congrArg (· + 1) ih

theorem applyAll_lookup {id : UInt64} {last : LastApplied} {cs : List Command}
    (hl : r.dedup.lookup id = some last)
    (hcs : ∀ c ∈ cs, c.isMutation = true → c.clientId = id → c.seq ≤ last.seq) :
    (r.applyAll db cs).1.dedup.lookup id = some last := by
  induction cs generalizing r with
  | nil => exact hl
  | cons c cs ih =>
      exact ih (apply_lookup db hl (hcs c (by simp))) fun d hd => hcs d (by simp [hd])

/-! ## A faithful engine is a map -/

/-- What a replica holds, with the engine read as the map it stands for. -/
def view (contents : σ → Bytes → Option Bytes) (r : Replica σ) :
    Replica (Bytes → Option Bytes) :=
  { store := contents r.store, dedup := r.dedup, keys := r.keys }

section View

variable {db} {contents : σ → Bytes → Option Bytes}

theorem run_view (h : Faithful db contents) (r : Replica σ) (op : Option Op) (c : Command) :
    (r.view contents).run mapDb op c =
      ((r.run db op c).1.view contents, (r.run db op c).2) := by
  unfold run
  cases op with
  | none => rfl
  | some op =>
      cases op with
      | get =>
          dsimp only
          rw [h.store_get, mapDb_faithful.store_get]
          rfl
      | put =>
          dsimp only
          rw [h.store_put, mapDb_faithful.store_put]
          simp only [view, h.put]
          rfl
      | delete =>
          dsimp only
          rw [h.store_delete, mapDb_faithful.store_delete]
          simp only [view, h.delete]
          rfl
      | append =>
          dsimp only
          rw [h.store_get, mapDb_faithful.store_get]
          dsimp only
          rw [h.store_put, mapDb_faithful.store_put]
          simp only [view, h.put]
          rfl

/-- Applying a command to a faithful engine is applying it to the map. -/
theorem applyCommitted_view (h : Faithful db contents) (r : Replica σ) (c : Command) :
    (r.view contents).applyCommitted mapDb c =
      ((r.applyCommitted db c).1.view contents, (r.applyCommitted db c).2) := by
  have hrun := run_view h r (Op.tryFrom c.op) c
  have honce : (r.view contents).runOnce mapDb (Op.tryFrom c.op) c =
      ((r.runOnce db (Op.tryFrom c.op) c).1.view contents,
        (r.runOnce db (Op.tryFrom c.op) c).2) := by
    unfold runOnce
    rw [hrun]
    rfl
  have hlook : (r.view contents).dedup = r.dedup := rfl
  unfold applyCommitted
  dsimp only
  rw [hrun, honce, hlook]
  split
  · rfl
  · split
    · split <;> rfl
    · rfl

theorem applyAll_view (h : Faithful db contents) (r : Replica σ) (cs : List Command) :
    (r.view contents).applyAll mapDb cs =
      ((r.applyAll db cs).1.view contents, (r.applyAll db cs).2) := by
  induction cs generalizing r with
  | nil => rfl
  | cons c cs ih =>
      have hc := applyCommitted_view h r c
      have hcs := ih (r.applyCommitted db c).1
      unfold applyAll
      rw [hc]
      dsimp only
      rw [hcs]

end View

end Replica

/-! ## Exactly once -/

/-- A mutation takes effect if it is unidentified, or if its seq is above every seq applied before
    for its client; `done` are the mutations that took effect. -/
def isEffective (done : List Command) (c : Command) : Bool :=
  c.isMutation ∧ (c.clientId = 0 ∨ ∀ d ∈ done, d.clientId = c.clientId → d.seq < c.seq)

theorem isEffective_iff {done : List Command} {c : Command} : isEffective done c = true ↔
    c.isMutation = true ∧
      (c.clientId = 0 ∨ ∀ d ∈ done, d.clientId = c.clientId → d.seq < c.seq) := by
  unfold isEffective
  rw [decide_eq_true_iff]

/-- The effective mutations of a history, in order, after those in `done`. -/
def effective (done : List Command) : List Command → List Command
  | [] => done
  | c :: cs => effective (if isEffective done c then done ++ [c] else done) cs

/-- The table of `r` is the record of `done`, and the engine has run `done` and nothing else. -/
structure Tracks {σ : Type} (db : Db σ) (r₀ : Replica σ) (done : List Command) (r : Replica σ) :
    Prop where
  engine : r = { r₀.runAll db done with dedup := r.dedup }
  absent : ∀ {id}, id ≠ 0 → r.dedup.lookup id = none → ∀ d ∈ done, d.clientId ≠ id
  present : ∀ {id last}, id ≠ 0 → r.dedup.lookup id = some last →
    (∃ d ∈ done, d.clientId = id ∧ d.seq = last.seq) ∧
      ∀ d ∈ done, d.clientId = id → d.seq ≤ last.seq

section ExactlyOnce

variable {σ : Type} {db : Db σ} {r₀ r : Replica σ} {done : List Command} {c : Command}

open Replica

theorem Tracks.start (db : Db σ) (store : σ) :
    Tracks db (.start store) [] (.start store) :=
  ⟨rfl, fun _ _ => nofun, fun _ h => absurd h (by simp [Replica.start, Finmap.lookup_empty])⟩

/-- Running one more command on an engine that has run `done`. -/
theorem Tracks.run_engine (h : Tracks db r₀ done r) (t : HashMap UInt64 LastApplied) :
    ({ (r.run db (Op.tryFrom c.op) c).1 with dedup := t } : Replica σ) =
      { r₀.runAll db (done ++ [c]) with dedup := t } := by
  have hrun := run_dedup db (r := r₀.runAll db done) (c := c) r.dedup (Op.tryFrom c.op)
  rw [← h.engine] at hrun
  rw [hrun]
  unfold runAll
  rw [List.foldl_append]
  rfl

/-- The table decides as `isEffective` does. -/
theorem Tracks.effective_iff (h : Tracks db r₀ done r) (hm : c.isMutation = true)
    (hid : c.clientId ≠ 0) : isEffective done c = true ↔
      ∀ last, r.dedup.lookup c.clientId = some last → last.seq < c.seq := by
  rw [isEffective_iff]
  constructor
  · rintro ⟨-, hc⟩ last hl
    obtain ⟨⟨d, hd, hdc, hseq⟩, -⟩ := h.present hid hl
    rw [← hseq]
    exact (hc.resolve_left hid) d hd hdc
  · intro hall
    refine ⟨hm, Or.inr fun d hd hdc => ?_⟩
    cases hl : r.dedup.lookup c.clientId with
    | none => exact absurd hdc (h.absent hid hl d hd)
    | some last => exact UInt64.lt_of_le_of_lt ((h.present hid hl).2 d hd hdc) (hall last hl)

theorem Tracks.record (h : Tracks db r₀ done r)
    (hgt : ∀ d ∈ done, d.clientId = c.clientId → d.seq < c.seq) :
    Tracks db r₀ (done ++ [c]) (r.runOnce db (Op.tryFrom c.op) c).1 := by
  refine ⟨h.run_engine _, fun {id} hne hl d hd => ?_, fun {id last} hne hl => ?_⟩
  · rw [runOnce_dedup] at hl
    by_cases hsame : id = c.clientId
    · subst hsame
      rw [Finmap.lookup_insert] at hl
      cases hl
    · rw [Finmap.lookup_insert_of_ne _ hsame] at hl
      rcases List.mem_append.mp hd with hold | hnew
      · exact h.absent hne hl d hold
      · rw [List.mem_singleton.mp hnew]
        exact Ne.symm hsame
  · rw [runOnce_dedup] at hl
    by_cases hsame : id = c.clientId
    · subst hsame
      rw [Finmap.lookup_insert] at hl
      cases hl
      refine ⟨⟨c, by simp, rfl, rfl⟩, fun d hd hdc => ?_⟩
      rcases List.mem_append.mp hd with hold | hnew
      · exact UInt64.le_of_lt (hgt d hold hdc)
      · rw [List.mem_singleton.mp hnew]
        exact UInt64.le_refl _
    · rw [Finmap.lookup_insert_of_ne _ hsame] at hl
      obtain ⟨⟨d, hd, hdc⟩, hall⟩ := h.present hne hl
      refine ⟨⟨d, by simp [hd], hdc⟩, fun e he hec => ?_⟩
      rcases List.mem_append.mp he with hold | hnew
      · exact hall e hold hec
      · rw [List.mem_singleton.mp hnew] at hec
        exact absurd hec.symm hsame

/-- One command. -/
theorem Tracks.step (h : Tracks db r₀ done r) (c : Command) :
    Tracks db r₀ (if isEffective done c then done ++ [c] else done) (r.applyCommitted db c).1 := by
  cases hm : c.isMutation with
  | false =>
      have hno : isEffective done c = false := by simp [isEffective, hm]
      rw [apply_bypass db (Or.inl hm), run_read db hm, hno]
      exact h
  | true =>
      by_cases hid : c.clientId = 0
      · have hyes : isEffective done c = true := by simp [isEffective, hm, hid]
        rw [apply_bypass db (Or.inr hid), hyes, if_pos rfl]
        refine ⟨?_, fun hne hl d hd => ?_, fun hne hl => ?_⟩
        · rw [run_keeps_dedup]
          have := h.run_engine (c := c) r.dedup
          rw [← this]
          have hk := run_keeps_dedup db (r := r) (c := c) (Op.tryFrom c.op)
          rw [← hk]
        · rw [run_keeps_dedup] at hl
          rcases List.mem_append.mp hd with hold | hnew
          · exact h.absent hne hl d hold
          · rw [List.mem_singleton.mp hnew, hid]
            exact Ne.symm hne
        · rw [run_keeps_dedup] at hl
          obtain ⟨⟨d, hd, hdc⟩, hall⟩ := h.present hne hl
          refine ⟨⟨d, by simp [hd], hdc⟩, fun e he hec => ?_⟩
          rcases List.mem_append.mp he with hold | hnew
          · exact hall e hold hec
          · rw [List.mem_singleton.mp hnew, hid] at hec
            exact absurd hec.symm hne
      · have hiff := h.effective_iff hm hid
        by_cases heff : isEffective done c = true
        · rw [apply_fresh db hm hid (hiff.mp heff), if_pos heff]
          exact h.record ((isEffective_iff.mp heff).2.resolve_left hid)
        · rw [if_neg heff]
          have hex : ¬ ∀ last, r.dedup.lookup c.clientId = some last → last.seq < c.seq :=
            fun hall => heff (hiff.mpr hall)
          push Not at hex
          obtain ⟨last, hl, hle⟩ := hex
          rw [apply_repeated db hm hid hl (UInt64.not_lt.mp hle)]
          exact h

/-- A whole history. -/
theorem Tracks.run (h : Tracks db r₀ done r) (cs : List Command) :
    Tracks db r₀ (effective done cs) (r.applyAll db cs).1 := by
  induction cs generalizing r done with
  | nil => exact h
  | cons c cs ih => exact ih (h.step c)

/-- Effective mutations of one client have increasing seqs. -/
theorem effective_increasing (cs : List Command)
    (h : done.Pairwise fun c d => c.clientId ≠ 0 → c.clientId = d.clientId → c.seq < d.seq) :
    (effective done cs).Pairwise
      fun c d => c.clientId ≠ 0 → c.clientId = d.clientId → c.seq < d.seq := by
  induction cs generalizing done with
  | nil => exact h
  | cons c cs ih =>
      refine ih ?_
      split
      · next heff =>
        have hc := isEffective_iff.mp heff
        refine List.pairwise_append.mpr ⟨h, List.pairwise_singleton _ _,
          fun d hd e he hne hde => ?_⟩
        rw [List.mem_singleton.mp he] at hde ⊢
        exact (hc.2.resolve_left fun h0 => hne (hde.trans h0)) d hd hde
      · exact h

/-- **Exactly once.** A history applied to an empty table over any engine leaves the engine as
    running the effective mutations does; no identified mutation is among them twice; and a
    mutation with the seq last applied for its client gets the outcome that had. -/
theorem exactly_once (db : Db σ) (store : σ) :
    (∀ cs : List Command, ((Replica.start store).applyAll db cs).1.store =
      ((Replica.start store).runAll db (effective [] cs)).store) ∧
    (∀ cs : List Command, (effective [] cs).Pairwise
      fun c d => c.clientId ≠ 0 → (c.clientId, c.seq) ≠ (d.clientId, d.seq)) ∧
    ∀ (before between : List Command) (c d : Command),
      c.clientId ≠ 0 → isEffective (effective [] before) c = true →
      (∀ e ∈ between, e.isMutation = true → e.clientId = c.clientId → e.seq ≤ c.seq) →
      d.isMutation = true → d.clientId = c.clientId → d.seq = c.seq →
      (((Replica.start store).applyAll db (before ++ c :: between)).1.applyCommitted db d).2 =
        (((Replica.start store).applyAll db before).1.applyCommitted db c).2 := by
  refine ⟨fun cs => ?_, fun cs => ?_, fun before between c d hid heff hbetween hd hdc hseq => ?_⟩
  · rw [((Tracks.start db store).run cs).engine]
  · refine (effective_increasing cs List.Pairwise.nil).imp fun {c d} h hne heq => ?_
    have hlt := h hne (congrArg Prod.fst heq)
    have hseq : c.seq = d.seq := congrArg Prod.snd heq
    rw [hseq] at hlt
    exact UInt64.lt_irrefl _ hlt
  · have htr := (Tracks.start db store).run before
    have hm := (isEffective_iff.mp heff).1
    have hc := apply_fresh db hm hid ((htr.effective_iff hm hid).mp heff)
    rw [applyAll_append]
    generalize ((Replica.start store).applyAll db before).1 = r at hc ⊢
    -- The table now has the outcome of `c`, and nothing in between replaces it.
    have hl : (r.applyCommitted db c).1.dedup.lookup c.clientId =
        some { seq := c.seq, outcome := (r.applyCommitted db c).2 } := by
      rw [hc, runOnce_dedup]
      exact Finmap.lookup_insert _
    have hkept := applyAll_lookup db hl hbetween
    have hrep := apply_repeated db (c := d) hd (by rw [hdc]; exact hid)
      (by rw [hdc]; exact hkept) (by rw [hseq]; exact UInt64.le_refl _)
    show (((r.applyCommitted db c).1.applyAll db between).1.applyCommitted db d).2 = _
    rw [hrep]

/-- Client 42 appends, client 7 writes the same key, and the append is retried. -/
theorem exactly_once_retried :
    isEffective (effective [] []) (.append [107] [97] 42 1) = true ∧
    (((Replica.start fun _ => none).applyAll mapDb
      [.append [107] [97] 42 1, .put [107] [98] 7 1]).1.applyCommitted mapDb
        (.append [107] [97] 42 1)).2 = .value (some [97]) := by
  refine ⟨by decide, ?_⟩
  rw [show ([.append [107] [97] 42 1, .put [107] [98] 7 1] : List Command) =
    [] ++ .append [107] [97] 42 1 :: [.put [107] [98] 7 1] from rfl]
  rw [(exactly_once mapDb fun _ => none).2.2 [] [.put [107] [98] 7 1] (.append [107] [97] 42 1)
    (.append [107] [97] 42 1) (by decide) (by decide) (by decide) (by decide) rfl rfl]
  decide

end ExactlyOnce

end Murmur.App
