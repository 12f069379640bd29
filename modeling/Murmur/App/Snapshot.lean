/-
  `src/app.rs`, snapshots of the state machine: the image format, capture and install.

  * `buildSnapshot`, `decodeSnapshot`: the image and its strict decoder. Hash tables are iterated in
    an arbitrary order, which `Iter` carries.
  * `installSnapshot`: replace the state machine by an image.
  * `snapshot_round_trips`: the decoder undoes the encoder and refuses every proper prefix.
  * `snapshot_equals_replay`: catching up by an image is catching up by replay.
-/
import Murmur.App.Machine
import Murmur.Basis.Bytes
import Mathlib.Data.Finmap

namespace Murmur.App

open Murmur.Raft (Bytes HashMap)
open Murmur.Basis

/-- One iteration order of a hash table with the given elements. -/
abbrev Iter {α : Type} (table : Multiset α) : Type := { l : List α // (l : Multiset α) = table }

/-- An order of iteration, if it is one. -/
def Iter.of {α : Type} [DecidableEq α] (l : List α) (table : Multiset α) : Option (Iter table) :=
  if h : (l : Multiset α) = table then some ⟨l, h⟩ else none

@[simp] theorem Iter.of_order {α : Type} [DecidableEq α] {table : Multiset α} (order : Iter table) :
    Iter.of order.1 table = some order :=
  dif_pos order.2

/-- One record of the dedup table. -/
abbrev DedupEntry := (_ : UInt64) × LastApplied

/-! ## The format -/

def encodeBytes (bytes : Bytes) : Bytes := u64ToLe (UInt64.ofNat bytes.length) ++ bytes

/-- Tag byte and payload of a cached outcome. -/
def encodeOutcome : Outcome → Bytes
  | .done => [0]
  | .value none => [1]
  | .value (some v) => 2 :: encodeBytes v
  | .failed msg => 3 :: encodeBytes (utf8Bytes msg)

def encodeEntry (entry : DedupEntry) : Bytes :=
  u64ToLe entry.1 ++ (u64ToLe entry.2.seq ++ encodeOutcome entry.2.outcome)

def encodePair (pair : Bytes × Bytes) : Bytes := encodeBytes pair.1 ++ encodeBytes pair.2

/-- Two counted sections. -/
def encodeImage (entries : List DedupEntry) (pairs : List (Bytes × Bytes)) : Bytes :=
  u64ToLe (UInt64.ofNat entries.length) ++ (entries.flatMap encodeEntry ++
    (u64ToLe (UInt64.ofNat pairs.length) ++ pairs.flatMap encodePair))

/-- A bounds-checked forward cursor over snapshot bytes. -/
abbrev SnapReader := Reader String

namespace SnapReader

def take (n : Nat) : SnapReader Bytes :=
  Reader.take ("snapshot truncated (wanted " ++ toString n ++ " more bytes)") n

def u64 : SnapReader UInt64 := do
  let bytes ← take 8
  return u64OfLe bytes

def bytes : SnapReader Bytes := do
  let len ← u64
  take len.toNat

def outcome : SnapReader Outcome := do
  let tag ← take 1
  match (tag.headD 0).toNat with
  | 0 => return .done
  | 1 => return .value none
  | 2 => return .value (some (← bytes))
  | 3 => return .failed (fromUtf8Lossy (← bytes))
  | tag => throw ("snapshot: bad outcome tag " ++ toString tag)

/-- One round of the loop over the dedup records. -/
def entry (dedup : HashMap UInt64 LastApplied) : SnapReader (HashMap UInt64 LastApplied) := do
  let clientId ← u64
  let seq ← u64
  let outcome ← outcome
  return dedup.insert clientId { seq, outcome }

/-- One round of the loop over the pairs. -/
def pair (pairs : List (Bytes × Bytes)) : SnapReader (List (Bytes × Bytes)) := do
  let key ← bytes
  let value ← bytes
  return pairs ++ [(key, value)]

/-- The dedup table, then the pairs. -/
def parts : SnapReader (HashMap UInt64 LastApplied × List (Bytes × Bytes)) := do
  let dedupCount ← u64
  let dedup ← Reader.loop entry dedupCount.toNat ∅
  let kvCount ← u64
  let pairs ← Reader.loop pair kvCount.toNat []
  return (dedup, pairs)

end SnapReader

/-- Decode an image into the dedup table and the pairs. Any truncation is an error. -/
def decodeSnapshot (data : Bytes) :
    Except String (HashMap UInt64 LastApplied × List (Bytes × Bytes)) :=
  (SnapReader.parts data).map Prod.fst

namespace Replica

variable {σ : Type} (db : Db σ)

/-- The pair of a key as the image holds it. -/
def imagePair (self : Replica σ) (key : Bytes) : Bytes × Bytes :=
  -- `get(key).ok().flatten().unwrap_or_default()`
  match KvStore.get db self.store key with
  | .ok value => (key, value.getD [])
  | .error _ => (key, [])

/-- Serialize the dedup table and every live pair. -/
def buildSnapshot (self : Replica σ) (dedup : Iter self.dedup.entries)
    (keys : Iter self.keys.val) : Bytes :=
  encodeImage dedup.1 (keys.1.map (self.imagePair db))

/-- Remove every key of the list from the engine, whatever the engine answers. -/
def clear (store : σ) (keys : List Bytes) : σ :=
  keys.foldl (fun store key => (KvStore.delete db store key).2) store

/-- Load one pair of an image. -/
def loadPair (self : Replica σ) (pair : Bytes × Bytes) : Replica σ :=
  { self with
    store := (KvStore.put db self.store pair.1 pair.2).2
    keys := insert pair.1 self.keys }

/-- Replace the state machine by an image; an undecodable one is ignored. -/
def installSnapshot (self : Replica σ) (keys : Iter self.keys.val) (data : Bytes) : Replica σ :=
  match decodeSnapshot data with
  | .error _ => self
  | .ok (dedup, pairs) =>
    let cleared := { self with store := clear db self.store keys.1, keys := ∅ }
    { pairs.foldl (loadPair db) cleared with dedup }

end Replica

/-! ## The decoder undoes the encoder -/

namespace SnapReader

theorem u64_reads (v : UInt64) : Reads u64 (u64ToLe v) v := by
  have h : Reads u64 (u64ToLe v) (u64OfLe (u64ToLe v)) :=
    (Reads.take _ (length_u64ToLe v)).map u64OfLe
  rwa [u64OfLe_u64ToLe] at h

theorem bytes_reads {b : Bytes} (h : b.length < 2 ^ 64) : Reads bytes (encodeBytes b) b := by
  refine (u64_reads _).bind (Reads.take _ ?_)
  rw [UInt64.toNat_ofNat_of_lt' h]

theorem tag_reads (t : UInt8) : Reads (take 1) [t] [t] := Reads.take _ rfl

theorem outcome_reads {o : Outcome} (h : (encodeOutcome o).length < 2 ^ 64) :
    Reads outcome (encodeOutcome o) o := by
  have hlen : ∀ b : Bytes, (encodeBytes b).length + 1 < 2 ^ 64 → b.length < 2 ^ 64 := by
    intro b hb
    rw [encodeBytes, List.length_append] at hb
    omega
  cases o with
  | done => exact (tag_reads 0).bind (Reads.pure _)
  | value v =>
      cases v with
      | none => exact (tag_reads 1).bind (Reads.pure _)
      | some v => exact (tag_reads 2).bind ((bytes_reads (hlen v h)).map _)
  | failed msg =>
      have hmsg := (bytes_reads (hlen _ h)).map fun b => Outcome.failed (fromUtf8Lossy b)
      rw [fromUtf8Lossy_utf8Bytes] at hmsg
      exact (tag_reads 3).bind hmsg

theorem entry_reads (dedup : HashMap UInt64 LastApplied) {e : DedupEntry}
    (h : (encodeEntry e).length < 2 ^ 64) :
    Reads (entry dedup) (encodeEntry e) (dedup.insert e.1 e.2) := by
  have ho : (encodeOutcome e.2.outcome).length < 2 ^ 64 := by
    rw [encodeEntry, List.length_append, List.length_append] at h
    omega
  exact (u64_reads e.1).bind ((u64_reads e.2.seq).bind ((outcome_reads ho).map _))

theorem pair_reads (pairs : List (Bytes × Bytes)) {p : Bytes × Bytes}
    (h : (encodePair p).length < 2 ^ 64) :
    Reads (pair pairs) (encodePair p) (pairs ++ [p]) := by
  rw [encodePair, encodeBytes, encodeBytes] at h
  simp only [List.length_append] at h
  exact (bytes_reads (by omega)).bind ((bytes_reads (by omega)).map _)

end SnapReader

/-- The decoder reads the table, rebuilt in the order of the image, and the pairs. -/
theorem parts_reads (entries : List DedupEntry) (pairs : List (Bytes × Bytes))
    (hfit : (encodeImage entries pairs).length < 2 ^ 64) :
    Reads SnapReader.parts (encodeImage entries pairs)
      (entries.foldl (fun table e => table.insert e.1 e.2) ∅, pairs) := by
  have hlen := hfit
  simp only [encodeImage, List.length_append, length_u64ToLe] at hlen
  -- Every count and every length in the image is below the length of the image.
  have hentry : ∀ e ∈ entries, (encodeEntry e).length < 2 ^ 64 := by
    intro e he
    have := length_le_flatMap encodeEntry he
    omega
  have hpair : ∀ p ∈ pairs, (encodePair p).length < 2 ^ 64 := by
    intro p hp
    have := length_le_flatMap encodePair hp
    omega
  have hcount : entries.length < 2 ^ 64 := by
    have := count_le_flatMap encodeEntry
      (fun e => by rw [encodeEntry, List.length_append, length_u64ToLe]; omega) entries
    omega
  have hpairs : pairs.length < 2 ^ 64 := by
    have := count_le_flatMap encodePair
      (fun p => by
        rw [encodePair, encodeBytes, List.length_append, List.length_append, length_u64ToLe]
        omega) pairs
    omega
  have hloop := Reads.loop entries
    (fun table e he => SnapReader.entry_reads table (hentry e he)) ∅
  have hloop' := Reads.loop pairs
    (fun acc p hp => SnapReader.pair_reads acc (hpair p hp)) []
  rw [foldl_snoc, List.nil_append] at hloop'
  rw [← UInt64.toNat_ofNat_of_lt' hcount] at hloop
  rw [← UInt64.toNat_ofNat_of_lt' hpairs] at hloop'
  exact (SnapReader.u64_reads _).bind (hloop.bind ((SnapReader.u64_reads _).bind (hloop'.map _)))

theorem decode_encodeImage (entries : List DedupEntry) (pairs : List (Bytes × Bytes))
    (hfit : (encodeImage entries pairs).length < 2 ^ 64) :
    decodeSnapshot (encodeImage entries pairs) =
      .ok (entries.foldl (fun table e => table.insert e.1 e.2) ∅, pairs) := by
  unfold decodeSnapshot
  rw [(parts_reads entries pairs hfit).run]
  rfl

/-! ## Truncation -/

namespace SnapReader

theorem u64_confined : Confined u64 := (Confined.take _ 8).bind fun _ => Confined.pure _

theorem bytes_confined : Confined bytes := u64_confined.bind fun _ => Confined.take _ _

theorem outcome_confined : Confined outcome := by
  refine (Confined.take _ 1).bind fun tag => ?_
  split
  · exact Confined.pure _
  · exact Confined.pure _
  · exact bytes_confined.bind fun _ => Confined.pure _
  · exact bytes_confined.bind fun _ => Confined.pure _
  · exact Confined.throw _

theorem entry_confined (dedup : HashMap UInt64 LastApplied) : Confined (entry dedup) :=
  u64_confined.bind fun _ => u64_confined.bind fun _ => outcome_confined.bind fun _ =>
    Confined.pure _

theorem pair_confined (pairs : List (Bytes × Bytes)) : Confined (pair pairs) :=
  bytes_confined.bind fun _ => bytes_confined.bind fun _ => Confined.pure _

theorem parts_confined : Confined parts :=
  u64_confined.bind fun _ => (Confined.loop entry_confined _ _).bind fun _ =>
    u64_confined.bind fun _ => (Confined.loop pair_confined _ _).bind fun _ => Confined.pure _

end SnapReader

/-- An image that is cut short is refused. -/
theorem decode_cut {entries : List DedupEntry} {pairs : List (Bytes × Bytes)}
    (hfit : (encodeImage entries pairs).length < 2 ^ 64) {cut : Bytes}
    (hcut : cut <+: encodeImage entries pairs) (hne : cut ≠ encodeImage entries pairs) :
    ∃ e, decodeSnapshot cut = .error e := by
  obtain ⟨e, he⟩ := (parts_reads entries pairs hfit).strict SnapReader.parts_confined hcut hne
  refine ⟨e, ?_⟩
  unfold decodeSnapshot
  rw [he]
  rfl

/-- Inserting the records of a table one by one, in any order, rebuilds it. -/
theorem rebuild_table {m : HashMap UInt64 LastApplied} (order : Iter m.entries) :
    order.1.foldl (fun table e => table.insert e.1 e.2) ∅ = m := by
  obtain ⟨l, hl⟩ := order
  have hnd : l.NodupKeys := by
    rw [← Multiset.coe_nodupKeys, hl]
    exact m.nodupKeys
  have hfold :
      ∀ (l : List DedupEntry), l.NodupKeys → ∀ (t : HashMap UInt64 LastApplied) (a : UInt64),
      (l.foldl (fun table e => table.insert e.1 e.2) t).lookup a =
        (l.dlookup a).or (t.lookup a) := by
    intro l
    induction l with
    | nil => intro _ t a; rfl
    | cons e l ih =>
        intro hnd t a
        rw [List.nodupKeys_cons] at hnd
        rw [List.foldl_cons, ih hnd.2]
        by_cases ha : a = e.1
        · subst ha
          rw [Finmap.lookup_insert, List.dlookup_eq_none.mpr hnd.1, List.dlookup_cons_eq]
          rfl
        · rw [Finmap.lookup_insert_of_ne _ ha, List.dlookup_cons_ne _ _ ha]
  refine Finmap.ext_lookup fun a => Option.ext fun b => ?_
  rw [hfold l hnd, Finmap.lookup_empty, Option.or_none]
  have hmem : (⟨a, b⟩ : DedupEntry) ∈ l ↔ (⟨a, b⟩ : DedupEntry) ∈ m.entries := by
    rw [← hl, Multiset.mem_coe]
  exact (List.mem_dlookup_iff hnd).trans (hmem.trans Finmap.mem_lookup_iff.symm)

/-! ## The state machine over the map -/

namespace Replica

/-- Write one key of the map, with the directory in step. -/
def write (r : Replica (Bytes → Option Bytes)) (key : Bytes) (value : Option Bytes) :
    Replica (Bytes → Option Bytes) :=
  { r with
    store := Function.update r.store key value
    keys := if value.isSome then insert key r.keys else r.keys.erase key }

section Write

variable {r : Replica (Bytes → Option Bytes)} {k key : Bytes} {value : Option Bytes}

theorem write_store_self : (r.write key value).store key = value := Function.update_self _ _ _

theorem write_store_of_ne (h : k ≠ key) : (r.write key value).store k = r.store k :=
  Function.update_of_ne h _ _

theorem mem_write_self : key ∈ (r.write key value).keys ↔ value.isSome := by
  cases value <;> simp [write]

theorem mem_write_of_ne (h : k ≠ key) : k ∈ (r.write key value).keys ↔ k ∈ r.keys := by
  cases value <;> simp [write, h]

end Write

/-- A command changes nothing but its own key. -/
theorem run_map (r : Replica (Bytes → Option Bytes)) (op : Option Op) (c : Command) :
    (r.run mapDb op c).1 = r ∨ ∃ value, (r.run mapDb op c).1 = r.write c.key value := by
  cases op with
  | none => exact Or.inl rfl
  | some op =>
      cases op with
      | get => exact Or.inl rfl
      | put => exact Or.inr ⟨some c.value, rfl⟩
      | delete => exact Or.inr ⟨none, rfl⟩
      | append => exact Or.inr ⟨some ((r.store c.key).getD [] ++ c.value), rfl⟩

/-- The directory is exactly the domain of the store. -/
def Listed (r : Replica (Bytes → Option Bytes)) : Prop := ∀ k, k ∈ r.keys ↔ (r.store k).isSome

theorem Listed.write {r : Replica (Bytes → Option Bytes)} (h : r.Listed) (key : Bytes)
    (value : Option Bytes) : (r.write key value).Listed := by
  intro k
  by_cases hk : k = key
  · subst hk
    rw [mem_write_self, write_store_self]
  · rw [mem_write_of_ne hk, write_store_of_ne hk]
    exact h k

theorem Listed.dedup {r : Replica (Bytes → Option Bytes)} (h : r.Listed)
    (t : HashMap UInt64 LastApplied) : ({ r with dedup := t } : Replica _).Listed := h

theorem Listed.run {r : Replica (Bytes → Option Bytes)} (h : r.Listed) (op : Option Op)
    (c : Command) : (r.run mapDb op c).1.Listed := by
  rcases run_map r op c with heq | ⟨value, heq⟩
  · rw [heq]; exact h
  · rw [heq]; exact h.write c.key value

theorem Listed.apply {r : Replica (Bytes → Option Bytes)} (h : r.Listed) (c : Command) :
    (r.applyCommitted mapDb c).1.Listed := by
  have honce : (r.runOnce mapDb (Op.tryFrom c.op) c).1.Listed :=
    (h.run (Op.tryFrom c.op) c).dedup _
  unfold applyCommitted
  dsimp only
  split
  · exact h.run _ c
  · split
    · split
      · exact h
      · exact honce
    · exact honce

theorem Listed.applyAll {r : Replica (Bytes → Option Bytes)} (h : r.Listed) (cs : List Command) :
    (r.applyAll mapDb cs).1.Listed := by
  induction cs generalizing r with
  | nil => exact h
  | cons c cs ih => exact ih (h.apply c)

/-! ## Install -/

/-- The state machine an image stands for. -/
def ofImage (dedup : HashMap UInt64 LastApplied) (pairs : List (Bytes × Bytes)) :
    Replica (Bytes → Option Bytes) :=
  pairs.foldl (fun r p => r.write p.1 (some p.2)) { store := fun _ => none, dedup, keys := ∅ }

theorem ofImage_listed (dedup : HashMap UInt64 LastApplied) (pairs : List (Bytes × Bytes)) :
    (ofImage dedup pairs).Listed := by
  have hfold : ∀ r : Replica (Bytes → Option Bytes), r.Listed →
      (pairs.foldl (fun r p => r.write p.1 (some p.2)) r).Listed := by
    induction pairs with
    | nil => intro r h; exact h
    | cons p pairs ih => intro r h; exact ih _ (h.write p.1 (some p.2))
  exact hfold _ fun k => by simp

theorem mem_order {s : Finset Bytes} (keys : Iter s.val) (k : Bytes) : k ∈ keys.1 ↔ k ∈ s := by
  obtain ⟨l, hl⟩ := keys
  show k ∈ l ↔ k ∈ s.val
  rw [← hl, Multiset.mem_coe]

/-- Loading the pairs of an image over any state. -/
theorem writes_image (r r' : Replica (Bytes → Option Bytes)) (l : List Bytes) :
    (l.map (r.imagePair mapDb)).foldl (fun r p => r.write p.1 (some p.2)) r' =
      { r' with
        store := fun k => if k ∈ l then some ((r.store k).getD []) else r'.store k
        keys := r'.keys ∪ l.toFinset } := by
  induction l generalizing r' with
  | nil => simp
  | cons k l ih =>
      have hpair : r.imagePair mapDb k = (k, (r.store k).getD []) := rfl
      rw [List.map_cons, List.foldl_cons, ih, hpair]
      simp only [write, mk.injEq, true_and]
      refine ⟨funext fun x => ?_, ?_⟩
      · by_cases hx : x = k
        · subst hx
          simp
        · simp [hx]
      · ext x
        simp

/-- The image of a replica whose directory is right stands for that replica. -/
theorem ofImage_pairs {r : Replica (Bytes → Option Bytes)} (h : r.Listed)
    (keys : Iter r.keys.val) : ofImage r.dedup (keys.1.map (r.imagePair mapDb)) = r := by
  have hmem := mem_order keys
  unfold ofImage
  rw [writes_image]
  obtain ⟨store, dedup, rkeys⟩ := r
  simp only [mk.injEq, true_and]
  refine ⟨funext fun k => ?_, ?_⟩
  · have hk := (hmem k).trans (h k)
    cases hs : store k with
    | none => simp_all
    | some v => simp_all
  · ext k
    simpa using hmem k

theorem writes_dedup (t : HashMap UInt64 LastApplied) (pairs : List (Bytes × Bytes))
    (r : Replica (Bytes → Option Bytes)) :
    ({ pairs.foldl (fun r p => r.write p.1 (some p.2)) r with dedup := t } : Replica _) =
      pairs.foldl (fun r p => r.write p.1 (some p.2)) { r with dedup := t } := by
  induction pairs generalizing r with
  | nil => rfl
  | cons p pairs ih => exact ih (r.write p.1 (some p.2))

section Faithful

variable {σ : Type} {db : Db σ} {contents : σ → Bytes → Option Bytes}

theorem clear_contents (hdb : Faithful db contents) (store : σ) (keys : List Bytes) :
    contents (clear db store keys) = fun k => if k ∈ keys then none else contents store k := by
  induction keys generalizing store with
  | nil => simp [clear]
  | cons key keys ih =>
      show contents (clear db (KvStore.delete db store key).2 keys) = _
      rw [ih, hdb.store_delete, hdb.delete]
      funext k
      by_cases hk : k = key
      · subst hk
        simp
      · simp [hk]

theorem loadPair_view (hdb : Faithful db contents) (r : Replica σ) (p : Bytes × Bytes) :
    (r.loadPair db p).view contents = (r.view contents).write p.1 (some p.2) := by
  unfold loadPair view write
  rw [hdb.store_put, hdb.put]
  rfl

theorem loadPairs_view (hdb : Faithful db contents) (r : Replica σ) (pairs : List (Bytes × Bytes)) :
    (pairs.foldl (loadPair db) r).view contents =
      pairs.foldl (fun r p => r.write p.1 (some p.2)) (r.view contents) := by
  induction pairs generalizing r with
  | nil => rfl
  | cons p pairs ih => rw [List.foldl_cons, List.foldl_cons, ih, loadPair_view hdb]

/-- Installing an image clears the directory's keys and loads the pairs. -/
theorem installSnapshot_view (hdb : Faithful db contents) (r : Replica σ)
    (keys : Iter r.keys.val) {data : Bytes}
    {dedup : HashMap UInt64 LastApplied} {pairs : List (Bytes × Bytes)}
    (hdata : decodeSnapshot data = .ok (dedup, pairs)) :
    (r.installSnapshot db keys data).view contents =
      pairs.foldl (fun r p => r.write p.1 (some p.2))
        { store := fun k => if k ∈ r.keys then none else contents r.store k, dedup,
          keys := ∅ } := by
  have hcleared : contents (clear db r.store keys.1) =
      fun k => if k ∈ r.keys then none else contents r.store k := by
    rw [clear_contents hdb]
    simp only [mem_order keys]
  have hload := loadPairs_view hdb
    { r with store := clear db r.store keys.1, keys := ∅ } pairs
  have hview : ({ r with store := clear db r.store keys.1, keys := ∅ } : Replica σ).view contents =
      { store := fun k => if k ∈ r.keys then none else contents r.store k,
        dedup := r.dedup, keys := ∅ } := by
    unfold view
    rw [hcleared]
  rw [hview] at hload
  unfold installSnapshot
  rw [hdata]
  calc _ =
      ({ (pairs.foldl (loadPair db)
          { r with store := clear db r.store keys.1, keys := ∅ }).view contents with
        dedup } : Replica (Bytes → Option Bytes)) := rfl
    _ = _ := by rw [hload]; exact writes_dedup dedup pairs _

/-- A replica whose directory is right becomes what the image stands for. -/
theorem installSnapshot_ok (hdb : Faithful db contents) {r : Replica σ}
    (h : (r.view contents).Listed) (keys : Iter r.keys.val) {data : Bytes}
    {dedup : HashMap UInt64 LastApplied} {pairs : List (Bytes × Bytes)}
    (hdata : decodeSnapshot data = .ok (dedup, pairs)) :
    (r.installSnapshot db keys data).view contents = ofImage dedup pairs := by
  have hempty : (fun k => if k ∈ r.keys then none else contents r.store k) = fun _ => none := by
    funext k
    have hk : k ∈ r.keys ↔ (contents r.store k).isSome := h k
    cases hs : contents r.store k with
    | none => exact ite_self _
    | some v => rw [if_pos (hk.mpr (by rw [hs]; rfl))]
  rw [installSnapshot_view hdb r keys hdata, hempty]
  rfl

/-- The states of one process that began over the engine state `store`. -/
inductive Lived (db : Db σ) (store : σ) : Replica σ → Prop where
  | start : Lived db store (.start store)
  | apply (r : Replica σ) (c : Command) :
      Lived db store r → Lived db store (r.applyCommitted db c).1
  | install (r : Replica σ) (keys : Iter r.keys.val) (data : Bytes) :
      Lived db store r → Lived db store (r.installSnapshot db keys data)

theorem start_view {store : σ} (hempty : contents store = fun _ => none) :
    (Replica.start store).view contents = .start fun _ => none := by
  unfold view start
  rw [hempty]

theorem start_listed : (Replica.start (fun _ => none) : Replica (Bytes → Option Bytes)).Listed := by
  intro k
  simp [start]

/-- A history from an empty store, over the map. -/
theorem history_view (hdb : Faithful db contents) {store : σ}
    (hempty : contents store = fun _ => none) (cs : List Command) :
    (Replica.start fun _ => none).applyAll mapDb cs =
      (((Replica.start store).applyAll db cs).1.view contents,
        ((Replica.start store).applyAll db cs).2) := by
  rw [← start_view hempty]
  exact applyAll_view hdb _ cs

theorem installSnapshot_listed (hdb : Faithful db contents) {r : Replica σ}
    (h : (r.view contents).Listed) (keys : Iter r.keys.val) (data : Bytes) :
    ((r.installSnapshot db keys data).view contents).Listed := by
  cases hdata : decodeSnapshot data with
  | error e =>
      unfold installSnapshot
      rw [hdata]
      exact h
  | ok parts =>
      rw [installSnapshot_ok hdb h keys hdata]
      exact ofImage_listed _ _

theorem Lived.listed (hdb : Faithful db contents) {store : σ}
    (hempty : contents store = fun _ => none) {r : Replica σ} (h : Lived db store r) :
    (r.view contents).Listed := by
  induction h with
  | start => rw [start_view hempty]; exact start_listed
  | apply r c _ ih =>
      have := ih.apply c
      rwa [applyCommitted_view hdb] at this
  | install r keys data _ ih => exact installSnapshot_listed hdb ih keys data

/-- `data` is an image of `r`, in some order of its keys. -/
def IsImage (r : Replica (Bytes → Option Bytes)) (data : Bytes) : Prop :=
  ∃ keys : Iter r.keys.val,
    decodeSnapshot data = .ok (r.dedup, keys.1.map (r.imagePair mapDb))

theorem buildSnapshot_isImage (hdb : Faithful db contents) (r : Replica σ)
    (dedup : Iter r.dedup.entries) (keys : Iter r.keys.val)
    (hfit : (r.buildSnapshot db dedup keys).length < 2 ^ 64) :
    (r.view contents).IsImage (r.buildSnapshot db dedup keys) := by
  have hpairs : r.imagePair db = (r.view contents).imagePair mapDb := by
    funext key
    unfold imagePair
    rw [hdb.store_get, mapDb_faithful.store_get]
    rfl
  refine ⟨⟨keys.1, keys.2⟩, ?_⟩
  show decodeSnapshot (encodeImage dedup.1 (keys.1.map (r.imagePair db))) =
    .ok (r.dedup, keys.1.map ((r.view contents).imagePair mapDb))
  rw [decode_encodeImage _ _ hfit, rebuild_table dedup, hpairs]

/-- An image lists every key of the map once, with its value. -/
theorem mem_imagePairs {r : Replica (Bytes → Option Bytes)} (h : r.Listed) (keys : Iter r.keys.val)
    (k v : Bytes) : (k, v) ∈ keys.1.map (r.imagePair mapDb) ↔ r.store k = some v := by
  rw [List.mem_map]
  constructor
  · rintro ⟨key, hkey, hpair⟩
    cases hpair
    obtain ⟨value, hvalue⟩ := Option.isSome_iff_exists.mp ((h k).mp ((mem_order keys k).mp hkey))
    rw [hvalue]
    rfl
  · intro hv
    have hk : k ∈ r.keys := (h k).mpr (by rw [hv]; rfl)
    refine ⟨k, (mem_order keys k).mpr hk, ?_⟩
    show (k, (r.store k).getD []) = (k, v)
    rw [hv]
    rfl

theorem nodup_imagePairs (r : Replica (Bytes → Option Bytes)) (keys : Iter r.keys.val) :
    ((keys.1.map (r.imagePair mapDb)).map Prod.fst).Nodup := by
  have hfst : Prod.fst ∘ r.imagePair mapDb = id := rfl
  rw [List.map_map, hfst, List.map_id, ← Multiset.coe_nodup, keys.2]
  exact r.keys.nodup

/-- **The image format.** Whatever the tables hold and in whatever order they are written, the image
    gives back the dedup table and every pair once; cut short anywhere it is refused, and installing
    it changes nothing. -/
theorem snapshot_round_trips (hdb : Faithful db contents) (r : Replica σ)
    (h : (r.view contents).Listed) (dedup : Iter r.dedup.entries) (keys : Iter r.keys.val)
    (hfit : (r.buildSnapshot db dedup keys).length < 2 ^ 64) :
    let image := r.buildSnapshot db dedup keys
    (∃ pairs, decodeSnapshot image = .ok (r.dedup, pairs) ∧ (pairs.map Prod.fst).Nodup ∧
      ∀ k v, (k, v) ∈ pairs ↔ contents r.store k = some v) ∧
    ∀ cut, cut <+: image → cut ≠ image →
      (∃ e, decodeSnapshot cut = .error e) ∧
      ∀ (target : Replica σ) (order : Iter target.keys.val),
        target.installSnapshot db order cut = target := by
  intro image
  constructor
  · obtain ⟨order, hdecode⟩ := buildSnapshot_isImage hdb r dedup keys hfit
    exact ⟨_, hdecode, nodup_imagePairs _ order, mem_imagePairs h order⟩
  · intro cut hcut hne
    obtain ⟨e, he⟩ := decode_cut hfit hcut hne
    refine ⟨⟨e, he⟩, fun target order => ?_⟩
    unfold installSnapshot
    rw [he]

/-- Two clients and two keys, written in the other order; the image is cut inside its last pair. -/
theorem snapshot_round_trips_cut :
    let r := ((Replica.start fun _ => none).applyAll mapDb
      [.put [97] [49] 7 1, .put [98] [] 8 2]).1
    let image := r.buildSnapshot mapDb ⟨[⟨7, ⟨1, .done⟩⟩, ⟨8, ⟨2, .done⟩⟩], by decide⟩
      ⟨[[97], [98]], by decide⟩
    (∃ pairs, decodeSnapshot image = .ok (r.dedup, pairs) ∧ ([98], []) ∈ pairs) ∧
      r.installSnapshot mapDb ⟨[[97], [98]], by decide⟩ (image.take 80) = r := by
  intro r image
  have h := snapshot_round_trips mapDb_faithful r (start_listed.applyAll _)
    ⟨[⟨7, ⟨1, .done⟩⟩, ⟨8, ⟨2, .done⟩⟩], by decide⟩ ⟨[[97], [98]], by decide⟩ (by decide)
  obtain ⟨⟨pairs, hdecode, -, hmem⟩, hcut⟩ := h
  refine ⟨⟨pairs, hdecode, (hmem [98] []).mpr (by decide)⟩, ?_⟩
  have hpre : image.take 80 <+: image := List.take_prefix 80 _
  exact (hcut _ hpre (by decide)).2 r _

/-- Installing the image of a replica makes its state machine the target's. -/
theorem installSnapshot_isImage (hdb : Faithful db contents) {target : Replica σ}
    (ht : (target.view contents).Listed) (order : Iter target.keys.val)
    {r : Replica (Bytes → Option Bytes)} (hr : r.Listed) {data : Bytes} (hdata : r.IsImage data) :
    (target.installSnapshot db order data).view contents = r := by
  obtain ⟨keys, hdecode⟩ := hdata
  rw [installSnapshot_ok hdb ht order hdecode]
  exact ofImage_pairs hr keys

/-- **Catching up by snapshot equals catching up by replay.** A target in any state of its process
    installs the image of a replica that applied `before`, then applies `after`: it holds what a
    replica holds that applied everything one by one, and answers as that one does. -/
theorem snapshot_equals_replay (hdb : Faithful db contents) {s t u : σ}
    (hs : contents s = fun _ => none) (ht : contents t = fun _ => none)
    (hu : contents u = fun _ => none) (before after : List Command)
    (dedup : Iter ((Replica.start s).applyAll db before).1.dedup.entries)
    (keys : Iter ((Replica.start s).applyAll db before).1.keys.val)
    (hfit : (((Replica.start s).applyAll db before).1.buildSnapshot db dedup keys).length < 2 ^ 64)
    {target : Replica σ} (hlived : Lived db t target) (order : Iter target.keys.val) :
    let image := ((Replica.start s).applyAll db before).1.buildSnapshot db dedup keys
    let caughtUp := (target.installSnapshot db order image).applyAll db after
    let replayed := (Replica.start u).applyAll db (before ++ after)
    contents caughtUp.1.store = contents replayed.1.store ∧
      caughtUp.1.dedup = replayed.1.dedup ∧ caughtUp.1.keys = replayed.1.keys ∧
        caughtUp.2 = replayed.2.drop before.length := by
  intro image caughtUp replayed
  have hbefore := history_view hdb hs before
  have hsource : (((Replica.start s).applyAll db before).1.view contents).Listed := by
    have := start_listed.applyAll before
    rwa [hbefore] at this
  have hinstalled := installSnapshot_isImage hdb (hlived.listed hdb ht) order hsource
    (buildSnapshot_isImage hdb _ dedup keys hfit)
  -- Over the map both runs are the second half of one history.
  have hcaught := applyAll_view hdb (target.installSnapshot db order image) after
  have hreplayed := history_view hdb hu (before ++ after)
  rw [hinstalled] at hcaught
  rw [applyAll_append, hbefore, hcaught, Prod.mk.injEq] at hreplayed
  have hview : caughtUp.1.view contents = replayed.1.view contents := hreplayed.1
  have hlen : ((Replica.start s).applyAll db before).2.length = before.length :=
    applyAll_length db before
  refine ⟨congrArg store hview, congrArg (fun r => r.dedup) hview,
    congrArg (fun r => r.keys) hview, ?_⟩
  show caughtUp.2 = replayed.2.drop before.length
  rw [← hreplayed.2, List.drop_left' hlen]

/-- A target that holds another key installs the image and answers the next append. -/
theorem snapshot_equals_replay_stale :
    let source := ((Replica.start fun _ => none).applyAll mapDb [.put [97] [49] 7 1]).1
    let target := ((Replica.start fun _ => none).applyCommitted mapDb (.put [115] [48] 0 0)).1
    let image := source.buildSnapshot mapDb ⟨[⟨7, ⟨1, .done⟩⟩], rfl⟩ ⟨[[97]], rfl⟩
    ((target.installSnapshot mapDb ⟨[[115]], rfl⟩ image).applyAll mapDb
      [.append [97] [50] 7 2]).2 = [.value (some [49, 50])] := by
  have h := (snapshot_equals_replay mapDb_faithful rfl rfl rfl [.put [97] [49] 7 1]
    [.append [97] [50] 7 2] ⟨[⟨7, ⟨1, .done⟩⟩], rfl⟩ ⟨[[97]], rfl⟩ (by decide)
    (.apply _ (.put [115] [48] 0 0) .start) ⟨[[115]], rfl⟩).2.2.2
  exact h.trans (by decide)

end Faithful

end Replica

end Murmur.App
