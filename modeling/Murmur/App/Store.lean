/-
  `src/store.rs`: the local store, a thin wrapper around the Sable engine.

  Sable is not part of the repository: `Db` is a parameter, the operations the wrapper calls over
  an arbitrary engine state. `Faithful` is what is assumed of it where a result needs it: it is
  an error-free map from byte strings to byte strings. `Honest` is the same for an engine that may
  fail. `mapDb` is the plain map itself.
-/
import Murmur.Raft.Types
import Mathlib.Logic.Function.Basic

namespace Murmur.App

open Murmur.Raft (Bytes)

/-- `sable::Db` over the engine state `σ`; errors are their texts. -/
structure Db (σ : Type) where
  get : σ → Bytes → Except String (Option Bytes)
  put : σ → Bytes → Bytes → Except String Unit × σ
  delete : σ → Bytes → Except String Unit × σ

/-- `StoreError::Engine`, the one error of the store. -/
structure StoreError where
  engine : String

/-- The error as it is displayed. -/
def StoreError.toString (e : StoreError) : String := "sable engine error: " ++ e.engine

namespace KvStore

variable {σ : Type} (db : Db σ)

def get (store : σ) (key : Bytes) : Except StoreError (Option Bytes) :=
  (db.get store key).mapError StoreError.mk

def put (store : σ) (key value : Bytes) : Except StoreError Unit × σ :=
  let (result, store) := db.put store key value
  (result.mapError StoreError.mk, store)

def delete (store : σ) (key : Bytes) : Except StoreError Unit × σ :=
  let (result, store) := db.delete store key
  (result.mapError StoreError.mk, store)

end KvStore

/-- The engine is a faithful error-free map; `contents` is the map it stands for. -/
structure Faithful {σ : Type} (db : Db σ) (contents : σ → Bytes → Option Bytes) : Prop where
  get : ∀ s k, db.get s k = .ok (contents s k)
  put_ok : ∀ s k v, (db.put s k v).1 = .ok ()
  put : ∀ s k v, contents (db.put s k v).2 = Function.update (contents s) k (some v)
  delete_ok : ∀ s k, (db.delete s k).1 = .ok ()
  delete : ∀ s k, contents (db.delete s k).2 = Function.update (contents s) k none

/-- The engine may fail, and then changes nothing; where it succeeds it is the map it stands for. -/
structure Honest {σ : Type} (db : Db σ) (contents : σ → Bytes → Option Bytes) : Prop where
  get : ∀ {s k found}, db.get s k = .ok found → found = contents s k
  put : ∀ {s k v}, (db.put s k v).1 = .ok () →
    contents (db.put s k v).2 = Function.update (contents s) k (some v)
  put_error : ∀ {s k v e}, (db.put s k v).1 = .error e → contents (db.put s k v).2 = contents s
  delete : ∀ {s k}, (db.delete s k).1 = .ok () →
    contents (db.delete s k).2 = Function.update (contents s) k none
  delete_error : ∀ {s k e}, (db.delete s k).1 = .error e →
    contents (db.delete s k).2 = contents s

/-- The plain map as an engine. -/
def mapDb : Db (Bytes → Option Bytes) where
  get s k := .ok (s k)
  put s k v := (.ok (), Function.update s k (some v))
  delete s k := (.ok (), Function.update s k none)

theorem mapDb_faithful : Faithful mapDb fun s => s :=
  ⟨fun _ _ => rfl, fun _ _ _ => rfl, fun _ _ _ => rfl, fun _ _ => rfl, fun _ _ => rfl⟩

namespace Faithful

variable {σ : Type} {db : Db σ} {contents : σ → Bytes → Option Bytes}

theorem store_get (h : Faithful db contents) (s : σ) (k : Bytes) :
    KvStore.get db s k = .ok (contents s k) := by
  unfold KvStore.get
  rw [h.get]
  rfl

theorem store_put (h : Faithful db contents) (s : σ) (k v : Bytes) :
    KvStore.put db s k v = (.ok (), (db.put s k v).2) := by
  show ((db.put s k v).1.mapError StoreError.mk, (db.put s k v).2) = _
  rw [h.put_ok]
  rfl

theorem store_delete (h : Faithful db contents) (s : σ) (k : Bytes) :
    KvStore.delete db s k = (.ok (), (db.delete s k).2) := by
  show ((db.delete s k).1.mapError StoreError.mk, (db.delete s k).2) = _
  rw [h.delete_ok]
  rfl

theorem honest (h : Faithful db contents) : Honest db contents where
  get {s k found} hget := by
    rw [h.get] at hget
    exact (Except.ok.inj hget).symm
  put _ := h.put _ _ _
  put_error herr := by
    rw [h.put_ok] at herr
    cases herr
  delete _ := h.delete _ _
  delete_error herr := by
    rw [h.delete_ok] at herr
    cases herr

end Faithful

namespace Honest

variable {σ : Type} {db : Db σ} {contents : σ → Bytes → Option Bytes}

theorem store_get (h : Honest db contents) {s : σ} {k : Bytes} {found : Option Bytes}
    (hget : KvStore.get db s k = .ok found) : found = contents s k := by
  have hget : (db.get s k).mapError StoreError.mk = .ok found := hget
  cases hres : db.get s k with
  | ok found' =>
      rw [hres] at hget
      rw [← Except.ok.inj hget]
      exact h.get hres
  | error e =>
      rw [hres] at hget
      cases hget

theorem store_put (h : Honest db contents) (s : σ) (k v : Bytes) :
    ((KvStore.put db s k v).1 = .ok () ∧
      contents (KvStore.put db s k v).2 = Function.update (contents s) k (some v)) ∨
    ((∃ e, (KvStore.put db s k v).1 = .error e) ∧
      contents (KvStore.put db s k v).2 = contents s) := by
  show ((db.put s k v).1.mapError StoreError.mk = _ ∧ contents (db.put s k v).2 = _) ∨
    ((∃ e, (db.put s k v).1.mapError StoreError.mk = _) ∧ contents (db.put s k v).2 = _)
  cases hres : (db.put s k v).1 with
  | ok _ => exact Or.inl ⟨rfl, h.put hres⟩
  | error e => exact Or.inr ⟨⟨⟨e⟩, rfl⟩, h.put_error hres⟩

theorem store_delete (h : Honest db contents) (s : σ) (k : Bytes) :
    ((KvStore.delete db s k).1 = .ok () ∧
      contents (KvStore.delete db s k).2 = Function.update (contents s) k none) ∨
    ((∃ e, (KvStore.delete db s k).1 = .error e) ∧
      contents (KvStore.delete db s k).2 = contents s) := by
  show ((db.delete s k).1.mapError StoreError.mk = _ ∧ contents (db.delete s k).2 = _) ∨
    ((∃ e, (db.delete s k).1.mapError StoreError.mk = _) ∧ contents (db.delete s k).2 = _)
  cases hres : (db.delete s k).1 with
  | ok _ => exact Or.inl ⟨rfl, h.delete hres⟩
  | error e => exact Or.inr ⟨⟨⟨e⟩, rfl⟩, h.delete_error hres⟩

end Honest

end Murmur.App
