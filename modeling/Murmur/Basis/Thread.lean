/-
  Threads that share a state through atomic operations.

  * `Thread`: a sequential program cut at its operations: it has returned, or it waits for the
    result of one.
  * `Pool`: the shared state and the threads at work on it. A step lets one thread perform its
    operation, so the runs of a pool are the interleavings of its threads' operations.
  * `Thread.Uses`: which operations a thread may ever perform.
-/
import Mathlib.Data.List.Basic

namespace Murmur.Basis

variable {Op : Type} {Res : Op → Type} {α β σ : Type}

/-- A program over the operations `Op`, of which `op` has a result in `Res op`. -/
inductive Thread (Op : Type) (Res : Op → Type) (α : Type) where
  | done (result : α)
  | call (op : Op) (next : Res op → Thread Op Res α)

namespace Thread

def bind : Thread Op Res α → (α → Thread Op Res β) → Thread Op Res β
  | .done result, f => f result
  | .call op next, f => .call op fun r => (next r).bind f

instance : Monad (Thread Op Res) where
  pure := .done
  bind := bind

/-- Every operation of the thread, whatever the results of those before it, meets `ok`. -/
def Uses (ok : Op → Prop) : Thread Op Res α → Prop
  | .done _ => True
  | .call op next => ok op ∧ ∀ r, (next r).Uses ok

end Thread

/-- Threads at work on a shared state. -/
structure Pool (Op : Type) (Res : Op → Type) (α σ : Type) where
  shared : σ
  threads : List (Thread Op Res α)

namespace Pool

variable {exec : (op : Op) → σ → Res op × σ} {s s' : Pool Op Res α σ} {i j : Nat}

/-- Thread `i` performs its next operation; `none` if it has returned. -/
def step (exec : (op : Op) → σ → Res op × σ) (s : Pool Op Res α σ) (i : Nat) :
    Option (Pool Op Res α σ) :=
  match s.threads[i]? with
  | some (.call op next) =>
    let (result, shared) := exec op s.shared
    some { shared, threads := s.threads.set i (next result) }
  | _ => none

theorem of_step (h : s.step exec i = some s') :
    ∃ op next, s.threads[i]? = some (.call op next) ∧ s'.shared = (exec op s.shared).2 ∧
      s'.threads[i]? = some (next (exec op s.shared).1) ∧
      ∀ j, j ≠ i → s'.threads[j]? = s.threads[j]? := by
  unfold step at h
  split at h
  · next op next hi =>
    cases h
    have hlt := (List.getElem?_eq_some_iff.mp hi).1
    exact ⟨op, next, hi, rfl, List.getElem?_set_self hlt,
      fun j hj => List.getElem?_set_ne (Ne.symm hj)⟩
  · cases h

end Pool

end Murmur.Basis
