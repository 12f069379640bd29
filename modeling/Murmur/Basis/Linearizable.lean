/-
  Linearizability of a history of invocations and responses, with respect to a sequential object.

  * `Object`: a sequential object; `Object.run` is what it answers to a list of operations.
  * `Event`, `Precedes`: histories and their real-time order.
  * `Linearizable`: some operations, all those with a response among them, can be put in one
    order that extends real time and in which the object gives every response.
  * `Linearizable.of_points`: the rule. Give the operations points on the line of natural numbers,
    each where the object does what the operation answered.
-/
import Mathlib.Data.List.Nodup
import Mathlib.Data.List.Range

namespace Murmur.Basis

/-- A sequential object. -/
structure Object (St Op Res : Type) where
  init : St
  apply : St → Op → St × Res

inductive Event (Id Op Res : Type) where
  | invoke (id : Id) (op : Op)
  | respond (id : Id) (res : Res)
  | fail (id : Id)
deriving DecidableEq, Repr

section

variable {Id St Op Res : Type}

namespace Object

/-- The state after some operations, and the answers. -/
def run (obj : Object St Op Res) : St → List (Id × Op) → St × List (Id × Res)
  | s, [] => (s, [])
  | s, (id, op) :: rest =>
    let (s, res) := obj.apply s op
    let (s, answers) := run obj s rest
    (s, (id, res) :: answers)

theorem run_append (obj : Object St Op Res) (s : St) (xs ys : List (Id × Op)) :
    obj.run s (xs ++ ys) = ((obj.run (obj.run s xs).1 ys).1,
      (obj.run s xs).2 ++ (obj.run (obj.run s xs).1 ys).2) := by
  induction xs generalizing s with
  | nil => rfl
  | cons x xs ih =>
      obtain ⟨id, op⟩ := x
      have hrest := ih (obj.apply s op).1
      simp only [List.cons_append, run, hrest]

/-- An answer is that of an operation, in some state. -/
theorem mem_answers {obj : Object St Op Res} {s : St} {xs : List (Id × Op)} {id : Id} {res : Res}
    (h : (id, res) ∈ (obj.run s xs).2) : ∃ t op, (id, op) ∈ xs ∧ (obj.apply t op).2 = res := by
  induction xs generalizing s with
  | nil => cases h
  | cons x xs ih =>
      obtain ⟨id', op⟩ := x
      rcases List.mem_cons.mp h with heq | hrest
      · cases heq
        exact ⟨s, op, List.mem_cons_self, rfl⟩
      · obtain ⟨t, op', hmem, hres⟩ := ih hrest
        exact ⟨t, op', List.mem_cons_of_mem _ hmem, hres⟩

end Object

/-- `a` has its response before `b` is invoked. -/
def Precedes (history : List (Event Id Op Res)) (a b : Id) : Prop :=
  ∃ before after, history = before ++ after ∧ (∃ res, .respond a res ∈ before) ∧
    ∃ op, .invoke b op ∈ after

/-- `order` linearizes the history. -/
structure Linearizes (obj : Object St Op Res) (history : List (Event Id Op Res))
    (order : List (Id × Op)) : Prop where
  once : (order.map Prod.fst).Nodup
  invoked : ∀ x ∈ order, .invoke x.1 x.2 ∈ history
  answers : ∀ id res, .respond id res ∈ history → (id, res) ∈ (obj.run obj.init order).2
  realTime : ∀ x ∈ order, ∀ y ∈ order, Precedes history x.1 y.1 →
    ∃ before after, order = before ++ after ∧ x ∈ before ∧ y ∈ after

def Linearizable (obj : Object St Op Res) (history : List (Event Id Op Res)) : Prop :=
  ∃ order, Linearizes obj history order

/-! ## Points -/

variable {obj : Object St Op Res} {point : Nat → Option (Id × Op)} {state : Nat → St} {n : Nat}

/-- The operations with a point below `n`, in order. -/
def inOrder (point : Nat → Option (Id × Op)) (n : Nat) : List (Id × Op) :=
  (List.range n).filterMap point

theorem mem_inOrder {x : Id × Op} : x ∈ inOrder point n ↔ ∃ i < n, point i = some x := by
  unfold inOrder
  rw [List.mem_filterMap]
  simp only [List.mem_range]

theorem inOrder_succ : inOrder point (n + 1) = inOrder point n ++ (point n).toList := by
  unfold inOrder
  rw [List.range_succ, List.filterMap_append]
  cases hp : point n <;> simp [hp]

theorem inOrder_once
    (h : ∀ i < n, ∀ j < n, ∀ x y, point i = some x → point j = some y → x.1 = y.1 → i = j) :
    ((inOrder point n).map Prod.fst).Nodup := by
  induction n with
  | zero => exact List.nodup_nil
  | succ n ih =>
      have hold := ih fun i hi j hj => h i (by omega) j (by omega)
      rw [inOrder_succ, List.map_append]
      refine List.nodup_append.mpr ⟨hold, by cases point n <;> simp, fun a ha b hb => ?_⟩
      rintro rfl
      -- It would have a point at `n` and one below.
      obtain ⟨x, hx, rfl⟩ := List.mem_map.mp ha
      obtain ⟨y, hy, hxy⟩ := List.mem_map.mp hb
      obtain ⟨i, hi, hpi⟩ := mem_inOrder.mp hx
      have := h i (by omega) n (Nat.lt_succ_self n) x y hpi (Option.mem_toList.mp hy) hxy.symm
      omega

theorem inOrder_split (point : Nat → Option (Id × Op)) {i : Nat} (h : i ≤ n) :
    ∃ after, inOrder point n = inOrder point i ++ after ∧
      ∀ x, (∃ j, i ≤ j ∧ j < n ∧ point j = some x) → x ∈ after := by
  refine ⟨(List.range' i (n - i)).filterMap point, ?_, ?_⟩
  · have hrange : List.range n = List.range i ++ List.range' i (n - i) := by
      obtain ⟨k, rfl⟩ := Nat.exists_eq_add_of_le h
      rw [Nat.add_sub_cancel_left, List.range_add, List.range'_eq_map_range]
    unfold inOrder
    rw [hrange, List.filterMap_append]
  · rintro x ⟨j, hij, hjn, hx⟩
    rw [List.mem_filterMap]
    exact ⟨j, by rw [List.mem_range'_1]; omega, hx⟩

/-- The object goes through the given states, and answers at each point in its state there. -/
theorem run_inOrder (hinit : state 0 = obj.init)
    (hpoint : ∀ i < n, ∀ x, point i = some x → state (i + 1) = (obj.apply (state i) x.2).1)
    (hnone : ∀ i < n, point i = none → state (i + 1) = state i) :
    (obj.run obj.init (inOrder point n)).1 = state n ∧
      ∀ i < n, ∀ x, point i = some x →
        (x.1, (obj.apply (state i) x.2).2) ∈ (obj.run obj.init (inOrder point n)).2 := by
  induction n with
  | zero => exact ⟨hinit.symm, fun i hi => absurd hi (Nat.not_lt_zero i)⟩
  | succ n ih =>
      obtain ⟨hstate, hanswers⟩ := ih (fun i hi => hpoint i (by omega))
        fun i hi => hnone i (by omega)
      rw [inOrder_succ, Object.run_append, hstate]
      cases hp : point n with
      | none =>
          refine ⟨(hnone n (Nat.lt_succ_self n) hp).symm, fun i hi x hx => ?_⟩
          have hne : i ≠ n := by
            rintro rfl
            rw [hp] at hx
            cases hx
          exact List.mem_append_left _ (hanswers i (by omega) x hx)
      | some y =>
          refine ⟨(hpoint n (Nat.lt_succ_self n) y hp).symm, fun i hi x hx => ?_⟩
          by_cases hin : i = n
          · subst hin
            rw [hp] at hx
            cases hx
            exact List.mem_append_right _ List.mem_cons_self
          · exact List.mem_append_left _ (hanswers i (by omega) x hx)

/-- **The rule of points.** -/
theorem Linearizable.of_points {history : List (Event Id Op Res)}
    (point : Nat → Option (Id × Op)) (state : Nat → St) (n : Nat) (hinit : state 0 = obj.init)
    (hpoint : ∀ i < n, ∀ x, point i = some x → state (i + 1) = (obj.apply (state i) x.2).1)
    (hnone : ∀ i < n, point i = none → state (i + 1) = state i)
    (honce : ∀ i < n, ∀ j < n, ∀ x y, point i = some x → point j = some y → x.1 = y.1 → i = j)
    (hinvoked : ∀ i < n, ∀ x, point i = some x → .invoke x.1 x.2 ∈ history)
    (hanswered : ∀ id res, .respond id res ∈ history →
      ∃ i < n, ∃ op, point i = some (id, op) ∧ (obj.apply (state i) op).2 = res)
    (hreal : ∀ i < n, ∀ j < n, ∀ x y, point i = some x → point j = some y →
      Precedes history x.1 y.1 → i < j) : Linearizable obj history := by
  obtain ⟨-, hrun⟩ := run_inOrder hinit hpoint hnone
  refine ⟨inOrder point n, inOrder_once honce, fun x hx => ?_, fun id res hres => ?_,
    fun x hx y hy hxy => ?_⟩
  · obtain ⟨i, hi, hp⟩ := mem_inOrder.mp hx
    exact hinvoked i hi x hp
  · obtain ⟨i, hi, op, hp, rfl⟩ := hanswered id res hres
    exact hrun i hi _ hp
  · obtain ⟨i, hi, hpi⟩ := mem_inOrder.mp hx
    obtain ⟨j, hj, hpj⟩ := mem_inOrder.mp hy
    have hij := hreal i hi j hj x y hpi hpj hxy
    obtain ⟨after, hsplit, hafter⟩ := inOrder_split point (show i + 1 ≤ n by omega)
    exact ⟨inOrder point (i + 1), after, hsplit, mem_inOrder.mpr ⟨i, Nat.lt_succ_self i, hpi⟩,
      hafter y ⟨j, hij, hj, hpj⟩⟩

end

end Murmur.Basis
