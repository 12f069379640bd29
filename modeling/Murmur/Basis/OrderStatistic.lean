/-
  The `k`-th largest element of a multiset, counted from one.

  It is characterised by counting (`le_kthLargest_iff`): a bound is at or below it exactly if `k`
  elements reach the bound. A proof that knows how many elements reach each bound needs nothing else
  about sorting.
-/
import Mathlib.Data.Multiset.Sort

namespace Murmur.Basis

variable {α : Type} [LinearOrder α] {k : Nat} {a b : α}

/-- The `k`-th largest element, if there are as many. -/
def kthLargest (m : Multiset α) (k : Nat) : Option α := (m.sort (· ≥ ·))[k - 1]?

theorem exists_kthLargest {m : Multiset α} (hk : 0 < k) (hcard : k ≤ m.card) :
    ∃ a, kthLargest m k = some a := by
  have hlen : k - 1 < (m.sort (· ≥ ·)).length := by
    rw [Multiset.length_sort]
    omega
  exact ⟨_, List.getElem?_eq_getElem hlen⟩

theorem mem_of_kthLargest {m : Multiset α} (h : kthLargest m k = some a) : a ∈ m :=
  (Multiset.mem_sort _).mp (List.mem_of_getElem? h)

/-- In a descending list the elements that reach a bound are the first ones. -/
theorem le_getElem_iff_countP {l : List α} (hl : l.Pairwise (· ≥ ·)) {i : Nat}
    (h : l[i]? = some a) :
    b ≤ a ↔ i < l.countP (b ≤ ·) := by
  induction l generalizing i with
  | nil => cases h
  | cons x xs ih =>
      obtain ⟨hx, hxs⟩ := List.pairwise_cons.mp hl
      by_cases hb : b ≤ x
      · rw [List.countP_cons_of_pos (by simpa using hb)]
        cases i with
        | zero =>
            cases h
            exact ⟨fun _ => Nat.succ_pos _, fun _ => hb⟩
        | succ i => exact (ih hxs h).trans Nat.succ_lt_succ_iff.symm
      · -- The first element is below the bound, so all are.
        have hall : ∀ y ∈ x :: xs, ¬ b ≤ y := by
          intro y hy hby
          rcases List.mem_cons.mp hy with rfl | hy
          · exact hb hby
          · exact hb (hby.trans (hx y hy))
        have hzero : (x :: xs).countP (b ≤ ·) = 0 :=
          List.countP_eq_zero.mpr fun y hy => by simpa using hall y hy
        rw [hzero]
        exact ⟨fun hba => absurd hba (hall a (List.mem_of_getElem? h)),
          fun hi => absurd hi (by omega)⟩

/-- **Counting.** A bound is at or below the `k`-th largest element exactly if `k` elements reach
    it. -/
theorem le_kthLargest_iff {m : Multiset α} (hk : 0 < k) (h : kthLargest m k = some a) :
    b ≤ a ↔ k ≤ m.countP (b ≤ ·) := by
  have hsorted : (m.sort (· ≥ ·)).Pairwise (· ≥ ·) := Multiset.pairwise_sort m _
  have hcount : m.countP (b ≤ ·) = (m.sort (· ≥ ·)).countP (b ≤ ·) := by
    conv_lhs => rw [← Multiset.sort_eq m (· ≥ ·)]
    exact Multiset.coe_countP _ _
  rw [le_getElem_iff_countP hsorted h, hcount]
  omega

end Murmur.Basis
