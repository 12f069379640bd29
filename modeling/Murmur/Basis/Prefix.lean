/-
  Facts about list prefixes and positions that the proofs rest on, beyond those of the library.

  `adopt m l` is how a replica takes over a list `m`: it keeps its own list if `m` is
  already a prefix of it and replaces it by `m` otherwise. `adopt_keeps` is the reason
  this never loses anything: whatever both `l` begins with and `m` is comparable to survives.
-/
import Mathlib.Data.List.Infix

namespace Murmur.Basis

variable {α : Type}

/-- Two prefixes of one list, the shorter first. -/
theorem take_le_of_pre {l m : List α} {k : Nat} (h : l.take k <+: m) {j : Nat} (hj : j ≤ k) :
    l.take j <+: m :=
  (List.take_prefix_take_left hj).trans h

theorem getElem?_of_pre {l m : List α} (h : l <+: m) {i : Nat} {a : α} (ha : l[i]? = some a) :
    m[i]? = some a := by
  obtain ⟨t, rfl⟩ := h
  have hi : i < l.length := (List.getElem?_eq_some_iff.mp ha).1
  rw [List.getElem?_append_left hi, ha]

theorem getElem?_pre_of_lt {l m : List α} (h : l <+: m) {i : Nat} (hi : i < l.length) :
    l[i]? = m[i]? := by
  obtain ⟨t, rfl⟩ := h
  rw [List.getElem?_append_left hi]

theorem take_eq_of_pre {l m : List α} (h : l <+: m) {k : Nat} (hk : k ≤ l.length) :
    l.take k = m.take k := by
  obtain ⟨t, rfl⟩ := h
  rw [List.take_append_of_le_length hk]

theorem getElem?_snoc {l : List α} {x d : α} {j : Nat} (h : (l ++ [x])[j]? = some d) :
    l[j]? = some d ∨ j = l.length ∧ d = x := by
  rw [List.getElem?_append] at h
  split at h
  · exact Or.inl h
  · rw [List.getElem?_singleton] at h
    split at h
    · exact Or.inr ⟨by omega, (Option.some.inj h).symm⟩
    · cases h

theorem getElem?_set_some {l : List α} {k j : Nat} {x d : α} (h : (l.set k x)[j]? = some d) :
    j = k ∧ d = x ∨ j ≠ k ∧ l[j]? = some d := by
  by_cases hjk : j = k
  · subst hjk
    have hlt : j < l.length := by
      have := (List.getElem?_eq_some_iff.mp h).1
      rwa [List.length_set] at this
    rw [List.getElem?_set_self hlt] at h
    exact Or.inl ⟨rfl, (Option.some.inj h).symm⟩
  · rw [List.getElem?_set_ne (Ne.symm hjk)] at h
    exact Or.inr ⟨hjk, h⟩

/-- A place in a list with one more element. -/
theorem snoc_split {l b c : List α} {x y : α} (h : l ++ [x] = b ++ y :: c) :
    b = l ∧ y = x ∧ c = [] ∨ ∃ c', l = b ++ y :: c' ∧ c = c' ++ [x] := by
  rcases List.eq_nil_or_concat c with rfl | ⟨c', z, rfl⟩
  · obtain ⟨hl, hx⟩ := List.append_inj' h rfl
    exact Or.inl ⟨hl.symm, (List.cons.inj hx).1.symm, rfl⟩
  · rw [List.concat_eq_append] at h ⊢
    rw [← List.cons_append, ← List.append_assoc] at h
    obtain ⟨hl, hx⟩ := List.append_inj' h rfl
    exact Or.inr ⟨c', hl, by rw [(List.cons.inj hx).1]⟩

/-- Keep `l` if it begins with `m`, else replace it by `m`. -/
def adopt [DecidableEq α] (m l : List α) : List α :=
  if m <+: l then l else m

variable [DecidableEq α]

theorem pre_adopt (m l : List α) : m <+: adopt m l := by
  unfold adopt
  split
  · assumption
  · exact List.prefix_rfl

theorem adopt_take (m : List α) (i : Nat) : adopt m (m.take i) = m := by
  unfold adopt
  split
  · next hc =>
    have htake : m.take i <+: m := List.take_prefix i m
    exact htake.eq_of_length_le hc.length_le
  · rfl

theorem adopt_eq (m l : List α) : adopt m l = l ∨ adopt m l = m := by
  unfold adopt
  split
  · exact Or.inl rfl
  · exact Or.inr rfl

/-- What `l` begins with survives, as long as it is comparable with `m`. -/
theorem adopt_keeps {m l k : List α} (hk : k <+: l) (hc : k <+: m ∨ m <+: k) :
    k <+: adopt m l := by
  rcases hc with hc | hc
  · exact hc.trans (pre_adopt m l)
  · unfold adopt
    rw [if_pos (hc.trans hk)]
    exact hk

end Murmur.Basis
