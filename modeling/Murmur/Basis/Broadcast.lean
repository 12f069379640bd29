/-
  Totally ordered broadcast, as one machine.

  Values are offered for a numbered slot; one after the other some of them are put in order, each in
  the slot it was offered for; every node is handed the order from the start, value by value or, to
  get ahead, by a copy of what another node made of a prefix of it. A node that restarts begins
  anew. Offers, deliveries, copies and restarts can be seen; ordering a value cannot (`Trace`).
-/
import Mathlib.Data.List.Infix
import Mathlib.Logic.Function.Basic

namespace Murmur.Basis.Broadcast

variable {N V S D : Type} [DecidableEq N]

/-- Slots are counted from 1; a node at position `i` has been handed the first `i` values. -/
structure State (N V D : Type) where
  offered : ℕ → V → Prop
  order : List V
  position : N → ℕ
  saved : ℕ → D → Prop

def State.init : State N V D where
  offered _ _ := False
  order := []
  position _ := 0
  saved _ _ := False

/-- What can be seen. -/
inductive Event (N V D : Type) where
  /-- `n` takes `v`, for slot `i`. -/
  | offer (n : N) (i : ℕ) (v : V)
  /-- `n` is handed `v`, from slot `i`. -/
  | deliver (n : N) (i : ℕ) (v : V)
  /-- `n` saves what it has made of the first `i` values. -/
  | save (n : N) (i : ℕ) (d : D)
  /-- `n` is handed that instead of the values. -/
  | load (n : N) (i : ℕ) (d : D)
  | restart (n : N)

/-- One step. No two offers for a slot bear the same stamp `τ`. -/
inductive Step (τ : V → S) : State N V D → Option (Event N V D) → State N V D → Prop
  | offer {s : State N V D} (n : N) (i : ℕ) (v : V) (hfresh : ∀ w, s.offered i w → τ w ≠ τ v) :
      Step τ s (some (.offer n i v))
        { s with offered := fun j w => s.offered j w ∨ (j = i ∧ w = v) }
  | decide {s : State N V D} (v : V) (h : s.offered (s.order.length + 1) v) :
      Step τ s none { s with order := s.order ++ [v] }
  | deliver {s : State N V D} (n : N) (v : V) (h : s.order[s.position n]? = some v) :
      Step τ s (some (.deliver n (s.position n + 1) v))
        { s with position := Function.update s.position n (s.position n + 1) }
  | save {s : State N V D} (n : N) (i : ℕ) (d : D) (h : i ≤ s.position n) :
      Step τ s (some (.save n i d)) { s with saved := fun j e => s.saved j e ∨ (j = i ∧ e = d) }
  | load {s : State N V D} (n : N) (i : ℕ) (d : D) (hsaved : s.saved i d)
      (hahead : s.position n < i) (hle : i ≤ s.order.length) :
      Step τ s (some (.load n i d)) { s with position := Function.update s.position n i }
  | restart {s : State N V D} (n : N) :
      Step τ s (some (.restart n)) { s with position := Function.update s.position n 0 }

/-- The machine can go from `s` to `s'`, and be seen to do `events`. -/
inductive Trace (τ : V → S) (s : State N V D) : List (Event N V D) → State N V D → Prop
  | refl : Trace τ s [] s
  | hidden {events : List (Event N V D)} {t u : State N V D} (h : Trace τ s events t)
      (hs : Step τ t none u) : Trace τ s events u
  | seen {events : List (Event N V D)} {t u : State N V D} {e : Event N V D}
      (h : Trace τ s events t) (hs : Step τ t (some e) u) : Trace τ s (events ++ [e]) u

section Traces

variable {τ : V → S} {s t u : State N V D} {es fs : List (Event N V D)}

theorem Trace.single {e : Event N V D} (h : Step τ s (some e) t) : Trace τ s [e] t :=
  Trace.refl.seen h

theorem Trace.trans (h : Trace τ s es t) (h' : Trace τ t fs u) : Trace τ s (es ++ fs) u := by
  induction h' with
  | refl =>
      rw [List.append_nil]
      exact h
  | hidden _ hs ih => exact ih.hidden hs
  | seen _ hs ih =>
      rw [← List.append_assoc]
      exact ih.seen hs

/-- Values that have been offered for the slots that come next are put in order. -/
theorem Trace.decides {vs : List V}
    (h : ∀ i v, vs[i]? = some v → s.offered (s.order.length + i + 1) v) :
    Trace τ s [] { s with order := s.order ++ vs } := by
  induction vs generalizing s with
  | nil =>
      rw [List.append_nil]
      exact .refl
  | cons v vs ih =>
      have hfirst : Trace τ s [] { s with order := s.order ++ [v] } :=
        Trace.refl.hidden (.decide v (h 0 v rfl))
      have hrest := ih (s := { s with order := s.order ++ [v] }) fun i w hw => by
        have hoff := h (i + 1) w hw
        rw [List.length_append, List.length_singleton, Nat.add_assoc s.order.length 1 i,
          Nat.add_comm 1 i]
        exact hoff
      rw [List.append_assoc] at hrest
      exact hfirst.trans hrest

/-- What `n` is seen to be handed when it is handed `vs` from position `i` on. -/
def deliveries (n : N) : ℕ → List V → List (Event N V D)
  | _, [] => []
  | i, v :: vs => .deliver n (i + 1) v :: deliveries n (i + 1) vs

theorem Trace.delivers {n : N} {vs : List V} {i : ℕ} (hi : s.position n = i)
    (h : vs <+: s.order.drop i) :
    Trace τ s (deliveries n i vs)
      { s with position := Function.update s.position n (i + vs.length) } := by
  induction vs generalizing s i with
  | nil =>
      have hsame : { s with position := Function.update s.position n (i + ([] : List V).length) } =
          s := by
        rw [List.length_nil, Nat.add_zero, ← hi, Function.update_eq_self]
      rw [hsame]
      exact .refl
  | cons v vs ih =>
      obtain ⟨hhead, htail⟩ : s.order[i]? = some v ∧ vs <+: s.order.drop (i + 1) := by
        obtain ⟨rest, hrest⟩ := h
        constructor
        · rw [← Nat.add_zero i, ← List.getElem?_drop, ← hrest]
          rfl
        · refine ⟨rest, ?_⟩
          rw [← List.drop_drop, ← hrest]
          rfl
      subst hi
      have hfirst := Trace.single (Step.deliver (τ := τ) n v hhead)
      have hnext := ih (s := { s with
        position := Function.update s.position n (s.position n + 1) }) (i := s.position n + 1)
        (Function.update_self _ _ _) htail
      dsimp only at hnext
      rw [Function.update_idem, Nat.add_assoc, Nat.add_comm 1] at hnext
      exact hfirst.trans hnext

end Traces

end Murmur.Basis.Broadcast
