/-
  Runs of a system given by a partial step function.

  `step s a = some s'` is one step under the action `a`; `none` says that `a` is not
  enabled in `s`. A run is a list of actions. Results about runs are had by these rules:

  * `Reaches.invariant`: what every step keeps holds at the end of every run.
  * `Within.invariant`: the same for the runs all of whose steps meet a condition.
  * `Within.simulate`, `Reaches.simulate`: a step-by-step simulation by a relation lifts to whole
    runs.
-/
import Mathlib.Data.Option.Basic
import Mathlib.Logic.Relation

namespace Murmur.Basis

variable {σ α τ : Type}

/-- Carry out a list of actions, stopping at the first one that is not enabled. -/
def run (step : σ → α → Option σ) : σ → List α → Option σ
  | s, [] => some s
  | s, a :: as => (step s a).bind fun s' => run step s' as

/-- A guarded step is enabled where its guard holds. -/
theorem of_guard {p : Prop} [Decidable p] {x : Option σ} {s : σ}
    (h : (guard p >>= fun _ => x) = some s) : p ∧ x = some s := by
  obtain ⟨u, hp, hx⟩ := Option.bind_eq_some_iff.mp h
  exact ⟨(Option.guard_eq_some' u).mp hp, hx⟩

/-- `s'` is the end of some run from `s`. -/
def Reaches (step : σ → α → Option σ) (s s' : σ) : Prop :=
  ∃ as : List α, run step s as = some s'

theorem run_cons (step : σ → α → Option σ) (s : σ) (a : α) (as : List α) :
    run step s (a :: as) = (step s a).bind fun s' => run step s' as := rfl

theorem run_append (step : σ → α → Option σ) (s : σ) (as bs : List α) :
    run step s (as ++ bs) = (run step s as).bind fun s' => run step s' bs := by
  induction as generalizing s with
  | nil => rfl
  | cons a as ih =>
      rw [List.cons_append, run_cons, run_cons]
      cases step s a with
      | none => rfl
      | some s' => exact ih s'

theorem Reaches.refl (step : σ → α → Option σ) (s : σ) : Reaches step s s :=
  ⟨[], rfl⟩

theorem Reaches.single {step : σ → α → Option σ} {s s' : σ} {a : α} (h : step s a = some s') :
    Reaches step s s' :=
  ⟨[a], by rw [run_cons, h]; rfl⟩

theorem Reaches.trans {step : σ → α → Option σ} {s s' s'' : σ}
    (h : Reaches step s s') (h' : Reaches step s' s'') : Reaches step s s'' := by
  obtain ⟨as, ha⟩ := h
  obtain ⟨bs, hb⟩ := h'
  refine ⟨as ++ bs, ?_⟩
  rw [run_append, ha]
  exact hb

theorem Reaches.step {step : σ → α → Option σ} {s s' s'' : σ} {a : α}
    (h : Reaches step s s') (hs : step s' a = some s'') : Reaches step s s'' :=
  h.trans (Reaches.single hs)

/-- The invariant rule: a property that every step keeps is kept by every run. -/
theorem Reaches.invariant {step : σ → α → Option σ} {I : σ → Prop}
    (hstep : ∀ s a s', I s → step s a = some s' → I s') {s s' : σ}
    (h : Reaches step s s') (hi : I s) : I s' := by
  obtain ⟨as, ha⟩ := h
  induction as generalizing s with
  | nil =>
      have : s = s' := by simpa [run] using ha
      rwa [← this]
  | cons a as ih =>
      rw [run_cons] at ha
      obtain ⟨t, ht, hrun⟩ := Option.bind_eq_some_iff.mp ha
      exact ih (hstep s a t hi ht) hrun

/-- `s'` is the end of a run from `s` in which every step met the condition `ok`. -/
inductive Within (step : σ → α → Option σ) (ok : σ → α → Prop) (s : σ) : σ → Prop where
  | refl : Within step ok s s
  | step {t u : σ} (a : α) (h : Within step ok s t) (hok : ok t a) (hs : step t a = some u) :
      Within step ok s u

theorem Within.reaches {step : σ → α → Option σ} {ok : σ → α → Prop} {s s' : σ}
    (h : Within step ok s s') : Reaches step s s' := by
  induction h with
  | refl => exact Reaches.refl step s
  | step a _ _ hs ih => exact ih.step hs

theorem Within.trans {step : σ → α → Option σ} {ok : σ → α → Prop} {s t u : σ}
    (h : Within step ok s t) (h' : Within step ok t u) : Within step ok s u := by
  induction h' with
  | refl => exact h
  | step a _ hok hs ih => exact ih.step a hok hs

theorem Within.mono {step : σ → α → Option σ} {ok ok' : σ → α → Prop}
    (hok : ∀ s a, ok s a → ok' s a) {s s' : σ} (h : Within step ok s s') :
    Within step ok' s s' := by
  induction h with
  | refl => exact .refl
  | step a _ ha hs ih => exact ih.step a (hok _ a ha) hs

theorem Within.invariant {step : σ → α → Option σ} {ok : σ → α → Prop} {I : σ → Prop}
    (hstep : ∀ s a s', I s → ok s a → step s a = some s' → I s') {s s' : σ}
    (h : Within step ok s s') (hi : I s) : I s' := by
  induction h with
  | refl => exact hi
  | step a _ hok hs ih => exact hstep _ a _ ih hok hs

/-- A run carried out with the condition checked at every step. -/
theorem Within.of_run {step : σ → α → Option σ} {ok : σ → α → Prop}
    [∀ s a, Decidable (ok s a)] {as : List α} {s s' : σ}
    (h : run (fun s a => if ok s a then step s a else none) s as = some s') :
    Within step ok s s' := by
  have hall : ∀ (as : List α) (t : σ), Within step ok s t →
      run (fun s a => if ok s a then step s a else none) t as = some s' → Within step ok s s' := by
    intro as
    induction as with
    | nil =>
        intro t ht hrun
        have : t = s' := by simpa [run] using hrun
        rwa [← this]
    | cons a as ih =>
        intro t ht hrun
        rw [run_cons] at hrun
        obtain ⟨u, hu, hrest⟩ := Option.bind_eq_some_iff.mp hrun
        split at hu
        · next hok => exact ih u (ht.step a hok hu) hrest
        · cases hu
  exact hall as s .refl h

/-- The simulation rule. If every concrete step from related states is answered by an
    abstract move `A` (reflexive and transitive, so any number of abstract steps) to a
    related state, then so is every run. -/
theorem Within.simulate {step : σ → α → Option σ} {ok : σ → α → Prop} {R : σ → τ → Prop}
    {A : τ → τ → Prop} (hrefl : ∀ t, A t t) (htrans : ∀ t u v, A t u → A u v → A t v)
    (hstep : ∀ s a s' t, R s t → ok s a → step s a = some s' → ∃ t', A t t' ∧ R s' t')
    {s s' : σ} {t : τ} (h : Within step ok s s') (hr : R s t) :
    ∃ t', A t t' ∧ R s' t' := by
  induction h with
  | refl => exact ⟨t, hrefl t, hr⟩
  | step a _ hok hs ih =>
      obtain ⟨t', htt', hr'⟩ := ih
      obtain ⟨t'', htt'', hr''⟩ := hstep _ a _ t' hr' hok hs
      exact ⟨t'', htrans _ _ _ htt' htt'', hr''⟩

theorem Reaches.simulate {step : σ → α → Option σ} {R : σ → τ → Prop} {A : τ → τ → Prop}
    (hrefl : ∀ t, A t t) (htrans : ∀ t u v, A t u → A u v → A t v)
    (hstep : ∀ s a s' t, R s t → step s a = some s' → ∃ t', A t t' ∧ R s' t')
    {s s' : σ} {t : τ} (h : Reaches step s s') (hr : R s t) :
    ∃ t', A t t' ∧ R s' t' := by
  obtain ⟨as, ha⟩ := h
  induction as generalizing s t with
  | nil =>
      have : s = s' := by simpa [run] using ha
      exact ⟨t, hrefl t, by rwa [← this]⟩
  | cons a as ih =>
      rw [run_cons] at ha
      obtain ⟨u, hu, hrun⟩ := Option.bind_eq_some_iff.mp ha
      obtain ⟨t', htt', hr'⟩ := hstep s a u t hr hu
      obtain ⟨t'', htt'', hr''⟩ := ih hr' hrun
      exact ⟨t'', htrans _ _ _ htt' htt'', hr''⟩

end Murmur.Basis
