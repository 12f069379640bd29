/-
  A replicated log driven by leaders of numbered terms, as an abstract protocol.

  The state keeps what the protocol never forgets: every ballot cast (`vote`), the log
  each candidate stood for election with (`clog`), who led each term (`lead`), the
  log of each term's leader as far as it has grown (`llog`), and how much of it each node
  has acknowledged (`acked`). There are no messages and nothing is ever compacted:
  a replica takes over any prefix of a leader's log in one `adopt` step. What a message
  in flight says is then a fact about this state that no later step can falsify.

  The entries are of an arbitrary type `E`, stamped with a term by `τ`, and the quorums
  are those of an arbitrary quorum system.
-/
import Murmur.Basis.Prefix
import Murmur.Basis.Quorum
import Mathlib.Logic.Function.Basic
import Mathlib.Logic.Relation

namespace Murmur.Protocol

open Murmur.Basis

/-- The term of the last entry, `0` for the empty log. -/
def lastTerm {E : Type} (τ : E → ℕ) (l : List E) : ℕ :=
  l.getLast?.elim 0 τ

/-- The log `c` is at least as up to date as the log `v`: later last term, or the same
    last term and no shorter. -/
def UpToDate {E : Type} (τ : E → ℕ) (c v : List E) : Prop :=
  lastTerm τ v < lastTerm τ c ∨ (lastTerm τ c = lastTerm τ v ∧ v.length ≤ c.length)

/-- The state of the protocol and its history. -/
structure State (N E : Type) where
  /-- The current term of each node. -/
  term : N → ℕ
  /-- The log of each node, never compacted. -/
  log : N → List E
  /-- The ballot a node cast in a term. -/
  vote : N → ℕ → Option N
  /-- The log a node campaigned with in a term. -/
  clog : N → ℕ → List E
  /-- The leader elected in a term. -/
  lead : ℕ → Option N
  /-- The log of the leader of a term. -/
  llog : ℕ → List E
  /-- How much of the leader's log of a term a node has acknowledged. -/
  acked : N → ℕ → ℕ

namespace State

variable {N E : Type} [DecidableEq N]

/-- Nothing has happened yet. -/
def init : State N E where
  term _ := 0
  log _ := []
  vote _ _ := none
  clog _ _ := []
  lead _ := none
  llog _ := []
  acked _ _ := 0

/-- Change a doubly indexed family at one place. -/
def set₂ {β : Type} (f : N → ℕ → β) (n : N) (t : ℕ) (b : β) : N → ℕ → β :=
  Function.update f n (Function.update (f n) t b)

/-- Node `n` learns of a newer term. -/
def advance (s : State N E) (n : N) (t : ℕ) : State N E :=
  { s with term := Function.update s.term n t }

/-- Node `n` opens the next term, votes for itself and stands with its current log. -/
def campaign (s : State N E) (n : N) : State N E :=
  { s with
    term := Function.update s.term n (s.term n + 1)
    vote := set₂ s.vote n (s.term n + 1) (some n)
    clog := set₂ s.clog n (s.term n + 1) (s.log n) }

/-- Node `v` casts its ballot of the current term for `c`. -/
def grant (s : State N E) (v c : N) : State N E :=
  { s with vote := set₂ s.vote v (s.term v) (some c) }

/-- Node `n` becomes the leader of its current term. -/
def elect (s : State N E) (n : N) : State N E :=
  { s with
    lead := Function.update s.lead (s.term n) (some n)
    llog := Function.update s.llog (s.term n) (s.log n)
    acked := set₂ s.acked n (s.term n) (s.log n).length }

/-- The leader `n` of its current term appends `e`. -/
def append (s : State N E) (n : N) (e : E) : State N E :=
  { s with
    log := Function.update s.log n (s.log n ++ [e])
    llog := Function.update s.llog (s.term n) (s.log n ++ [e])
    acked := set₂ s.acked n (s.term n) ((s.log n).length + 1) }

/-- Node `v` takes over the first `k` entries of the leader's log of its current term
    and acknowledges them. -/
def adopt [DecidableEq E] (s : State N E) (v : N) (k : ℕ) : State N E :=
  { s with
    log := Function.update s.log v (Basis.adopt ((s.llog (s.term v)).take k) (s.log v))
    acked := set₂ s.acked v (s.term v) (max (s.acked v (s.term v)) k) }

end State

open State

variable {N E : Type} [DecidableEq N] [DecidableEq E]

/-- One step of the protocol, taken by the node named in the index. -/
inductive Step (Q : QuorumSystem N) (τ : E → ℕ) : N → State N E → State N E → Prop
  | advance {s : State N E} {n : N} (t : ℕ) (ht : s.term n ≤ t) :
      Step Q τ n s (s.advance n t)
  | campaign {s : State N E} {n : N} :
      Step Q τ n s (s.campaign n)
  | grant {s : State N E} {v : N} (c : N)
      (hfree : s.vote v (s.term v) = none)
      (hcand : s.vote c (s.term v) = some c)
      (hup : UpToDate τ (s.clog c (s.term v)) (s.log v)) :
      Step Q τ v s (s.grant v c)
  | elect {s : State N E} {n : N}
      (hself : s.vote n (s.term n) = some n)
      (hlog : s.clog n (s.term n) = s.log n)
      (hfresh : s.lead (s.term n) ≠ some n)
      (hQ : Q.IsQuorum {v | s.vote v (s.term n) = some n}) :
      Step Q τ n s (s.elect n)
  | append {s : State N E} {n : N} (e : E)
      (hlead : s.lead (s.term n) = some n)
      (hlog : s.llog (s.term n) = s.log n)
      (hterm : τ e = s.term n) :
      Step Q τ n s (s.append n e)
  | adopt {s : State N E} {v : N} (k : ℕ)
      (hlead : s.lead (s.term v) ≠ none)
      (hk : k ≤ (s.llog (s.term v)).length) :
      Step Q τ v s (s.adopt v k)

/-! ## Fields after each step -/

section Fields

variable (s : State N E) (n m : N) (t : ℕ)

@[simp] theorem set₂_self {β : Type} (f : N → ℕ → β) (b : β) : set₂ f n t b n t = b := by
  simp [set₂]

theorem set₂_of_ne {β : Type} (f : N → ℕ → β) (b : β) {t' : ℕ} (h : ¬ (m = n ∧ t' = t)) :
    set₂ f n t b m t' = f m t' := by
  unfold set₂
  by_cases hm : m = n
  · subst hm
    rw [Function.update_self, Function.update_of_ne (fun ht => h ⟨rfl, ht⟩)]
  · rw [Function.update_of_ne hm]

/-- What holds at the place that changes and of the old values everywhere else holds everywhere. -/
theorem forall_set₂ {β : Type} {f : N → ℕ → β} {n : N} {t : ℕ} {b : β} {p : N → ℕ → β → Prop}
    (hself : p n t b) (hne : ∀ m t', ¬ (m = n ∧ t' = t) → p m t' (f m t')) :
    ∀ m t', p m t' (set₂ f n t b m t') := by
  intro m t'
  by_cases h : m = n ∧ t' = t
  · obtain ⟨rfl, rfl⟩ := h
    rw [set₂_self]
    exact hself
  · rw [set₂_of_ne _ _ _ _ _ h]
    exact hne m t' h

/-- The same for a family with one index. -/
theorem forall_update {ι β : Type} [DecidableEq ι] {f : ι → β} {i : ι} {b : β} {p : ι → β → Prop}
    (hself : p i b) (hne : ∀ j, j ≠ i → p j (f j)) : ∀ j, p j (Function.update f i b j) :=
  (Function.forall_update_iff f p).mpr ⟨hself, hne⟩

end Fields

end Murmur.Protocol
