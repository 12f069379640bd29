/-
  The invariants of the abstract protocol, one structure for each concern, and their
  preservation by every step.

  * `Votes`: one ballot a term, cast for a node that campaigned; a leader has a quorum.
  * `Logs`: every log is `Genuine`, that is, up to each of its entries it is the log of the
    leader of that entry's term. Log matching and the order of the terms follow from it.
  * `Keeps`: what a node acknowledged it still has, unless the leader of a later term was
    elected without it; and a candidate has what its voters acknowledged, with the same
    proviso. Leader completeness (`Safety`) is an induction over terms from here.

  `Grows` says what no step can undo; every fact about the past is monotone along it.
-/
import Murmur.Protocol.Spec

namespace Murmur.Protocol

open Murmur.Basis State

variable {N E : Type}

/-- Up to each of its entries, `l` is the log of the leader of that entry's term. -/
def Genuine (τ : E → ℕ) (s : State N E) (l : List E) : Prop :=
  ∀ (i : ℕ) (e : E), l[i]? = some e → l.take (i + 1) <+: s.llog (τ e)

/-- The leader of `t'` was elected without the first `k` entries of the leader of `t`. -/
def Skips (s : State N E) (t k t' : ℕ) : Prop :=
  ∃ n, s.lead t' = some n ∧ ¬ (s.llog t).take k <+: s.clog n t'

/-- Entry `k` (counted from one) of the leader's log of `t` is of term `t` itself. -/
def EndsIn (τ : E → ℕ) (s : State N E) (t k : ℕ) : Prop :=
  ∃ e, (s.llog t)[k - 1]? = some e ∧ τ e = t ∧ 0 < k

/-- What no step undoes. -/
structure Grows (s s' : State N E) : Prop where
  term : ∀ n, s.term n ≤ s'.term n
  vote : ∀ {v t c}, s.vote v t = some c → s'.vote v t = some c
  clog : ∀ {c t}, s.vote c t = some c → s'.clog c t = s.clog c t
  lead : ∀ {t n}, s.lead t = some n → s'.lead t = some n
  llog : ∀ t, s.llog t <+: s'.llog t
  acked : ∀ v t, s.acked v t ≤ s'.acked v t

/-- Ballots. -/
structure Votes (Q : QuorumSystem N) (s : State N E) : Prop where
  le_term : ∀ {v t c}, s.vote v t = some c → t ≤ s.term v
  pos : ∀ {v t c}, s.vote v t = some c → 1 ≤ t
  cand : ∀ {v t c}, s.vote v t = some c → s.vote c t = some c
  lead_quorum : ∀ {t n}, s.lead t = some n → Q.IsQuorum {v | s.vote v t = some n}

/-- Logs. -/
structure Logs (τ : E → ℕ) (s : State N E) : Prop where
  llog_nil : ∀ {t}, s.lead t = none → s.llog t = []
  lead_self : ∀ {t n}, s.lead t = some n → s.vote n t = some n
  lead_clog : ∀ {t n}, s.lead t = some n → s.clog n t <+: s.llog t
  lead_acked : ∀ {t n}, s.lead t = some n → s.acked n t = (s.llog t).length
  log_le : ∀ {n e}, e ∈ s.log n → τ e ≤ s.term n
  clog_lt : ∀ {n t e}, e ∈ s.clog n t → τ e < t
  llog_le : ∀ {t e}, e ∈ s.llog t → τ e ≤ t
  log_genuine : ∀ n, Genuine τ s (s.log n)
  clog_genuine : ∀ n t, Genuine τ s (s.clog n t)
  llog_genuine : ∀ t, Genuine τ s (s.llog t)
  acked_le : ∀ v t, s.acked v t ≤ (s.llog t).length
  acked_term : ∀ {v t}, s.acked v t ≠ 0 → t ≤ s.term v

/-- What acknowledgements and ballots promise. -/
structure Keeps (Q : QuorumSystem N) (τ : E → ℕ) (s : State N E) : Prop where
  acked : ∀ {v t k}, k ≤ s.acked v t →
    (s.llog t).take k <+: s.log v ∨ ∃ t', t < t' ∧ t' ≤ s.term v ∧ Skips s t k t'
  vote : ∀ {v t' c}, s.vote v t' = some c → ∀ {t k}, t < t' → k ≤ s.acked v t → EndsIn τ s t k →
    (s.llog t).take k <+: s.clog c t' ∨ ∃ u, t < u ∧ u ≤ t' ∧ Skips s t k u
  lead : ∀ {t' n}, s.lead t' = some n → ∃ A : Set N, Q.IsQuorum A ∧ ∀ v ∈ A, t' ≤ s.term v ∧
    ∀ {t k}, t < t' → k ≤ s.acked v t → EndsIn τ s t k →
      (s.llog t).take k <+: s.clog n t' ∨ ∃ u, t < u ∧ u < t' ∧ Skips s t k u

/-! ## Facts about the past are monotone -/

section Mono

variable {τ : E → ℕ} {s s' : State N E}

theorem Grows.refl (s : State N E) : Grows s s :=
  ⟨fun _ => le_rfl, fun h => h, fun _ => rfl, fun h => h, fun _ => List.prefix_rfl,
    fun _ _ => le_rfl⟩

theorem Grows.trans {s'' : State N E} (h : Grows s s') (h' : Grows s' s'') : Grows s s'' where
  term n := (h.term n).trans (h'.term n)
  vote hv := h'.vote (h.vote hv)
  clog hv := (h'.clog (h.vote hv)).trans (h.clog hv)
  lead hl := h'.lead (h.lead hl)
  llog t := (h.llog t).trans (h'.llog t)
  acked v t := (h.acked v t).trans (h'.acked v t)

theorem Grows.take_llog (h : Grows s s') {t k : ℕ} (hk : k ≤ (s.llog t).length) :
    (s'.llog t).take k = (s.llog t).take k :=
  (take_eq_of_pre (h.llog t) hk).symm

theorem Genuine.grow {l : List E} (hl : Genuine τ s l) (h : Grows s s') : Genuine τ s' l :=
  fun i e he => (hl i e he).trans (h.llog _)

theorem Genuine.of_pre {l m : List E} (hl : Genuine τ s l) (hm : m <+: l) : Genuine τ s m := by
  intro i e he
  have hi : i < m.length := (List.getElem?_eq_some_iff.mp he).1
  rw [take_eq_of_pre hm hi]
  exact hl i e (getElem?_of_pre hm he)

theorem EndsIn.le {t k : ℕ} (h : EndsIn τ s t k) : k ≤ (s.llog t).length := by
  obtain ⟨e, he, -, hk⟩ := h
  have := (List.getElem?_eq_some_iff.mp he).1
  omega

theorem EndsIn.grow {t k : ℕ} (hE : EndsIn τ s t k) (h : Grows s s') : EndsIn τ s' t k := by
  obtain ⟨e, he, hτ, hk⟩ := hE
  exact ⟨e, getElem?_of_pre (h.llog t) he, hτ, hk⟩

theorem EndsIn.ungrow {t k : ℕ} (hE : EndsIn τ s' t k) (h : Grows s s')
    (hk : k ≤ (s.llog t).length) : EndsIn τ s t k := by
  obtain ⟨e, he, hτ, hk0⟩ := hE
  refine ⟨e, ?_, hτ, hk0⟩
  rw [getElem?_pre_of_lt (h.llog t) (by omega)]
  exact he

theorem Skips.grow {t k t' : ℕ} (hS : Skips s t k t') (h : Grows s s')
    (hself : ∀ {t n}, s.lead t = some n → s.vote n t = some n)
    (hk : k ≤ (s.llog t).length) : Skips s' t k t' := by
  obtain ⟨n, hn, hno⟩ := hS
  refine ⟨n, h.lead hn, ?_⟩
  rw [h.take_llog hk, h.clog (hself hn)]
  exact hno

end Mono

variable {Q : QuorumSystem N} {τ : E → ℕ} {s s' : State N E}

/-! ## Election safety -/

/-- Two nodes with a quorum of the ballots of one term are the same node. -/
theorem quorum_unique (s : State N E) {t : ℕ} {n m : N}
    (hn : Q.IsQuorum {v | s.vote v t = some n}) (hm : Q.IsQuorum {v | s.vote v t = some m}) :
    n = m := by
  obtain ⟨v, hvn, hvm⟩ := Q.inter hn hm
  have hn' : s.vote v t = some n := hvn
  have hm' : s.vote v t = some m := hvm
  rw [hn'] at hm'
  exact Option.some.inj hm'

/-- A node with a quorum of ballots in its term that has not been elected yet finds the
    term without a leader. -/
theorem Votes.lead_none (hV : Votes Q s) {t : ℕ} {n : N} (hfresh : s.lead t ≠ some n)
    (hQ : Q.IsQuorum {v | s.vote v t = some n}) : s.lead t = none := by
  cases hl : s.lead t with
  | none => rfl
  | some m =>
      have : n = m := quorum_unique s hQ (hV.lead_quorum hl)
      exact absurd (this ▸ hl) hfresh

/-- No node has a ballot in a term it has not reached. -/
theorem Votes.vote_none (hV : Votes Q s) {v : N} {t : ℕ} (h : s.term v < t) :
    s.vote v t = none := by
  cases hv : s.vote v t with
  | none => rfl
  | some c => exact absurd (hV.le_term hv) (by omega)

theorem Logs.acked_zero (hL : Logs τ s) {v : N} {t : ℕ} (h : s.lead t = none) :
    s.acked v t = 0 := by
  have := hL.acked_le v t
  rw [hL.llog_nil h] at this
  simpa using this

theorem Genuine.nil : Genuine τ s [] := fun i e he => by simp at he

/-- A genuine log followed by one entry is genuine when the leader of that entry's term
    has exactly this log up to it. -/
theorem Genuine.snoc {l : List E} {e : E} (hl : Genuine τ s l) (he : l ++ [e] <+: s.llog (τ e)) :
    Genuine τ s (l ++ [e]) := by
  intro i d hd
  rcases Nat.lt_or_ge i l.length with hi | hi
  · rw [List.getElem?_append_left hi] at hd
    rw [List.take_append_of_le_length hi]
    exact hl i d hd
  · rw [List.getElem?_append_right hi, List.getElem?_singleton] at hd
    have hi' : i - l.length = 0 := by
      by_contra hne
      rw [if_neg hne] at hd
      exact absurd hd (by simp)
    rw [if_pos hi'] at hd
    obtain rfl : e = d := Option.some.inj hd
    rw [List.take_of_length_le (by simp; omega)]
    exact he

theorem Logs.init : Logs τ (State.init : State N E) where
  llog_nil _ := rfl
  lead_self h := by simp [State.init] at h
  lead_clog h := by simp [State.init] at h
  lead_acked h := by simp [State.init] at h
  log_le h := by simp [State.init] at h
  clog_lt h := by simp [State.init] at h
  llog_le h := by simp [State.init] at h
  log_genuine _ := Genuine.nil
  clog_genuine _ _ := Genuine.nil
  llog_genuine _ := Genuine.nil
  acked_le _ _ := Nat.zero_le _
  acked_term h := by simp [State.init] at h

theorem Votes.init : Votes Q (State.init : State N E) :=
  ⟨fun h => by simp [State.init] at h, fun h => by simp [State.init] at h,
    fun h => by simp [State.init] at h, fun h => by simp [State.init] at h⟩

/-! ## Growth -/

section Grow

variable (hL : Logs τ s) (hg : Grows s s')

include hL hg

theorem Logs.self_grow {t : ℕ} {m : N} (hl : s.lead t = some m) : s'.vote m t = some m :=
  hg.vote (hL.lead_self hl)

theorem Logs.clog_grow {t : ℕ} {m : N} (hl : s.lead t = some m) : s'.clog m t <+: s'.llog t := by
  rw [hg.clog (hL.lead_self hl)]
  exact (hL.lead_clog hl).trans (hg.llog t)

theorem Logs.le_grow {m : N} {e : E} (he : e ∈ s.log m) : τ e ≤ s'.term m :=
  (hL.log_le he).trans (hg.term m)

theorem Logs.log_grow (m : N) : Genuine τ s' (s.log m) := (hL.log_genuine m).grow hg

theorem Logs.acked_grow {v : N} {t : ℕ} (ha : s.acked v t ≠ 0) : t ≤ s'.term v :=
  (hL.acked_term ha).trans (hg.term v)

/-- The leader of a term has the log `l` from now on. -/
theorem Logs.set_llog {t : ℕ} {l : List E} (hl : Genuine τ s' l) (hle : ∀ e ∈ l, τ e ≤ t) :
    (∀ u, ∀ e ∈ Function.update s.llog t l u, τ e ≤ u) ∧
      ∀ u, Genuine τ s' (Function.update s.llog t l u) :=
  ⟨forall_update (p := fun u l => ∀ e ∈ l, τ e ≤ u) hle fun _ _ _ => hL.llog_le,
    forall_update (p := fun _ l => Genuine τ s' l) hl fun u _ => (hL.llog_genuine u).grow hg⟩

/-- A node acknowledges some of its leader's log. -/
theorem Logs.set_acked [DecidableEq N] {n : N} {k : ℕ}
    (hk : k ≤ (s'.llog (s.term n)).length) :
    (∀ v t, set₂ s.acked n (s.term n) k v t ≤ (s'.llog t).length) ∧
      ∀ v t, set₂ s.acked n (s.term n) k v t ≠ 0 → t ≤ s'.term v :=
  ⟨forall_set₂ (p := fun _ t k => k ≤ (s'.llog t).length) hk
      fun v t _ => (hL.acked_le v t).trans (hg.llog t).length_le,
    forall_set₂ (p := fun v t k => k ≠ 0 → t ≤ s'.term v) (fun _ => hg.term n)
      fun _ _ _ ha => hL.acked_grow hg ha⟩

/-- A node has the log `l` from now on. -/
theorem Logs.set_log [DecidableEq N] {n : N} {l : List E}
    (hl : Genuine τ s' l) (hle : ∀ e ∈ l, τ e ≤ s'.term n) :
    (∀ m, ∀ e ∈ Function.update s.log n l m, τ e ≤ s'.term m) ∧
      ∀ m, Genuine τ s' (Function.update s.log n l m) :=
  ⟨forall_update (p := fun m l => ∀ e ∈ l, τ e ≤ s'.term m) hle fun _ _ _ he => hL.le_grow hg he,
    forall_update (p := fun _ l => Genuine τ s' l) hl fun m _ => hL.log_grow hg m⟩

end Grow

variable [DecidableEq N] [DecidableEq E]

theorem Step.grows {n : N} (hV : Votes Q s) (hL : Logs τ s) (h : Step Q τ n s s') :
    Grows s s' := by
  cases h with
  | advance t ht =>
      exact ⟨forall_update (p := fun m t => s.term m ≤ t) ht fun _ _ => le_rfl, fun h => h,
        fun _ => rfl, fun h => h, fun _ => List.prefix_rfl, fun _ _ => le_rfl⟩
  | campaign =>
      have hnone : s.vote n (s.term n + 1) = none := hV.vote_none (Nat.lt_succ_self _)
      have hvote : ∀ v t, ∀ c, s.vote v t = some c → (s.campaign n).vote v t = some c :=
        forall_set₂ (p := fun v t x => ∀ c, s.vote v t = some c → x = some c)
          (fun c hv => absurd (hnone.symm.trans hv) (by simp)) fun _ _ _ _ hv => hv
      have hclog : ∀ c t, s.vote c t = some c → (s.campaign n).clog c t = s.clog c t :=
        forall_set₂ (p := fun c t l => s.vote c t = some c → l = s.clog c t)
          (fun hv => absurd (hnone.symm.trans hv) (by simp)) fun _ _ _ _ => rfl
      exact ⟨forall_update (p := fun m t => s.term m ≤ t) (Nat.le_succ _) fun _ _ => le_rfl,
        hvote _ _ _, hclog _ _, fun h => h, fun _ => List.prefix_rfl, fun _ _ => le_rfl⟩
  | grant c hfree hcand hup =>
      have hvote : ∀ v t, ∀ c', s.vote v t = some c' → (s.grant n c).vote v t = some c' :=
        forall_set₂ (p := fun v t x => ∀ c', s.vote v t = some c' → x = some c')
          (fun c' hv => absurd (hfree.symm.trans hv) (by simp)) fun _ _ _ _ hv => hv
      exact ⟨fun _ => le_rfl, hvote _ _ _, fun _ => rfl, fun h => h, fun _ => List.prefix_rfl,
        fun _ _ => le_rfl⟩
  | elect hself hlog hfresh hQ =>
      have hnone := hV.lead_none hfresh hQ
      have hlead : ∀ t m, s.lead t = some m → (s.elect n).lead t = some m :=
        forall_update (p := fun t x => ∀ m, s.lead t = some m → x = some m)
          (fun m hm => absurd (hnone.symm.trans hm) (by simp)) fun _ _ _ hm => hm
      have hllog : ∀ t, s.llog t <+: (s.elect n).llog t :=
        forall_update (p := fun t l => s.llog t <+: l)
          (by rw [hL.llog_nil hnone]; exact List.nil_prefix) fun _ _ => List.prefix_rfl
      have hacked : ∀ v t, s.acked v t ≤ (s.elect n).acked v t :=
        forall_set₂ (p := fun v t k => s.acked v t ≤ k)
          (by rw [hL.acked_zero hnone]; exact Nat.zero_le _) fun _ _ _ => le_rfl
      exact ⟨fun _ => le_rfl, fun h => h, fun _ => rfl, hlead _ _, hllog, hacked⟩
  | append e hlead hlog hterm =>
      have hllog : ∀ t, s.llog t <+: (s.append n e).llog t :=
        forall_update (p := fun t l => s.llog t <+: l)
          (by rw [hlog]; exact List.prefix_append _ _) fun _ _ => List.prefix_rfl
      have hacked : ∀ v t, s.acked v t ≤ (s.append n e).acked v t :=
        forall_set₂ (p := fun v t k => s.acked v t ≤ k)
          (by rw [hL.lead_acked hlead, hlog]; exact Nat.le_succ _) fun _ _ _ => le_rfl
      exact ⟨fun _ => le_rfl, fun h => h, fun _ => rfl, fun h => h, hllog, hacked⟩
  | adopt k hlead hk =>
      have hacked : ∀ v t, s.acked v t ≤ (s.adopt n k).acked v t :=
        forall_set₂ (p := fun v t k => s.acked v t ≤ k) (le_max_left _ _) fun _ _ _ => le_rfl
      exact ⟨fun _ => le_rfl, fun h => h, fun _ => rfl, fun h => h,
        fun _ => List.prefix_rfl, hacked⟩

/-! ## Ballots -/

theorem Votes.step {n : N} (hV : Votes Q s) (hL : Logs τ s) (h : Step Q τ n s s') :
    Votes Q s' := by
  have hg := h.grows hV hL
  -- A quorum of ballots stays one: no ballot is taken back.
  have hquorum : ∀ {t m}, Q.IsQuorum {v | s.vote v t = some m} →
      Q.IsQuorum {v | s'.vote v t = some m} :=
    fun hq => Q.mono (fun v hv => hg.vote hv) hq
  have hkeep : ∀ {v t c}, s.vote v t = some c → t ≤ s'.term v :=
    fun hv => (hV.le_term hv).trans (hg.term _)
  cases h with
  | advance t ht =>
      exact ⟨hkeep, hV.pos, hV.cand, hV.lead_quorum⟩
  | campaign =>
      -- The only new ballot is the candidate's own.
      have hself : (s.campaign n).vote n (s.term n + 1) = some n := set₂_self _ _ _ _
      have hnew : ∀ v t, ∀ c, (s.campaign n).vote v t = some c →
          t ≤ (s.campaign n).term v ∧ 1 ≤ t ∧ (s.campaign n).vote c t = some c :=
        forall_set₂ (p := fun v t x => ∀ c, x = some c →
            t ≤ (s.campaign n).term v ∧ 1 ≤ t ∧ (s.campaign n).vote c t = some c)
          (fun c hc => by
            obtain rfl := Option.some.inj hc
            exact ⟨(Function.update_self _ _ s.term).ge, Nat.succ_pos _, hself⟩)
          fun v t _ c hv => ⟨hkeep hv, hV.pos hv, hg.vote (hV.cand hv)⟩
      exact ⟨fun hv => (hnew _ _ _ hv).1, fun hv => (hnew _ _ _ hv).2.1,
        fun hv => (hnew _ _ _ hv).2.2, fun hl => hquorum (hV.lead_quorum hl)⟩
  | grant c hfree hcand hup =>
      have hnew : ∀ v t, ∀ c', (s.grant n c).vote v t = some c' →
          t ≤ s.term v ∧ 1 ≤ t ∧ (s.grant n c).vote c' t = some c' :=
        forall_set₂ (p := fun v t x => ∀ c', x = some c' →
            t ≤ s.term v ∧ 1 ≤ t ∧ (s.grant n c).vote c' t = some c')
          (fun c' hc => by
            obtain rfl := Option.some.inj hc
            exact ⟨le_rfl, hV.pos hcand, hg.vote hcand⟩)
          fun v t _ c' hv => ⟨hkeep hv, hV.pos hv, hg.vote (hV.cand hv)⟩
      exact ⟨fun hv => (hnew _ _ _ hv).1, fun hv => (hnew _ _ _ hv).2.1,
        fun hv => (hnew _ _ _ hv).2.2, fun hl => hquorum (hV.lead_quorum hl)⟩
  | elect hself hlog hfresh hQ =>
      have hlead : ∀ t m, (s.elect n).lead t = some m → Q.IsQuorum {v | s.vote v t = some m} :=
        forall_update (p := fun t x => ∀ m, x = some m → Q.IsQuorum {v | s.vote v t = some m})
          (fun m hm => by
            obtain rfl := Option.some.inj hm
            exact hQ)
          fun _ _ _ hl => hV.lead_quorum hl
      exact ⟨hkeep, hV.pos, hV.cand, fun hl => hquorum (hlead _ _ hl)⟩
  | append e hlead hlog hterm => exact ⟨hkeep, hV.pos, hV.cand, hV.lead_quorum⟩
  | adopt k hlead hk => exact ⟨hkeep, hV.pos, hV.cand, hV.lead_quorum⟩

/-! ## Logs -/

omit [DecidableEq E] in
/-- The new candidate's log is its own; its terms are below the one it opens. -/
theorem Logs.campaign {n : N} (hL : Logs τ s) (hg : Grows s (s.campaign n)) :
    Logs τ (s.campaign n) := by
  have hlt : ∀ m t, ∀ e ∈ (s.campaign n).clog m t, τ e < t :=
    forall_set₂ (p := fun _ t l => ∀ e ∈ l, τ e < t)
      (fun e he => Nat.lt_succ_of_le (hL.log_le he)) fun _ _ _ _ => hL.clog_lt
  have hgenuine : ∀ m t, Genuine τ (s.campaign n) ((s.campaign n).clog m t) :=
    forall_set₂ (p := fun _ _ l => Genuine τ (s.campaign n) l) (hL.log_grow hg n)
      fun m t _ => (hL.clog_genuine m t).grow hg
  exact ⟨hL.llog_nil, hL.self_grow hg, hL.clog_grow hg, hL.lead_acked, hL.le_grow hg, hlt _ _ _,
    hL.llog_le, hL.log_grow hg, hgenuine, hL.llog_genuine, hL.acked_le, hL.acked_grow hg⟩

omit [DecidableEq E] in
/-- The new leader's log is that of its term, and it has acknowledged all of it. -/
theorem Logs.elect {n : N} (hL : Logs τ s) (hg : Grows s (s.elect n))
    (hvote : s.vote n (s.term n) = some n) (hlog : s.clog n (s.term n) = s.log n) :
    Logs τ (s.elect n) := by
  have hllog : (s.elect n).llog (s.term n) = s.log n := Function.update_self _ _ _
  obtain ⟨hle, hgenuine⟩ := hL.set_llog hg (hL.log_grow hg n) fun _ => hL.log_le
  obtain ⟨hacked, hterm⟩ := hL.set_acked hg (n := n) (k := (s.log n).length) (by rw [hllog])
  have hother : ∀ {t}, t ≠ s.term n → (s.elect n).llog t = s.llog t ∧
      ∀ m, (s.elect n).acked m t = s.acked m t :=
    fun ht => ⟨Function.update_of_ne ht _ _, fun m => set₂_of_ne _ _ _ _ _ fun h => ht h.2⟩
  have hnil : ∀ t, (s.elect n).lead t = none → (s.elect n).llog t = [] := by
    intro t hl
    have ht : t ≠ s.term n := by
      rintro rfl
      exact absurd ((Function.update_self _ _ s.lead).symm.trans hl) (by simp)
    rw [(hother ht).1]
    exact hL.llog_nil ((Function.update_of_ne ht _ _).symm.trans hl)
  -- What is to be shown of a leader holds of the new one and of the old ones.
  have hlead : ∀ t m, (s.elect n).lead t = some m → s.vote m t = some m ∧
      s.clog m t <+: (s.elect n).llog t ∧
      (s.elect n).acked m t = ((s.elect n).llog t).length := by
    refine forall_update (p := fun t x => ∀ m, x = some m → s.vote m t = some m ∧
      s.clog m t <+: (s.elect n).llog t ∧
      (s.elect n).acked m t = ((s.elect n).llog t).length) ?_ ?_
    · intro m hm
      obtain rfl := Option.some.inj hm
      exact ⟨hvote, by rw [hlog, hllog], by rw [hllog]; exact set₂_self _ _ _ _⟩
    · intro t ht m hl
      rw [(hother ht).1, (hother ht).2]
      exact ⟨hL.lead_self hl, hL.lead_clog hl, hL.lead_acked hl⟩
  exact ⟨hnil _, fun hl => (hlead _ _ hl).1, fun hl => (hlead _ _ hl).2.1,
    fun hl => (hlead _ _ hl).2.2, hL.le_grow hg, hL.clog_lt, hle _ _, hL.log_grow hg,
    fun m t => (hL.clog_genuine m t).grow hg, hgenuine, hacked, hterm _ _⟩

omit [DecidableEq E] in
theorem Logs.append {n : N} {e : E} (hL : Logs τ s) (hg : Grows s (s.append n e))
    (hlead : s.lead (s.term n) = some n) (hτ : τ e = s.term n) : Logs τ (s.append n e) := by
  have hllog : (s.append n e).llog (s.term n) = s.log n ++ [e] := Function.update_self _ _ _
  have hnew : Genuine τ (s.append n e) (s.log n ++ [e]) :=
    (hL.log_grow hg n).snoc (by rw [hτ, hllog])
  have hmem : ∀ d ∈ s.log n ++ [e], τ d ≤ s.term n := by
    intro d hd
    rcases List.mem_append.mp hd with hd | hd
    · exact hL.log_le hd
    · rw [List.mem_singleton.mp hd]
      exact hτ.le
  obtain ⟨hlogle, hloggenuine⟩ := hL.set_log hg (n := n) hnew hmem
  obtain ⟨hle, hgenuine⟩ := hL.set_llog hg hnew hmem
  obtain ⟨hacked, hterm⟩ := hL.set_acked hg (n := n) (k := (s.log n).length + 1)
    (by rw [hllog, List.length_append, List.length_singleton])
  have hother : ∀ {t}, t ≠ s.term n → (s.append n e).llog t = s.llog t ∧
      ∀ m, (s.append n e).acked m t = s.acked m t :=
    fun ht => ⟨Function.update_of_ne ht _ _, fun m => set₂_of_ne _ _ _ _ _ fun h => ht h.2⟩
  refine ⟨fun {t} hl => ?_, hL.self_grow hg, hL.clog_grow hg, fun {t m} hl => ?_, hlogle _ _,
    hL.clog_lt, hle _ _, hloggenuine, fun m t => (hL.clog_genuine m t).grow hg, hgenuine, hacked,
    hterm _ _⟩
  · have hl : s.lead t = none := hl
    have ht : t ≠ s.term n := by
      rintro rfl
      exact absurd (hlead.symm.trans hl) (by simp)
    rw [(hother ht).1]
    exact hL.llog_nil hl
  · have hl : s.lead t = some m := hl
    by_cases ht : t = s.term n
    · subst ht
      obtain rfl := Option.some.inj (hlead.symm.trans hl)
      rw [hllog, List.length_append, List.length_singleton]
      exact set₂_self _ _ _ _
    · rw [(hother ht).1, (hother ht).2]
      exact hL.lead_acked hl

theorem Logs.adopt {n : N} {k : ℕ} (hL : Logs τ s) (hg : Grows s (s.adopt n k))
    (hk : k ≤ (s.llog (s.term n)).length) : Logs τ (s.adopt n k) := by
  -- The new log is the old one or a prefix of the leader's.
  obtain ⟨hgenuine, hle⟩ : Genuine τ (s.adopt n k)
        (Basis.adopt ((s.llog (s.term n)).take k) (s.log n)) ∧
      ∀ e ∈ Basis.adopt ((s.llog (s.term n)).take k) (s.log n), τ e ≤ s.term n := by
    rcases adopt_eq ((s.llog (s.term n)).take k) (s.log n) with heq | heq
    · rw [heq]
      exact ⟨hL.log_grow hg n, fun _ => hL.log_le⟩
    · rw [heq]
      exact ⟨((hL.llog_genuine _).grow hg).of_pre <| List.take_prefix _ _,
        fun _ he => hL.llog_le (List.mem_of_mem_take he)⟩
  obtain ⟨hlogle, hloggenuine⟩ := hL.set_log hg (n := n) hgenuine hle
  obtain ⟨hacked, hterm⟩ := hL.set_acked hg (n := n) (max_le (hL.acked_le n _) hk)
  have hlead : ∀ m t, s.lead t = some m → (s.adopt n k).acked m t = (s.llog t).length :=
    forall_set₂ (p := fun m t j => s.lead t = some m → j = (s.llog t).length)
      (fun hl => by rw [hL.lead_acked hl, max_eq_left hk]) fun _ _ _ => hL.lead_acked
  exact ⟨hL.llog_nil, hL.self_grow hg, hL.clog_grow hg, hlead _ _, hlogle _ _, hL.clog_lt,
    hL.llog_le, hloggenuine, fun m t => (hL.clog_genuine m t).grow hg,
    fun t => (hL.llog_genuine t).grow hg, hacked, hterm _ _⟩

theorem Logs.step {n : N} (hV : Votes Q s) (hL : Logs τ s) (h : Step Q τ n s s') :
    Logs τ s' := by
  have hg := h.grows hV hL
  cases h with
  | advance t ht =>
      exact { hL with
        log_le := hL.le_grow hg
        acked_term := hL.acked_grow hg }
  | campaign => exact hL.campaign hg
  | grant c hfree hcand hup => exact { hL with lead_self := hL.self_grow hg }
  | elect hvote hlog hfresh hQ => exact hL.elect hg hvote hlog
  | append e hlead hlog hτ => exact hL.append hg hlead hτ
  | adopt k hlead hk => exact hL.adopt hg hk

end Murmur.Protocol
