/-
  Safety of the abstract protocol.

  * `leader_completeness`: what a quorum acknowledged in a term, up to an entry of that term,
    every later leader was elected with.
  * `Committed.comparable`: any two committed logs are prefixes of one another.
  * `Committed.stable`: a replica never gives up a committed prefix of its log.
  * `Quiet`: no leader has appended an entry of its own; every step but `append` is quiet.
  * `Later.inv`, `Later.grows`, `Later.stable`: the same along any number of steps, and
    `Moves.local`: what the steps of one node leave alone.
-/
import Murmur.Protocol.Keeps

namespace Murmur.Protocol

open Murmur.Basis State

variable {N E : Type} {Q : QuorumSystem N} {τ : E → ℕ} {s s' : State N E}

/-! ## The invariant -/

/-- The invariants of the protocol together. -/
structure Inv (Q : QuorumSystem N) (τ : E → ℕ) (s : State N E) : Prop where
  votes : Votes Q s
  logs : Logs τ s
  keeps : Keeps Q τ s

theorem Inv.init : Inv Q τ (State.init : State N E) :=
  ⟨Votes.init, Logs.init, Keeps.init⟩

/-- In the term it acknowledged, a node holds what it acknowledged. -/
theorem Inv.acked_held (hI : Inv Q τ s) {v : N} {k : ℕ} (hk : k ≤ s.acked v (s.term v)) :
    (s.llog (s.term v)).take k <+: s.log v := by
  rcases hI.keeps.acked hk with hp | ⟨u, hu, hu', _⟩
  · exact hp
  · omega

/-! ## Where entries come from -/

/-- Entry `i` of the leader's log of `t` was appended in term `t` itself. -/
def Owns (τ : E → ℕ) (s : State N E) (t i : ℕ) (e : E) : Prop :=
  (s.llog t)[i]? = some e ∧ τ e = t

/-- No entry has been appended. -/
def Quiet (τ : E → ℕ) (s s' : State N E) : Prop :=
  ∀ {t i e}, Owns τ s' t i e → Owns τ s t i e

theorem Quiet.refl (s : State N E) : Quiet τ s s := fun h => h

theorem Quiet.trans {s'' : State N E} (h : Quiet τ s s') (h' : Quiet τ s' s'') : Quiet τ s s'' :=
  fun ho => h (h' ho)

/-- A new leader begins with entries of earlier terms only. -/
theorem quiet_elect [DecidableEq N] (hI : Inv Q τ s) {n : N}
    (hlog : s.clog n (s.term n) = s.log n) : Quiet τ s (s.elect n) := by
  intro t i e ho
  have hllog : (s.elect n).llog = Function.update s.llog (s.term n) (s.log n) := rfl
  unfold Owns at ho
  rw [hllog] at ho
  by_cases ht : t = s.term n
  · subst ht
    rw [Function.update_self, ← hlog] at ho
    have := hI.logs.clog_lt (List.mem_of_getElem? ho.1)
    omega
  · rwa [Function.update_of_ne ht] at ho

/-- An append adds the one entry. -/
theorem owns_append [DecidableEq N] {n : N} {e : E} (hlog : s.llog (s.term n) = s.log n) {t i : ℕ}
    {d : E} (ho : Owns τ (s.append n e) t i d) :
    Owns τ s t i d ∨ t = s.term n ∧ i = (s.log n).length ∧ d = e := by
  have hllog : (s.append n e).llog = Function.update s.llog (s.term n) (s.log n ++ [e]) := rfl
  unfold Owns at ho
  rw [hllog] at ho
  by_cases ht : t = s.term n
  · subst ht
    rw [Function.update_self] at ho
    rcases Nat.lt_or_ge i (s.log n).length with hlt | hge
    · rw [List.getElem?_append_left hlt, ← hlog] at ho
      exact Or.inl ho
    · rw [List.getElem?_append_right hge] at ho
      obtain ⟨hi, hd⟩ := List.getElem?_eq_some_iff.mp ho.1
      rw [List.length_singleton] at hi
      refine Or.inr ⟨rfl, by omega, ?_⟩
      rw [← hd]
      exact List.getElem_singleton _
  · rw [Function.update_of_ne ht] at ho
    exact Or.inl ho

/-- An entry of a genuine log is owned by the leader of its term. -/
theorem Genuine.owns {l : List E} (h : Genuine τ s l) {i : ℕ} {e : E} (he : l[i]? = some e) :
    Owns τ s (τ e) i e := by
  refine ⟨getElem?_of_pre (h i e he) ?_, rfl⟩
  rw [List.getElem?_take_of_lt (Nat.lt_succ_self i)]
  exact he

/-! ## Leader completeness -/

/-- A quorum acknowledged the leader's log of `t` up to entry `k`, which is of term `t`. -/
def Chosen (Q : QuorumSystem N) (τ : E → ℕ) (s : State N E) (t k : ℕ) : Prop :=
  EndsIn τ s t k ∧ Q.IsQuorum {v | k ≤ s.acked v t}

/-- **Leader completeness.** Every later leader was elected with what was chosen. -/
theorem leader_completeness (hI : Inv Q τ s) {t k t' : ℕ} {n : N} (hc : Chosen Q τ s t k)
    (hl : s.lead t' = some n) (ht : t < t') : (s.llog t).take k <+: s.clog n t' := by
  induction t' using Nat.strong_induction_on generalizing n with
  | _ t' ih =>
    obtain ⟨A, hQA, hA⟩ := hI.keeps.lead hl
    -- A voter of `n` that acknowledged the chosen entries.
    obtain ⟨v, hvA, hvk⟩ := Q.inter hQA hc.2
    rcases (hA v hvA).2 ht hvk hc.1 with hp | ⟨u, hu, hu', m, hm, hno⟩
    · exact hp
    · exact absurd (ih u hu' hm hu) hno

theorem Chosen.has_leader (hI : Inv Q τ s) {t k : ℕ} (hc : Chosen Q τ s t k) :
    ∃ n, s.lead t = some n := by
  obtain ⟨⟨e, he, hτ, _⟩, _⟩ := hc
  obtain ⟨n, hn⟩ := (hI.logs.llog_genuine t).has_leader hI.logs (List.mem_of_getElem? he)
  exact ⟨n, hτ ▸ hn⟩

theorem Chosen.grow {t k : ℕ} (hc : Chosen Q τ s t k) (hg : Grows s s') : Chosen Q τ s' t k :=
  ⟨hc.1.grow hg, Q.mono (fun v hv => le_trans hv (hg.acked v t)) hc.2⟩

/-! ## Committed logs -/

/-- The list `m` is part of what was chosen in a term up to `T`. -/
def Committed (Q : QuorumSystem N) (τ : E → ℕ) (s : State N E) (T : ℕ) (m : List E) : Prop :=
  m = [] ∨ ∃ t k, t ≤ T ∧ Chosen Q τ s t k ∧ m <+: (s.llog t).take k

theorem Committed.nil (s : State N E) (T : ℕ) : Committed Q τ s T [] := Or.inl rfl

theorem Committed.mono {T T' : ℕ} {m : List E} (h : Committed Q τ s T m) (hT : T ≤ T') :
    Committed Q τ s T' m :=
  h.imp_right fun ⟨t, k, ht, hc, hm⟩ => ⟨t, k, ht.trans hT, hc, hm⟩

theorem Committed.of_pre {T : ℕ} {m l : List E} (h : Committed Q τ s T m) (hl : l <+: m) :
    Committed Q τ s T l := by
  rcases h with rfl | ⟨t, k, ht, hc, hm⟩
  · exact Or.inl (List.prefix_nil.mp hl)
  · exact Or.inr ⟨t, k, ht, hc, hl.trans hm⟩

theorem Committed.grow {T : ℕ} {m : List E} (h : Committed Q τ s T m) (hg : Grows s s') :
    Committed Q τ s' T m := by
  refine h.imp_right fun ⟨t, k, ht, hc, hm⟩ => ⟨t, k, ht, hc.grow hg, ?_⟩
  rwa [hg.take_llog hc.1.le]

/-- The leader of a term was elected with all that is committed below its term. -/
theorem Committed.pre_clog (hI : Inv Q τ s) {T T' : ℕ} {m : List E} {n : N}
    (h : Committed Q τ s T m) (hT : T < T') (hl : s.lead T' = some n) : m <+: s.clog n T' := by
  rcases h with rfl | ⟨t, k, ht, hc, hm⟩
  · exact List.nil_prefix
  · exact hm.trans (leader_completeness hI hc hl (by omega))

/-- The leader of a term has all that is committed up to its term. -/
theorem Committed.pre_llog (hI : Inv Q τ s) {T : ℕ} {m : List E} {n : N}
    (h : Committed Q τ s T m) (hl : s.lead T = some n) : m <+: s.llog T := by
  rcases h with rfl | ⟨t, k, ht, hc, hm⟩
  · exact List.nil_prefix
  · rcases Nat.eq_or_lt_of_le ht with rfl | hlt
    · exact hm.trans <| List.take_prefix _ _
    · exact hm.trans ((leader_completeness hI hc hl hlt).trans (hI.logs.lead_clog hl))

theorem Committed.exists_llog (hI : Inv Q τ s) {T : ℕ} {m : List E} (h : Committed Q τ s T m)
    (hne : m ≠ []) : ∃ t n, t ≤ T ∧ s.lead t = some n ∧ Committed Q τ s t m := by
  rcases h with rfl | ⟨t, k, ht, hc, hm⟩
  · exact absurd rfl hne
  · obtain ⟨n, hn⟩ := hc.has_leader hI
    exact ⟨t, n, ht, hn, Or.inr ⟨t, k, le_rfl, hc, hm⟩⟩

/-- An entry of a committed list is owned by the leader of its term. -/
theorem Committed.owns (hI : Inv Q τ s) {T : ℕ} {m : List E} (h : Committed Q τ s T m) {i : ℕ}
    {e : E} (he : m[i]? = some e) : Owns τ s (τ e) i e := by
  rcases h with rfl | ⟨t, k, -, -, hm⟩
  · cases he
  · have hpre : m <+: s.llog t := hm.trans <| List.take_prefix _ _
    exact (hI.logs.llog_genuine t).owns (getElem?_of_pre hpre he)

/-- **Agreement.** Of two committed lists one is a prefix of the other. -/
theorem Committed.comparable (hI : Inv Q τ s) {T T' : ℕ} {m m' : List E}
    (h : Committed Q τ s T m) (h' : Committed Q τ s T' m') : m <+: m' ∨ m' <+: m := by
  rcases eq_or_ne m [] with rfl | hne
  · exact Or.inl List.nil_prefix
  rcases eq_or_ne m' [] with rfl | hne'
  · exact Or.inr List.nil_prefix
  -- Both are prefixes of the log of the later of the two leaders.
  obtain ⟨t, n, _, hn, hc⟩ := h.exists_llog hI hne
  obtain ⟨t', n', _, hn', hc'⟩ := h'.exists_llog hI hne'
  rcases Nat.le_total t t' with htt | htt
  · exact List.prefix_or_prefix_of_prefix ((hc.mono htt).pre_llog hI hn') (hc'.pre_llog hI hn')
  · exact List.prefix_or_prefix_of_prefix (hc.pre_llog hI hn) ((hc'.mono htt).pre_llog hI hn)

/-- Committed lists agree wherever both have an entry. -/
theorem Committed.agree (hI : Inv Q τ s) {T T' : ℕ} {m m' : List E}
    (h : Committed Q τ s T m) (h' : Committed Q τ s T' m') {i : ℕ} {d e : E}
    (hd : m[i]? = some d) (he : m'[i]? = some e) : d = e := by
  rcases h.comparable hI h' with hp | hp
  · rw [getElem?_of_pre hp hd] at he; exact Option.some.inj he
  · rw [getElem?_of_pre hp he] at hd; exact (Option.some.inj hd).symm

/-! ## What one node's steps leave alone -/

/-- What the steps of node `n` leave alone. -/
structure Local (n : N) (s s' : State N E) : Prop where
  term : ∀ {m}, m ≠ n → s'.term m = s.term m
  log : ∀ {m}, m ≠ n → s'.log m = s.log m
  vote : ∀ {m}, m ≠ n → s'.vote m = s.vote m
  clog : ∀ {m}, m ≠ n → s'.clog m = s.clog m
  acked : ∀ {m}, m ≠ n → s'.acked m = s.acked m
  lead : ∀ {m t}, m ≠ n → s'.lead t = some m → s.lead t = some m
  llog : ∀ {m t}, m ≠ n → s.lead t = some m → s'.llog t = s.llog t

theorem Local.refl (n : N) (s : State N E) : Local n s s :=
  ⟨fun _ => rfl, fun _ => rfl, fun _ => rfl, fun _ => rfl, fun _ => rfl, fun _ h => h,
    fun _ _ => rfl⟩

theorem Local.trans {n : N} {s'' : State N E} (hg : Grows s s') (h : Local n s s')
    (h' : Local n s' s'') : Local n s s'' where
  term hm := (h'.term hm).trans (h.term hm)
  log hm := (h'.log hm).trans (h.log hm)
  vote hm := (h'.vote hm).trans (h.vote hm)
  clog hm := (h'.clog hm).trans (h.clog hm)
  acked hm := (h'.acked hm).trans (h.acked hm)
  lead hm hl := h.lead hm (h'.lead hm hl)
  llog hm hl := (h'.llog hm (hg.lead hl)).trans (h.llog hm hl)

/-! ## Steps -/

variable [DecidableEq N] [DecidableEq E]

theorem Inv.step {n : N} (hI : Inv Q τ s) (h : Step Q τ n s s') : Inv Q τ s' :=
  ⟨hI.votes.step hI.logs h, hI.logs.step hI.votes h, hI.keeps.step hI.votes hI.logs h⟩

/-- No step takes a committed prefix away from a log. -/
theorem Committed.stable {n v : N} (hI : Inv Q τ s) (h : Step Q τ n s s') {m : List E}
    (hm : Committed Q τ s (s.term v) m) (hp : m <+: s.log v) : m <+: s'.log v := by
  cases h with
  | advance | campaign | grant | elect => exact hp
  | append e hlead hlog hτ =>
      by_cases hv : v = n
      · subst hv
        simp only [State.append, Function.update_self]
        exact hp.trans (List.prefix_append _ _)
      · simpa [State.append, hv] using hp
  | adopt k hlead hk =>
      by_cases hv : v = n
      · subst hv
        obtain ⟨l, hl⟩ := Option.ne_none_iff_exists'.mp hlead
        simp only [State.adopt, Function.update_self]
        exact adopt_keeps hp (List.prefix_or_prefix_of_prefix (hm.pre_llog hI hl)
          (List.take_prefix _ _))
      · simpa [State.adopt, hv] using hp

/-! ## Sequences of steps -/

/-- Any number of steps of node `n`. -/
def Moves (Q : QuorumSystem N) (τ : E → ℕ) (n : N) : State N E → State N E → Prop :=
  Relation.ReflTransGen (Step Q τ n)

/-- Any number of steps of any nodes. -/
def Later (Q : QuorumSystem N) (τ : E → ℕ) : State N E → State N E → Prop :=
  Relation.ReflTransGen fun s s' => ∃ n, Step Q τ n s s'

theorem Moves.later {n : N} (h : Moves Q τ n s s') : Later Q τ s s' :=
  Relation.ReflTransGen.mono (fun _ _ hs => ⟨n, hs⟩) _ _ h

theorem Later.inv (h : Later Q τ s s') (hI : Inv Q τ s) : Inv Q τ s' := by
  induction h with
  | refl => exact hI
  | tail _ hs ih =>
      obtain ⟨n, hn⟩ := hs
      exact ih.step hn

theorem Later.grows (h : Later Q τ s s') (hI : Inv Q τ s) : Grows s s' := by
  induction h with
  | refl => exact Grows.refl s
  | tail hs hstep ih =>
      obtain ⟨n, hn⟩ := hstep
      have hI' := Later.inv hs hI
      exact ih.trans (hn.grows hI'.votes hI'.logs)

/-- A committed prefix of a log stays one. -/
theorem Later.stable (h : Later Q τ s s') (hI : Inv Q τ s) {v : N} {m : List E}
    (hm : Committed Q τ s (s.term v) m) (hp : m <+: s.log v) : m <+: s'.log v := by
  induction h with
  | refl => exact hp
  | tail hs hstep ih =>
      obtain ⟨n, hn⟩ := hstep
      have hg := Later.grows hs hI
      exact ((hm.grow hg).mono (hg.term v)).stable (Later.inv hs hI) hn ih

theorem set₂_ne {β : Type} (f : N → ℕ → β) {n m : N} (t : ℕ) (b : β) (h : m ≠ n) :
    set₂ f n t b m = f m := by
  simp [set₂, h]

theorem Step.local {n : N} (hI : Inv Q τ s) (h : Step Q τ n s s') : Local n s s' := by
  cases h with
  | advance t ht =>
      exact ⟨fun h => by simp [State.advance, h], fun _ => rfl, fun _ => rfl, fun _ => rfl,
        fun _ => rfl, fun _ h => h, fun _ _ => rfl⟩
  | campaign =>
      exact ⟨fun h => by simp [State.campaign, h], fun _ => rfl,
        fun h => by simp [State.campaign, set₂_ne _ _ _ h],
        fun h => by simp [State.campaign, set₂_ne _ _ _ h], fun _ => rfl, fun _ h => h,
        fun _ _ => rfl⟩
  | grant c hfree hcand hup =>
      exact ⟨fun _ => rfl, fun _ => rfl, fun h => by simp [State.grant, set₂_ne _ _ _ h],
        fun _ => rfl, fun _ => rfl, fun _ h => h, fun _ _ => rfl⟩
  | elect hvote hlog hfresh hQ =>
      have hnone := hI.votes.lead_none hfresh hQ
      refine ⟨fun _ => rfl, fun _ => rfl, fun _ => rfl, fun _ => rfl,
        fun h => by simp [State.elect, set₂_ne _ _ _ h], fun {m t} hm hl => ?_,
        fun {m t} _ hl => ?_⟩
      · by_cases ht : t = s.term n
        · subst ht
          exact absurd (by simpa [State.elect, eq_comm] using hl) hm
        · simpa [State.elect, ht] using hl
      · have ht : t ≠ s.term n := by
          rintro rfl; rw [hnone] at hl; exact absurd hl (by simp)
        simp [State.elect, ht]
  | append e hlead hlog hτ =>
      refine ⟨fun _ => rfl, fun h => by simp [State.append, h], fun _ => rfl, fun _ => rfl,
        fun h => by simp [State.append, set₂_ne _ _ _ h], fun _ h => h, fun {m t} hm hl => ?_⟩
      have ht : t ≠ s.term n := by
        rintro rfl
        rw [hlead] at hl
        exact hm (Option.some.inj hl).symm
      simp [State.append, ht]
  | adopt k hlead hk =>
      exact ⟨fun _ => rfl, fun h => by simp [State.adopt, h], fun _ => rfl, fun _ => rfl,
        fun h => by simp [State.adopt, set₂_ne _ _ _ h], fun _ h => h, fun _ _ => rfl⟩

theorem Moves.local {n : N} (h : Moves Q τ n s s') (hI : Inv Q τ s) : Local n s s' := by
  induction h with
  | refl => exact Local.refl n s
  | tail hs hstep ih =>
      have hI' := Later.inv (Moves.later hs) hI
      exact Local.trans (Later.grows (Moves.later hs) hI) ih (hstep.local hI')

end Murmur.Protocol
