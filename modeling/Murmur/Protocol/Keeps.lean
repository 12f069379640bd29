/-
  Acknowledgements and ballots keep their promises (`Keeps.step`).

  The one place where logs are compared is `dominates`: a candidate at least as up to date
  as a voter has what the voter acknowledged, unless the leader of the candidate's last term
  was elected without it. The rest is bookkeeping: a node that has moved on to a later
  term no longer changes what it acknowledged in an earlier one (`Step.acked_eq`).
-/
import Murmur.Protocol.Invariant

namespace Murmur.Protocol

open Murmur.Basis State

variable {N E : Type} {Q : QuorumSystem N} {τ : E → ℕ} {s s' : State N E}

/-! ## Up-to-date logs -/

theorem lastTerm_concat (τ : E → ℕ) (l : List E) (e : E) : lastTerm τ (l ++ [e]) = τ e := by
  simp [lastTerm]

/-- A genuine log with a last entry is a prefix of the log of that entry's leader. -/
theorem Genuine.pre_last {l : List E} (h : Genuine τ s l) (hne : l ≠ []) :
    l <+: s.llog (lastTerm τ l) := by
  obtain ⟨m, e, rfl⟩ := List.eq_nil_or_concat' l |>.resolve_left hne
  have := h m.length e (by simp)
  rw [List.take_of_length_le (by simp)] at this
  rwa [lastTerm_concat]

theorem Genuine.le_lastTerm {l : List E} (hL : Logs τ s) (h : Genuine τ s l) {e : E}
    (he : e ∈ l) : τ e ≤ lastTerm τ l :=
  hL.llog_le ((h.pre_last (List.ne_nil_of_mem he)).subset he)

/-- The terms of a genuine log do not decrease. -/
theorem Genuine.sorted {l : List E} (hL : Logs τ s) (h : Genuine τ s l) {i j : ℕ} {d e : E}
    (hij : i ≤ j) (hd : l[i]? = some d) (he : l[j]? = some e) : τ d ≤ τ e := by
  have hpre := h j e he
  have hd' : d ∈ l.take (j + 1) := by
    refine List.mem_of_getElem? (i := i) ?_
    rw [List.getElem?_take_of_lt (by omega)]
    exact hd
  exact hL.llog_le (hpre.subset hd')

/-- Every entry of a genuine log is of a term that had a leader. -/
theorem Genuine.has_leader {l : List E} (hL : Logs τ s) (h : Genuine τ s l) {e : E}
    (he : e ∈ l) : ∃ n, s.lead (τ e) = some n := by
  cases hl : s.lead (τ e) with
  | some n => exact ⟨n, rfl⟩
  | none =>
      obtain ⟨i, hi⟩ := List.mem_iff_getElem?.mp he
      have hpre := h i e hi
      rw [hL.llog_nil hl, List.prefix_nil] at hpre
      have hlen : (l.take (i + 1)).length = 0 := by rw [hpre]; rfl
      have := (List.getElem?_eq_some_iff.mp hi).1
      rw [List.length_take] at hlen
      omega

/-- **Log matching.** Genuine logs with entries of one term at one index agree up to it. -/
theorem Genuine.matching {l m : List E} (hl : Genuine τ s l) (hm : Genuine τ s m) {i : ℕ}
    {d e : E} (hd : l[i]? = some d) (he : m[i]? = some e) (hτ : τ d = τ e) :
    l.take (i + 1) = m.take (i + 1) := by
  have h1 := hl i d hd
  have h2 := hm i e he
  rw [hτ] at h1
  have hi : i < l.length := (List.getElem?_eq_some_iff.mp hd).1
  have hi' : i < m.length := (List.getElem?_eq_some_iff.mp he).1
  have h3 := List.prefix_of_prefix_length_le h1 h2 (by simp; omega)
  exact h3.eq_of_length (by simp; omega)

/-- A log that is at least as up to date as one that begins with the acknowledged part of
    term `t` begins with it too, unless the leader of its last term was elected without it. -/
theorem dominates (hL : Logs τ s) {c v : List E} (hc : Genuine τ s c) (hv : Genuine τ s v)
    {t k : ℕ} (hE : EndsIn τ s t k) (hkeep : (s.llog t).take k <+: v) (hup : UpToDate τ c v) :
    (s.llog t).take k <+: c ∨ (t < lastTerm τ c ∧ c ≠ [] ∧ Skips s t k (lastTerm τ c)) := by
  have hk := hE.le
  obtain ⟨e, he, hτ, hk0⟩ := hE
  -- The voter's last term is at least `t`: it holds the entry of term `t` itself.
  have hev : e ∈ v := by
    refine hkeep.subset (List.mem_of_getElem? (i := k - 1) ?_)
    rw [List.getElem?_take_of_lt (by omega)]
    exact he
  have htv : t ≤ lastTerm τ v := hτ ▸ hv.le_lastTerm hL hev
  have hvne : v ≠ [] := List.ne_nil_of_mem hev
  have hvlen : 0 < v.length := List.length_pos_of_mem hev
  have hcne : c ≠ [] := by
    rintro rfl
    rcases hup with h | ⟨_, h⟩
    · exact absurd h (by simp [lastTerm])
    · simp at h; exact hvne h
  have hcpre := hc.pre_last hcne
  rcases hup with hlt | ⟨heq, hlen⟩
  · -- A later last term: ask the leader of that term.
    obtain ⟨m, d, rfl⟩ := List.eq_nil_or_concat' c |>.resolve_left hcne
    obtain ⟨l, hl⟩ := hc.has_leader hL (e := d) (by simp)
    rw [lastTerm_concat] at hlt hcpre ⊢
    by_cases hp : (s.llog t).take k <+: s.clog l (τ d)
    · left
      have hp' := hp.trans (hL.lead_clog hl)
      rcases List.prefix_or_prefix_of_prefix hp' hcpre with h | h
      · exact h
      · -- Otherwise its last entry would be one of term `t` or earlier.
        have hd : d ∈ (s.llog t).take k := h.subset (by simp)
        have := hL.llog_le (List.mem_of_mem_take hd)
        omega
    · exact Or.inr ⟨by omega, hcne, l, hl, hp⟩
  · -- The same last term: both logs are prefixes of that leader's, the candidate's the longer.
    left
    have hvpre := hv.pre_last hvne
    rw [heq] at hcpre
    exact hkeep.trans (List.prefix_of_prefix_length_le hvpre hcpre hlen)

/-! ## Promises are kept -/

theorem Keeps.init : Keeps Q τ (State.init : State N E) where
  acked {v t k} hk := by
    have : k = 0 := by simpa [State.init] using hk
    subst this
    exact Or.inl (by simp)
  vote h := by simp [State.init] at h
  lead h := by simp [State.init] at h

/-- An acknowledgement from before a step: it is enough that what the node holds of it stays, or
    that the leader of its term was elected without it. -/
theorem Keeps.acked_old (hL : Logs τ s) (hK : Keeps Q τ s) (hg : Grows s s') {v : N} {t k : ℕ}
    (hk : k ≤ s.acked v t)
    (hheld : (s.llog t).take k <+: s.log v →
      (s.llog t).take k <+: s'.log v ∨ t < s.term v ∧ Skips s t k (s.term v)) :
    (s'.llog t).take k <+: s'.log v ∨ ∃ t', t < t' ∧ t' ≤ s'.term v ∧ Skips s' t k t' := by
  have hlen := hk.trans (hL.acked_le v t)
  have hskip : ∀ {u}, t < u → u ≤ s.term v → Skips s t k u →
      ∃ t', t < t' ∧ t' ≤ s'.term v ∧ Skips s' t k t' :=
    fun hu hu' hS => ⟨_, hu, hu'.trans (hg.term v), hS.grow hg hL.lead_self hlen⟩
  rw [hg.take_llog hlen]
  rcases hK.acked hk with hp | ⟨u, hu, hu', hS⟩
  · exact (hheld hp).imp_right fun ⟨hlt, hS⟩ => hskip hlt le_rfl hS
  · exact Or.inr (hskip hu hu' hS)

variable [DecidableEq E]

/-- The term a node adopts from: both parts are prefixes of one leader's log. -/
theorem Keeps.adopt_current (hK : Keeps Q τ s) {n : N} {j k : ℕ}
    (hk : k ≤ max (s.acked n (s.term n)) j) :
    (s.llog (s.term n)).take k <+: Basis.adopt ((s.llog (s.term n)).take j) (s.log n) := by
  rcases Nat.le_total k j with hkj | hjk
  · exact take_le_of_pre (pre_adopt _ _) hkj
  · rcases Nat.eq_or_lt_of_le hjk with rfl | hjk
    · exact pre_adopt _ _
    · have hk : k ≤ s.acked n (s.term n) := by omega
      rcases hK.acked hk with hp | ⟨u, hu, hu', -⟩
      · exact adopt_keeps hp (Or.inr (List.take_prefix_take_left hjk.le))
      · omega

/-- What a node acknowledged in an earlier term it keeps when it adopts, unless the leader it adopts
    from was elected without it. -/
theorem Logs.adopt_held (hL : Logs τ s) {n : N} {t j k : ℕ} (hlead : s.lead (s.term n) ≠ none)
    (hk : k ≤ s.acked n t) (ht : t ≠ s.term n) (hp : (s.llog t).take k <+: s.log n) :
    (s.llog t).take k <+: Basis.adopt ((s.llog (s.term n)).take j) (s.log n) ∨
      t < s.term n ∧ Skips s t k (s.term n) := by
  rcases Nat.eq_zero_or_pos k with rfl | hpos
  · exact Or.inl (by simp)
  · have hle : t ≤ s.term n := hL.acked_term (by omega)
    obtain ⟨l, hl⟩ := Option.ne_none_iff_exists'.mp hlead
    by_cases hc : (s.llog t).take k <+: s.clog l (s.term n)
    · exact Or.inl (adopt_keeps hp (List.prefix_or_prefix_of_prefix
        (hc.trans (hL.lead_clog hl)) (List.take_prefix _ _)))
    · exact Or.inr ⟨by omega, l, hl, hc⟩

variable [DecidableEq N]

/-- The only acknowledgement a step of `n` can change is that of its current term. -/
theorem Step.acked_eq {n : N} (h : Step Q τ n s s') {v : N} {t : ℕ}
    (hne : ¬ (v = n ∧ t = s.term n)) : s'.acked v t = s.acked v t := by
  cases h with
  | advance | campaign | grant => rfl
  | elect => simp [State.elect, set₂_of_ne _ _ _ _ _ hne]
  | append => simp [State.append, set₂_of_ne _ _ _ _ _ hne]
  | adopt => simp [State.adopt, set₂_of_ne _ _ _ _ _ hne]

/-- The acknowledged part of an earlier term survives a step, or a leader without it turns up. -/
theorem Keeps.acked_step {n : N} (hL : Logs τ s) (hK : Keeps Q τ s) (h : Step Q τ n s s')
    (hg : Grows s s') {v : N} {t k : ℕ} (hk : k ≤ s'.acked v t) :
    (s'.llog t).take k <+: s'.log v ∨ ∃ t', t < t' ∧ t' ≤ s'.term v ∧ Skips s' t k t' := by
  by_cases hne : v = n ∧ t = s.term n
  · obtain ⟨rfl, rfl⟩ := hne
    cases h with
    | advance | campaign | grant => exact hK.acked_old hL hg hk Or.inl
    | elect hvote hlog hfresh hQ =>
        left
        simp only [State.elect, Function.update_self]
        exact List.take_prefix _ _
    | append e hlead hlog hτ =>
        left
        simp only [State.append, Function.update_self]
        exact List.take_prefix _ _
    | adopt j hlead hj =>
        left
        simp only [State.adopt, Function.update_self, set₂_self] at hk ⊢
        exact hK.adopt_current hk
  · rw [h.acked_eq hne] at hk
    refine hK.acked_old hL hg hk fun hp => ?_
    cases h with
    | advance | campaign | grant | elect => exact Or.inl hp
    | append e hlead hlog hτ =>
        have hlog : ∀ m, s.log m <+: (s.append n e).log m :=
          forall_update (p := fun m l => s.log m <+: l) (List.prefix_append _ _)
            fun _ _ => List.prefix_rfl
        exact Or.inl (hp.trans (hlog v))
    | adopt j hlead hj =>
        by_cases hv : v = n
        · subst hv
          simp only [State.adopt, Function.update_self]
          exact hL.adopt_held hlead hk (fun ht => hne ⟨rfl, ht⟩) hp
        · simp only [State.adopt, Function.update_of_ne hv]
          exact Or.inl hp

/-- What an old ballot promises, it still promises. -/
theorem Keeps.vote_grow {n : N} (hV : Votes Q s) (hL : Logs τ s) (hK : Keeps Q τ s)
    (h : Step Q τ n s s') (hg : Grows s s') {v c : N} {t' : ℕ} (hv : s.vote v t' = some c)
    {t k : ℕ} (ht : t < t') (hk : k ≤ s'.acked v t) (hE : EndsIn τ s' t k) :
    (s'.llog t).take k <+: s'.clog c t' ∨
      ∃ u, t < u ∧ u ≤ t' ∧ Skips s t k u ∧ Skips s' t k u := by
  -- The voter is past term `t`, so what it acknowledged there is final.
  have hack : s'.acked v t = s.acked v t := by
    refine h.acked_eq ?_
    rintro ⟨rfl, rfl⟩
    exact absurd (hV.le_term hv) (by omega)
  rw [hack] at hk
  have hlen := hk.trans (hL.acked_le v t)
  rw [hg.take_llog hlen, hg.clog (hV.cand hv)]
  rcases hK.vote hv ht hk (hE.ungrow hg hlen) with hp | ⟨u, hu, hu', hS⟩
  · exact Or.inl hp
  · exact Or.inr ⟨u, hu, hu', hS, hS.grow hg hL.lead_self hlen⟩

theorem Keeps.lead_grow {n : N} (hL : Logs τ s) (hK : Keeps Q τ s)
    (h : Step Q τ n s s') (hg : Grows s s') {t' : ℕ} {l : N} (hl : s.lead t' = some l) :
    ∃ A : Set N, Q.IsQuorum A ∧ ∀ v ∈ A, t' ≤ s'.term v ∧
      ∀ {t k}, t < t' → k ≤ s'.acked v t → EndsIn τ s' t k →
        (s'.llog t).take k <+: s'.clog l t' ∨ ∃ u, t < u ∧ u < t' ∧ Skips s' t k u := by
  obtain ⟨A, hQA, hA⟩ := hK.lead hl
  refine ⟨A, hQA, fun v hv => ⟨(hA v hv).1.trans (hg.term v), fun {t k} ht hk hE => ?_⟩⟩
  have hack : s'.acked v t = s.acked v t := by
    refine h.acked_eq ?_
    rintro ⟨rfl, rfl⟩
    exact absurd (hA v hv).1 (by omega)
  rw [hack] at hk
  have hlen := hk.trans (hL.acked_le v t)
  rw [hg.take_llog hlen, hg.clog (hL.lead_self hl)]
  rcases (hA v hv).2 ht hk (hE.ungrow hg hlen) with hp | ⟨u, hu, hu', hS⟩
  · exact Or.inl hp
  · exact Or.inr ⟨u, hu, hu', hS.grow hg hL.lead_self hlen⟩

theorem Keeps.step {n : N} (hV : Votes Q s) (hL : Logs τ s) (hK : Keeps Q τ s)
    (h : Step Q τ n s s') : Keeps Q τ s' := by
  have hg := h.grows hV hL
  refine ⟨fun hk => hK.acked_step hL h hg hk, fun {v t' c} hv {t k} ht hk hE => ?_,
    fun {t' l} hl => ?_⟩
  · -- Ballots: the old ones by `vote_grow`; the new one promises by what its voter holds.
    by_cases hold : s.vote v t' = some c
    · exact (hK.vote_grow hV hL h hg hold ht hk hE).imp_right
        fun ⟨u, hu, hu', _, hS⟩ => ⟨u, hu, hu', hS⟩
    · cases h with
      | advance | elect | append | adopt => exact absurd hv hold
      | campaign =>
          by_cases hne : v = n ∧ t' = s.term n + 1
          · obtain ⟨rfl, rfl⟩ := hne
            obtain rfl : v = c := by simpa [State.campaign] using hv
            have hclog : (s.campaign v).clog v (s.term v + 1) = s.log v := by
              simp [State.campaign]
            rw [hclog]
            rcases hK.acked (v := v) hk with hp | ⟨u, hu, hu', hS⟩
            · exact Or.inl hp
            · exact Or.inr ⟨u, hu, by omega,
                hS.grow hg hL.lead_self (le_trans hk (hL.acked_le v t))⟩
          · exact absurd (by simpa [State.campaign, set₂_of_ne _ _ _ _ _ hne] using hv) hold
      | grant c' hfree hcand hup =>
          by_cases hne : v = n ∧ t' = s.term n
          · obtain ⟨rfl, rfl⟩ := hne
            obtain rfl : c' = c := by simpa [State.grant] using hv
            rcases hK.acked (v := v) hk with hp | ⟨u, hu, hu', hS⟩
            · rcases dominates hL (hL.clog_genuine c' _) (hL.log_genuine v) hE hp hup with
                hp' | ⟨hlt, hne, hS⟩
              · exact Or.inl hp'
              · obtain ⟨m, d, hd⟩ := List.eq_nil_or_concat' _ |>.resolve_left hne
                have hlt' : lastTerm τ (s.clog c' (s.term v)) < s.term v := by
                  have hmem : d ∈ s.clog c' (s.term v) := by rw [hd]; simp
                  rw [hd, lastTerm_concat]
                  exact hL.clog_lt hmem
                exact Or.inr ⟨_, hlt, hlt'.le, hS⟩
            · exact Or.inr ⟨u, hu, hu', hS⟩
          · exact absurd (by simpa [State.grant, set₂_of_ne _ _ _ _ _ hne] using hv) hold
  · by_cases hold : s.lead t' = some l
    · exact hK.lead_grow hL h hg hold
    · cases h with
      | advance | campaign | grant | append | adopt => exact absurd hl hold
      | elect hvote hlog hfresh hQ =>
          have hnone := hV.lead_none hfresh hQ
          have ht' : t' = s.term n := by
            by_contra hne
            exact hold (by simpa [State.elect, hne] using hl)
          subst ht'
          obtain rfl : n = l := by simpa [State.elect] using hl
          -- The voters that elected it; nobody led this term before.
          refine ⟨{v | s.vote v (s.term n) = some n}, hQ, fun v hv =>
            ⟨hV.le_term hv, fun {t k} ht hk hE => ?_⟩⟩
          rcases hK.vote_grow hV hL (Step.elect hvote hlog hfresh hQ) hg hv ht hk hE with
            hp | ⟨u, hu, hu', ⟨m, hm, _⟩, hS⟩
          · exact Or.inl hp
          · refine Or.inr ⟨u, hu, lt_of_le_of_ne hu' ?_, hS⟩
            rintro rfl
            rw [hnone] at hm
            exact absurd hm (by simp)

end Murmur.Protocol
