/-
  The reference: the state machine over the plain map that has applied the first entries of one
  fixed log, and how the requests of a client show in it.

  * `reference`: the state after `n` entries; `Effective`: the entries that reach the engine.
  * `effective_once`, `effective_first`: a request of an identified client is effective at one
    entry, and none of its entries is before that one.
  * `answer_of_repeated`: an entry of the client's latest request answers what the effective one
    did.
-/
import Murmur.App.Snapshot

namespace Murmur.App

open Murmur.Raft (Bytes HashMap)

/-- The state machine that has applied the first `n` entries of the committed log. -/
def reference (log : List Command) (n : Nat) : Replica (Bytes → Option Bytes) :=
  ((Replica.start fun _ => none).applyAll mapDb (log.take n)).1

namespace Replica

variable {r₀ ref : Replica (Bytes → Option Bytes)} {done : List Command} {c : Command}

/-- A command that is not effective changes no replica with this table. -/
theorem apply_idle (h : Tracks mapDb r₀ done ref) (hno : isEffective done c = false)
    (r : Replica (Bytes → Option Bytes)) (hr : r.dedup = ref.dedup) :
    (r.applyCommitted mapDb c).1 = r := by
  cases hm : c.isMutation with
  | false => rw [apply_bypass mapDb (Or.inl hm), run_read mapDb hm]
  | true =>
      have hid : c.clientId ≠ 0 := by
        intro h0
        have hyes : isEffective done c = true := isEffective_iff.mpr ⟨hm, Or.inl h0⟩
        rw [hno] at hyes
        cases hyes
      have hold : ¬ ∀ last, ref.dedup.lookup c.clientId = some last → last.seq < c.seq := by
        intro hall
        have := (h.effective_iff hm hid).mpr hall
        rw [hno] at this
        cases this
      push Not at hold
      obtain ⟨last, hl, hle⟩ := hold
      rw [← hr] at hl
      rw [apply_repeated mapDb hm hid hl (UInt64.not_lt.mp hle)]

end Replica

variable {log log' : List Command} {n : Nat}

theorem reference_zero : reference log 0 = .start fun _ => none := by
  unfold reference
  rw [List.take_zero]
  rfl

theorem reference_succ {c : Command} (hc : log[n]? = some c) :
    reference log (n + 1) = ((reference log n).applyCommitted mapDb c).1 := by
  unfold reference
  rw [List.take_add_one, hc, Replica.applyAll_append]
  rfl

theorem reference_listed (n : Nat) : (reference log n).Listed :=
  Replica.start_listed.applyAll (log.take n)

theorem reference_tracks (log : List Command) (n : Nat) : Tracks mapDb (.start fun _ => none)
    (effective [] (log.take n)) (reference log n) :=
  (Tracks.start mapDb _).run _

theorem reference_congr (h : log.take n = log'.take n) : reference log n = reference log' n := by
  unfold reference
  rw [h]

/-! ## Effective entries -/

theorem effective_append (done cs ds : List Command) :
    effective done (cs ++ ds) = effective (effective done cs) ds := by
  induction cs generalizing done with
  | nil => rfl
  | cons c cs ih => exact ih _

theorem subset_effective (done cs : List Command) : done ⊆ effective done cs := by
  induction cs generalizing done with
  | nil => exact List.Subset.refl _
  | cons c cs ih =>
      refine List.Subset.trans ?_ (ih _)
      split
      · exact List.subset_append_left _ _
      · exact List.Subset.refl _

/-- Entry `i + 1` of the log is the command `c`, and it reaches the engine. -/
def Effective (log : List Command) (i : Nat) (c : Command) : Prop :=
  log[i]? = some c ∧ isEffective (effective [] (log.take i)) c = true

variable {i j : Nat} {c d : Command}

/-- What was effective stays on record. -/
theorem effective_take_subset (hij : i ≤ j) :
    effective [] (log.take i) ⊆ effective [] (log.take j) := by
  obtain ⟨t, ht⟩ := List.take_prefix_take_left (l := log) hij
  rw [← ht, effective_append]
  exact subset_effective _ _

theorem Effective.mem (h : Effective log i c) (hij : i < j) : c ∈ effective [] (log.take j) := by
  refine effective_take_subset (show i + 1 ≤ j from hij) ?_
  rw [List.take_add_one, h.1, effective_append]
  show c ∈ if isEffective _ c then _ else _
  rw [if_pos h.2]
  exact List.mem_append_right _ List.mem_cons_self

/-- No entry of an identified request is before the effective one. -/
theorem effective_first (hd : Effective log j d) (hc : log[i]? = some c)
    (hm : c.isMutation = true) (hid : c.clientId ≠ 0) (hclient : c.clientId = d.clientId)
    (hseq : c.seq = d.seq) : j ≤ i := by
  by_contra hlt
  push Not at hlt
  have hnew := (isEffective_iff.mp hd.2).2.resolve_left (hclient ▸ hid)
  by_cases heff : isEffective (effective [] (log.take i)) c = true
  · have := hnew c (Effective.mem ⟨hc, heff⟩ hlt) hclient
    rw [hseq] at this
    exact UInt64.lt_irrefl _ this
  · -- Then a request of at least this seq was effective before.
    have hno : ¬ ∀ e ∈ effective [] (log.take i), e.clientId = c.clientId → e.seq < c.seq :=
      fun hall => heff (isEffective_iff.mpr ⟨hm, Or.inr hall⟩)
    push Not at hno
    obtain ⟨e, he, hec, hle⟩ := hno
    have := hnew e (effective_take_subset (Nat.le_of_lt hlt) he) (hec.trans hclient)
    rw [← hseq] at this
    exact hle this

/-- An identified request is effective at one entry only. -/
theorem effective_once (hc : Effective log i c) (hd : Effective log j d) (hid : c.clientId ≠ 0)
    (hclient : c.clientId = d.clientId) (hseq : c.seq = d.seq) : i = j := by
  have hmc := (isEffective_iff.mp hc.2).1
  have hmd := (isEffective_iff.mp hd.2).1
  apply Nat.le_antisymm
  · exact effective_first hc hd.1 hmd (hclient ▸ hid) hclient.symm hseq.symm
  · exact effective_first hd hc.1 hmc hid hclient hseq

/-! ## What the table remembers -/

/-- The outcome of applying `c` after the first `i` entries. -/
def outcomeAt (log : List Command) (i : Nat) (c : Command) : Outcome :=
  ((reference log i).applyCommitted mapDb c).2

/-- A record of the table is the outcome of an effective entry. -/
theorem reference_cached {id : UInt64} {last : LastApplied} (hn : n ≤ log.length)
    (hl : (reference log n).dedup.lookup id = some last) :
    ∃ i d, i < n ∧ Effective log i d ∧ d.clientId = id ∧ d.seq = last.seq ∧
      last.outcome = outcomeAt log i d := by
  induction n with
  | zero =>
      rw [reference_zero] at hl
      cases hl
  | succ n ih =>
      have hc : log[n]? = some log[n] := List.getElem?_eq_getElem (by omega)
      have htr := reference_tracks log n
      have hold : (reference log (n + 1)).dedup = (reference log n).dedup →
          ∃ i d, i < n + 1 ∧ Effective log i d ∧ d.clientId = id ∧ d.seq = last.seq ∧
            last.outcome = outcomeAt log i d := by
        intro hsame
        obtain ⟨i, d, hi, hd⟩ := ih (by omega) (hsame ▸ hl)
        exact ⟨i, d, by omega, hd⟩
      have hsucc := reference_succ hc
      cases heff : isEffective (effective [] (log.take n)) log[n] with
      | false =>
          rw [Replica.apply_idle htr heff _ rfl] at hsucc
          exact hold (by rw [hsucc])
      | true =>
          have hm := (isEffective_iff.mp heff).1
          by_cases hid : log[n].clientId = 0
          · rw [Replica.apply_bypass mapDb (Or.inr hid)] at hsucc
            exact hold (by rw [hsucc, Replica.run_keeps_dedup])
          · have hfresh := Replica.apply_fresh mapDb hm hid ((htr.effective_iff hm hid).mp heff)
            rw [hfresh] at hsucc
            by_cases hsame : id = log[n].clientId
            · subst hsame
              rw [hsucc, Replica.runOnce_dedup, Finmap.lookup_insert] at hl
              cases hl
              refine ⟨n, log[n], Nat.lt_succ_self n, ⟨hc, heff⟩, rfl, rfl, ?_⟩
              unfold outcomeAt
              rw [hfresh]
            · rw [hsucc, Replica.runOnce_dedup, Finmap.lookup_insert_of_ne _ hsame] at hl
              obtain ⟨i, d, hi, hd⟩ := ih (by omega) hl
              exact ⟨i, d, by omega, hd⟩

/-- An entry of the client's latest request answers what the effective one did. -/
theorem answer_of_repeated (hc : log[j]? = some c) (hm : c.isMutation = true)
    (hid : c.clientId ≠ 0) (hlatest : ∀ d ∈ log.take j, d.clientId = c.clientId → d.seq ≤ c.seq) :
    ∃ i d, i ≤ j ∧ Effective log i d ∧ d.clientId = c.clientId ∧ d.seq = c.seq ∧
      outcomeAt log j c = outcomeAt log i d := by
  have hj := (List.getElem?_eq_some_iff.mp hc).1
  by_cases heff : isEffective (effective [] (log.take j)) c = true
  · exact ⟨j, c, Nat.le_refl j, ⟨hc, heff⟩, rfl, rfl, rfl⟩
  · have hno := mt ((reference_tracks log j).effective_iff hm hid).mpr heff
    push Not at hno
    obtain ⟨last, hl, hle⟩ := hno
    have hle := UInt64.not_lt.mp hle
    obtain ⟨i, d, hi, hd, hclient, hseq, hout⟩ := reference_cached (Nat.le_of_lt hj) hl
    have hmem : d ∈ log.take j :=
      List.mem_of_getElem? (by rw [List.getElem?_take_of_lt hi]; exact hd.1)
    have hge := hlatest d hmem hclient
    refine ⟨i, d, Nat.le_of_lt hi, hd, hclient, ?_, ?_⟩
    · exact UInt64.le_antisymm hge (hseq ▸ hle)
    · rw [← hout]
      unfold outcomeAt
      rw [Replica.apply_repeated mapDb hm hid hl hle]

end Murmur.App
