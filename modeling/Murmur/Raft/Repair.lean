/-
  Log repair converges.

  * A follower accepts a message that starts within what it has of the leader's log
    (`consistent_of_pre`), and then has all of it (`accepted_settled`).
  * `Resumes`: where a rejection sends the leader. `rank` counts the terms of the follower's tail
    that are still in question, and falls with every rejection but the one before the end.
  * `repair_converges`: an AppendEntries is accepted, after how many rejections and snapshots, and
    what the follower then holds.
-/
import Murmur.Raft.Completeness
import Murmur.Raft.Evidence
import Murmur.Raft.Exchange
import Murmur.Raft.Segments

namespace Murmur.Raft

open Murmur.Basis Murmur.Protocol ConsensusModule

variable {cfg : ClusterConfig} {s s' : Cluster} {a : Ghost} {n p : NodeId} {c : ConsensusModule}

/-! ## What makes a round succeed -/

/-- A follower that has the leader's log up to the start of a message accepts it. -/
theorem consistent_of_pre (hr : Refines cfg True s a) (he : Engaged cfg n p s)
    (hneed : ¬ (s.core n).needsSnapshot p = true)
    (hpre : (a.log n).take ((s.core n).appendArgsFor p).prevLogIndex <+: a.log p) :
    (s.core p).consistent ((s.core n).appendArgsFor p) = true := by
  have hN := hr.nodes n he.member
  have hP := hr.nodes p he.follower
  have hlen := (prev_bounds hN he.role hneed).2
  have hterm := (appendArgsFor_segment hN he.role hneed).term
  have hcur : ((s.core n).appendArgsFor p).term = a.term n := hN.mirrors.term
  rw [hcur, (hN.leadership he.role).log] at hterm
  generalize (s.core n).appendArgsFor p = args at hpre hlen hterm ⊢
  have hheld : plainTerm (a.log p) args.prevLogIndex = some args.prevLogTerm := by
    refine plainTerm_grow hpre ?_
    rwa [plainTerm_take _ (Nat.le_refl _)]
  unfold consistent
  rw [decide_eq_true_iff]
  rcases Nat.lt_or_ge args.prevLogIndex (s.core p).log.snapshotIndex with hlt | hge
  · exact .inl hlt.le
  · exact .inr (by rw [hP.mirrors.log.termAt_eq hge, hheld])

/-- What the follower has acknowledged in the leader's term it holds. -/
theorem pre_of_acked (hr : Refines cfg True s a) (he : Engaged cfg n p s) {k : Nat}
    (hk : k ≤ a.acked p (a.term n)) : (a.log n).take k <+: a.log p := by
  have hN := hr.nodes n he.member
  have hP := hr.nodes p he.follower
  by_cases hzero : k = 0
  · simp [hzero]
  · have hle := hr.safe.logs.acked_term (v := p) (t := a.term n) (by omega)
    have hge := he.term_le
    rw [hN.mirrors.term, hP.mirrors.term] at hge
    have hterm : a.term p = a.term n := Nat.le_antisymm hge hle
    rw [← hterm] at hk
    have hheld := hr.safe.acked_held hk
    rwa [hterm, (hN.leadership he.role).log] at hheld

/-- What the follower takes as committed in the leader's term is the leader's log. -/
theorem pre_of_committed (hr : Refines cfg True s a) (he : Engaged cfg n p s)
    (hcur : (s.core p).currentTerm = (s.core n).currentTerm) {k : Nat}
    (hk : k ≤ (s.core p).commitIndex) : (a.log n).take k <+: a.log p := by
  have hN := hr.nodes n he.member
  have hP := hr.nodes p he.follower
  have hL := hN.leadership he.role
  have hterm : a.term p = a.term n := by rw [← hN.mirrors.term, ← hP.mirrors.term, hcur]
  have hpre := hP.pre_committed hr.safe (by rw [hterm]; exact hL.lead) hk
  rwa [hterm, hL.log] at hpre

/-- The follower has got as far as the leader, and where both still hold an entry it is the same. -/
structure Settled (x : Session) : Prop where
  last : x.leader.log.lastIndex ≤ x.follower.log.lastIndex
  agree : ∀ {i d e}, x.leader.log.get i = some d → x.follower.log.get i = some e → d = e

theorem settled_of_pre (hr : Refines cfg True s a) (he : Engaged cfg n p s)
    (hpre : a.log n <+: a.log p) : Settled (s.session n p) := by
  have hN := (hr.nodes n he.member).mirrors.log
  have hP := (hr.nodes p he.follower).mirrors.log
  constructor
  · show (s.core n).log.lastIndex ≤ (s.core p).log.lastIndex
    rw [hN.lastIndex_eq, hP.lastIndex_eq]
    exact hpre.length_le
  · intro i d e hd he
    have hd := (hN.getElem?_of_get hd).1
    have he := (hP.getElem?_of_get he).1
    rw [getElem?_of_pre hpre hd] at he
    exact Option.some.inj he

/-- An accepted message leaves the two logs settled. -/
theorem accepted_settled (he : Engaged cfg n p s) (hneed : ¬ (s.core n).needsSnapshot p = true)
    (hcons : (s.core p).consistent ((s.core n).appendArgsFor p) = true) (now : Instant)
    (draw : Nat) : Settled (exchange (s.session n p) now draw).after := by
  obtain ⟨s', he', hsession, rpc, hmem, -, hpeer, hreq⟩ := exchange_engaged now draw he
  obtain ⟨-, hterm, hlog, -⟩ := exchange_stays now draw he
  rw [← hsession] at hterm hlog ⊢
  have hok := (handleAppendEntries_accepted he.append_term hcons now draw).1
  obtain ⟨a, hr⟩ := reachable_refines he.reachable
  obtain ⟨a', hr'⟩ := reachable_refines he'.reachable
  have hN' := hr'.nodes n he'.member
  -- The answer is on record, and acknowledges the leader's whole log.
  have hreply := (hr'.replies _ hmem).2
  have hrequest : rpc.request = .append ((s.core n).appendArgsFor p) := by
    rw [hreq]
    simp [nextRequest, hneed]
  rw [exchange_append now draw he hneed, hrequest, hpeer] at hreply
  have hack := (hreply.1 hok).2
  have hlen : (a'.log n).length = (a.log n).length := by
    have hlog : (s'.core n).log = (s.core n).log := hlog
    rw [← hN'.mirrors.log.lastIndex_eq, hlog,
      (hr.nodes n he.member).mirrors.log.lastIndex_eq]
  have hcur : ((s.core n).appendArgsFor p).term = a'.term n := by
    rw [← hN'.mirrors.term]
    exact hterm.symm
  rw [(appendArgsFor_covers (hr.nodes n he.member) he.role hneed).2, ← hlen, hcur] at hack
  have hpre := pre_of_acked hr' he' hack
  rw [List.take_length] at hpre
  exact settled_of_pre hr' he' hpre

/-! ## Where a rejection sends the leader -/

/-- Where the leader with log `l` resumes after a follower with log `f` has refused `prev`. -/
inductive Resumes (l f : Log) (prev : Nat) : Nat → Prop
  /-- The follower's log is too short. -/
  | short (h : f.termAt prev = none) : Resumes l f prev (f.lastIndex + 1)
  /-- The leader has the follower's term in its tail. -/
  | known {t last : Nat} (ht : f.termAt prev = some t) (hlast : l.lastIndexOfTerm t = some last) :
      Resumes l f prev (last + 1)
  /-- It does not: past the whole term. -/
  | unknown {t first : Nat} (ht : f.termAt prev = some t)
      (hfirst : f.firstIndexOfTerm t = some first) : Resumes l f prev first

/-- An index of the tail has an entry. -/
theorem entry_of_termAt {log : Log} {i t : Nat} (hi : log.snapshotIndex < i)
    (ht : log.termAt i = some t) :
    i ≤ log.lastIndex ∧ ∃ e, log.entries[i - log.snapshotIndex - 1]? = some e ∧ e.term = t := by
  unfold Log.termAt at ht
  rw [if_neg (by omega)] at ht
  split at ht
  · next hin => exact ⟨hin.2, Option.map_eq_some_iff.mp ht⟩
  · cases ht

/-- A refused index is above the follower's boundary. -/
theorem boundary_lt_of_refused {args : AppendEntriesArgs} (hcons : ¬ c.consistent args = true) :
    c.log.snapshotIndex < args.prevLogIndex := by
  by_contra hle
  exact hcons (decide_eq_true (.inl (Nat.not_lt.mp hle)))

theorem firstIndexOfTerm_isSome {log : Log} {i t : Nat} (hi : log.snapshotIndex < i)
    (ht : log.termAt i = some t) : ∃ first, log.firstIndexOfTerm t = some first := by
  obtain ⟨-, e, he, het⟩ := entry_of_termAt hi ht
  unfold Log.firstIndexOfTerm
  cases hfind : log.entries.findIdx? fun e => e.term = t with
  | none =>
      rw [List.findIdx?_eq_none_iff] at hfind
      have := hfind e (List.mem_of_getElem? he)
      simp [het] at this
  | some j => exact ⟨_, rfl⟩

theorem conflict_resumes {f : ConsensusModule} {prev : Nat} (hprev : f.log.snapshotIndex < prev)
    (peer : NodeId) :
    Resumes c.log f.log prev (c.nextIndexAfterConflict peer (f.appendConflict prev)) := by
  unfold appendConflict
  cases ht : f.log.termAt prev with
  | none => exact .short ht
  | some t =>
      obtain ⟨first, hfirst⟩ := firstIndexOfTerm_isSome hprev ht
      simp only [nextIndexAfterConflict, hfirst]
      cases hlast : c.log.lastIndexOfTerm t with
      | none => exact .unknown ht hfirst
      | some last => exact .known ht hlast

theorem lastIndexOfTerm_spec {log : Log} {t i : Nat} (h : log.lastIndexOfTerm t = some i) :
    log.snapshotIndex < i ∧ log.termAt i = some t := by
  have hle := lastIndexOfTerm_le h
  unfold Log.lastIndexOfTerm Log.rposition at h
  obtain ⟨j, hj, rfl⟩ := Option.map_eq_some_iff.mp h
  obtain ⟨k, hk, rfl⟩ := Option.map_eq_some_iff.mp hj
  obtain ⟨hlt, hterm, -⟩ := List.findIdx?_eq_some_iff_getElem.mp hk
  rw [List.getElem_reverse] at hterm
  rw [List.length_reverse] at hlt
  refine ⟨by omega, ?_⟩
  unfold Log.termAt
  have hpos : log.snapshotIndex + (log.entries.length - 1 - k) + 1 - log.snapshotIndex - 1 =
      log.entries.length - 1 - k := by
    omega
  rw [if_neg (by omega), if_pos ⟨by omega, hle⟩, hpos, List.getElem?_eq_getElem (by omega)]
  exact congrArg some (of_decide_eq_true hterm)

/-- A log is its term's leader's up to each of its indices. -/
theorem pre_llog_of_plainTerm {l : List LogEntry} (hl : Genuine LogEntry.term a l) {i t : Nat}
    (hi : 0 < i) (ht : plainTerm l i = some t) : l.take i <+: a.llog t := by
  obtain ⟨k, rfl⟩ : ∃ k, i = k + 1 := ⟨i - 1, by omega⟩
  rw [plainTerm_succ, Option.map_eq_some_iff] at ht
  obtain ⟨e, he, rfl⟩ := ht
  exact hl k e he

/-- Two logs with entries of one term agree up to the lower of the two indices. -/
theorem take_eq_of_same_term {l m : List LogEntry} (hl : Genuine LogEntry.term a l)
    (hm : Genuine LogEntry.term a m) {i j t : Nat} (hi : 0 < i) (hij : i ≤ j)
    (hli : plainTerm l i = some t) (hmj : plainTerm m j = some t) : l.take i = m.take i := by
  have hl' := pre_llog_of_plainTerm hl hi hli
  have hm' := (List.take_prefix_take_left hij).trans
    (pre_llog_of_plainTerm hm (Nat.lt_of_lt_of_le hi hij) hmj)
  have hilen : i ≤ l.length := by
    by_contra hlt
    rw [plainTerm_eq_none l (by omega)] at hli
    cases hli
  have hjlen : j ≤ m.length := by
    by_contra hlt
    rw [plainTerm_eq_none m (by omega)] at hmj
    cases hmj
  have hpre := List.prefix_of_prefix_length_le hl' hm' (by simp only [List.length_take]; omega)
  exact hpre.eq_of_length (by simp only [List.length_take]; omega)

/-- If the leader has the refused term in its tail, its last entry of it is below the refused index,
    and the follower has that entry, unless it has compacted it. -/
theorem known_term (hr : Refines cfg True s a) (he : Engaged cfg n p s)
    (hneed : ¬ (s.core n).needsSnapshot p = true)
    (hcons : ¬ (s.core p).consistent ((s.core n).appendArgsFor p) = true) {t last : Nat}
    (ht : (s.core p).log.termAt ((s.core n).appendArgsFor p).prevLogIndex = some t)
    (hlast : (s.core n).log.lastIndexOfTerm t = some last) :
    last < ((s.core n).appendArgsFor p).prevLogIndex ∧
      (last ≤ (s.core p).log.snapshotIndex ∨ (s.core p).log.termAt last = some t) := by
  have hN := hr.nodes n he.member
  have hP := hr.nodes p he.follower
  obtain ⟨hpos, hterm⟩ := lastIndexOfTerm_spec hlast
  have hL := termAt_plain hN.mirrors.log hterm
  have hF := termAt_plain hP.mirrors.log ht
  have hgenL := hr.safe.logs.log_genuine n
  have hgenF := hr.safe.logs.log_genuine p
  have hlt : last < ((s.core n).appendArgsFor p).prevLogIndex := by
    -- Otherwise the logs would agree at the refused index.
    by_contra hge
    rw [Nat.not_lt] at hge
    refine hcons (consistent_of_pre hr he hneed ?_)
    by_cases hzero : ((s.core n).appendArgsFor p).prevLogIndex = 0
    · simp [hzero]
    · rw [← take_eq_of_same_term hgenF hgenL (by omega) hge hF hL]
      exact List.take_prefix _ _
  refine ⟨hlt, ?_⟩
  rcases Nat.lt_or_ge last (s.core p).log.snapshotIndex with hbelow | hge
  · exact .inl hbelow.le
  · right
    have heq := take_eq_of_same_term hgenL hgenF (by omega) hlt.le hL hF
    obtain ⟨k, rfl⟩ : ∃ k, last = k + 1 := ⟨last - 1, by omega⟩
    rw [hP.mirrors.log.termAt_eq hge, plainTerm_succ, ← getElem?_take_eq heq (Nat.lt_succ_self k),
      ← plainTerm_succ, hL]

/-! ## The terms in question -/

/-- The terms of the tail up to index `k`. -/
def Log.termsUpTo (log : Log) (k : Nat) : Finset Nat :=
  ((log.entries.take (k - log.snapshotIndex)).map LogEntry.term).toFinset

/-- How many rejections a leader that starts at `k` can still meet: one for each term up to there,
    and one if the log is too short. -/
def Log.rank (log : Log) (k : Nat) : Nat :=
  (log.termsUpTo k).card + if log.lastIndex < k then 1 else 0

theorem Log.rank_le (log : Log) (k : Nat) :
    log.rank k ≤ 1 + (log.entries.map LogEntry.term).toFinset.card := by
  have hsub : log.termsUpTo k ⊆ (log.entries.map LogEntry.term).toFinset := by
    intro t ht
    simp only [Log.termsUpTo, List.mem_toFinset, List.mem_map] at ht ⊢
    obtain ⟨e, he, het⟩ := ht
    exact ⟨e, List.mem_of_mem_take he, het⟩
  have := Finset.card_le_card hsub
  unfold Log.rank
  split <;> omega

theorem Log.rank_short {log : Log} {k : Nat} (h : log.lastIndex < k) :
    log.rank log.lastIndex < log.rank k := by
  have hall : ∀ j, log.lastIndex ≤ j →
      log.termsUpTo j = (log.entries.map LogEntry.term).toFinset := by
    intro j hj
    unfold Log.lastIndex at hj
    unfold Log.termsUpTo
    rw [List.take_of_length_le (by omega)]
  unfold Log.rank
  rw [hall _ le_rfl, hall _ h.le, if_neg (by omega), if_pos h]
  omega

theorem Log.mem_termsUpTo {log : Log} {k t : Nat} (hk : log.snapshotIndex < k)
    (ht : log.termAt k = some t) : t ∈ log.termsUpTo k := by
  obtain ⟨-, e, he, rfl⟩ := entry_of_termAt hk ht
  simp only [Log.termsUpTo, List.mem_toFinset, List.mem_map]
  refine ⟨e, List.mem_of_getElem? (i := k - log.snapshotIndex - 1) ?_, rfl⟩
  rwa [List.getElem?_take_of_lt (by omega)]

theorem Log.rank_pos {log : Log} {k t : Nat} (hk : log.snapshotIndex < k)
    (ht : log.termAt k = some t) : 0 < log.rank k :=
  Nat.add_pos_left (Finset.card_pos.mpr ⟨t, log.mem_termsUpTo hk ht⟩) _

/-- Below the first entry of a term the term is not in question any more. -/
theorem Log.rank_unknown {log : Log} {k t first : Nat} (hk : log.snapshotIndex < k)
    (ht : log.termAt k = some t) (hfirst : log.firstIndexOfTerm t = some first) :
    log.snapshotIndex < first ∧ first ≤ k ∧ log.rank (first - 1) < log.rank k := by
  have hlast := (entry_of_termAt hk ht).1
  have hle := (firstIndexOfTerm_le hk ht hfirst).2
  have hmem := log.mem_termsUpTo hk ht
  unfold Log.firstIndexOfTerm at hfirst
  obtain ⟨j, hj, rfl⟩ := Option.map_eq_some_iff.mp hfirst
  obtain ⟨hjlen, -, hmin⟩ := List.findIdx?_eq_some_iff_getElem.mp hj
  have hpos : log.snapshotIndex + j + 1 - 1 - log.snapshotIndex = j := by omega
  have hgone : t ∉ log.termsUpTo (log.snapshotIndex + j + 1 - 1) := by
    simp only [Log.termsUpTo, hpos, List.mem_toFinset, List.mem_map, not_exists, not_and]
    intro e he het
    obtain ⟨i, hi⟩ := List.mem_iff_getElem?.mp he
    have hij : i < j := by
      have := (List.getElem?_eq_some_iff.mp hi).1
      rw [List.length_take] at this
      omega
    rw [List.getElem?_take_of_lt hij] at hi
    have := hmin i hij
    rw [(List.getElem?_eq_some_iff.mp hi).2] at this
    simp [het] at this
  have hsub : log.termsUpTo (log.snapshotIndex + j + 1 - 1) ⊆ log.termsUpTo k := by
    intro u hu
    simp only [Log.termsUpTo, hpos, List.mem_toFinset, List.mem_map] at hu ⊢
    obtain ⟨e, he, heu⟩ := hu
    exact ⟨e, (List.take_subset_take_left _ (by omega)) he, heu⟩
  have hcard := Finset.card_lt_card ((Finset.ssubset_iff_of_subset hsub).mpr ⟨t, hmem, hgone⟩)
  refine ⟨by omega, hle, ?_⟩
  unfold Log.rank
  rw [if_neg (by omega), if_neg (by omega)]
  omega

/-! ## Convergence -/

/-- The rounds `front` were not accepted and `last` was, with at most `bound` rejections, at most
    one snapshot and ever lower next indices; `log` is the leader's. -/
structure Repaired (bound : Nat) (log : Log) (front : List Round) (last : Round) : Prop where
  accepted : last.accepted = true
  pending : ∀ r ∈ front, r.accepted = false
  rejections : front.countP Round.rejected ≤ bound
  installs : front.countP Round.installed ≤ 1
  back : ∀ r ∈ front, r.rejected = true →
    ∃ i j, r.before.next = some i ∧ r.after.next = some j ∧ j < i
  log : last.after.leader.log = log
  settled : Settled last.after

theorem Repaired.reject {bound : Nat} {log : Log} {front : List Round} {last r : Round}
    (h : Repaired bound log front last) (hrej : r.rejected = true) (hacc : r.accepted = false)
    (hins : r.installed = false)
    (hback : ∃ i j, r.before.next = some i ∧ r.after.next = some j ∧ j < i) :
    Repaired (bound + 1) log (r :: front) last where
  accepted := h.accepted
  pending := List.forall_mem_cons.mpr ⟨hacc, h.pending⟩
  rejections := by
    rw [List.countP_cons_of_pos hrej]
    exact Nat.succ_le_succ h.rejections
  installs := by
    rw [List.countP_cons_of_neg (by simp [hins])]
    exact h.installs
  back := List.forall_mem_cons.mpr ⟨fun _ => hback, h.back⟩
  log := h.log
  settled := h.settled

theorem Repaired.install {bound : Nat} {log : Log} {last r : Round}
    (h : Repaired bound log [] last) (hins : r.installed = true) (hacc : r.accepted = false)
    (hrej : r.rejected = false) : Repaired bound log [r] last where
  accepted := h.accepted
  pending := by simpa using hacc
  rejections := by simp [hrej]
  installs := by simp [hins]
  back := by simp [hrej]
  log := h.log
  settled := h.settled

theorem Repaired.mono {bound bound' : Nat} {log : Log} {front : List Round} {last : Round}
    (h : Repaired bound log front last) (hle : bound ≤ bound') : Repaired bound' log front last :=
  { h with rejections := h.rejections.trans hle }

/-- A consistent message ends the repair. -/
theorem repaired_of_consistent (he : Engaged cfg n p s)
    (hneed : ¬ (s.core n).needsSnapshot p = true)
    (hcons : (s.core p).consistent ((s.core n).appendArgsFor p) = true) (now : Instant)
    (draw bound : Nat) :
    Repaired bound (s.core n).log [] (exchange (s.session n p) now draw) := by
  obtain ⟨hok, -⟩ := exchange_accepted now draw he hneed hcons
  obtain ⟨-, -, hlog, -⟩ := exchange_stays now draw he
  have hsettled := accepted_settled he hneed hcons now draw
  generalize exchange (s.session n p) now draw = r at hok hlog hsettled ⊢
  exact ⟨hok, by simp, by simp, by simp, by simp, hlog, hsettled⟩

theorem Engaged.session_next (he : Engaged cfg n p s) :
    (s.session n p).next = (s.core n).nextIndex.lookup p := by
  obtain ⟨a, hr⟩ := reachable_refines he.reachable
  show (s.core n).nextIndex.lookup (s.core p).id = _
  rw [(hr.nodes p he.follower).identity.id]

/-- A leader has a next index for every peer. -/
theorem Engaged.exists_next (he : Engaged cfg n p s) :
    ∃ i, (s.session n p).next = some i ∧ ((s.core n).appendArgsFor p).prevLogIndex = i - 1 := by
  obtain ⟨a, hr⟩ := reachable_refines he.reachable
  have hpeer : p ∈ (s.core n).peers := (hr.nodes n he.member).identity.peers ▸ he.peer
  obtain ⟨i, hi⟩ := Option.isSome_iff_exists.mp
    (reachable_tabled he.reachable n he.role p hpeer).1
  have hi : (s.core n).nextIndex.lookup p = some i := hi
  refine ⟨i, he.session_next.trans hi, ?_⟩
  simp [appendArgsFor, hi]

/-- What the next round starts from. -/
theorem next_round {next : Nat} (he : Engaged cfg n p s)
    (hnext : (s.core n).nextIndex.lookup p = some (next + 1)) :
    ((s.core n).appendArgsFor p).prevLogIndex = next ∧
      ((s.core n).needsSnapshot p = true → next + 1 ≤ (s.core n).log.snapshotIndex) := by
  constructor
  · simp [appendArgsFor, hnext]
  · simp [needsSnapshot, he.role, hnext]

/-- After a snapshot the next message is accepted: what the leader takes the follower to hold is
    within its own boundary, which the follower has committed, or acknowledged. -/
theorem repaired_after_install (he : Engaged cfg n p s)
    (hneed : (s.core n).needsSnapshot p = true) (now now' : Instant) (draw draw' bound : Nat) :
    Repaired bound (s.core n).log []
      (exchange (exchange (s.session n p) now draw).after now' draw') := by
  obtain ⟨s', he', hsession, -⟩ := exchange_engaged now draw he
  obtain ⟨-, -, -, hleader, hcur, hcommit⟩ := exchange_install now draw he hneed
  obtain ⟨-, hterm, hlog, -⟩ := exchange_stays now draw he
  rw [← hsession] at hleader hcur hcommit hterm hlog ⊢
  have hleader : s'.core n = _ := hleader
  have hlog : (s'.core n).log = (s.core n).log := hlog
  obtain ⟨a, hr⟩ := reachable_refines he'.reachable
  let matched := max (((s.core n).matchIndex.lookup p).getD 0) (s.core n).log.snapshotIndex
  have hstanding := maybeAdvanceCommit_standing
    (c := (s.core n).recordMatch p (s.core n).log.snapshotIndex)
  rw [← hleader] at hstanding
  have hmatch : (s'.core n).matchIndex.lookup p = some matched := by
    have hm : (s'.core n).matchIndex = (s.core n).matchIndex.insert p matched :=
      congrArg Standing.matchIndex hstanding
    rw [hm, Finmap.lookup_insert]
  have hnext : (s'.core n).nextIndex.lookup p = some (matched + 1) := by
    have hm : (s'.core n).nextIndex = (s.core n).nextIndex.insert p (matched + 1) :=
      congrArg Standing.nextIndex hstanding
    rw [hm, Finmap.lookup_insert]
  have hle : (s.core n).log.snapshotIndex ≤ matched := Nat.le_max_right _ _
  obtain ⟨hprev, hsnap⟩ := next_round he' hnext
  have hno : ¬ (s'.core n).needsSnapshot p = true := by
    intro hno
    have := hsnap hno
    rw [hlog] at this
    omega
  rw [← hlog]
  refine repaired_of_consistent he' hno (consistent_of_pre hr he' hno ?_) now' draw' bound
  rw [hprev]
  rcases matched_acked he'.reachable hr he'.member he'.role hmatch with hwithin | hack
  · refine pre_of_committed hr he' (hcur.trans hterm.symm) ?_
    rw [hlog] at hwithin
    exact hwithin.trans hcommit
  · exact pre_of_acked hr he' hack

/-- A rejection sends the leader back. Either fewer terms are in question from there on, or the next
    message starts at an entry of the leader's tail that the follower has. -/
theorem resumes_progress (hr : Refines cfg True s a) (he : Engaged cfg n p s)
    (hneed : ¬ (s.core n).needsSnapshot p = true)
    (hcons : ¬ (s.core p).consistent ((s.core n).appendArgsFor p) = true) {next : Nat}
    (hres : Resumes (s.core n).log (s.core p).log ((s.core n).appendArgsFor p).prevLogIndex next) :
    let f := (s.core p).log
    let prev := ((s.core n).appendArgsFor p).prevLogIndex
    ∃ k, next = k + 1 ∧ k < prev ∧ (f.rank k < f.rank prev ∨
      0 < f.rank prev ∧ (s.core n).log.snapshotIndex < k ∧
        ∃ t, (s.core n).log.termAt k = some t ∧ (k ≤ f.snapshotIndex ∨ f.termAt k = some t)) := by
  intro f prev
  have hprev : f.snapshotIndex < prev := boundary_lt_of_refused hcons
  cases hres with
  | short hnone =>
      have hlog := (hr.nodes p he.follower).mirrors.log
      have hlt : f.lastIndex < prev := by
        by_contra hle
        rw [Nat.not_lt, hlog.lastIndex_eq] at hle
        obtain ⟨t, ht⟩ := plainTerm_isSome (a.log p) hle
        rw [hlog.termAt_eq hprev.le, ht] at hnone
        cases hnone
      exact ⟨_, rfl, hlt, .inl (Log.rank_short hlt)⟩
  | @known t last ht hlast =>
      obtain ⟨hlt, hheld⟩ := known_term hr he hneed hcons ht hlast
      obtain ⟨hpos, hterm⟩ := lastIndexOfTerm_spec hlast
      exact ⟨last, rfl, hlt, .inr ⟨Log.rank_pos hprev ht, hpos, t, hterm, hheld⟩⟩
  | @unknown t first ht hfirst =>
      obtain ⟨hpos, hle, hlt⟩ := Log.rank_unknown hprev ht hfirst
      exact ⟨next - 1, by omega, by omega, .inl hlt⟩

/-- A rejected round: the next index falls, and so does the rank, unless the next round ends it. -/
theorem rejected_round (he : Engaged cfg n p s) (hneed : ¬ (s.core n).needsSnapshot p = true)
    (hcons : ¬ (s.core p).consistent ((s.core n).appendArgsFor p) = true) (now : Instant)
    (draw : Nat) :
    ∃ s', Engaged cfg n p s' ∧ s'.session n p = (exchange (s.session n p) now draw).after ∧
      (s'.core n).log = (s.core n).log ∧
      (∃ i j, (s.session n p).next = some i ∧ (s'.session n p).next = some j ∧ j < i) ∧
      ((s'.core p).log.rank ((s'.core n).appendArgsFor p).prevLogIndex <
          (s.core p).log.rank ((s.core n).appendArgsFor p).prevLogIndex ∨
        0 < (s.core p).log.rank ((s.core n).appendArgsFor p).prevLogIndex ∧
          ¬ (s'.core n).needsSnapshot p = true ∧
          (s'.core p).consistent ((s'.core n).appendArgsFor p) = true) := by
  obtain ⟨a, hr⟩ := reachable_refines he.reachable
  obtain ⟨s', he', hsession, -⟩ := exchange_engaged now draw he
  obtain ⟨-, -, -, hleader, hfollower⟩ := exchange_rejected now draw he hneed hcons
  rw [← hsession] at hleader hfollower
  have hleader : s'.core n = _ := hleader
  have hfollower : s'.core p = _ := hfollower
  have hkeep := (yieldTo_keeps he.append_term ((s.core n).appendArgsFor p).leaderId now draw).1
  have hlogp : (s'.core p).log = (s.core p).log := by rw [hfollower, hkeep]
  have hlogn : (s'.core n).log = (s.core n).log := by rw [hleader]
  -- Where the leader resumes.
  have hprev := boundary_lt_of_refused hcons
  have hres := conflict_resumes (c := s.core n) (by rw [hkeep]; exact hprev) p
  rw [hkeep] at hres
  obtain ⟨k, hk, hlt, hprogress⟩ := resumes_progress hr he hneed hcons hres
  have hnext : (s'.core n).nextIndex.lookup p = some (k + 1) := by
    rw [hleader]
    dsimp only
    rw [Finmap.lookup_insert, hk]
    simp
  obtain ⟨hprev', hsnap⟩ := next_round he' hnext
  -- The next index falls.
  obtain ⟨i, hi, hprevi⟩ := he.exists_next
  refine ⟨s', he', hsession, hlogn, ⟨i, k + 1, hi, he'.session_next.trans hnext, by omega⟩, ?_⟩
  rw [hlogp, hprev']
  refine hprogress.imp_right ?_
  rintro ⟨hpos, hlo, t, hterm, hheld⟩
  refine ⟨hpos, fun hno => ?_, decide_eq_true ?_⟩
  · have := hsnap hno
    rw [hlogn] at this
    omega
  · have hprevTerm : ((s'.core n).appendArgsFor p).prevLogTerm = t := by
      show ((s'.core n).log.termAt ((s'.core n).appendArgsFor p).prevLogIndex).getD 0 = t
      rw [hprev', hlogn, hterm]
      rfl
    rw [hprev', hprevTerm, hlogp]
    exact hheld

/-- From any engaged state the exchange converges. By induction on the rank of the follower's log at
    the start of the next message. -/
theorem converges {rank : Nat} (he : Engaged cfg n p s)
    (hrank : (s.core p).log.rank ((s.core n).appendArgsFor p).prevLogIndex = rank)
    (clock : Nat → Instant × Nat) :
    ∃ front last, rounds clock (front.length + 1) (s.session n p) = front ++ [last] ∧
      Repaired rank (s.core n).log front last := by
  induction rank using Nat.strong_induction_on generalizing s clock with
  | _ rank ih =>
      let r := exchange (s.session n p) (clock 0).1 (clock 0).2
      by_cases hneed : (s.core n).needsSnapshot p = true
      · -- A snapshot, and then it is over.
        obtain ⟨hins, hacc, hrej, -⟩ := exchange_install (clock 0).1 (clock 0).2 he hneed
        have hend := repaired_after_install he hneed (clock 0).1 (clock 1).1 (clock 0).2 (clock 1).2
          rank
        exact ⟨[r], _, rfl, hend.install hins hacc hrej⟩
      · by_cases hcons : (s.core p).consistent ((s.core n).appendArgsFor p) = true
        · exact ⟨[], r, rfl, repaired_of_consistent he hneed hcons _ _ rank⟩
        · obtain ⟨hrej, hacc, hins, -, -⟩ :=
            exchange_rejected (clock 0).1 (clock 0).2 he hneed hcons
          obtain ⟨s', he', hsession, hlog, hback, hprogress⟩ :=
            rejected_round he hneed hcons (clock 0).1 (clock 0).2
          rw [hsession] at hback
          rcases hprogress with hless | ⟨hpos, hneed', hcons'⟩
          · obtain ⟨front, last, hrounds, hrepaired⟩ :=
              ih _ (hrank ▸ hless) he' rfl fun i => clock (i + 1)
            rw [hlog] at hrepaired
            refine ⟨r :: front, last, ?_,
              (hrepaired.reject hrej hacc hins hback).mono (hrank ▸ hless)⟩
            rw [List.length_cons, rounds, ← hsession, hrounds]
            rfl
          · have hend := repaired_of_consistent he' hneed' hcons' (clock 1).1 (clock 1).2 (rank - 1)
            rw [hlog] at hend
            refine ⟨[r], _, ?_, (hend.reject hrej hacc hins hback).mono (by omega)⟩
            rw [hsession]
            rfl

/-- **Log repair converges, one divergent term a round.** Take any reachable state with a leader `n`
    and a peer `p` of it in no later term, and let only the two exchange messages from there on,
    served at any times. An AppendEntries is accepted, after at most one rejection more than there
    are terms in the peer's tail and at most one InstallSnapshot; every rejection lowers the next
    index. Then the peer's log reaches as far as the leader's, which is still the one it started
    with, and where both hold an entry it is the same. -/
theorem repair_converges (h : Cluster.Reachable cfg s) (hn : n ∈ cfg.members) (hp : p ∈ cfg.peers n)
    (hl : (s.core n).role = .leader) (ht : (s.core p).currentTerm ≤ (s.core n).currentTerm)
    (clock : Nat → Instant × Nat) :
    ∃ front last, rounds clock (front.length + 1) ⟨s.core n, s.core p⟩ = front ++ [last] ∧
      last.accepted = true ∧ (∀ r ∈ front, r.accepted = false) ∧
      front.countP Round.rejected ≤
        1 + ((s.core p).log.entries.map LogEntry.term).toFinset.card ∧
      front.countP Round.installed ≤ 1 ∧
      (∀ r ∈ front, r.rejected = true →
        ∃ i j, r.before.next = some i ∧ r.after.next = some j ∧ j < i) ∧
      last.after.leader.log = (s.core n).log ∧
      last.after.leader.log.lastIndex ≤ last.after.follower.log.lastIndex ∧
      ∀ i d e, last.after.leader.log.get i = some d → last.after.follower.log.get i = some e →
        d = e := by
  have he : Engaged cfg n p s := ⟨h, hn, hp, hl, ht⟩
  obtain ⟨front, last, hrounds, hrep⟩ := converges he rfl clock
  exact ⟨front, last, hrounds, hrep.accepted, hrep.pending,
    hrep.rejections.trans (Log.rank_le _ _), hrep.installs, hrep.back, hrep.log, hrep.settled.last,
    fun _ _ _ => hrep.settled.agree⟩

set_option maxRecDepth 100000 in
/-- In `succeeded` node 2 leads with one entry and node 3 has none: its first message is
    rejected. -/
theorem repair_converges_succeeded :
    (exchange ⟨succeeded.core 2, succeeded.core 3⟩ 3000 0).rejected = true ∧
    ∃ front last, rounds (fun _ => (3000, 0)) (front.length + 1)
        ⟨succeeded.core 2, succeeded.core 3⟩ = front ++ [last] ∧
      last.accepted = true ∧ front.countP Round.rejected ≤ 1 ∧
      last.after.leader.log.lastIndex ≤ last.after.follower.log.lastIndex := by
  have hreach : Cluster.Reachable trio succeeded := committed_reachable.trans
    ⟨successionRun, Option.eq_some_of_isSome successionRun_isSome⟩
  have htail : ((succeeded.core 3).log.entries.map LogEntry.term).toFinset.card = 0 := by decide
  obtain ⟨front, last, hrounds, hacc, -, hrej, -, -, -, hlast, -⟩ :=
    repair_converges hreach (n := 2) (p := 3) (by decide) (by decide) (by decide) (by decide)
      fun _ => (3000, 0)
  exact ⟨by decide, front, last, hrounds, hacc, by rwa [htail] at hrej, hlast⟩

end Murmur.Raft
