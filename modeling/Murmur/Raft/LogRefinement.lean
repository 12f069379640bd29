/-
  The compacted `Log` stands for a plain list of entries that was never compacted.

  `Represents log full` says which: the tail is `full` without its first `snapshotIndex` entries,
  and the boundary carries the term `full` has there. Each accessor of `Log` then answers as the
  plain list does, and each operation that changes the log has its counterpart on lists:

  * `append`: the list with the entry at its end.
  * `truncateAfter`: the list cut.
  * `compact` at an entry that is held: the list as it was.
  * `compact` at a boundary that is not held, and the splice loop: `adopt` (`compact_adopt`,
    `splice_represents`).

  `Twin` runs the operations on a log and on the plain list side by side; `log_refines_plain` says
  that no accessor can tell them apart.
-/
import Murmur.Basis.Prefix
import Murmur.Basis.Run
import Murmur.Protocol.Spec
import Murmur.Raft.Consensus

namespace Murmur.Raft

open Murmur.Basis

/-- The term of an uncompacted list at a 1-based index, `0` at the origin. -/
def plainTerm (full : List LogEntry) (i : Nat) : Option Nat :=
  if i = 0 then some 0 else full[i - 1]?.map LogEntry.term

theorem plainTerm_zero (full : List LogEntry) : plainTerm full 0 = some 0 := rfl

theorem plainTerm_succ (full : List LogEntry) (i : Nat) :
    plainTerm full (i + 1) = full[i]?.map LogEntry.term := by
  simp [plainTerm]

theorem plainTerm_of_pre {l m : List LogEntry} (h : l <+: m) {i : Nat} (hi : i ≤ l.length) :
    plainTerm l i = plainTerm m i := by
  cases i with
  | zero => rfl
  | succ i => rw [plainTerm_succ, plainTerm_succ, getElem?_pre_of_lt h hi]

theorem plainTerm_take (l : List LogEntry) {i k : Nat} (hi : i ≤ k) :
    plainTerm (l.take k) i = plainTerm l i := by
  cases i with
  | zero => rfl
  | succ i => rw [plainTerm_succ, plainTerm_succ, List.getElem?_take_of_lt hi]

theorem plainTerm_length (full : List LogEntry) :
    plainTerm full full.length = some (Protocol.lastTerm LogEntry.term full) := by
  rcases List.eq_nil_or_concat' full with rfl | ⟨l, e, rfl⟩
  · rfl
  · simp [plainTerm, Protocol.lastTerm]

theorem plainTerm_isSome (full : List LogEntry) {i : Nat} (hi : i ≤ full.length) :
    ∃ t, plainTerm full i = some t := by
  cases i with
  | zero => exact ⟨0, rfl⟩
  | succ i => exact ⟨full[i].term, by rw [plainTerm_succ, List.getElem?_eq_getElem hi]; rfl⟩

theorem plainTerm_eq_none (full : List LogEntry) {i : Nat} (hi : full.length < i) :
    plainTerm full i = none := by
  cases i with
  | zero => omega
  | succ i => rw [plainTerm_succ, List.getElem?_eq_none (by omega)]; rfl

/-- `log` is what compaction has left of `full`. -/
structure Log.Represents (log : Log) (full : List LogEntry) : Prop where
  le : log.snapshotIndex ≤ full.length
  entries : log.entries = full.drop log.snapshotIndex
  term : plainTerm full log.snapshotIndex = some log.snapshotTerm

theorem Log.termAt_none {log : Log} {i : Nat} (hi : i < log.snapshotIndex) :
    log.termAt i = none := by
  unfold Log.termAt
  rw [if_neg (by omega), if_neg (by omega)]

theorem Log.get_none {log : Log} {i : Nat} (hi : i ≤ log.snapshotIndex) : log.get i = none := by
  unfold Log.get
  rw [if_pos (Or.inl hi)]

theorem Log.get_append_last (log : Log) (e : LogEntry) :
    (log.append e).1.get (log.lastIndex + 1) = some e := by
  have hlast : (log.append e).1.lastIndex = log.lastIndex + 1 := by
    show log.snapshotIndex + (log.entries ++ [e]).length = _
    rw [List.length_append]
    rfl
  have hge : log.snapshotIndex ≤ log.lastIndex := Nat.le_add_right _ _
  unfold Log.get
  rw [hlast, if_neg (by show ¬ (log.lastIndex + 1 ≤ log.snapshotIndex ∨ _); omega)]
  show (log.entries ++ [e])[log.snapshotIndex + log.entries.length + 1 - log.snapshotIndex - 1]? = _
  rw [show log.snapshotIndex + log.entries.length + 1 - log.snapshotIndex - 1 =
    log.entries.length by omega, List.getElem?_concat_length]

namespace Log.Represents

variable {log : Log} {full : List LogEntry}

theorem new : Log.new.Represents [] := ⟨le_rfl, rfl, rfl⟩

/-! ## Accessors -/

theorem lastIndex_eq (h : log.Represents full) : log.lastIndex = full.length := by
  have := h.le
  unfold Log.lastIndex
  rw [h.entries, List.length_drop]
  omega

theorem lastTerm_eq (h : log.Represents full) :
    log.lastTerm = Protocol.lastTerm LogEntry.term full := by
  unfold Log.lastTerm Protocol.lastTerm
  rw [h.entries]
  rcases Nat.lt_or_ge log.snapshotIndex full.length with hlt | hge
  · rw [List.getLast?_drop, if_neg (by omega)]
    cases hl : full.getLast? with
    | none => rw [List.getLast?_eq_none_iff] at hl; simp [hl] at hlt
    | some e => rfl
  · -- An empty tail: the boundary is the last entry.
    have heq : log.snapshotIndex = full.length := le_antisymm h.le hge
    have ht := h.term
    rw [heq, plainTerm_length] at ht
    rw [List.drop_eq_nil_of_le hge]
    exact (Option.some.inj ht).symm

theorem getElem_entries (h : log.Represents full) {i : Nat} (hi : log.snapshotIndex < i) :
    log.entries[i - log.snapshotIndex - 1]? = full[i - 1]? := by
  rw [h.entries, List.getElem?_drop]
  congr 1
  omega

theorem termAt_eq (h : log.Represents full) {i : Nat} (hi : log.snapshotIndex ≤ i) :
    log.termAt i = plainTerm full i := by
  unfold Log.termAt
  rw [h.lastIndex_eq]
  split
  · next heq => rw [heq, h.term]
  · next hne =>
    have hlt : log.snapshotIndex < i := by omega
    rw [h.getElem_entries hlt]
    unfold plainTerm
    rw [if_neg (by omega : i ≠ 0)]
    split
    · rfl
    · next hout => rw [List.getElem?_eq_none (by omega)]; rfl

theorem get_eq (h : log.Represents full) {i : Nat} (hi : log.snapshotIndex < i) :
    log.get i = full[i - 1]? := by
  unfold Log.get
  rw [h.lastIndex_eq, h.getElem_entries hi]
  split
  · next hout => rw [List.getElem?_eq_none (by omega)]
  · rfl

theorem getElem?_of_get (h : log.Represents full) {i : Nat} {e : LogEntry}
    (he : log.get i = some e) : full[i - 1]? = some e ∧ log.snapshotIndex < i := by
  have hi : log.snapshotIndex < i := by
    by_contra hle
    rw [Log.get_none (by omega)] at he
    exact absurd he (by simp)
  exact ⟨by rw [← h.get_eq hi]; exact he, hi⟩

theorem entriesAfter_eq (h : log.Represents full) {i : Nat} (hi : log.snapshotIndex ≤ i) :
    log.entriesAfter i = full.drop i := by
  have := h.le
  unfold Log.entriesAfter
  rw [h.entries, List.drop_drop, List.length_drop]
  rcases Nat.le_total i full.length with hle | hge
  · congr 1
    omega
  · rw [List.drop_eq_nil_of_le hge, List.drop_eq_nil_of_le (by omega)]

/-! ## Operations -/

theorem append (h : log.Represents full) (e : LogEntry) :
    (log.append e).1.Represents (full ++ [e]) := by
  have hle := h.le
  refine ⟨?_, ?_, ?_⟩
  · show log.snapshotIndex ≤ _
    rw [List.length_append]
    omega
  · show log.entries ++ [e] = (full ++ [e]).drop log.snapshotIndex
    rw [h.entries, List.drop_append_of_le_length hle]
  · show plainTerm _ log.snapshotIndex = some log.snapshotTerm
    rw [← plainTerm_of_pre (List.prefix_append full [e]) hle, h.term]

theorem append_index (h : log.Represents full) (e : LogEntry) :
    (log.append e).2 = full.length + 1 := by
  have := (h.append e).lastIndex_eq
  rw [List.length_append] at this
  exact this

theorem truncateAfter (h : log.Represents full) {i : Nat} (hi : log.snapshotIndex ≤ i) :
    (log.truncateAfter i).Represents (full.take i) := by
  have hle := h.le
  have hlen : log.snapshotIndex ≤ (full.take i).length := by rw [List.length_take]; omega
  refine ⟨hlen, ?_, ?_⟩
  · show log.entries.take (i - log.snapshotIndex) = _
    rw [h.entries, List.drop_take]
    rfl
  · show plainTerm _ log.snapshotIndex = some log.snapshotTerm
    rw [plainTerm_take full hi, h.term]

/-- Compaction at an entry that is held changes nothing that is stood for. -/
theorem compact (h : log.Represents full) {i : Nat} {t : Nat}
    (hi : log.snapshotIndex < i) (hlen : i ≤ full.length) (ht : plainTerm full i = some t) :
    (log.compact i t).Represents full := by
  have hle := h.le
  unfold Log.compact
  rw [if_neg (by omega), h.lastIndex_eq, h.termAt_eq hi.le, if_pos ⟨hlen, ht⟩]
  refine ⟨hlen, ?_, ht⟩
  show log.entries.drop (i - log.snapshotIndex) = full.drop i
  rw [h.entries, List.drop_drop]
  congr 1
  omega

/-- A boundary that is not held drops the tail: the log now stands for any list that ends there. -/
theorem compact_reset (h : log.Represents full) {m : List LogEntry} {t : Nat}
    (hi : log.snapshotIndex < m.length) (ht : plainTerm m m.length = some t)
    (hno : ¬ (m.length ≤ full.length ∧ plainTerm full m.length = some t)) :
    (log.compact m.length t).Represents m := by
  unfold Log.compact
  rw [if_neg (by omega), h.lastIndex_eq, h.termAt_eq hi.le, if_neg hno]
  exact ⟨le_rfl, by simp, ht⟩

/-- Installing the boundary of the list `m` is adopting `m`. -/
theorem compact_adopt (h : log.Represents full) {m : List LogEntry} {t : Nat}
    (hi : log.snapshotIndex < m.length) (ht : plainTerm m m.length = some t)
    (hmatch : plainTerm full m.length = some t → m <+: full) :
    (log.compact m.length t).Represents (adopt m full) := by
  unfold adopt
  split
  · next hpre =>
    have hlen := hpre.length_le
    exact h.compact hi hlen (by rw [← plainTerm_of_pre hpre le_rfl]; exact ht)
  · next hno => exact h.compact_reset hi ht fun hheld => hno (hmatch hheld.2)

end Log.Represents

/-! ## The splice loop -/

section Splice

open ConsensusModule

variable {log : Log} {full m : List LogEntry} {index : Nat}

/-- One entry of the message, the one after `index`: it is there already, or it is written and the
    log stands for `m` up to it. -/
theorem spliceEntry_represents {e : LogEntry} (h : log.Represents full) (hget : m[index]? = some e)
    (hpre : m.take index <+: full)
    (hmatch : ∀ (i : Nat) (d e : LogEntry), full[i]? = some d → m[i]? = some e → d.term = e.term →
      full.take (i + 1) = m.take (i + 1))
    (hsnap : ∀ i, i < log.snapshotIndex → i < m.length → m.take (i + 1) <+: full) :
    (spliceEntry log (index + 1) e = log ∧ m.take (index + 1) <+: full) ∨
    ((spliceEntry log (index + 1) e).Represents (m.take (index + 1)) ∧
      (spliceEntry log (index + 1) e).snapshotIndex = log.snapshotIndex ∧
      log.snapshotIndex ≤ index ∧ ¬ m <+: full) := by
  have hlt : index < m.length := (List.getElem?_eq_some_iff.mp hget).1
  have htake : m.take index ++ [e] = m.take (index + 1) := by
    rw [List.take_add_one, hget]
    rfl
  unfold spliceEntry
  split
  · -- Covered by the snapshot.
    next hcov => exact Or.inl ⟨rfl, hsnap index (by omega) hlt⟩
  · next hnc =>
    have hs : log.snapshotIndex ≤ index := by omega
    rw [h.termAt_eq (by omega), plainTerm_succ]
    cases hf : full[index]? with
    | none =>
        -- Past the end: `full` is exactly `m` up to `index`.
        have hlen : full.length ≤ index := List.getElem?_eq_none_iff.mp hf
        have hfull : full = m.take index := by
          have hl := hpre.length_le
          rw [List.length_take] at hl
          exact (hpre.eq_of_length (by rw [List.length_take]; omega)).symm
        refine Or.inr ⟨?_, rfl, hs, fun hc => by have := hc.length_le; omega⟩
        rw [← htake, ← hfull]
        exact h.append e
    | some d =>
        simp only [Option.map_some]
        split
        · -- Already present and consistent.
          next heq =>
          refine Or.inl ⟨rfl, ?_⟩
          rw [← hmatch index d e hf hget heq]
          exact List.take_prefix _ _
        · -- A conflict: cut it off and everything after it.
          next hne =>
          refine Or.inr ⟨?_, rfl, hs, fun hc => ?_⟩
          · have hcut : full.take index = m.take index := by
              have := List.prefix_iff_eq_take.mp hpre
              rw [List.length_take, Nat.min_eq_left hlt.le] at this
              exact this.symm
            rw [← htake, ← hcut]
            exact (h.truncateAfter hs).append e
          · have := getElem?_of_pre hc hget
            rw [hf] at this
            exact hne (congrArg LogEntry.term (Option.some.inj this))

/-- **The splice loop adopts.** `m` is the leader's log up to the end of the message; the follower's
    list `full` agrees with it up to `index`, agrees below the snapshot boundary, and wherever the
    terms agree everything before agrees. -/
theorem splice_represents {entries : List LogEntry} (h : log.Represents full)
    (hm : m.drop index = entries)
    (hindex : index ≤ m.length) (hpre : m.take index <+: full)
    (hmatch : ∀ (i : Nat) (d e : LogEntry), full[i]? = some d → m[i]? = some e → d.term = e.term →
      full.take (i + 1) = m.take (i + 1))
    (hsnap : ∀ i, i < log.snapshotIndex → i < m.length → m.take (i + 1) <+: full) :
    (splice log index entries).Represents (adopt m full) := by
  induction entries generalizing log full index with
  | nil =>
      -- Nothing left to splice: the whole of `m` is there.
      have hall : m.take index = m := by
        rw [List.take_of_length_le]
        have := congrArg List.length hm
        simp at this
        omega
      rw [hall] at hpre
      have : adopt m full = full := if_pos hpre
      rw [this]
      exact h
  | cons e es ih =>
      have hlt : index < m.length := by
        have := congrArg List.length hm
        simp at this
        omega
      rw [List.drop_eq_getElem_cons hlt] at hm
      obtain ⟨hfirst, hm⟩ := List.cons.inj hm
      have hget : m[index]? = some e := by rw [List.getElem?_eq_getElem hlt, hfirst]
      show (splice (spliceEntry log (index + 1) e) (index + 1) es).Represents (adopt m full)
      rcases spliceEntry_represents h hget hpre hmatch hsnap with
        ⟨hsame, hpre⟩ | ⟨hwrote, hidx, hs, hno⟩
      · rw [hsame]
        exact ih h hm hlt hpre hmatch hsnap
      · -- Once an entry has been written, the log stands for a prefix of `m`.
        have hrest := ih hwrote hm hlt List.prefix_rfl
          (fun i d e' hd _ _ => by
            have htake : m.take (index + 1) <+: m := List.take_prefix _ _
            exact take_eq_of_pre htake (List.getElem?_eq_some_iff.mp hd).1)
          (fun i hi _ => List.take_prefix_take_left (by omega))
        have hadopt : adopt m full = m := if_neg hno
        rw [adopt_take] at hrest
        rwa [hadopt]

end Splice

/-! ## Runs of operations, side by side -/

/-- The operations that change a log. -/
inductive LogOp where
  | append (entry : LogEntry)
  | truncateAfter (index : Nat)
  | compact (index term : Nat)
deriving DecidableEq, Repr

/-- A log, and the plain list of all entries kept. -/
structure Twin where
  log : Log
  plain : List LogEntry
deriving DecidableEq, Repr

namespace Twin

def new : Twin := { log := Log.new, plain := [] }

/-- One operation on both; to the plain list compaction does nothing. `none` where the log is asked
    to truncate what it has compacted, or to compact at an entry it does not hold. -/
def step (s : Twin) : LogOp → Option Twin
  | .append entry => some { log := (s.log.append entry).1, plain := s.plain ++ [entry] }
  | .truncateAfter index =>
    if s.log.snapshotIndex ≤ index then
      some { log := s.log.truncateAfter index, plain := s.plain.take index }
    else none
  | .compact index term =>
    if s.log.snapshotIndex < index → s.log.termAt index = some term then
      some { s with log := s.log.compact index term }
    else none

/-- Every accessor answers as the plain list does, as far down as the log goes, and has nothing to
    say below. -/
structure Agrees (s : Twin) : Prop where
  lastIndex : s.log.lastIndex = s.plain.length
  lastTerm : s.log.lastTerm = Protocol.lastTerm LogEntry.term s.plain
  termAt : ∀ i, s.log.snapshotIndex ≤ i → s.log.termAt i = plainTerm s.plain i
  get : ∀ i, s.log.snapshotIndex < i → s.log.get i = s.plain[i - 1]?
  entriesAfter : ∀ i, s.log.snapshotIndex ≤ i → s.log.entriesAfter i = s.plain.drop i
  append : ∀ e, (s.log.append e).2 = (s.plain ++ [e]).length
  termAt_below : ∀ i, i < s.log.snapshotIndex → s.log.termAt i = none
  get_below : ∀ i, i ≤ s.log.snapshotIndex → s.log.get i = none

end Twin

theorem Log.Represents.agrees {s : Twin} (h : s.log.Represents s.plain) : s.Agrees where
  lastIndex := h.lastIndex_eq
  lastTerm := h.lastTerm_eq
  termAt _ := h.termAt_eq
  get _ := h.get_eq
  entriesAfter _ := h.entriesAfter_eq
  append e := by rw [h.append_index, List.length_append, List.length_singleton]
  termAt_below _ := Log.termAt_none
  get_below _ := Log.get_none

theorem Log.compact_stale {log : Log} {i : Nat} (hi : i ≤ log.snapshotIndex) (t : Nat) :
    log.compact i t = log :=
  if_pos hi

/-- A boundary that is not held is all that remains. -/
theorem Log.compact_unheld {log : Log} {i t : Nat} (hi : log.snapshotIndex < i)
    (hno : log.lastIndex < i ∨ log.termAt i ≠ some t) :
    log.compact i t = { entries := [], snapshotIndex := i, snapshotTerm := t } := by
  unfold Log.compact
  rw [if_neg (by omega), if_neg]
  rintro ⟨hle, ht⟩
  rcases hno with hlt | hne
  · omega
  · exact hne ht

theorem Twin.step_represents {s s' : Twin} {op : LogOp} (h : s.log.Represents s.plain)
    (hstep : s.step op = some s') : s'.log.Represents s'.plain := by
  unfold Twin.step at hstep
  cases op with
  | append entry =>
      cases hstep
      exact h.append entry
  | truncateAfter index =>
      obtain ⟨hi, heq⟩ := Option.ite_none_right_eq_some.mp hstep
      cases heq
      exact h.truncateAfter hi
  | compact index term =>
      obtain ⟨hheld, heq⟩ := Option.ite_none_right_eq_some.mp hstep
      cases heq
      rcases Nat.lt_or_ge s.log.snapshotIndex index with hi | hi
      · have hterm := hheld hi
        rw [h.termAt_eq hi.le] at hterm
        refine h.compact hi ?_ hterm
        by_contra hlt
        rw [plainTerm_eq_none _ (by omega)] at hterm
        cases hterm
      · show (s.log.compact index term).Represents s.plain
        rw [Log.compact_stale hi]
        exact h

/-- **The compacted log refines the plain one**, whatever is appended, truncated and compacted; and
    compacting at a boundary that is not held leaves the boundary alone. -/
theorem log_refines_plain :
    (∀ s, Reaches Twin.step Twin.new s → s.Agrees) ∧
      ∀ (log : Log) (i t : Nat), log.snapshotIndex < i →
        log.lastIndex < i ∨ log.termAt i ≠ some t →
        (log.compact i t).lastIndex = i ∧ (log.compact i t).lastTerm = t ∧
          (log.compact i t).entries = [] := by
  refine ⟨fun s h => ?_, fun log i t hi hno => ?_⟩
  · have hnew : Twin.new.log.Represents Twin.new.plain := Log.Represents.new
    have hall : s.log.Represents s.plain :=
      h.invariant (I := fun s => s.log.Represents s.plain)
        (fun _ _ _ hs hstep => Twin.step_represents hs hstep) hnew
    exact hall.agrees
  · rw [Log.compact_unheld hi hno]
    exact ⟨rfl, rfl, rfl⟩

/-- Two entries, a third in the place of the second, and the first one compacted away. -/
def compactedRun : List LogOp :=
  [.append ⟨1, [1]⟩, .append ⟨1, [2]⟩, .truncateAfter 1, .append ⟨2, [3]⟩, .compact 1 1]

/-- The two after `compactedRun`. -/
def compactedTwin : Twin :=
  { log := { entries := [⟨2, [3]⟩], snapshotIndex := 1, snapshotTerm := 1 }
    plain := [⟨1, [1]⟩, ⟨2, [3]⟩] }

theorem log_refines_plain_compacted :
    run Twin.step Twin.new compactedRun = some compactedTwin ∧ compactedTwin.Agrees ∧
      (Log.new.compact 3 2).lastIndex = 3 ∧ (Log.new.compact 3 2).lastTerm = 2 ∧
        (Log.new.compact 3 2).entries = [] :=
  have hrun : run Twin.step Twin.new compactedRun = some compactedTwin := by decide
  ⟨hrun, log_refines_plain.1 _ ⟨compactedRun, hrun⟩,
    log_refines_plain.2 Log.new 3 2 (by decide) (Or.inl (by decide))⟩

end Murmur.Raft
