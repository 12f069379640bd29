/-
  The splice loop of `handle_append_entries`, for any log and any message that passes the checks.

  * `Conflict`: both sides have an entry at the index, above the snapshot, and the terms differ.
  * `splice_conflict`, `splice_extends`: the loop cuts at the first conflict and takes the message
    from there; without a conflict it appends what the log does not reach.
  * `splice_agrees`, `splice_of_agrees`: afterwards the log agrees with the message, and then the
    loop changes nothing.

  Nothing here rests on where the log or the message comes from.
-/
import Murmur.Raft.Consensus

namespace Murmur.Raft

open ConsensusModule

variable {log : Log} {index i j : Nat} {e : LogEntry} {entries : List LogEntry}

/-! ## Above the boundary -/

namespace Log

theorem get_tail (h : log.snapshotIndex < i) :
    log.get i = log.entries[i - log.snapshotIndex - 1]? := by
  unfold get lastIndex
  split
  · rw [List.getElem?_eq_none (by omega)]
  · rfl

theorem termAt_tail (h : log.snapshotIndex < i) :
    log.termAt i = log.entries[i - log.snapshotIndex - 1]?.map LogEntry.term := by
  unfold termAt lastIndex
  rw [if_neg (by omega)]
  split
  · rfl
  · rw [List.getElem?_eq_none (by omega)]
    rfl

theorem termAt_past (h : log.lastIndex < i) : log.termAt i = none := by
  unfold lastIndex at h
  rw [termAt_tail (by omega), List.getElem?_eq_none (by omega)]
  rfl

/-- A term tells that the log reaches the index. -/
theorem le_lastIndex_of_termAt {t : Nat} (h : log.termAt i = some t) : i ≤ log.lastIndex := by
  by_contra hlt
  rw [termAt_past (by omega)] at h
  cases h

end Log

/-! ## One pass -/

theorem spliceEntry_boundary (log : Log) (i : Nat) (e : LogEntry) :
    (spliceEntry log i e).snapshotIndex = log.snapshotIndex ∧
      (spliceEntry log i e).snapshotTerm = log.snapshotTerm := by
  unfold spliceEntry
  split
  · exact ⟨rfl, rfl⟩
  · split
    · split <;> exact ⟨rfl, rfl⟩
    · exact ⟨rfl, rfl⟩

/-- What a pass does above the boundary: nothing where the terms agree, and otherwise the entry
    becomes the last one. -/
theorem spliceEntry_cases (hi : log.snapshotIndex ≤ index) (e : LogEntry) :
    log.termAt (index + 1) = some e.term ∧ spliceEntry log (index + 1) e = log ∨
    log.termAt (index + 1) ≠ some e.term ∧ spliceEntry log (index + 1) e =
      { log with entries := log.entries.take (index - log.snapshotIndex) ++ [e] } := by
  unfold spliceEntry
  rw [if_neg (by omega)]
  cases ht : log.termAt (index + 1) with
  | none =>
      right
      -- The log ends just before, so that nothing is cut.
      rw [Log.termAt_tail (by omega), Option.map_eq_none_iff, List.getElem?_eq_none_iff] at ht
      exact ⟨nofun, by rw [List.take_of_length_le (by omega)]; rfl⟩
  | some t =>
      dsimp only
      split
      · next heq => exact Or.inl ⟨congrArg some heq, rfl⟩
      · next hne => exact Or.inr ⟨fun h => hne (Option.some.inj h), rfl⟩

/-- A pass over an entry that is covered, or there already. -/
theorem spliceEntry_pass (h : i ≤ log.snapshotIndex ∨ log.termAt i = some e.term) :
    spliceEntry log i e = log := by
  unfold spliceEntry
  split
  · rfl
  · next hcov =>
    rw [h.resolve_left hcov]
    exact if_pos rfl

/-- Nothing below the index is touched. -/
theorem spliceEntry_tail (hlast : index ≤ log.lastIndex) (hj : log.snapshotIndex < j)
    (hji : j ≤ index) : (spliceEntry log (index + 1) e).entries[j - log.snapshotIndex - 1]? =
      log.entries[j - log.snapshotIndex - 1]? := by
  have hs : log.snapshotIndex ≤ index := by omega
  rcases spliceEntry_cases hs e with ⟨-, heq⟩ | ⟨-, heq⟩
  · rw [heq]
  · rw [heq]
    unfold Log.lastIndex at hlast
    show (log.entries.take _ ++ [e])[_]? = _
    rw [List.getElem?_append_left (by rw [List.length_take]; omega),
      List.getElem?_take_of_lt (by omega)]

theorem spliceEntry_reaches (hlast : index ≤ log.lastIndex) :
    index + 1 ≤ (spliceEntry log (index + 1) e).lastIndex := by
  rcases Nat.lt_or_ge index log.snapshotIndex with hlt | hge
  · rw [spliceEntry_pass (Or.inl (by omega))]
    unfold Log.lastIndex
    omega
  · rcases spliceEntry_cases hge e with ⟨ht, heq⟩ | ⟨-, heq⟩
    · rw [heq]
      exact Log.le_lastIndex_of_termAt ht
    · rw [heq]
      unfold Log.lastIndex at hlast ⊢
      show index + 1 ≤ log.snapshotIndex + (log.entries.take _ ++ [e]).length
      rw [List.length_append, List.length_take, List.length_singleton]
      omega

theorem spliceEntry_termAt (hi : log.snapshotIndex ≤ index) (hlast : index ≤ log.lastIndex) :
    (spliceEntry log (index + 1) e).termAt (index + 1) = some e.term := by
  rcases spliceEntry_cases hi e with ⟨ht, heq⟩ | ⟨-, heq⟩
  · rw [heq]
    exact ht
  · rw [heq, Log.termAt_tail (by show log.snapshotIndex < index + 1; omega)]
    unfold Log.lastIndex at hlast
    show (log.entries.take _ ++ [e])[index + 1 - log.snapshotIndex - 1]?.map _ = _
    rw [List.getElem?_append_right (by rw [List.length_take]; omega), List.length_take,
      Nat.min_eq_left (by omega), show index + 1 - log.snapshotIndex - 1 -
        (index - log.snapshotIndex) = 0 by omega]
    rfl

/-! ## The loop -/

theorem splice_boundary (log : Log) (i : Nat) (es : List LogEntry) :
    (splice log i es).snapshotIndex = log.snapshotIndex ∧
      (splice log i es).snapshotTerm = log.snapshotTerm := by
  induction es generalizing log i with
  | nil => exact ⟨rfl, rfl⟩
  | cons e es ih =>
      have h1 := spliceEntry_boundary log (i + 1) e
      have h2 := ih (spliceEntry log (i + 1) e) (i + 1)
      exact ⟨h2.1.trans h1.1, h2.2.trans h1.2⟩

theorem splice_tail (hlast : index ≤ log.lastIndex) (hj : log.snapshotIndex < j)
    (hji : j ≤ index) (entries : List LogEntry) :
    (splice log index entries).entries[j - log.snapshotIndex - 1]? =
      log.entries[j - log.snapshotIndex - 1]? := by
  induction entries generalizing log index with
  | nil => rfl
  | cons e es ih =>
      have hb := (spliceEntry_boundary log (index + 1) e).1
      have hreach : index + 1 ≤ (spliceEntry log (index + 1) e).lastIndex :=
        spliceEntry_reaches hlast
      have hrest := ih hreach (by rwa [hb]) (by omega)
      rw [hb] at hrest
      exact hrest.trans (spliceEntry_tail hlast hj hji)

/-- Entries at or below the index the message starts from are unchanged. -/
theorem splice_keeps (hlast : index ≤ log.lastIndex) (hji : j ≤ index)
    (entries : List LogEntry) : (splice log index entries).get j = log.get j ∧
      (splice log index entries).termAt j = log.termAt j := by
  obtain ⟨hidx, hterm⟩ := splice_boundary log index entries
  rcases Nat.lt_or_ge log.snapshotIndex j with hlt | hge
  · have htail := splice_tail hlast hlt hji entries
    rw [Log.get_tail (by rwa [hidx]), Log.get_tail hlt, Log.termAt_tail (by rwa [hidx]),
      Log.termAt_tail hlt, hidx, htail]
    exact ⟨rfl, rfl⟩
  · unfold Log.get Log.termAt
    rw [hidx, hterm, if_pos (Or.inl hge), if_pos (Or.inl hge)]
    refine ⟨rfl, ?_⟩
    split
    · rfl
    · rw [if_neg (by omega), if_neg (by omega)]

/-- The term the message has at an index; `index` is where it starts from. -/
def sentTerm (index : Nat) (entries : List LogEntry) (i : Nat) : Option Nat :=
  entries[i - index - 1]?.map LogEntry.term

theorem sentTerm_cons (hi : index + 1 < i) :
    sentTerm index (e :: entries) i = sentTerm (index + 1) entries i := by
  unfold sentTerm
  rw [show i - index - 1 = (i - (index + 1) - 1) + 1 by omega, List.getElem?_cons_succ]

theorem sentTerm_head : sentTerm index (e :: entries) (index + 1) = some e.term := by
  unfold sentTerm
  rw [show index + 1 - index - 1 = 0 by omega]
  rfl

/-- Above the boundary, the log has the message's terms. -/
def AgreesWith (log : Log) (index : Nat) (entries : List LogEntry) : Prop :=
  ∀ i, max index log.snapshotIndex < i → i ≤ index + entries.length →
    log.termAt i = sentTerm index entries i

/-- After the loop the log agrees with the message. -/
theorem splice_agrees (hlast : index ≤ log.lastIndex) (entries : List LogEntry) :
    AgreesWith (splice log index entries) index entries := by
  induction entries generalizing log index with
  | nil => exact fun i hlo hhi => absurd hhi (by rw [List.length_nil]; omega)
  | cons e es ih =>
      have hreach := spliceEntry_reaches (e := e) hlast
      have hrest := ih hreach
      have hb := (spliceEntry_boundary log (index + 1) e).1
      intro i hlo hhi
      rw [(splice_boundary log index (e :: es)).1] at hlo
      rw [List.length_cons] at hhi
      show (splice (spliceEntry log (index + 1) e) (index + 1) es).termAt i = _
      by_cases hi : i = index + 1
      · subst hi
        rw [(splice_keeps hreach (Nat.le_refl _) es).2,
          spliceEntry_termAt (by omega) hlast, sentTerm_head]
      · rw [hrest i (by rw [(splice_boundary _ _ _).1, hb]; omega) (by omega),
          sentTerm_cons (by omega)]

/-- A message the log agrees with changes nothing. -/
theorem splice_of_agrees (hagree : AgreesWith log index entries) :
    splice log index entries = log := by
  induction entries generalizing index with
  | nil => rfl
  | cons e es ih =>
      have hpass : index + 1 ≤ log.snapshotIndex ∨ log.termAt (index + 1) = some e.term := by
        by_cases hcov : index + 1 ≤ log.snapshotIndex
        · exact Or.inl hcov
        · right
          rw [hagree (index + 1) (by omega) (by rw [List.length_cons]; omega), sentTerm_head]
      show splice (spliceEntry log (index + 1) e) (index + 1) es = log
      rw [spliceEntry_pass hpass]
      refine ih fun i hlo hhi => ?_
      rw [hagree i (by omega) (by rw [List.length_cons]; omega), sentTerm_cons (by omega)]

/-! ## What the loop means -/

/-- Both sides have an entry at `i`, above the boundary, and the terms differ. -/
def Conflict (log : Log) (index : Nat) (entries : List LogEntry) (i : Nat) : Prop :=
  max index log.snapshotIndex < i ∧ i ≤ min (index + entries.length) log.lastIndex ∧
    log.termAt i ≠ sentTerm index entries i

instance (log : Log) (index : Nat) (entries : List LogEntry) (i : Nat) :
    Decidable (Conflict log index entries i) := by
  unfold Conflict
  infer_instance

/-- At the end of the log the message is appended. -/
theorem splice_append (hlast : index = log.lastIndex) (entries : List LogEntry) :
    splice log index entries = { log with entries := log.entries ++ entries } := by
  induction entries generalizing log index with
  | nil =>
      rw [List.append_nil]
      rfl
  | cons e es ih =>
      have hs : log.snapshotIndex ≤ index := by
        rw [hlast]
        exact Nat.le_add_right _ _
      have hone : spliceEntry log (index + 1) e = { log with entries := log.entries ++ [e] } := by
        unfold spliceEntry
        rw [if_neg (by omega), Log.termAt_past (by omega)]
        rfl
      show splice (spliceEntry log (index + 1) e) (index + 1) es = _
      rw [hone, ih]
      · simp
      · rw [hlast]
        simp [Log.lastIndex, Nat.add_assoc]

/-- The rest of a message after a pass that changes nothing has the same conflicts. -/
theorem conflict_rest (h : index + 1 ≤ log.snapshotIndex ∨ log.termAt (index + 1) = some e.term) :
    Conflict log index (e :: entries) i ↔ Conflict log (index + 1) entries i := by
  unfold Conflict
  rw [List.length_cons]
  constructor
  · rintro ⟨hlo, hhi, hne⟩
    have hi : index + 1 < i := by
      rcases h with hcov | hsame
      · omega
      · by_contra hle
        have : i = index + 1 := by omega
        subst this
        exact hne (by rw [hsame, sentTerm_head])
    exact ⟨by omega, by omega, by rwa [sentTerm_cons hi] at hne⟩
  · rintro ⟨hlo, hhi, hne⟩
    exact ⟨by omega, by omega, by rwa [sentTerm_cons (by omega)]⟩

/-- **At the first conflict** the log is cut, and the message is taken from there. -/
theorem splice_conflict (hlast : index ≤ log.lastIndex) (hi : Conflict log index entries i)
    (hfirst : ∀ j < i, ¬ Conflict log index entries j) :
    splice log index entries = { log with
      entries :=
        log.entries.take (i - 1 - log.snapshotIndex) ++ entries.drop (i - 1 - index) } := by
  induction entries generalizing index with
  | nil =>
      obtain ⟨hlo, hhi, -⟩ := hi
      rw [List.length_nil] at hhi
      omega
  | cons e es ih =>
      by_cases hpass : index + 1 ≤ log.snapshotIndex ∨ log.termAt (index + 1) = some e.term
      · -- This pass changes nothing.
        have hlast' : index + 1 ≤ log.lastIndex := by
          rcases hpass with hcov | hterm
          · exact hcov.trans (Nat.le_add_right _ _)
          · exact Log.le_lastIndex_of_termAt hterm
        have hi' := (conflict_rest hpass).mp hi
        show splice (spliceEntry log (index + 1) e) (index + 1) es = _
        rw [spliceEntry_pass hpass,
          ih hlast' hi' fun j hj hc => hfirst j hj ((conflict_rest hpass).mpr hc)]
        have hlt := hi'.1
        rw [show i - 1 - index = (i - 1 - (index + 1)) + 1 by omega, List.drop_succ_cons]
      · push Not at hpass
        obtain ⟨hcov, hterm⟩ := hpass
        obtain ⟨hlo, hhi, -⟩ := hi
        -- The conflict is here: an earlier one than `i` is excluded, and none is before this index.
        have hhere : i = index + 1 := by
          by_contra hne
          refine hfirst (index + 1) (by omega) ⟨by omega, ?_, ?_⟩
          · rw [List.length_cons]
            omega
          · rwa [sentTerm_head]
        subst hhere
        have hcut := (spliceEntry_cases (by omega) e).resolve_left fun h => hterm h.1
        unfold Log.lastIndex at hlast
        show splice (spliceEntry log (index + 1) e) (index + 1) es = _
        rw [hcut.2, splice_append]
        · simp
        · simp only [Log.lastIndex, List.length_append, List.length_take, List.length_singleton]
          omega

/-- **Without a conflict** the log is extended by what it does not reach. -/
theorem splice_extends (hlast : index ≤ log.lastIndex)
    (hno : ∀ i, ¬ Conflict log index entries i) :
    splice log index entries =
      { log with entries := log.entries ++ entries.drop (log.lastIndex - index) } := by
  induction entries generalizing index with
  | nil =>
      rw [List.drop_nil, List.append_nil]
      rfl
  | cons e es ih =>
      by_cases hend : index = log.lastIndex
      · rw [splice_append hend, hend, Nat.sub_self, List.drop_zero]
      · have hpass : index + 1 ≤ log.snapshotIndex ∨ log.termAt (index + 1) = some e.term := by
          by_contra hc
          push Not at hc
          refine hno (index + 1) ⟨by omega, ?_, ?_⟩
          · rw [List.length_cons]
            omega
          · rw [sentTerm_head]
            exact hc.2
        show splice (spliceEntry log (index + 1) e) (index + 1) es = _
        rw [spliceEntry_pass hpass, ih (by omega) fun i hc => hno i ((conflict_rest hpass).mpr hc),
          show log.lastIndex - index = (log.lastIndex - (index + 1)) + 1 by omega,
          List.drop_succ_cons]

/-! ## The handler -/

section Handler

variable {c : ConsensusModule} {args : AppendEntriesArgs}

/-- Yielding to a leader of no older term touches neither log nor commit index. -/
theorem yieldTo_keeps {term : Nat} (hterm : ¬ term < c.currentTerm) (leader : NodeId)
    (now : Instant) (draw : Nat) :
    (c.yieldTo term leader now draw).log = c.log ∧
      (c.yieldTo term leader now draw).commitIndex = c.commitIndex ∧
      (c.yieldTo term leader now draw).currentTerm = term := by
  unfold yieldTo
  split
  · next hnew =>
    simp only [stepDown, hnew, if_true]
    exact ⟨rfl, rfl, rfl⟩
  · exact ⟨rfl, rfl, by show c.currentTerm = term; omega⟩

theorem storeEntries_role (prev : Nat) (es : List LogEntry) :
    (c.storeEntries prev es).role = c.role := by
  unfold storeEntries; dsimp only; split <;> rfl

theorem storeEntries_currentTerm (prev : Nat) (es : List LogEntry) :
    (c.storeEntries prev es).currentTerm = c.currentTerm := by
  unfold storeEntries; dsimp only; split <;> rfl

theorem storeEntries_commitIndex (prev : Nat) (es : List LogEntry) :
    (c.storeEntries prev es).commitIndex = c.commitIndex := by
  unfold storeEntries; dsimp only; split <;> rfl

theorem storeEntries_log (prev : Nat) (es : List LogEntry) :
    (c.storeEntries prev es).log = splice c.log prev es := by
  unfold storeEntries; dsimp only; split <;> rfl

theorem followCommit_role (k : Nat) : (c.followCommit k).role = c.role := by
  unfold followCommit; split <;> rfl

theorem followCommit_currentTerm (k : Nat) : (c.followCommit k).currentTerm = c.currentTerm := by
  unfold followCommit; split <;> rfl

theorem followCommit_log (k : Nat) : (c.followCommit k).log = c.log := by
  unfold followCommit; split <;> rfl

theorem followCommit_commitIndex (k : Nat) : (c.followCommit k).commitIndex =
    if k > c.commitIndex then min k c.log.lastIndex else c.commitIndex := by
  unfold followCommit; split <;> rfl

/-- A message that passes the checks is spliced in, and the commit index follows. -/
theorem handleAppendEntries_accepted (hterm : ¬ args.term < c.currentTerm)
    (hcons : c.consistent args = true) (now : Instant) (draw : Nat) :
    (c.handleAppendEntries args now draw).2.success = true ∧
      (c.handleAppendEntries args now draw).1.currentTerm = args.term ∧
      (c.handleAppendEntries args now draw).1.log =
        splice c.log args.prevLogIndex args.entries ∧
      (c.handleAppendEntries args now draw).1.commitIndex =
        if args.leaderCommit > c.commitIndex then
          min args.leaderCommit (splice c.log args.prevLogIndex args.entries).lastIndex
        else c.commitIndex := by
  obtain ⟨hlog, hcommit, hcur⟩ := yieldTo_keeps hterm args.leaderId now draw
  unfold handleAppendEntries
  rw [if_neg hterm]
  dsimp only
  generalize c.yieldTo args.term args.leaderId now draw = d at hlog hcommit hcur ⊢
  have hcons' : d.consistent args = true := by
    unfold consistent at hcons ⊢
    rwa [hlog]
  rw [if_neg (by rw [hcons']; exact Bool.false_ne_true)]
  refine ⟨rfl, ?_, ?_, ?_⟩
  · rw [followCommit_currentTerm, storeEntries_currentTerm, hcur]
  · rw [followCommit_log, storeEntries_log, hlog]
  · rw [followCommit_commitIndex, storeEntries_commitIndex, storeEntries_log, hlog, hcommit]

/-- The log reaches the index the check was about. -/
theorem consistent_reaches (hcons : c.consistent args = true) :
    args.prevLogIndex ≤ c.log.lastIndex := by
  unfold consistent at hcons
  rw [decide_eq_true_iff] at hcons
  rcases hcons with hcov | hterm
  · exact hcov.trans (Nat.le_add_right _ _)
  · exact Log.le_lastIndex_of_termAt hterm

/-- **The splice loop means what it should**, for any follower and any message that passes the
    checks: the log is cut at the first conflict and takes the message from there, or is extended
    by what it does not reach. The boundary and the entries the message starts from stay, and
    handling the message once more changes neither log nor commit index. -/
theorem append_splices (c : ConsensusModule) (args : AppendEntriesArgs) (now now' : Instant)
    (draw draw' : Nat) (hterm : ¬ args.term < c.currentTerm) (hcons : c.consistent args = true) :
    let c' := (c.handleAppendEntries args now draw).1
    let again := c'.handleAppendEntries args now' draw'
    (∀ i, Conflict c.log args.prevLogIndex args.entries i →
      (∀ j < i, ¬ Conflict c.log args.prevLogIndex args.entries j) →
      c'.log = { c.log with
        entries := c.log.entries.take (i - 1 - c.log.snapshotIndex) ++
          args.entries.drop (i - 1 - args.prevLogIndex) }) ∧
    ((∀ i, ¬ Conflict c.log args.prevLogIndex args.entries i) →
      c'.log = { c.log with
        entries := c.log.entries ++ args.entries.drop (c.log.lastIndex - args.prevLogIndex) } ∧
      c.log.entries <+: c'.log.entries) ∧
    (c'.log.snapshotIndex = c.log.snapshotIndex ∧ c'.log.snapshotTerm = c.log.snapshotTerm ∧
      ∀ i ≤ args.prevLogIndex, c'.log.get i = c.log.get i) ∧
    again.2.success = true ∧ again.1.log = c'.log ∧ again.1.commitIndex = c'.commitIndex := by
  intro c' again
  obtain ⟨-, hcur, hlog, hcommit⟩ := handleAppendEntries_accepted hterm hcons now draw
  have hlast := consistent_reaches hcons
  have hb := splice_boundary c.log args.prevLogIndex args.entries
  have hterm' : ¬ args.term < c'.currentTerm := by
    show ¬ args.term < (c.handleAppendEntries args now draw).1.currentTerm
    rw [hcur]
    exact Nat.lt_irrefl _
  have hcons' : c'.consistent args = true := by
    unfold consistent at hcons ⊢
    rw [hlog, hb.1, (splice_keeps hlast (Nat.le_refl _) args.entries).2]
    exact hcons
  obtain ⟨hok, -, hlog', hcommit'⟩ := handleAppendEntries_accepted hterm' hcons' now' draw'
  have hagain : splice c'.log args.prevLogIndex args.entries = c'.log := by
    rw [hlog]
    exact splice_of_agrees (splice_agrees hlast args.entries)
  refine ⟨fun i hi hfirst => ?_, fun hno => ?_, ⟨?_, ?_, fun i hi => ?_⟩, hok, ?_, ?_⟩
  · rw [hlog]
    exact splice_conflict hlast hi hfirst
  · rw [hlog, splice_extends hlast hno]
    exact ⟨rfl, List.prefix_append _ _⟩
  · rw [hlog, hb.1]
  · rw [hlog, hb.2]
  · rw [hlog]
    exact (splice_keeps hlast hi args.entries).1
  · exact hlog'.trans hagain
  · -- The commit index has followed as far as the log goes.
    show (c'.handleAppendEntries args now' draw').1.commitIndex = c'.commitIndex
    rw [← hlog] at hcommit
    have hfollowed : c'.commitIndex =
        if args.leaderCommit > c.commitIndex then min args.leaderCommit c'.log.lastIndex
        else c.commitIndex := hcommit
    rw [hcommit', hagain, hfollowed]
    grind

/-- A node that holds entries of the terms 1, 1 and 2. -/
def behind : ConsensusModule :=
  .new 1 [2, 3]
    { currentTerm := 2, log := { Log.new with entries := [⟨1, [1]⟩, ⟨1, [2]⟩, ⟨2, [3]⟩] } }
    {} 0 0

/-- The leader of term 3 has entries of the terms 1, 1, 3 and 3 and sends those from index 2 on. -/
def repairing : AppendEntriesArgs :=
  { term := 3, leaderId := 2, prevLogIndex := 1, prevLogTerm := 1, leaderCommit := 2
    entries := [⟨1, [2]⟩, ⟨3, [4]⟩, ⟨3, [5]⟩] }

theorem append_splices_repairing :
    Conflict behind.log 1 repairing.entries 3 ∧
      (behind.handleAppendEntries repairing 10 0).1.log =
        { Log.new with entries := [⟨1, [1]⟩, ⟨1, [2]⟩, ⟨3, [4]⟩, ⟨3, [5]⟩] } :=
  ⟨by decide, (append_splices behind repairing 10 20 0 0 (by decide) (by decide)).1 3 (by decide)
    (by decide)⟩

end Handler

end Murmur.Raft
