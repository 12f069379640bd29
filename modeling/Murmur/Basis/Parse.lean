/-
  Parsers that ask for bytes in blocks, and the two ways to run one.

  * `Parse`: what a parser does next: stop with a value or a failure, or ask for `n` bytes. A block
    carries its length, so that a parser looks inside it without a check of its own.
  * `Parse.onList`: the `Reader` that takes each block from the front of what remains.
  * `Parse.onCursor`: a position in a buffer that stays as it is, with machine addition and with
    slices and blocks that can be out of range; `none` is such an access.
  * `onCursor_sound`, `onCursor_complete`: the cursor stays within its buffer, whatever the parser
    asks for, and reads what the reader reads on the bytes ahead of it.
  * `onList_confined`: no parser looks past what it consumes.
  * `Parse.run`: a parser on a whole buffer, with an error for what is left over. It accepts what
    the parser reads (`run_reads`), no proper prefix of it (`run_cut`) and no extension
    (`run_left`).
-/
import Murmur.Basis.Bytes

namespace Murmur.Basis

/-- `n` bytes. -/
abbrev Block (n : Nat) := {bytes : List UInt8 // bytes.length = n}

/-- `u64::from_le_bytes` of a block of the right length. -/
def Block.u64 (block : Block 8) : UInt64 := u64OfLe block.val

/-- The first byte of a block. -/
def Block.head {n : Nat} (block : Block (n + 1)) : UInt8 :=
  block.val.head fun h => by
    have := block.property
    rw [h] at this
    cases this

inductive Parse (ε α : Type) where
  | done (a : α)
  | fail (e : ε)
  /-- `short` is the failure when fewer than `n` bytes remain. -/
  | take (n : Nat) (short : ε) (next : Block n → Parse ε α)

namespace Parse

variable {ε α β γ : Type}

protected def bind : Parse ε α → (α → Parse ε β) → Parse ε β
  | done a, f => f a
  | fail e, _ => fail e
  | take n short next, f => take n short fun block => (next block).bind f

instance : Monad (Parse ε) where
  pure := done
  bind := Parse.bind

/-- Go on only where `c` holds. -/
def ensure (c : Prop) [Decidable c] (e : ε) : Parse ε Unit := if c then pure () else fail e

/-- Run `body` `n` times on an accumulator. -/
def loop (body : β → Parse ε β) : Nat → β → Parse ε β
  | 0, acc => pure acc
  | n + 1, acc => do
    let acc ← body acc
    loop body n acc

/-! ## On the bytes that remain -/

def onList : Parse ε α → Reader ε α
  | done a => fun rest => .ok (a, rest)
  | fail e => fun _ => .error e
  | take n short next => fun rest =>
    if h : n ≤ rest.length then
      (next ⟨rest.take n, List.length_take_of_le h⟩).onList (rest.drop n)
    else .error short

theorem onList_bind (p : Parse ε α) (f : α → Parse ε β) :
    (p >>= f).onList = p.onList >>= fun a => (f a).onList := by
  show (p.bind f).onList = _
  funext rest
  induction p generalizing rest with
  | done a => rfl
  | fail e => rfl
  | take n short next ih =>
      show _ = ((take n short next).onList rest >>= fun q => (f q.1).onList q.2)
      simp only [Parse.bind, onList]
      split
      · exact ih _ _
      · rfl

theorem onList_confined (p : Parse ε α) : Confined p.onList := by
  induction p with
  | done a => exact Confined.pure a
  | fail e => exact Confined.throw e
  | take n short next ih =>
      intro bytes a rest h more
      simp only [onList] at h ⊢
      split at h
      · next hn =>
          rw [dif_pos (by rw [List.length_append]; omega)]
          simp only [List.take_append_of_le_length hn, List.drop_append_of_le_length hn]
          exact ih _ h more
      · cases h

/-! ### What a parser reads -/

theorem reads_done (a : α) : Reads (done a : Parse ε α).onList [] a := Reads.pure a

theorem reads_bind {p : Parse ε α} {f : α → Parse ε β} {bytes bytes' : List UInt8} {a : α} {b : β}
    (hp : Reads p.onList bytes a) (hf : Reads (f a).onList bytes' b) :
    Reads (p >>= f).onList (bytes ++ bytes') b := by
  rw [onList_bind]
  exact hp.bind hf

/-- Apply a function to what was read. -/
theorem reads_map {p : Parse ε α} (f : α → β) {bytes : List UInt8} {a : α}
    (hp : Reads p.onList bytes a) : Reads (p >>= fun a => pure (f a)).onList bytes (f a) := by
  have h := reads_bind (f := fun a => pure (f a)) hp (reads_done (f a))
  rwa [List.append_nil] at h

theorem reads_take (short : ε) {n : Nat} (block : Block n) :
    Reads (take n short done).onList block.val block := by
  obtain ⟨bytes, rfl⟩ := block
  intro rest
  simp only [onList]
  rw [dif_pos (by rw [List.length_append]; omega)]
  simp only [List.take_left, List.drop_left]

theorem reads_ensure {c : Prop} [Decidable c] (hc : c) (e : ε) {f : Unit → Parse ε β}
    {bytes : List UInt8} {b : β} (hf : Reads (f ()).onList bytes b) :
    Reads (ensure c e >>= f).onList bytes b := by
  rw [ensure, if_pos hc]
  exact hf

theorem reads_loop {body : β → Parse ε β} {encode : γ → List UInt8} {g : β → γ → β}
    (xs : List γ) (hbody : ∀ acc, ∀ x ∈ xs, Reads (body acc).onList (encode x) (g acc x))
    (acc : β) : Reads (loop body xs.length acc).onList (xs.flatMap encode) (xs.foldl g acc) := by
  induction xs generalizing acc with
  | nil => exact reads_done acc
  | cons x xs ih =>
      have hrest := ih (fun acc y hy => hbody acc y (List.mem_cons_of_mem _ hy)) (g acc x)
      exact reads_bind (hbody acc x List.mem_cons_self) hrest

/-! ### What a success says

`Yields p Q` is a postcondition over the value and the number of bytes it cost. -/

def Yields (p : Parse ε α) (Q : α → Nat → Prop) : Prop :=
  ∀ ⦃bytes a rest⦄, p.onList bytes = .ok (a, rest) →
    ∃ cost, bytes.length = cost + rest.length ∧ Q a cost

theorem yields_done {Q : α → Nat → Prop} {a : α} (h : Q a 0) : Yields (done a : Parse ε α) Q := by
  intro bytes b rest hb
  cases hb
  exact ⟨0, (Nat.zero_add _).symm, h⟩

theorem yields_fail (e : ε) (Q : α → Nat → Prop) : Yields (fail e : Parse ε α) Q := by
  intro bytes b rest hb
  cases hb

theorem yields_take {Q : α → Nat → Prop} {n : Nat} (short : ε) {next : Block n → Parse ε α}
    (h : ∀ block, Yields (next block) fun a cost => Q a (n + cost)) :
    Yields (take n short next) Q := by
  intro bytes a rest hb
  simp only [onList] at hb
  split at hb
  · next hn =>
      obtain ⟨cost, hlen, hq⟩ := h _ hb
      rw [List.length_drop] at hlen
      exact ⟨n + cost, by omega, hq⟩
  · cases hb

/-- Every success costs something or nothing. -/
theorem yields_any (p : Parse ε α) : Yields p fun _ _ => True := by
  induction p with
  | done a => exact yields_done trivial
  | fail e => exact yields_fail e _
  | take n short next ih => exact yields_take short ih

theorem Yields.bind {p : Parse ε α} {f : α → Parse ε β} {Q : α → Nat → Prop} {R : β → Nat → Prop}
    (hp : Yields p Q) (hf : ∀ a cost, Q a cost → Yields (f a) fun b more => R b (cost + more)) :
    Yields (p >>= f) R := by
  intro bytes b rest h
  rw [onList_bind] at h
  change (p.onList bytes >>= fun q => (f q.1).onList q.2) = _ at h
  cases hq : p.onList bytes with
  | error e => rw [hq] at h; cases h
  | ok q =>
      rw [hq] at h
      obtain ⟨cost, hlen, ha⟩ := hp hq
      obtain ⟨more, hlen', hb⟩ := hf q.1 cost ha h
      exact ⟨cost + more, by omega, hb⟩

/-- A loop keeps an invariant of its accumulator and of the bytes spent so far. -/
theorem Yields.loop {body : β → Parse ε β} {I : β → Nat → Prop}
    (hbody : ∀ acc spent, I acc spent → Yields (body acc) fun acc' cost => I acc' (spent + cost))
    (n : Nat) {acc : β} {spent : Nat} (h : I acc spent) :
    Yields (loop body n acc) fun acc' cost => I acc' (spent + cost) := by
  induction n generalizing acc spent with
  | zero => exact yields_done h
  | succ n ih =>
      refine (hbody acc spent h).bind fun acc' cost hi => ?_
      simpa only [Nat.add_assoc] using ih hi

/-! ## On a cursor -/

/-- `usize::checked_add`. -/
def checkedAdd (a b : Nat) : Option Nat := if a + b < 2 ^ 64 then some (a + b) else none

/-- `&buf[i..j]`; `none` when the range is not one of the buffer. -/
def sliceAt (buf : List UInt8) (i j : Nat) : Option (List UInt8) :=
  if i ≤ j ∧ j ≤ buf.length then some ((buf.drop i).take (j - i)) else none

/-- A slice as an array of `n` bytes; `none` when it has another length. -/
def asBlock (n : Nat) (bytes : List UInt8) : Option (Block n) :=
  if h : bytes.length = n then some ⟨bytes, h⟩ else none

/-- Run a parser at position `pos` of `buf`. The position moves only past a block that was taken. -/
def onCursor : Parse ε α → List UInt8 → Nat → Option (Except ε (α × Nat))
  | done a, _, pos => some (.ok (a, pos))
  | fail e, _, _ => some (.error e)
  | take n short next, buf, pos =>
    match (checkedAdd pos n).filter (· ≤ buf.length) with
    | some stop => do
      let bytes ← sliceAt buf pos stop
      let block ← asBlock n bytes
      (next block).onCursor buf stop
    | none => some (.error short)

section

variable {buf : List UInt8} {pos : Nat}

/-- One request on a cursor within its buffer: it is granted or it fails, and never out of range. -/
theorem onCursor_take (n : Nat) (short : ε) (next : Block n → Parse ε α) (hpos : pos ≤ buf.length) :
    (take n short next).onCursor buf pos =
      if h : pos + n ≤ buf.length ∧ pos + n < 2 ^ 64 then
        (next ⟨(buf.drop pos).take n,
          List.length_take_of_le (by rw [List.length_drop]; omega)⟩).onCursor buf (pos + n)
      else some (.error short) := by
  rw [onCursor, checkedAdd]
  by_cases hfit : pos + n < 2 ^ 64
  · rw [if_pos hfit]
    by_cases hlen : pos + n ≤ buf.length
    · rw [dif_pos ⟨hlen, hfit⟩]
      have hblock : asBlock n ((buf.drop pos).take n) =
          some ⟨(buf.drop pos).take n,
            List.length_take_of_le (by rw [List.length_drop]; omega)⟩ := dif_pos _
      simp only [Option.filter_some, hlen, decide_true, if_true, sliceAt, Nat.le_add_right,
        and_self, Nat.add_sub_cancel_left, Option.bind_eq_bind, Option.bind_some, hblock]
    · rw [dif_neg fun h => hlen h.1]
      simp only [Option.filter_some, hlen, decide_false, if_false, Bool.false_eq_true]
  · rw [if_neg hfit, dif_neg fun h => hfit h.2]
    rfl

/-- No access is out of range, and a success is one of the reader on the bytes ahead. -/
theorem onCursor_sound (p : Parse ε α) (hpos : pos ≤ buf.length) :
    ∃ result, p.onCursor buf pos = some result ∧
      ∀ a stop, result = .ok (a, stop) →
        stop ≤ buf.length ∧ p.onList (buf.drop pos) = .ok (a, buf.drop stop) := by
  induction p generalizing pos with
  | done a =>
      refine ⟨_, rfl, fun b stop h => ?_⟩
      cases h
      exact ⟨hpos, rfl⟩
  | fail e => exact ⟨_, rfl, nofun⟩
  | take n short next ih =>
      rw [onCursor_take n short next hpos]
      split
      · next h =>
          obtain ⟨result, hrun, hok⟩ := ih _ h.1
          refine ⟨result, hrun, fun a stop heq => ?_⟩
          obtain ⟨hstop, hlist⟩ := hok a stop heq
          refine ⟨hstop, ?_⟩
          simp only [onList]
          rw [dif_pos (by rw [List.length_drop]; omega)]
          simpa only [List.drop_drop] using hlist
      · exact ⟨_, rfl, nofun⟩

/-- In a buffer that a machine can hold, whatever the reader accepts the cursor accepts. -/
theorem onCursor_complete (p : Parse ε α) (hbuf : buf.length < 2 ^ 64) (hpos : pos ≤ buf.length)
    {a : α} {rest : List UInt8} (h : p.onList (buf.drop pos) = .ok (a, rest)) :
    p.onCursor buf pos = some (.ok (a, buf.length - rest.length)) := by
  induction p generalizing pos with
  | done b =>
      cases h
      rw [onCursor, List.length_drop, Nat.sub_sub_self hpos]
  | fail e => cases h
  | take n short next ih =>
      simp only [onList] at h
      split at h
      · next hn =>
          rw [List.length_drop] at hn
          rw [onCursor_take n short next hpos, dif_pos ⟨by omega, by omega⟩]
          refine ih _ (by omega) ?_
          simpa only [List.drop_drop] using h
      · cases h

end

/-! ## On a whole buffer -/

/-- Run a parser from the start of `buf`; `left k` is the failure when `k` bytes are left over. -/
def run (p : Parse ε α) (left : Nat → ε) (buf : List UInt8) : Option (Except ε α) :=
  (p.onCursor buf 0).map fun result =>
    match result with
    | .ok (a, pos) => if pos ≠ buf.length then .error (left (buf.length - pos)) else .ok a
    | .error e => .error e

variable {p : Parse ε α} {left : Nat → ε} {buf : List UInt8} {a : α}

/-- Every buffer is accepted or refused without an access out of range, and what is accepted is what
    the reader reads to the end. -/
theorem run_total (p : Parse ε α) (left : Nat → ε) (buf : List UInt8) :
    ∃ result, p.run left buf = some result ∧
      ∀ a, result = .ok a → p.onList buf = .ok (a, []) := by
  obtain ⟨result, hrun, hok⟩ := p.onCursor_sound (Nat.zero_le buf.length)
  refine ⟨_, congrArg _ hrun, ?_⟩
  intro a heq
  cases result with
  | error e => cases heq
  | ok q =>
      obtain ⟨b, pos⟩ := q
      dsimp only at heq
      split at heq
      · cases heq
      · next hpos =>
          cases heq
          have hlist := (hok a pos rfl).2
          rwa [not_not.mp hpos, List.drop_zero, List.drop_length] at hlist

/-- A buffer on which the reader does not end at the last byte is refused. -/
theorem run_refuses (hno : ∀ a, p.onList buf ≠ .ok (a, [])) :
    ∃ e, p.run left buf = some (.error e) := by
  obtain ⟨result, hrun, hok⟩ := p.run_total left buf
  cases result with
  | error e => exact ⟨e, hrun⟩
  | ok a => exact absurd (hok a rfl) (hno a)

theorem run_reads (h : Reads p.onList buf a) (hbuf : buf.length < 2 ^ 64) :
    p.run left buf = some (.ok a) := by
  have hcursor := p.onCursor_complete hbuf (Nat.zero_le _) h.run
  rw [run, hcursor, Option.map_some]
  exact congrArg some (if_neg (not_not.mpr rfl))

theorem run_cut (h : Reads p.onList buf a) {cut : List UInt8} (hcut : cut <+: buf)
    (hne : cut ≠ buf) : ∃ e, p.run left cut = some (.error e) := by
  obtain ⟨e, he⟩ := h.strict p.onList_confined hcut hne
  exact run_refuses fun b hb => nomatch he.symm.trans hb

theorem run_left (h : Reads p.onList buf a) {more : List UInt8} (hne : more ≠ []) :
    ∃ e, p.run left (buf ++ more) = some (.error e) := by
  refine run_refuses fun b hb => hne ?_
  exact congrArg Prod.snd (Except.ok.inj ((h more).symm.trans hb))

end Parse

end Murmur.Basis
