/-
  Byte formats: little-endian words, readers that consume a byte string from the front, and what it
  means for a reader to take one encoded value and leave the rest.

  * `toLe`, `ofLe`: fixed-width little-endian numbers.
  * `varint`: numbers of any size, seven bits a byte.
  * `Reader`: a reader over the remaining bytes; `take` is its one primitive that consumes.
  * `Reads r bytes a`: before any further bytes, `r` consumes exactly `bytes` and returns `a`.
  * `Confined r`: `r` does not look past what it consumes; so what it reads has no proper prefix
    that it accepts.
  * `fromUtf8Lossy`: text out of arbitrary bytes, unchanged where they are valid.
-/
import Mathlib.Algebra.Group.Nat.Defs
import Mathlib.Data.List.Basic

namespace Murmur.Basis

/-! ## Little-endian words -/

/-- The value of a byte string, least significant byte first. -/
def ofLe : List UInt8 → Nat
  | [] => 0
  | b :: bs => b.toNat + 256 * ofLe bs

/-- The `w` low bytes of a number, least significant byte first. -/
def toLe : Nat → Nat → List UInt8
  | 0, _ => []
  | w + 1, n => UInt8.ofNat n :: toLe w (n / 256)

@[simp] theorem length_toLe (w n : Nat) : (toLe w n).length = w := by
  induction w generalizing n with
  | zero => rfl
  | succ w ih => rw [toLe, List.length_cons, ih]

theorem ofLe_toLe (w n : Nat) : ofLe (toLe w n) = n % 256 ^ w := by
  induction w generalizing n with
  | zero => rw [toLe, ofLe, Nat.pow_zero, Nat.mod_one]
  | succ w ih =>
      have hb : (UInt8.ofNat n).toNat = n % 256 := UInt8.toNat_ofNat'
      rw [toLe, ofLe, ih, hb, Nat.pow_succ, Nat.mul_comm (256 ^ w), Nat.mod_mul]

/-- `u64::to_le_bytes`. -/
def u64ToLe (v : UInt64) : List UInt8 := toLe 8 v.toNat

/-- `u64::from_le_bytes`. -/
def u64OfLe (bytes : List UInt8) : UInt64 := UInt64.ofNat (ofLe bytes)

@[simp] theorem length_u64ToLe (v : UInt64) : (u64ToLe v).length = 8 := length_toLe 8 _

theorem u64OfLe_u64ToLe (v : UInt64) : u64OfLe (u64ToLe v) = v := by
  have hlt : v.toNat < 256 ^ 8 := v.toNat_lt
  rw [u64OfLe, u64ToLe, ofLe_toLe, Nat.mod_eq_of_lt hlt, UInt64.ofNat_toNat]

/-! ## Base-128 numbers -/

/-- Seven bits a byte, low bits first, the top bit set on all bytes but the last; `fuel` is at least
    the number. -/
def varintFrom : Nat → Nat → List UInt8
  | 0, n => [UInt8.ofNat n]
  | fuel + 1, n =>
    if n < 128 then [UInt8.ofNat n]
    else UInt8.ofNat (n % 128 + 128) :: varintFrom fuel (n / 128)

def varint (n : Nat) : List UInt8 := varintFrom n n

/-- The number at the front, and what follows it. -/
def varintOf : List UInt8 → Option (Nat × List UInt8)
  | [] => none
  | b :: rest =>
    if b.toNat < 128 then some (b.toNat, rest)
    else (varintOf rest).map fun p => (b.toNat % 128 + 128 * p.1, p.2)

theorem varintOf_last {n : Nat} (h : n < 128) (rest : List UInt8) :
    varintOf (UInt8.ofNat n :: rest) = some (n, rest) := by
  have hb : (UInt8.ofNat n).toNat = n := UInt8.toNat_ofNat_of_lt' (by show n < 256; omega)
  rw [varintOf, hb, if_pos h]

theorem varintOf_varintFrom (fuel : Nat) {n : Nat} (h : n ≤ fuel) (rest : List UInt8) :
    varintOf (varintFrom fuel n ++ rest) = some (n, rest) := by
  induction fuel generalizing n with
  | zero => exact varintOf_last (by omega) rest
  | succ fuel ih =>
      rw [varintFrom]
      split
      · next hlt => exact varintOf_last hlt rest
      · next hge =>
          have hb : (UInt8.ofNat (n % 128 + 128)).toNat = n % 128 + 128 :=
            UInt8.toNat_ofNat_of_lt' (by show n % 128 + 128 < 256; omega)
          rw [List.cons_append, varintOf, hb, if_neg (by omega), ih (by omega), Option.map_some,
            Nat.add_mod_right, Nat.mod_mod, Nat.mod_add_div]

/-! ## Readers -/

/-- A reader consumes bytes from the front of what remains, or fails. -/
abbrev Reader (ε : Type) := StateT (List UInt8) (Except ε)

namespace Reader

variable {ε α β : Type}

/-- Take `n` bytes; `short` is the failure when fewer remain. -/
def take (short : ε) (n : Nat) : Reader ε (List UInt8) := fun rest =>
  if n ≤ rest.length then .ok (rest.take n, rest.drop n) else .error short

/-- Read a `varint`. -/
def varint (short : ε) : Reader ε Nat := fun rest =>
  match varintOf rest with
  | some p => .ok p
  | none => .error short

/-- Run `body` `n` times on an accumulator. -/
def loop (body : β → Reader ε β) : Nat → β → Reader ε β
  | 0, acc => pure acc
  | n + 1, acc => do
    let acc ← body acc
    loop body n acc

/-- Run `body` on an accumulator until nothing remains, for at most `fuel` rounds. -/
def untilEmpty (body : β → Reader ε β) : Nat → β → Reader ε β
  | 0, acc => pure acc
  | fuel + 1, acc => fun rest =>
    if rest.isEmpty then .ok (acc, []) else (body acc >>= untilEmpty body fuel) rest

end Reader

/-- Before any further bytes, `r` consumes exactly `bytes` and returns `a`. -/
def Reads {ε α : Type} (r : Reader ε α) (bytes : List UInt8) (a : α) : Prop :=
  ∀ rest, r (bytes ++ rest) = .ok (a, rest)

namespace Reads

variable {ε α β γ : Type} {r : Reader ε α} {bytes bytes' : List UInt8} {a : α}

protected theorem pure (a : α) : Reads (pure a : Reader ε α) [] a := fun _ => rfl

protected theorem bind {f : α → Reader ε β} {b : β} (hr : Reads r bytes a)
    (hf : Reads (f a) bytes' b) : Reads (r >>= f) (bytes ++ bytes') b := by
  intro rest
  show (r (bytes ++ bytes' ++ rest) >>= fun p => f p.1 p.2) = _
  rw [List.append_assoc, hr]
  exact hf rest

/-- Apply a function to what was read. -/
protected theorem map (f : α → β) (hr : Reads r bytes a) :
    Reads (r >>= fun a => pure (f a)) bytes (f a) := by
  have h := hr.bind (f := fun a => pure (f a)) (Reads.pure (f a))
  rwa [List.append_nil] at h

theorem take (short : ε) {n : Nat} (h : bytes.length = n) :
    Reads (Reader.take short n) bytes bytes := by
  intro rest
  subst h
  unfold Reader.take
  rw [if_pos (by rw [List.length_append]; omega), List.take_left, List.drop_left]

/-- A counted loop over the encodings of a list. -/
theorem loop {body : β → Reader ε β} {encode : γ → List UInt8} {g : β → γ → β}
    (xs : List γ) (hbody : ∀ acc, ∀ x ∈ xs, Reads (body acc) (encode x) (g acc x)) (acc : β) :
    Reads (Reader.loop body xs.length acc) (xs.flatMap encode) (xs.foldl g acc) := by
  induction xs generalizing acc with
  | nil => exact Reads.pure acc
  | cons x xs ih =>
      have hrest := ih (fun acc y hy => hbody acc y (List.mem_cons_of_mem _ hy)) (g acc x)
      exact (hbody acc x List.mem_cons_self).bind hrest

theorem varint (short : ε) (n : Nat) : Reads (Reader.varint short) (Basis.varint n) n := by
  intro rest
  unfold Reader.varint Basis.varint
  rw [varintOf_varintFrom n (Nat.le_refl n)]

/-- A loop to the end of the bytes, over the encodings of a list. -/
theorem untilEmpty {body : β → Reader ε β} {encode : γ → List UInt8} {g : β → γ → β} (xs : List γ)
    (hbody : ∀ acc, ∀ x ∈ xs, Reads (body acc) (encode x) (g acc x))
    (hpos : ∀ x ∈ xs, encode x ≠ []) {fuel : Nat} (hfuel : xs.length ≤ fuel) (acc : β) :
    Reader.untilEmpty body fuel acc (xs.flatMap encode) = .ok (xs.foldl g acc, []) := by
  induction xs generalizing fuel acc with
  | nil => cases fuel <;> rfl
  | cons x xs ih =>
      cases fuel with
      | zero => cases hfuel
      | succ fuel =>
          have hrest := ih (fun acc y hy => hbody acc y (List.mem_cons_of_mem _ hy))
            (fun y hy => hpos y (List.mem_cons_of_mem _ hy)) (Nat.le_of_succ_le_succ hfuel)
              (g acc x)
          have hne : ¬ (encode x ++ xs.flatMap encode).isEmpty = true := by
            rw [List.isEmpty_iff]
            exact fun h => hpos x List.mem_cons_self (List.append_eq_nil_iff.mp h).1
          rw [List.flatMap_cons, Reader.untilEmpty]
          refine (if_neg hne).trans ?_
          show (body acc (encode x ++ xs.flatMap encode) >>= fun p =>
            Reader.untilEmpty body fuel p.1 p.2) = _
          rw [hbody acc x List.mem_cons_self]
          exact hrest

/-- The whole of a byte string, with nothing left over. -/
theorem run (h : Reads r bytes a) : r bytes = .ok (a, []) := by
  have := h []
  rwa [List.append_nil] at this

end Reads

/-- A success does not depend on the bytes behind what was consumed. -/
def Confined {ε α : Type} (r : Reader ε α) : Prop :=
  ∀ ⦃bytes a rest⦄, r bytes = .ok (a, rest) → ∀ more, r (bytes ++ more) = .ok (a, rest ++ more)

namespace Confined

variable {ε α β : Type} {r : Reader ε α}

protected theorem pure (a : α) : Confined (pure a : Reader ε α) := by
  intro bytes b rest h more
  cases h
  rfl

protected theorem throw (e : ε) : Confined (throw e : Reader ε α) := by
  intro bytes b rest h
  cases h

protected theorem bind {f : α → Reader ε β} (hr : Confined r) (hf : ∀ a, Confined (f a)) :
    Confined (r >>= f) := by
  intro bytes b rest h more
  change (r bytes >>= fun p => f p.1 p.2) = _ at h
  show (r (bytes ++ more) >>= fun p => f p.1 p.2) = _
  cases hc : r bytes with
  | error e => rw [hc] at h; cases h
  | ok p =>
      rw [hc] at h
      rw [hr hc more]
      exact hf p.1 h more

theorem take (short : ε) (n : Nat) : Confined (Reader.take short n) := by
  intro bytes a rest h more
  unfold Reader.take at h ⊢
  split at h
  · next hn =>
      cases h
      rw [if_pos (by rw [List.length_append]; omega), List.take_append_of_le_length hn,
        List.drop_append_of_le_length hn]
  · cases h

theorem loop {body : β → Reader ε β} (hbody : ∀ acc, Confined (body acc)) (n : Nat) (acc : β) :
    Confined (Reader.loop body n acc) := by
  induction n generalizing acc with
  | zero => exact Confined.pure acc
  | succ n ih => exact (hbody acc).bind fun acc => ih acc

end Confined

/-- A reader accepts no proper prefix of what it reads. -/
theorem Reads.strict {ε α : Type} {r : Reader ε α} {bytes cut : List UInt8} {a : α}
    (h : Reads r bytes a) (hr : Confined r) (hcut : cut <+: bytes) (hne : cut ≠ bytes) :
    ∃ e, r cut = .error e := by
  obtain ⟨more, rfl⟩ := hcut
  cases hc : r cut with
  | error e => exact ⟨e, rfl⟩
  | ok p =>
      -- A success on `cut` would leave `more` unread, and nothing is left of the whole.
      have hwhole := (hr hc more).symm.trans h.run
      have hrest : p.2 ++ more = [] := congrArg Prod.snd (Except.ok.inj hwhole)
      rw [(List.append_eq_nil_iff.mp hrest).2, List.append_nil] at hne
      exact absurd rfl hne

/-! ## Lists of encodings -/

/-- Each encoding of a list is within the whole. -/
theorem length_le_flatMap {α : Type} (encode : α → List UInt8) {xs : List α} {x : α} (h : x ∈ xs) :
    (encode x).length ≤ (xs.flatMap encode).length := by
  rw [List.flatMap_def]
  exact (List.sublist_flatten_of_mem (List.mem_map_of_mem h)).length_le

theorem count_le_flatMap {α : Type} (encode : α → List UInt8) (hpos : ∀ x, 0 < (encode x).length)
    (xs : List α) : xs.length ≤ (xs.flatMap encode).length := by
  induction xs with
  | nil => exact Nat.le_refl _
  | cons x xs ih =>
      rw [List.flatMap_cons, List.length_cons, List.length_append]
      have := hpos x
      omega

theorem foldl_snoc {α : Type} (xs ys : List α) :
    xs.foldl (fun acc x => acc ++ [x]) ys = ys ++ xs := by
  induction xs generalizing ys with
  | nil => rw [List.foldl_nil, List.append_nil]
  | cons x xs ih => rw [List.foldl_cons, ih, List.append_assoc, List.singleton_append]

/-! ## Text -/

/-- A continuation byte. -/
def isContinuation (b : UInt8) : Bool := b &&& 192 == 128

/-- The `n` low bits of a byte. -/
def lowBits (n : Nat) (b : UInt8) : Nat := b.toNat % 2 ^ n

/-- The character at the front and the bytes it takes; where there is none, U+FFFD for the longest
    start of one. A byte past the end reads as 0. -/
def utf8Next (bytes : List UInt8) : Char × Nat :=
  let b := bytes.getD 0 0
  let b₁ := bytes.getD 1 0
  let b₂ := bytes.getD 2 0
  let b₃ := bytes.getD 3 0
  let invalid (n : Nat) : Char × Nat := (Char.ofNat 0xFFFD, n)
  if b < 0x80 then
    (Char.ofNat b.toNat, 1)
  else if 0xC2 ≤ b ∧ b ≤ 0xDF then
    if isContinuation b₁ then (Char.ofNat (lowBits 5 b * 2 ^ 6 + lowBits 6 b₁), 2) else invalid 1
  else if 0xE0 ≤ b ∧ b ≤ 0xEF then
    let low := if b = 0xE0 then 0xA0 else 0x80
    let high := if b = 0xED then 0x9F else 0xBF
    if ¬ (low ≤ b₁ ∧ b₁ ≤ high) then invalid 1
    else if !isContinuation b₂ then invalid 2
    else (Char.ofNat (lowBits 4 b * 2 ^ 12 + lowBits 6 b₁ * 2 ^ 6 + lowBits 6 b₂), 3)
  else if 0xF0 ≤ b ∧ b ≤ 0xF4 then
    let low := if b = 0xF0 then 0x90 else 0x80
    let high := if b = 0xF4 then 0x8F else 0xBF
    if ¬ (low ≤ b₁ ∧ b₁ ≤ high) then invalid 1
    else if !isContinuation b₂ then invalid 2
    else if !isContinuation b₃ then invalid 3
    else (Char.ofNat
      (lowBits 3 b * 2 ^ 18 + lowBits 6 b₁ * 2 ^ 12 + lowBits 6 b₂ * 2 ^ 6 + lowBits 6 b₃), 4)
  else
    invalid 1

/-- All characters; every step takes at least one of the `fuel` bytes. -/
def utf8Chars : Nat → List UInt8 → List Char
  | 0, _ => []
  | _, [] => []
  | fuel + 1, bytes =>
    let (c, n) := utf8Next bytes
    c :: utf8Chars fuel (bytes.drop n)

/-- `String::from_utf8_lossy`: valid text as it is, otherwise with the invalid parts replaced. -/
def fromUtf8Lossy (bytes : List UInt8) : String :=
  match String.fromUTF8? ⟨bytes.toArray⟩ with
  | some s => s
  | none => String.ofList (utf8Chars bytes.length bytes)

example : fromUtf8Lossy [97, 0xE2, 0x82, 98] = "a\uFFFDb" := by decide +kernel

/-- `str::as_bytes`. -/
def utf8Bytes (s : String) : List UInt8 := s.toUTF8.data.toList

theorem fromUtf8Lossy_utf8Bytes (s : String) : fromUtf8Lossy (utf8Bytes s) = s := by
  unfold fromUtf8Lossy utf8Bytes String.fromUTF8?
  have hvalid : (⟨s.toUTF8.data.toList.toArray⟩ : ByteArray).IsValidUTF8 := s.isValidUTF8
  rw [dif_pos hvalid]
  rfl

end Murmur.Basis
