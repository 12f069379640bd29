/-
  The protobuf encoding of `Command` (`proto/kv.proto`), as the generated code writes it.

  The generated code is not part of the repository and the results only ask `Codec.Lossless` of it.
  This is an instance of that parameter on which runs can be carried out: fields in the order of
  their numbers, those that hold their default left out. Its decoder refuses unknown fields, which
  the generated one skips; the encoder writes none.
-/
import Murmur.App.Command
import Murmur.Basis.Bytes

namespace Murmur.App.Protobuf

open Murmur.Raft (Bytes)
open Murmur.Basis

/-- One field of the message with its value. -/
inductive Field where
  | op (v : Int32)
  | key (v : Bytes)
  | value (v : Bytes)
  | clientId (v : UInt64)
  | seq (v : UInt64)
  | nonce (v : UInt64)

/-- Field number and wire type in the first byte, then the value. -/
def Field.encode : Field → Bytes
  -- an enumeration is an `i32`, sign-extended
  | .op v => 0x08 :: varint v.toInt64.toUInt64.toNat
  | .key v => 0x12 :: (varint v.length ++ v)
  | .value v => 0x1a :: (varint v.length ++ v)
  | .clientId v => 0x20 :: varint v.toNat
  | .seq v => 0x28 :: varint v.toNat
  | .nonce v => 0x30 :: varint v.toNat

def Field.set (c : Command) : Field → Command
  | .op v => { c with op := v }
  | .key v => { c with key := v }
  | .value v => { c with value := v }
  | .clientId v => { c with clientId := v }
  | .seq v => { c with seq := v }
  | .nonce v => { c with nonce := v }

/-- The message with every field at its default. -/
def empty : Command := { op := 0, key := [], value := [], clientId := 0, seq := 0, nonce := 0 }

/-- A field is left out at its default. -/
def written (isDefault : Bool) (f : Field) : List Field := if isDefault then [] else [f]

/-- The fields that are written. -/
def fields (c : Command) : List Field :=
  written (c.op == 0) (.op c.op) ++ (written c.key.isEmpty (.key c.key) ++
    (written c.value.isEmpty (.value c.value) ++
    (written (c.clientId == 0) (.clientId c.clientId) ++
      (written (c.seq == 0) (.seq c.seq) ++ written (c.nonce == 0) (.nonce c.nonce)))))

def u64 : Reader Unit UInt64 := do
  let n ← Reader.varint ()
  return UInt64.ofNat n

def bytes : Reader Unit Bytes := do
  let n ← Reader.varint ()
  Reader.take () n

/-- Read one field into the message. -/
def merge (c : Command) : Reader Unit Command := do
  let tag ← Reader.take () 1
  if tag = [0x08] then return Field.set c (.op (← u64).toInt64.toInt32)
  else if tag = [0x12] then return Field.set c (.key (← bytes))
  else if tag = [0x1a] then return Field.set c (.value (← bytes))
  else if tag = [0x20] then return Field.set c (.clientId (← u64))
  else if tag = [0x28] then return Field.set c (.seq (← u64))
  else if tag = [0x30] then return Field.set c (.nonce (← u64))
  else throw ()

def encode (c : Command) : Bytes := (fields c).flatMap Field.encode

def decode (b : Bytes) : Option Command :=
  match Reader.untilEmpty merge b.length empty b with
  | .ok (c, _) => some c
  | .error _ => none

def codec : Codec := { encode, decode }

/-! ## Lossless -/

theorem u64_reads (v : UInt64) : Reads u64 (varint v.toNat) v := by
  have h : Reads u64 (varint v.toNat) (UInt64.ofNat v.toNat) :=
    (Reads.varint () v.toNat).map UInt64.ofNat
  rwa [UInt64.ofNat_toNat] at h

theorem bytes_reads (v : Bytes) : Reads bytes (varint v.length ++ v) v :=
  (Reads.varint () v.length).bind (Reads.take () rfl)

theorem i32_roundtrip (v : Int32) : v.toInt64.toUInt64.toInt64.toInt32 = v := by
  rw [Int64.toInt64_toUInt64, Int32.toInt32_toInt64]

theorem tag_reads (t : UInt8) : Reads (Reader.take () 1) [t] [t] := Reads.take () rfl

theorem merge_reads (c : Command) (f : Field) : Reads (merge c) f.encode (Field.set c f) := by
  cases f with
  | op v =>
      have h := (u64_reads v.toInt64.toUInt64).map fun u => Field.set c (.op u.toInt64.toInt32)
      rw [i32_roundtrip] at h
      exact (tag_reads 0x08).bind h
  | key v => exact (tag_reads 0x12).bind ((bytes_reads v).map fun b => Field.set c (.key b))
  | value v => exact (tag_reads 0x1a).bind ((bytes_reads v).map fun b => Field.set c (.value b))
  | clientId v => exact (tag_reads 0x20).bind ((u64_reads v).map fun u => Field.set c (.clientId u))
  | seq v => exact (tag_reads 0x28).bind ((u64_reads v).map fun u => Field.set c (.seq u))
  | nonce v => exact (tag_reads 0x30).bind ((u64_reads v).map fun u => Field.set c (.nonce u))

/-- Leaving a field out is writing its default. -/
theorem foldl_written (c : Command) {isDefault : Bool} {f : Field}
    (h : isDefault = true → Field.set c f = c) :
    (written isDefault f).foldl Field.set c = Field.set c f := by
  cases isDefault with
  | true => exact (h rfl).symm
  | false => rfl

theorem foldl_fields (c : Command) : (fields c).foldl Field.set empty = c := by
  unfold fields
  simp only [List.foldl_append]
  -- from the innermost fold outwards
  rw [foldl_written empty, foldl_written (Field.set _ _), foldl_written (Field.set _ _),
    foldl_written (Field.set _ _), foldl_written (Field.set _ _), foldl_written (Field.set _ _)]
  · rfl
  all_goals intro h
  all_goals first | rw [eq_of_beq h] | rw [List.isEmpty_iff.mp h]
  all_goals rfl

theorem codec_lossless : codec.Lossless := by
  intro c
  show decode (encode c) = some c
  have hpos : ∀ f : Field, f.encode ≠ [] := by
    intro f
    cases f <;> exact List.cons_ne_nil _ _
  have hlen : (fields c).length ≤ (encode c).length :=
    count_le_flatMap Field.encode (fun f => List.length_pos_iff.mpr (hpos f)) (fields c)
  have h := Reads.untilEmpty (fields c) (fun c f _ => merge_reads c f) (fun f _ => hpos f)
    hlen empty
  unfold decode
  show (match Reader.untilEmpty merge (encode c).length empty (encode c) with
    | .ok (c, _) => some c
    | .error _ => none) = _
  rw [show Reader.untilEmpty merge (encode c).length empty (encode c) = _ from h, foldl_fields]

end Murmur.App.Protobuf
