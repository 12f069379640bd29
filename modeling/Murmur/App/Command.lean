/-
  `src/command.rs` and the `Command` message: one key/value operation as it travels through the log.

  The bytes of a log entry are the protobuf encoding of the command, generated code that is not part
  of the repository: `Codec` is a parameter, and `Lossless` is what is assumed of it.
-/
import Murmur.Raft.Types

namespace Murmur.App

open Murmur.Raft (Bytes)

/-- The `Op` enumeration, by its discriminants. -/
inductive Op where
  | get
  | put
  | delete
  | append
deriving DecidableEq, Repr

/-- `op as i32`. -/
def Op.toI32 : Op → Int32
  | .get => 0
  | .put => 1
  | .delete => 2
  | .append => 3

/-- `Op::try_from`: unknown discriminants are refused. -/
def Op.tryFrom (op : Int32) : Option Op :=
  if op = 0 then some .get
  else if op = 1 then some .put
  else if op = 2 then some .delete
  else if op = 3 then some .append
  else none

theorem Op.tryFrom_toI32 (op : Op) : Op.tryFrom op.toI32 = some op := by
  cases op <;> decide

structure Command where
  op : Int32
  key : Bytes
  value : Bytes
  clientId : UInt64
  seq : UInt64
  nonce : UInt64
deriving DecidableEq, Repr

namespace Command

/-- A read carries no client identity. -/
def get (key : Bytes) : Command :=
  { op := Op.get.toI32, key, value := [], clientId := 0, seq := 0, nonce := 0 }

def put (key value : Bytes) (clientId seq : UInt64) : Command :=
  { op := Op.put.toI32, key, value, clientId, seq, nonce := 0 }

def append (key value : Bytes) (clientId seq : UInt64) : Command :=
  { op := Op.append.toI32, key, value, clientId, seq, nonce := 0 }

def delete (key : Bytes) (clientId seq : UInt64) : Command :=
  { op := Op.delete.toI32, key, value := [], clientId, seq, nonce := 0 }

/-- Put, Delete or Append. -/
def isMutation (command : Command) : Bool :=
  match Op.tryFrom command.op with
  | some .put | some .delete | some .append => true
  | some .get | none => false

end Command

/-- `command::encode` and `command::decode`. -/
structure Codec where
  encode : Command → Bytes
  decode : Bytes → Option Command

/-- What is encoded comes back. -/
def Codec.Lossless (codec : Codec) : Prop := ∀ c, codec.decode (codec.encode c) = some c

end Murmur.App
