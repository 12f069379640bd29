/-
  `src/raft/types.rs`: terms, node ids, roles, and the log with its snapshot offset.

  Terms, indices and node ids are `u64` in the source and natural numbers here: they are only
  compared and counted up by one, so a run would need 2^64 elections or entries to tell the
  difference. `snapshotIndex`/`snapshotTerm` stand for the compacted prefix; `entries[i]` is at the
  absolute index `snapshotIndex + 1 + i`.
-/
import Mathlib.Data.List.Basic

namespace Murmur.Raft

abbrev NodeId := Nat
abbrev Bytes := List UInt8

/-- A node's role in its current term. -/
inductive Role where
  | follower
  | candidate
  | leader
deriving DecidableEq, Repr

/-- One entry of the replicated log. Its index is its position, not a field. -/
structure LogEntry where
  term : Nat
  command : Bytes
deriving DecidableEq, Repr

/-- A committed entry handed to the state machine. -/
structure Applied where
  index : Nat
  term : Nat
  command : Bytes
deriving DecidableEq, Repr

/-- A state-machine snapshot handed to the application. -/
structure Snapshot where
  lastIncludedIndex : Nat
  lastIncludedTerm : Nat
  data : Bytes
deriving DecidableEq, Repr

/-- One item of a node's apply stream. -/
inductive Apply where
  | command (a : Applied)
  | snapshot (s : Snapshot)
deriving DecidableEq, Repr

/-- The replicated log: the tail past the snapshot, and the snapshot's boundary. -/
structure Log where
  entries : List LogEntry
  snapshotIndex : Nat
  snapshotTerm : Nat
deriving DecidableEq, Repr

namespace Log

def new : Log := { entries := [], snapshotIndex := 0, snapshotTerm := 0 }

/-- Number of entries physically held. -/
def len (self : Log) : Nat := self.entries.length

def lastIndex (self : Log) : Nat := self.snapshotIndex + self.entries.length

def lastTerm (self : Log) : Nat :=
  match self.entries.getLast? with
  | some e => e.term
  | none => self.snapshotTerm

/-- Term at `index`: the boundary yields the snapshot's term, the compacted range and
    anything past the end yield `none`. -/
def termAt (self : Log) (index : Nat) : Option Nat :=
  if index = self.snapshotIndex then
    some self.snapshotTerm
  else if index > self.snapshotIndex ∧ index ≤ self.lastIndex then
    self.entries[index - self.snapshotIndex - 1]?.map LogEntry.term
  else
    none

/-- Index of the first entry of `term` in the tail. -/
def firstIndexOfTerm (self : Log) (term : Nat) : Option Nat :=
  (self.entries.findIdx? fun e => e.term = term).map fun i => self.snapshotIndex + i + 1

/-- Position of the last element that satisfies `p` (`Iterator::rposition`). -/
def rposition {α : Type} (p : α → Bool) (l : List α) : Option Nat :=
  (l.reverse.findIdx? p).map fun i => l.length - 1 - i

/-- Index of the last entry of `term` in the tail. -/
def lastIndexOfTerm (self : Log) (term : Nat) : Option Nat :=
  (rposition (fun e => e.term = term) self.entries).map fun i => self.snapshotIndex + i + 1

/-- The entry at `index`, `none` at or below the boundary and past the end. -/
def get (self : Log) (index : Nat) : Option LogEntry :=
  if index ≤ self.snapshotIndex ∨ index > self.lastIndex then
    none
  else
    self.entries[index - self.snapshotIndex - 1]?

/-- Append one entry; the result carries its index. -/
def append (self : Log) (entry : LogEntry) : Log × Nat :=
  let log := { self with entries := self.entries ++ [entry] }
  (log, log.lastIndex)

/-- Entries strictly after `index`. -/
def entriesAfter (self : Log) (index : Nat) : List LogEntry :=
  self.entries.drop (min (index - self.snapshotIndex) self.entries.length)

/-- Drop every entry after `index`. -/
def truncateAfter (self : Log) (index : Nat) : Log :=
  { self with entries := self.entries.take (index - self.snapshotIndex) }

/-- Move the boundary to `(lastIndex, lastTerm)`. The suffix is kept if the tail holds
    that entry at that term, and dropped otherwise. A stale boundary is ignored. -/
def compact (self : Log) (lastIndex : Nat) (lastTerm : Nat) : Log :=
  if lastIndex ≤ self.snapshotIndex then
    self
  else
    let entries :=
      if lastIndex ≤ self.lastIndex ∧ self.termAt lastIndex = some lastTerm then
        self.entries.drop (lastIndex - self.snapshotIndex)
      else
        []
    { entries, snapshotIndex := lastIndex, snapshotTerm := lastTerm }

end Log

end Murmur.Raft
