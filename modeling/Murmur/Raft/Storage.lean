/-
  `src/raft/storage.rs`: the state Raft persists, saved and loaded as a unit.
-/
import Murmur.Raft.Types

namespace Murmur.Raft

/-- What survives a crash. The default is that of a node that never ran. -/
structure PersistentState where
  currentTerm : Nat := 0
  votedFor : Option NodeId := none
  log : Log := Log.new
  snapshot : Option Bytes := none
deriving DecidableEq, Repr

end Murmur.Raft
