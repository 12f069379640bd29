/-
  `src/raft/config.rs`: timing knobs, and the membership every node is configured with.

  Instants and durations are natural numbers (milliseconds). The random draw behind an
  election timeout is an argument; `randomElectionTimeout` maps it into the configured range.
-/
import Murmur.Raft.Types
import Mathlib.Data.List.Nodup
import Mathlib.Data.Finset.Card

namespace Murmur.Raft

abbrev Instant := Nat
abbrev Duration := Nat

structure Timing where
  electionMin : Duration := 150
  electionMax : Duration := 300
  heartbeat : Duration := 50
deriving DecidableEq, Repr

/-- An election timeout in `[electionMin, electionMax]`. -/
def Timing.randomElectionTimeout (self : Timing) (draw : Nat) : Duration :=
  self.electionMin + draw % (self.electionMax - self.electionMin + 1)

/-- A cluster: its members, the peer list each one is started with, the timing they share,
    and when each one first boots (with the draw for its first election timeout). -/
structure ClusterConfig where
  members : List NodeId
  peers : NodeId → List NodeId
  timing : Timing := {}
  boot : NodeId → Instant × Nat := fun _ => (0, 0)
  nodup : members.Nodup
  /-- One common membership: everybody's peers are all the others. -/
  peers_perm : ∀ n ∈ members, (n :: peers n).Perm members

namespace ClusterConfig

variable (cfg : ClusterConfig) {n p : NodeId}

theorem mem_of_mem_peers (hn : n ∈ cfg.members) (hp : p ∈ cfg.peers n) : p ∈ cfg.members :=
  (cfg.peers_perm n hn).subset (List.mem_cons_of_mem n hp)

theorem mem_peers (hn : n ∈ cfg.members) (hp : p ∈ cfg.members) (hne : p ≠ n) : p ∈ cfg.peers n :=
  (List.mem_cons.mp ((cfg.peers_perm n hn).mem_iff.mpr hp)).resolve_left hne

theorem peers_nodup (hn : n ∈ cfg.members) : (n :: cfg.peers n).Nodup :=
  (cfg.peers_perm n hn).nodup_iff.mpr cfg.nodup

theorem ne_of_mem_peers (hn : n ∈ cfg.members) (hp : p ∈ cfg.peers n) : p ≠ n := by
  rintro rfl
  exact (List.nodup_cons.mp (cfg.peers_nodup hn)).1 hp

theorem length_peers (hn : n ∈ cfg.members) :
    (cfg.peers n).length + 1 = cfg.members.toFinset.card := by
  rw [List.toFinset_card_of_nodup cfg.nodup, ← (cfg.peers_perm n hn).length_eq]
  rfl

end ClusterConfig

end Murmur.Raft
