/-
  The apply stream of one process, as its application sees it: the items come in the order of the
  log and leave no gap, from the start of the process on.

  * `Follows i items j`: the items lead from index `i` to index `j`.
  * `Feeds c j`: the items still to come from `c` go on from `j`.
  * `takeApplies_follows`, `Feeds.advance`, `startNode_feeds`: what is drained goes on from there,
    nothing else moves it, and a new process begins at 0.
  * `Recorded`: what any action of a cluster leaves of its history.
-/
import Murmur.Raft.Simulation
import Murmur.Raft.Steps

namespace Murmur.Raft

open Murmur.Basis Murmur.Protocol ConsensusModule

/-- The items lead from index `i` to index `j`: a command is at the next index, a snapshot covers at
    least that. -/
def Follows : Nat → List Apply → Nat → Prop
  | i, [], j => i = j
  | i, .command entry :: items, j => entry.index = i + 1 ∧ Follows entry.index items j
  | i, .snapshot sn :: items, j =>
    i < sn.lastIncludedIndex ∧ Follows sn.lastIncludedIndex items j

theorem Follows.append {xs ys : List Apply} {i j k : Nat} (hx : Follows i xs j)
    (hy : Follows j ys k) : Follows i (xs ++ ys) k := by
  induction xs generalizing i with
  | nil =>
      cases hx
      exact hy
  | cons item xs ih =>
      cases item with
      | command entry => exact ⟨hx.1, ih hx.2⟩
      | snapshot sn => exact ⟨hx.1, ih hx.2⟩

theorem Follows.le {items : List Apply} {i j : Nat} (h : Follows i items j) : i ≤ j := by
  induction items generalizing i with
  | nil => exact Nat.le_of_eq h
  | cons item items ih =>
      cases item with
      | command entry =>
          have := ih h.2
          have := h.1
          omega
      | snapshot sn => exact (Nat.le_of_lt h.1).trans (ih h.2)

/-- What is still to come from `c` goes on from index `j`. -/
def Feeds (c : ConsensusModule) (j : Nat) : Prop :=
  c.pendingSnapshot = none ∧ j = c.lastApplied ∨ c.pendingSnapshot.isSome ∧ j < c.lastApplied

variable {cfg : ClusterConfig} {lax : Prop} {taken : List Taken} {a : Ghost} {n : NodeId}
  {c c' : ConsensusModule} {j : Nat}

theorem Feeds.advance (h : Feeds c j) (hadv : Advances c c') : Feeds c' j := by
  rcases hadv.stream with ⟨hl, hp⟩ | ⟨hl, hp⟩
  · unfold Feeds
    rw [hl, hp]
    exact h
  · right
    refine ⟨hp, ?_⟩
    rcases h with ⟨-, h⟩ | ⟨-, h⟩ <;> omega

theorem commandsOf_follows (full : List LogEntry) {lo hi k : Nat} (hk : lo + k = hi)
    (hhi : hi ≤ full.length) : Follows lo (commandsOf full lo hi) hi := by
  induction k generalizing lo with
  | zero =>
      have hnil : commandsOf full lo hi = [] := by
        unfold commandsOf
        rw [show hi - lo = 0 by omega]
        rfl
      rw [hnil]
      exact hk
  | succ k ih =>
      rw [commandsOf_cons (by omega) (List.getElem?_eq_getElem (by omega))]
      exact ⟨rfl, ih (by show lo + 1 + k = hi; omega)⟩

theorem takeApplies_follows (h : NodeInv cfg lax taken a n c) (hj : Feeds c j)
    {out : List Apply} (htake : c.takeApplies = some (c', out)) :
    Follows j out c'.lastApplied ∧ Feeds c' c'.lastApplied := by
  rw [takeApplies_eq h] at htake
  cases htake
  have hcmds := commandsOf_follows (a.log n) (Nat.add_sub_cancel' h.cursors.applied_le)
    h.cursors.commit_le
  refine ⟨Follows.append ?_ hcmds, Or.inl ⟨rfl, rfl⟩⟩
  rcases hj with ⟨hp, hj⟩ | ⟨hp, hj⟩
  · rw [hp]
    exact hj
  · obtain ⟨sn, hsn⟩ := Option.isSome_iff_exists.mp hp
    obtain ⟨hla, hidx, -⟩ := h.cursors.pending hsn
    rw [hsn]
    have hat : sn.lastIncludedIndex = c.lastApplied := by omega
    exact ⟨hat ▸ hj, hat⟩

theorem startNode_feeds {storage : PersistentState} {epoch : Nat} {now : Instant} {draw : Nat}
    (h : NodeInv cfg lax taken a n (startNode cfg n storage epoch now draw).core) :
    Feeds (startNode cfg n storage epoch now draw).core 0 := by
  cases hs : storage.snapshot with
  | none =>
      left
      have hp : (startNode cfg n storage epoch now draw).core.pendingSnapshot = none := by
        show storage.snapshot.map _ = none
        rw [hs]
        rfl
      exact ⟨hp, (h.cursors.no_snapshot hs).symm⟩
  | some data =>
      right
      have hp : (startNode cfg n storage epoch now draw).core.pendingSnapshot.isSome := by
        show (storage.snapshot.map _).isSome = true
        rw [hs]
        rfl
      exact ⟨hp, (h.cursors.backed hs).1⟩

/-! ## History -/

/-- What an action does to incarnations, deliveries and snapshots taken. -/
structure Recorded (s : Cluster) (act : Action) (s' : Cluster) : Prop where
  epoch : ∀ m, (∀ now draw, act ≠ .restart m now draw) → (s'.procs m).epoch = (s.procs m).epoch
  delivered : s.delivered ⊆ s'.delivered
  taken : ∀ r ∈ s'.taken, r ∈ s.taken ∨ act = .snapshot r.node r.index r.data

variable {s s' : Cluster} {act : Action}

/-- One process changes within its incarnation. -/
theorem Recorded.of_update {p : Process} (hprocs : s'.procs = Function.update s.procs n p)
    (hep : p.epoch = (s.procs n).epoch) (hdel : s.delivered ⊆ s'.delivered)
    (htaken : ∀ r ∈ s'.taken, r ∈ s.taken ∨ act = .snapshot r.node r.index r.data) :
    Recorded s act s' := by
  refine ⟨fun m _ => ?_, hdel, htaken⟩
  rw [hprocs]
  by_cases hm : m = n
  · subst hm
    rw [Function.update_self]
    exact hep
  · rw [Function.update_of_ne hm]

theorem step_recorded (h : Cluster.step cfg s act = some s') : Recorded s act s' := by
  cases act with
  | tick n now draw =>
      obtain ⟨-, rfl⟩ := Cluster.step_tick h
      exact .of_update rfl (tick_epoch _ now draw) (List.Subset.refl _) fun r hr => Or.inl hr
  | serve k now draw =>
      obtain ⟨rpc, -, rfl⟩ := Cluster.step_serve h
      exact .of_update rfl rfl (List.Subset.refl _) fun r hr => Or.inl hr
  | fold k =>
      obtain ⟨rpc, reply, -, -, rfl⟩ := Cluster.step_fold h
      exact .of_update rfl rfl (List.Subset.refl _) fun r hr => Or.inl hr
  | propose n command =>
      obtain ⟨-, rfl⟩ := Cluster.step_propose h
      exact .of_update rfl rfl (List.Subset.refl _) fun r hr => Or.inl hr
  | snapshot n index data =>
      obtain ⟨-, core, taken, -, rfl, htaken⟩ := Cluster.step_snapshot h
      refine .of_update rfl rfl (List.Subset.refl _) fun r hr => ?_
      refine (List.mem_append.mp hr).imp_right fun hnew => ?_
      split at htaken
      · simp [htaken] at hnew
      · rw [htaken, List.mem_singleton] at hnew
        rw [hnew]
  | drain n =>
      obtain ⟨-, core, out, -, rfl⟩ := Cluster.step_drain h
      exact .of_update rfl rfl (List.subset_append_left _ _) fun r hr => Or.inl hr
  | restart n now draw =>
      obtain ⟨-, rfl⟩ := Cluster.step_restart h
      refine ⟨fun m hm => ?_, List.Subset.refl _, fun r hr => Or.inl hr⟩
      have hmn : m ≠ n := by
        rintro rfl
        exact hm now draw rfl
      dsimp only
      rw [Function.update_of_ne hmn]

theorem restart_epoch {now : Instant} {draw : Nat}
    (h : Cluster.step cfg s (.restart n now draw) = some s') :
    (s'.procs n).epoch = (s.procs n).epoch + 1 := by
  obtain ⟨-, rfl⟩ := Cluster.step_restart h
  dsimp only
  rw [Function.update_self]
  rfl

end Murmur.Raft
