/-
  One process lifetime of one node: from a start to just before the next restart, its cursors stay
  in order, its two `expect` calls never fail, and its apply stream is the log in order.

  * `Starts`, `Running`: where a lifetime begins, and what happens within it (anything but a restart
    of the node itself).
  * `GapFree`, `Begins`: the order of the items, and which one can come first.
  * `Lifetime`: the invariant that carries both, one lemma for a drain and one for the rest.
-/
import Murmur.Raft.Safety
import Murmur.Raft.Steps
import Murmur.Raft.Stream

namespace Murmur.Raft

open Murmur.Basis Murmur.Protocol ConsensusModule

variable {cfg : ClusterConfig} {s₀ s s' : Cluster} {n : NodeId}

/-! ## The order of a stream -/

/-- The index an item brings the state machine to. -/
def Apply.index : Apply → Nat
  | .command entry => entry.index
  | .snapshot sn => sn.lastIncludedIndex

/-- A command follows directly on the item before it, and a snapshot is ahead of every item before
    it. -/
structure GapFree (items : List Apply) : Prop where
  command : ∀ {i : Nat} {x : Apply} {entry : Applied}, items[i]? = some x →
    items[i + 1]? = some (.command entry) → entry.index = x.index + 1
  snapshot : ∀ {i j : Nat} {x : Apply} {sn : Snapshot}, i < j → items[i]? = some x →
    items[j]? = some (.snapshot sn) → x.index < sn.lastIncludedIndex

theorem GapFree.nil : GapFree [] := by
  constructor <;> simp

theorem GapFree.cons {x : Apply} {items : List Apply} (h : GapFree items)
    (hnext : ∀ entry, items[0]? = some (.command entry) → entry.index = x.index + 1)
    (hlater : ∀ y ∈ items, x.index < y.index) : GapFree (x :: items) := by
  constructor
  · intro i y entry hy hentry
    cases i with
    | zero =>
        cases hy
        exact hnext entry hentry
    | succ i => exact h.command hy hentry
  · intro i j y sn hij hy hsn
    cases j with
    | zero => omega
    | succ j =>
        cases i with
        | zero =>
            cases hy
            exact hlater _ (List.mem_of_getElem? hsn)
        | succ i => exact h.snapshot (by omega) hy hsn

/-- Items that lead from index `i` on are past it. -/
theorem Follows.lt_index {items : List Apply} {i j : Nat} (h : Follows i items j) :
    ∀ x ∈ items, i < x.index := by
  induction items generalizing i with
  | nil => simp
  | cons item items ih =>
      intro x hx
      have hrest : i < item.index ∧ Follows item.index items j := by
        cases item with
        | command entry => exact ⟨by simp [Apply.index, h.1], h.2⟩
        | snapshot sn => exact h
      rcases List.mem_cons.mp hx with rfl | hx
      · exact hrest.1
      · exact hrest.1.trans (ih hrest.2 x hx)

theorem Follows.gapFree {items : List Apply} {i j : Nat} (h : Follows i items j) :
    GapFree items := by
  induction items generalizing i with
  | nil => exact .nil
  | cons item items ih =>
      have hrest : Follows item.index items j := by
        cases item with
        | command entry => exact h.2
        | snapshot sn => exact h.2
      refine (ih hrest).cons (fun entry hentry => ?_) hrest.lt_index
      obtain ⟨rest, rfl⟩ : ∃ rest, items = .command entry :: rest := by
        cases items with
        | nil => simp at hentry
        | cons y rest => exact ⟨rest, by simp_all⟩
      exact hrest.1

/-! ## The first item -/

/-- The snapshot loaded at the start, or one ahead of it. -/
def NotBehind (loaded : Option Snapshot) (sn : Snapshot) : Prop :=
  loaded = some sn ∨ ∀ l, loaded = some l → l.lastIncludedIndex < sn.lastIncludedIndex

/-- How the stream of a process that loaded `loaded` begins; `pending` is what it would deliver
    next. -/
def Begins (loaded pending : Option Snapshot) : List Apply → Prop
  | [] => (loaded = none ∧ pending = none) ∨ ∃ sn, pending = some sn ∧ NotBehind loaded sn
  | .snapshot sn :: _ => NotBehind loaded sn
  | .command entry :: _ => loaded = none ∧ entry.index = 1

/-- Once the first item is out, what comes later does not matter. -/
theorem Begins.append {loaded pending pending' : Option Snapshot} {items : List Apply}
    (h : Begins loaded pending items) (hne : items ≠ []) (more : List Apply) :
    Begins loaded pending' (items ++ more) := by
  cases items with
  | nil => exact absurd rfl hne
  | cons item items =>
      cases item with
      | command entry => exact h
      | snapshot sn => exact h

/-! ## Lifetimes -/

/-- Node `n` has just been started, for the first time or again. -/
def Starts (cfg : ClusterConfig) (n : NodeId) (s : Cluster) : Prop :=
  s = Cluster.init cfg ∨
    ∃ r now draw, Cluster.Reachable cfg r ∧ Cluster.step cfg r (.restart n now draw) = some s

def Action.restarts (n : NodeId) : Action → Bool
  | .restart m _ _ => m = n
  | _ => false

/-- `s` comes after `s₀` with no restart of node `n` in between. -/
def Running (cfg : ClusterConfig) (n : NodeId) (s₀ s : Cluster) : Prop :=
  Within (Cluster.step cfg) (fun _ act => act.restarts n = false) s₀ s

theorem Action.ne_restart {act : Action} (h : act.restarts n = false) (now : Instant) (draw : Nat) :
    act ≠ .restart n now draw := by
  rintro rfl
  simp [Action.restarts] at h

/-- What node `n` was delivered between two states of a run. -/
def since (s₀ s : Cluster) (n : NodeId) : List Apply :=
  ((s.delivered.drop s₀.delivered.length).filter fun x => x.1 = n).map Prod.snd

theorem since_append {new : List (NodeId × Apply)}
    (hlen : s₀.delivered.length ≤ s.delivered.length)
    (hnew : s'.delivered = s.delivered ++ new) :
    since s₀ s' n = since s₀ s n ++ (new.filter fun x => x.1 = n).map Prod.snd := by
  simp [since, hnew, List.drop_append_of_le_length hlen]

/-- Every action but a drain of `n` delivers nothing to `n`. -/
theorem step_delivered {act : Action} (h : Cluster.step cfg s act = some s')
    (hno : act ≠ .drain n) :
    ∃ new, s'.delivered = s.delivered ++ new ∧ (new.filter fun x => x.1 = n) = [] := by
  cases act with
  | tick m now draw =>
      obtain ⟨-, rfl⟩ := Cluster.step_tick h
      exact ⟨[], by simp⟩
  | serve k now draw =>
      obtain ⟨rpc, -, rfl⟩ := Cluster.step_serve h
      exact ⟨[], by simp [Cluster.setCore]⟩
  | fold k =>
      obtain ⟨rpc, reply, -, -, rfl⟩ := Cluster.step_fold h
      exact ⟨[], by simp [Cluster.setCore]⟩
  | propose m command =>
      obtain ⟨-, rfl⟩ := Cluster.step_propose h
      exact ⟨[], by simp [Cluster.setCore]⟩
  | snapshot m index data =>
      obtain ⟨-, core, taken, -, rfl, -⟩ := Cluster.step_snapshot h
      exact ⟨[], by simp [Cluster.setCore]⟩
  | drain m =>
      obtain ⟨-, core, out, -, rfl⟩ := Cluster.step_drain h
      have hm : m ≠ n := fun heq => hno (by rw [heq])
      exact ⟨_, rfl, by simp [hm]⟩
  | restart m now draw =>
      obtain ⟨-, rfl⟩ := Cluster.step_restart h
      exact ⟨[], by simp⟩

/-- The stream of node `n` since its start at `s₀`, and what is still to come of it. -/
structure Lifetime (s₀ s : Cluster) (n : NodeId) : Prop where
  grown : s₀.delivered.length ≤ s.delivered.length
  follows : ∃ j, Follows 0 (since s₀ s n) j ∧ Feeds (s.core n) j
  begins : Begins (s₀.core n).pendingSnapshot (s.core n).pendingSnapshot (since s₀ s n)

/-- A pending snapshot is where the apply cursor stands. -/
theorem pending_index {lax : Prop} {taken : List Taken} {a : Ghost} {c : ConsensusModule}
    (h : NodeInv cfg lax taken a n c) {sn : Snapshot} (hsn : c.pendingSnapshot = some sn) :
    sn.lastIncludedIndex = c.lastApplied := by
  obtain ⟨hla, hidx, -⟩ := h.cursors.pending hsn
  omega

/-- Before the first item, a snapshot that is queued ahead of the stream is not behind either. -/
theorem Begins.advance {lax : Prop} {taken : List Taken} {a a' : Ghost} {c c' : ConsensusModule}
    {loaded : Option Snapshot} (hc : NodeInv cfg lax taken a n c)
    {taken' : List Taken} (hc' : NodeInv cfg lax taken' a' n c') (hadv : Advances c c')
    (h : Begins loaded c.pendingSnapshot []) : Begins loaded c'.pendingSnapshot [] := by
  rcases hadv.stream with ⟨-, hp⟩ | ⟨hlt, hp⟩
  · rw [hp]
    exact h
  · obtain ⟨sn', hsn'⟩ := Option.isSome_iff_exists.mp hp
    refine .inr ⟨sn', hsn', .inr fun l hl => ?_⟩
    have hidx' := pending_index hc' hsn'
    rcases h with ⟨hnone, -⟩ | ⟨sn, hsn, hsame | hbehind⟩
    · rw [hnone] at hl
      cases hl
    · cases hsame.symm.trans hl
      have := pending_index hc hsn
      omega
    · have := pending_index hc hsn
      have := hbehind l hl
      omega

variable {a : Ghost}

/-- The lifetime begins. -/
theorem Starts.lifetime_self (hn : n ∈ cfg.members) (h : Starts cfg n s) : Lifetime s s n := by
  have hfeeds : Feeds (s.core n) 0 := by
    rcases h with rfl | ⟨r, now, draw, hr, hstep⟩
    · exact startNode_feeds (init_node cfg True n 0 _ _)
    · obtain ⟨a, hrefines⟩ := reachable_refines (hr.step hstep)
      obtain ⟨-, rfl⟩ := Cluster.step_restart hstep
      have hnode := hrefines.nodes n hn
      simp only [Cluster.core, Function.update_self] at hnode ⊢
      exact startNode_feeds hnode
  have hnil : since s s n = [] := by simp [since]
  refine ⟨le_rfl, ⟨0, by rw [hnil]; rfl, hfeeds⟩, ?_⟩
  rw [hnil]
  cases hp : (s.core n).pendingSnapshot with
  | none => exact .inl ⟨rfl, rfl⟩
  | some sn => exact .inr ⟨sn, rfl, .inl rfl⟩

/-- A step that is neither a drain nor a restart of `n`. -/
theorem Lifetime.other {act : Action} (hn : n ∈ cfg.members) (hr : Refines cfg True s a)
    (h : Lifetime s₀ s n) (hstep : Cluster.step cfg s act = some s') (hdrain : act ≠ .drain n)
    (hrestart : act.restarts n = false) : Lifetime s₀ s' n := by
  obtain ⟨a', hans⟩ := step_refines hr (fun hno => absurd trivial hno) hstep
  have hadv := hans.advances n hdrain (Action.ne_restart hrestart)
  obtain ⟨new, hnew, hnone⟩ := step_delivered hstep hdrain
  have hsince : since s₀ s' n = since s₀ s n := by
    rw [since_append h.grown hnew, hnone]
    simp
  obtain ⟨j, hfollows, hfeeds⟩ := h.follows
  refine ⟨h.grown.trans (by simp [hnew]), ⟨j, by rwa [hsince], hfeeds.advance hadv⟩, ?_⟩
  rw [hsince]
  have hbegins := h.begins
  by_cases hnil : since s₀ s n = []
  · rw [hnil] at hbegins ⊢
    exact hbegins.advance (hr.nodes n hn) (hans.refines.nodes n hn) hadv
  · simpa using hbegins.append hnil []

/-- What a drain delivers first. -/
theorem Begins.drain {lax : Prop} {taken : List Taken} {c c' : ConsensusModule}
    {loaded : Option Snapshot} {out : List Apply} (hc : NodeInv cfg lax taken a n c)
    (hfeeds : Feeds c 0) (h : Begins loaded c.pendingSnapshot [])
    (htake : c.takeApplies = some (c', out)) : Begins loaded c'.pendingSnapshot out := by
  have hout := (takeApplies_follows hc hfeeds htake).1
  rw [takeApplies_eq hc] at htake
  cases htake
  rcases h with ⟨hloaded, hp⟩ | ⟨sn, hsn, hbehind⟩
  · rw [hp] at hout ⊢
    have hcommands : ∀ item ∈ commandsOf (a.log n) c.lastApplied c.commitIndex,
        ∃ entry, item = .command entry := fun item hitem =>
      let ⟨_, _, _, _, _, heq⟩ := mem_commandsOf hitem
      ⟨_, heq⟩
    simp only [Option.toList_none, List.map_nil, List.nil_append] at hout ⊢
    generalize commandsOf (a.log n) c.lastApplied c.commitIndex = commands at hout hcommands ⊢
    cases commands with
    | nil => exact .inl ⟨hloaded, rfl⟩
    | cons item rest =>
        obtain ⟨entry, rfl⟩ := hcommands item List.mem_cons_self
        exact ⟨hloaded, hout.1⟩
  · rw [hsn]
    exact hbehind

/-- A drain of `n`. -/
theorem Lifetime.drain (hr : Refines cfg True s a) (h : Lifetime s₀ s n)
    (hstep : Cluster.step cfg s (.drain n) = some s') : Lifetime s₀ s' n := by
  obtain ⟨hn, core, out, htake, rfl⟩ := Cluster.step_drain hstep
  have hnode := hr.nodes n hn
  have hsince : since s₀ { s.setCore n core with
      delivered := s.delivered ++ out.map fun item => (n, item) } n = since s₀ s n ++ out := by
    rw [since_append h.grown rfl]
    simp [List.filter_map, Function.comp_def]
  obtain ⟨j, hfollows, hfeeds⟩ := h.follows
  obtain ⟨hout, hfeeds'⟩ := takeApplies_follows hnode hfeeds htake
  have hcore := Cluster.core_setCore_self s n core
  refine ⟨h.grown.trans (by simp), ⟨core.lastApplied, ?_, ?_⟩, ?_⟩
  · rw [hsince]
    exact hfollows.append hout
  · show Feeds ((s.setCore n core).core n) core.lastApplied
    rw [hcore]
    exact hfeeds'
  · rw [hsince]
    show Begins _ ((s.setCore n core).core n).pendingSnapshot _
    rw [hcore]
    have hbegins := h.begins
    by_cases hnil : since s₀ s n = []
    · rw [hnil] at hbegins hfollows ⊢
      cases hfollows
      exact hbegins.drain hnode hfeeds htake
    · exact hbegins.append hnil out

theorem Starts.reachable (h : Starts cfg n s) : Cluster.Reachable cfg s := by
  rcases h with rfl | ⟨r, now, draw, hr, hstep⟩
  · exact Reaches.refl _ _
  · exact hr.step hstep

/-- The whole of a lifetime. -/
theorem Running.lifetime (hn : n ∈ cfg.members) (hstart : Starts cfg n s₀)
    (h : Running cfg n s₀ s) : Cluster.Reachable cfg s ∧ Lifetime s₀ s n := by
  refine Within.invariant (I := fun s => Cluster.Reachable cfg s ∧ Lifetime s₀ s n) ?_ h
    ⟨hstart.reachable, hstart.lifetime_self hn⟩
  rintro s act s' ⟨hreach, hlife⟩ hrestart hstep
  refine ⟨hreach.step hstep, ?_⟩
  obtain ⟨a, hr⟩ := reachable_refines hreach
  by_cases hdrain : act = .drain n
  · subst hdrain
    exact hlife.drain hr hstep
  · exact hlife.other hn hr hstep hdrain hrestart

/-- Within a lifetime the commit index never falls. -/
theorem Running.commit_le (hreach : Cluster.Reachable cfg s) (h : Running cfg n s s') :
    (s.core n).commitIndex ≤ (s'.core n).commitIndex := by
  refine (Within.invariant (I := fun t => Cluster.Reachable cfg t ∧
    (s.core n).commitIndex ≤ (t.core n).commitIndex) ?_ h ⟨hreach, le_rfl⟩).2
  rintro t act u ⟨ht, hle⟩ hrestart hstep
  refine ⟨ht.step hstep, hle.trans ?_⟩
  by_cases hdrain : act = .drain n
  · subst hdrain
    obtain ⟨-, core, out, htake, rfl⟩ := Cluster.step_drain hstep
    show _ ≤ ((t.setCore n core).core n).commitIndex
    rw [Cluster.core_setCore_self, takeApplies_commitIndex htake]
  · obtain ⟨a, hr⟩ := reachable_refines ht
    obtain ⟨a', hans⟩ := step_refines hr (fun hno => absurd trivial hno) hstep
    exact (hans.advances n hdrain (Action.ne_restart hrestart)).commit_le

/-- The two `expect` calls find what they look for. -/
theorem expects_hold {lax : Prop} {taken : List Taken} {c : ConsensusModule}
    (h : NodeInv cfg lax taken a n c) :
    c.takeApplies ≠ none ∧ ∀ index data, c.takeSnapshot index data ≠ none := by
  refine ⟨by rw [takeApplies_eq h]; exact nofun, fun index data => ?_⟩
  by_cases hskip : index ≤ c.log.snapshotIndex ∨ index > c.lastApplied
  · unfold takeSnapshot
    rw [if_pos hskip]
    exact nofun
  · obtain ⟨c', hc', -⟩ := takeSnapshot_node h data hskip
    rw [hc']
    exact nofun

/-- **The apply stream.** In every lifetime of every node: the cursors are in order, the commit
    index never falls, draining and taking a snapshot at any index never panic, and the items
    delivered so far come without gaps or repetitions, from a snapshot that is not behind the loaded
    one or, if none was loaded, from index 1. -/
theorem apply_stream_in_order (hn : n ∈ cfg.members) (hstart : Starts cfg n s₀)
    (h : Running cfg n s₀ s) :
    let c := s.core n
    (c.log.snapshotIndex ≤ c.lastApplied ∧ c.lastApplied ≤ c.commitIndex ∧
      c.commitIndex ≤ c.log.lastIndex) ∧
    (∀ s', Running cfg n s s' → c.commitIndex ≤ (s'.core n).commitIndex) ∧
    (c.takeApplies ≠ none ∧ ∀ index data, c.takeSnapshot index data ≠ none) ∧
    GapFree (since s₀ s n) ∧
    ∀ first, (since s₀ s n).head? = some first →
      (∃ sn, first = .snapshot sn ∧ NotBehind (s₀.core n).pendingSnapshot sn) ∨
      (s₀.core n).pendingSnapshot = none ∧ ∃ entry, first = .command entry ∧ entry.index = 1 := by
  intro c
  obtain ⟨hreach, hlife⟩ := Running.lifetime hn hstart h
  obtain ⟨a, hr⟩ := reachable_refines hreach
  have hnode := hr.nodes n hn
  obtain ⟨j, hfollows, -⟩ := hlife.follows
  refine ⟨⟨hnode.cursors.snapshot_le, hnode.cursors.applied_le, ?_⟩,
    fun s' => Running.commit_le hreach, expects_hold hnode, hfollows.gapFree, ?_⟩
  · rw [hnode.mirrors.log.lastIndex_eq]
    exact hnode.cursors.commit_le
  · intro first hfirst
    have hbegins := hlife.begins
    cases hitems : since s₀ s n with
    | nil => simp [hitems] at hfirst
    | cons item items =>
        rw [hitems] at hfirst hbegins
        cases hfirst
        cases first with
        | snapshot sn => exact .inl ⟨sn, rfl, hbegins⟩
        | command entry => exact .inr ⟨hbegins.1, entry, rfl, hbegins.2⟩

/-- The state before the restart, the restart, and the life after it: the node delivers the snapshot
    it loaded, elects itself again and delivers the next command. -/
def firstLifeRun : List Action :=
  [.tick 1 1000 0, .tick 1 1000 0, .propose 1 [7], .drain 1, .snapshot 1 1 [42]]

def secondLifeRun : List Action :=
  [.drain 1, .tick 1 3000 0, .tick 1 3000 0, .propose 1 [8], .drain 1]

set_option maxRecDepth 100000 in
theorem firstLifeRun_isSome :
    (run (Cluster.step solo) (Cluster.init solo) firstLifeRun).isSome = true := by decide

def firstLife : Cluster :=
  (run (Cluster.step solo) (Cluster.init solo) firstLifeRun).get firstLifeRun_isSome

set_option maxRecDepth 100000 in
theorem secondLife_isSome : (Cluster.step solo firstLife (.restart 1 2000 0)).isSome = true := by
  decide

def reborn : Cluster := (Cluster.step solo firstLife (.restart 1 2000 0)).get secondLife_isSome

set_option maxRecDepth 100000 in
theorem secondLifeRun_isSome :
    (run (fun s act => if act.restarts 1 = false then Cluster.step solo s act else none) reborn
      secondLifeRun).isSome = true := by decide

def secondLife : Cluster :=
  (run (fun s act => if act.restarts 1 = false then Cluster.step solo s act else none) reborn
    secondLifeRun).get secondLifeRun_isSome

set_option maxRecDepth 100000 in
theorem apply_stream_in_order_reborn :
    since reborn secondLife 1 = [.snapshot ⟨1, 1, [42]⟩, .command ⟨2, 2, [8]⟩] ∧
      GapFree (since reborn secondLife 1) :=
  have hstart : Starts solo 1 reborn :=
    .inr ⟨firstLife, 2000, 0, ⟨firstLifeRun, Option.eq_some_of_isSome firstLifeRun_isSome⟩,
      Option.eq_some_of_isSome secondLife_isSome⟩
  have hrun : Running solo 1 reborn secondLife :=
    Within.of_run (Option.eq_some_of_isSome secondLifeRun_isSome)
  ⟨by decide, (apply_stream_in_order (by decide) hstart hrun).2.2.2.1⟩

end Murmur.Raft
