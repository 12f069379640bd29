/-
  The cluster is a totally ordered broadcast.

  `observe` is what a client and the applications see of an action: a command that is taken, with
  its index and term; what `take_applies` hands over; a snapshot that takes effect; a restart. Every
  run of a cluster shows what some run of the abstract broadcast shows (`cluster_is_broadcast`).

  The order is the longest list that some node takes as committed. It grows when a commit index
  passes its end, and the slots are the log indices.
-/
import Murmur.Basis.Broadcast
import Murmur.Raft.Standing
import Murmur.Raft.Stream

namespace Murmur.Raft

open Murmur.Basis Murmur.Protocol ConsensusModule

variable {cfg : ClusterConfig} {s s' : Cluster} {a a' : Ghost} {n : NodeId} {act : Action}

abbrev Sequence := Broadcast.State NodeId LogEntry Bytes

abbrev Observation := Broadcast.Event NodeId LogEntry Bytes

/-! ## What can be seen of a run -/

def Apply.event (n : NodeId) : Apply → Observation
  | .command ap => .deliver n ap.index ⟨ap.term, ap.command⟩
  | .snapshot sn => .load n sn.lastIncludedIndex sn.data

/-- What is seen of the action that leads from `s` to `s'`. -/
def observe (s : Cluster) (act : Action) (s' : Cluster) : List Observation :=
  match act with
  | .propose n command =>
    (((s.core n).submitCommand command).2.map fun index =>
      .offer n index ⟨(s.core n).currentTerm, command⟩).toList
  | .snapshot n index data =>
    if index ≤ (s.core n).log.snapshotIndex ∨ index > (s.core n).lastApplied then []
    else [.save n index data]
  | .drain _ => (s'.delivered.drop s.delivered.length).map fun x => x.2.event x.1
  | .restart n _ _ => [.restart n]
  | _ => []

/-- What is seen of a run, as far as it goes. -/
def trace (cfg : ClusterConfig) : Cluster → List Action → List Observation
  | _, [] => []
  | s, act :: acts =>
    match Cluster.step cfg s act with
    | none => []
    | some s' => observe s act s' ++ trace cfg s' acts

/-! ## The order -/

/-- The broadcast state `t` behind the cluster. -/
structure Serves (cfg : ClusterConfig) (s : Cluster) (a : Ghost) (t : Sequence) : Prop where
  refines : Refines cfg True s a
  order : ∃ T, Commits cfg a T t.order
  committed : ∀ n ∈ cfg.members, (a.log n).take (s.core n).commitIndex <+: t.order
  offered : ∀ {T i e}, Owns LogEntry.term a T i e → t.offered (i + 1) e
  owned : ∀ {i e}, t.offered i e → i ≤ (a.llog e.term).length
  position : ∀ n ∈ cfg.members, Feeds (s.core n) (t.position n)
  saved : ∀ r ∈ s.taken, t.saved r.index r.data

/-- Committed lists have a common extension that is committed. -/
theorem exists_order (hs : Safe cfg a) {order : List LogEntry} (horder : ∃ T, Commits cfg a T order)
    (prefixes : List (List LogEntry)) (h : ∀ p ∈ prefixes, ∃ T, Commits cfg a T p) :
    ∃ order', order <+: order' ∧ (∃ T, Commits cfg a T order') ∧ ∀ p ∈ prefixes, p <+: order' := by
  induction prefixes with
  | nil => exact ⟨order, List.prefix_rfl, horder, nofun⟩
  | cons p prefixes ih =>
      obtain ⟨⟨Tp, hp⟩, hrest⟩ := List.forall_mem_cons.mp h
      obtain ⟨order', hpre, ⟨T, hcommits⟩, hall⟩ := ih hrest
      rcases hp.comparable hs hcommits with hle | hle
      · exact ⟨order', hpre, ⟨T, hcommits⟩, List.forall_mem_cons.mpr ⟨hle, hall⟩⟩
      · exact ⟨p, hpre.trans hle, ⟨Tp, hp⟩, List.forall_mem_cons.mpr
          ⟨List.prefix_rfl, fun l hl => (hall l hl).trans hle⟩⟩

/-- Once all else is in place the order catches up with the commit indices. -/
theorem Serves.settle {t : Sequence} (hr : Refines cfg True s a)
    (horder : ∃ T, Commits cfg a T t.order)
    (hoffered : ∀ {T i e}, Owns LogEntry.term a T i e → t.offered (i + 1) e)
    (howned : ∀ {i e}, t.offered i e → i ≤ (a.llog e.term).length)
    (hposition : ∀ n ∈ cfg.members, Feeds (s.core n) (t.position n))
    (hsaved : ∀ r ∈ s.taken, t.saved r.index r.data) :
    ∃ t', Broadcast.Trace LogEntry.term t [] t' ∧ Serves cfg s a t' := by
  obtain ⟨order', ⟨vs, rfl⟩, ⟨T, hcommits⟩, hall⟩ := exists_order hr.safe horder
    (cfg.members.map fun n => (a.log n).take (s.core n).commitIndex) fun p hp => by
      obtain ⟨n, hn, rfl⟩ := List.mem_map.mp hp
      exact ⟨_, (hr.nodes n hn).cursors.committed⟩
  refine ⟨{ t with order := t.order ++ vs }, .decides fun i v hv => ?_, hr, ⟨T, hcommits⟩,
    fun n hn => hall _ (List.mem_map.mpr ⟨n, hn, rfl⟩), hoffered, howned, hposition, hsaved⟩
  -- What is committed at an index was appended there in its term.
  refine hoffered (hcommits.owns hr.safe ?_)
  rw [List.getElem?_append_right (Nat.le_add_right _ _), Nat.add_sub_cancel_left]
  exact hv

/-! ## Steps -/

section Step

variable {t : Sequence}

/-- After any action, with `t₁` as the visible part leaves it, the order catches up. -/
theorem Serves.answer (h : Serves cfg s a t) (t₁ : Sequence) (hans : Answers cfg True s a act s' a')
    (horder : t₁.order = t.order) (hkeep : ∀ {i e}, t.offered i e → t₁.offered i e)
    (hnew : ∀ n command, act = .propose n command → ∀ i,
      ((s.core n).submitCommand command).2 = some i →
        t₁.offered i ⟨(s.core n).currentTerm, command⟩)
    (howned : ∀ {i e}, t₁.offered i e → i ≤ (a'.llog e.term).length)
    (hposition : ∀ n ∈ cfg.members, Feeds (s'.core n) (t₁.position n))
    (hsaved : ∀ r ∈ s'.taken, t₁.saved r.index r.data) :
    ∃ t', Broadcast.Trace LogEntry.term t₁ [] t' ∧ Serves cfg s' a' t' := by
  have hg := hans.later.grows h.refines.safe
  refine Serves.settle hans.refines ?_ (fun {T i e} ho => ?_) howned hposition hsaved
  · obtain ⟨T, hT⟩ := h.order
    rw [horder]
    exact ⟨T, hT.grow hg⟩
  · rcases hans.adds ho with hold | ⟨n, command, hact, hindex, rfl, rfl⟩
    · exact hkeep (h.offered hold)
    · exact hnew n command hact _ hindex

theorem Serves.owned_later (h : Serves cfg s a t) (hans : Answers cfg True s a act s' a') {i : Nat}
    {e : LogEntry} (ho : t.offered i e) : i ≤ (a'.llog e.term).length :=
  (h.owned ho).trans ((hans.later.grows h.refines.safe).llog _).length_le

/-- The streams of the nodes the action neither drains nor restarts go on from where they were. -/
theorem Serves.position_later (h : Serves cfg s a t) (hans : Answers cfg True s a act s' a')
    {m : NodeId} (hm : m ∈ cfg.members) (hdrain : act ≠ .drain m)
    (hrestart : ∀ now draw, act ≠ .restart m now draw) : Feeds (s'.core m) (t.position m) :=
  (h.position m hm).advance (hans.advances m hdrain hrestart)

/-- The node it does drain or restart goes on from `i`. -/
theorem Serves.position_moved (h : Serves cfg s a t) (hans : Answers cfg True s a act s' a')
    {i : Nat} (hn : Feeds (s'.core n) i) (hdrain : ∀ m, m ≠ n → act ≠ .drain m)
    (hrestart : ∀ m, m ≠ n → ∀ now draw, act ≠ .restart m now draw) :
    ∀ m ∈ cfg.members, Feeds (s'.core m) (Function.update t.position n i m) := by
  intro m hm
  by_cases hmn : m = n
  · subst hmn
    rw [Function.update_self]
    exact hn
  · rw [Function.update_of_ne hmn]
    exact h.position_later hans hm (hdrain m hmn) (hrestart m hmn)

theorem Serves.saved_later (h : Serves cfg s a t) (hstep : Cluster.step cfg s act = some s')
    (hact : ∀ n index data, act ≠ .snapshot n index data) :
    ∀ r ∈ s'.taken, t.saved r.index r.data := by
  intro r hr
  rcases (step_recorded hstep).taken r hr with hold | hnew
  · exact h.saved r hold
  · exact absurd hnew (hact _ _ _)

/-- An action of which nothing is seen. -/
theorem Serves.quiet (h : Serves cfg s a t) (hans : Answers cfg True s a act s' a')
    (hstep : Cluster.step cfg s act = some s') (hpropose : ∀ n command, act ≠ .propose n command)
    (hsnapshot : ∀ n index data, act ≠ .snapshot n index data) (hdrain : ∀ n, act ≠ .drain n)
    (hrestart : ∀ n now draw, act ≠ .restart n now draw) :
    ∃ t', Broadcast.Trace LogEntry.term t [] t' ∧ Serves cfg s' a' t' :=
  h.answer t hans rfl (fun ho => ho) (fun n command hact => absurd hact (hpropose n command))
    (fun ho => h.owned_later hans ho)
    (fun m hm => h.position_later hans hm (hdrain m) (hrestart m))
    (h.saved_later hstep hsnapshot)

/-- What a leader appends is in the log of its term. -/
theorem owns_submitted {command : Bytes} (hr' : Refines cfg True s' a')
    (hstep : Cluster.step cfg s (.propose n command) = some s')
    (hrole : (s.core n).role = .leader) :
    Owns LogEntry.term a' (s.core n).currentTerm (s.core n).log.lastIndex
      ⟨(s.core n).currentTerm, command⟩ := by
  obtain ⟨hmem, rfl⟩ := Cluster.step_propose hstep
  obtain ⟨-, hlog, hstanding⟩ := submitCommand_effect hrole command
  have hnode' := hr'.nodes n hmem
  rw [Cluster.core_setCore_self] at hnode'
  have hrole' := (congrArg Standing.role hstanding).trans hrole
  have hterm' : ((s.core n).submitCommand command).1.currentTerm = (s.core n).currentTerm :=
    congrArg Standing.currentTerm hstanding
  have hget : ((s.core n).submitCommand command).1.log.get ((s.core n).log.lastIndex + 1) =
      some ⟨(s.core n).currentTerm, command⟩ := by
    rw [hlog]
    exact Log.get_append_last _ _
  obtain ⟨hentry, -⟩ := hnode'.mirrors.log.getElem?_of_get hget
  rw [← (hnode'.leadership hrole').log, ← hnode'.mirrors.term, hterm'] at hentry
  exact ⟨hentry, rfl⟩

theorem Serves.propose (h : Serves cfg s a t) {command : Bytes}
    (hans : Answers cfg True s a (.propose n command) s' a')
    (hstep : Cluster.step cfg s (.propose n command) = some s') :
    ∃ t', Broadcast.Trace LogEntry.term t (observe s (.propose n command) s') t' ∧
      Serves cfg s' a' t' := by
  obtain ⟨hmem, rfl⟩ := Cluster.step_propose hstep
  have hposition : ∀ m ∈ cfg.members, Feeds
      ((s.setCore n ((s.core n).submitCommand command).1).core m) (t.position m) :=
    fun m hm => h.position_later hans hm nofun nofun
  have hsaved := h.saved_later hstep nofun
  unfold observe
  dsimp only
  by_cases hrole : (s.core n).role = .leader
  · obtain ⟨hindex, -, -⟩ := submitCommand_effect hrole command
    let e : LogEntry := ⟨(s.core n).currentTerm, command⟩
    have hnode := h.refines.nodes n hmem
    have hlen : (a.llog e.term).length = (s.core n).log.lastIndex := by
      show (a.llog (s.core n).currentTerm).length = _
      rw [hnode.mirrors.term, (hnode.leadership hrole).log, hnode.mirrors.log.lastIndex_eq]
    -- The leader's log is the longest of its term, so the index is new in it.
    have hfresh : ∀ w, t.offered ((s.core n).log.lastIndex + 1) w → w.term ≠ e.term := by
      intro w hw hterm
      have hle := h.owned hw
      rw [hterm, hlen] at hle
      omega
    have hin : (s.core n).log.lastIndex + 1 ≤ (a'.llog e.term).length :=
      (List.getElem?_eq_some_iff.mp (owns_submitted hans.refines hstep hrole).1).1
    let t₁ : Sequence :=
      { t with
        offered := fun j w => t.offered j w ∨ (j = (s.core n).log.lastIndex + 1 ∧ w = e) }
    obtain ⟨t', htrace, hserves⟩ := h.answer t₁ hans rfl (fun ho => .inl ho) (by
        intro m c hact i hi
        cases hact
        rw [hindex] at hi
        exact .inr ⟨(Option.some.inj hi).symm, rfl⟩)
      (by
        rintro i w (ho | ⟨rfl, rfl⟩)
        · exact h.owned_later hans ho
        · exact hin) hposition hsaved
    rw [hindex]
    exact ⟨t', (Broadcast.Trace.single (.offer n _ e hfresh)).trans htrace, hserves⟩
  · have hnone : ((s.core n).submitCommand command).2 = none := by
      unfold submitCommand
      rw [if_pos hrole]
    rw [hnone]
    refine h.answer t hans rfl (fun ho => ho) ?_ (fun ho => h.owned_later hans ho) hposition hsaved
    intro m c hact i hi
    cases hact
    rw [hnone] at hi
    cases hi

theorem Serves.snapshot (h : Serves cfg s a t) {index : Nat} {data : Bytes}
    (hans : Answers cfg True s a (.snapshot n index data) s' a')
    (hstep : Cluster.step cfg s (.snapshot n index data) = some s') :
    ∃ t', Broadcast.Trace LogEntry.term t (observe s (.snapshot n index data) s') t' ∧
      Serves cfg s' a' t' := by
  have hposition : ∀ m ∈ cfg.members, Feeds (s'.core m) (t.position m) :=
    fun m hm => h.position_later hans hm nofun nofun
  obtain ⟨hmem, core, taken, -, rfl, htaken⟩ := Cluster.step_snapshot hstep
  unfold observe
  dsimp only
  split
  · next hout =>
      rw [if_pos hout] at htaken
      refine h.answer t hans rfl (fun ho => ho) nofun (fun ho => h.owned_later hans ho) hposition ?_
      intro r hr
      rw [htaken, List.append_nil] at hr
      exact h.saved r hr
  · next hin =>
      rw [if_neg hin] at htaken
      push Not at hin
      -- With a snapshot still to be handed over the cursor is at the boundary, and nothing takes
      -- effect.
      have hat : index ≤ t.position n := by
        rcases h.position n hmem with ⟨-, hat⟩ | ⟨hpending, -⟩
        · rw [hat]
          exact hin.2
        · obtain ⟨sn, hsn⟩ := Option.isSome_iff_exists.mp hpending
          have hboundary := ((h.refines.nodes n hmem).cursors.pending hsn).1
          omega
      let t₁ : Sequence := { t with saved := fun j d => t.saved j d ∨ (j = index ∧ d = data) }
      obtain ⟨t', htrace, hserves⟩ := h.answer t₁ hans rfl (fun ho => ho) nofun
        (fun ho => h.owned_later hans ho) hposition (by
          intro r hr
          rw [htaken] at hr
          rcases List.mem_append.mp hr with hold | hnew
          · exact .inl (h.saved r hold)
          · rw [List.mem_singleton.mp hnew]
            exact .inr ⟨rfl, rfl⟩)
      exact ⟨t', (Broadcast.Trace.single (.save n index data hat)).trans htrace, hserves⟩

/-- The commands of a committed prefix, as they are seen. -/
theorem commandsOf_events (n : NodeId) (full : List LogEntry) {lo hi k : Nat} (hk : lo + k = hi)
    (hhi : hi ≤ full.length) : (commandsOf full lo hi).map (Apply.event n) =
      Broadcast.deliveries n lo ((full.take hi).drop lo) := by
  induction k generalizing lo with
  | zero =>
      have hnil : commandsOf full lo hi = [] := by
        unfold commandsOf
        rw [show hi - lo = 0 by omega]
        rfl
      rw [hnil, List.drop_eq_nil_of_le (by rw [List.length_take]; omega)]
      rfl
  | succ k ih =>
      have hlt : lo < (full.take hi).length := by
        rw [List.length_take]
        omega
      have hget : full[lo]? = some (full.take hi)[lo] := by
        rw [← List.getElem?_take_of_lt (by omega : lo < hi), List.getElem?_eq_getElem hlt]
      rw [commandsOf_cons (by omega) hget, List.drop_eq_getElem_cons hlt]
      exact congrArg _ (ih (by omega))

theorem observe_drain (s : Cluster) (n : NodeId) (core : ConsensusModule) (out : List Apply) :
    observe s (.drain n)
        { s.setCore n core with delivered := s.delivered ++ out.map fun item => (n, item) } =
      out.map (Apply.event n) := by
  unfold observe
  dsimp only
  rw [List.drop_left, List.map_map]
  rfl

/-- What is pending comes first, and leads to the cursor. -/
theorem Serves.pending (h : Serves cfg s a t) (hmem : n ∈ cfg.members) :
    Broadcast.Trace LogEntry.term t
      (((s.core n).pendingSnapshot.toList.map Apply.snapshot).map (Apply.event n))
      { t with position := Function.update t.position n (s.core n).lastApplied } := by
  have hnode := h.refines.nodes n hmem
  rcases h.position n hmem with ⟨hnone, hat⟩ | ⟨hsome, hbehind⟩
  · rw [hnone, ← hat, Function.update_eq_self]
    exact .refl
  · obtain ⟨sn, hsn⟩ := Option.isSome_iff_exists.mp hsome
    obtain ⟨hboundary, hindex, -, hdata⟩ := hnode.cursors.pending hsn
    obtain ⟨hpos, hbacked⟩ := hnode.cursors.backed hdata
    have hlen : ((a.log n).take (s.core n).log.snapshotIndex).length =
        (s.core n).log.snapshotIndex := by
      rw [List.length_take, Nat.min_eq_left hnode.mirrors.log.le]
    obtain ⟨r, hr, hrindex, hrdata⟩ := hbacked.supplied (hlen.symm ▸ hpos)
    have hsaved : t.saved sn.lastIncludedIndex sn.data := by
      have hsaved := h.saved r hr
      rwa [hrindex, hlen, hrdata, ← hindex] at hsaved
    have hle : sn.lastIncludedIndex ≤ t.order.length := by
      have hpre := (h.committed n hmem).length_le
      have := hnode.cursors.applied_le
      rw [List.length_take, Nat.min_eq_left hnode.cursors.commit_le] at hpre
      omega
    rw [hsn, hboundary, ← hindex]
    exact Broadcast.Trace.single (.load n _ sn.data hsaved (by omega) hle)

theorem Serves.drain (h : Serves cfg s a t) (hans : Answers cfg True s a (.drain n) s' a')
    (hstep : Cluster.step cfg s (.drain n) = some s') :
    ∃ t', Broadcast.Trace LogEntry.term t (observe s (.drain n) s') t' ∧
      Serves cfg s' a' t' := by
  have hsaved := h.saved_later hstep nofun
  obtain ⟨hmem, core, out, htake, rfl⟩ := Cluster.step_drain hstep
  have hnode := h.refines.nodes n hmem
  have hcommit := hnode.cursors.commit_le
  have happlied := hnode.cursors.applied_le
  have hpre := h.committed n hmem
  have hfeeds := takeApplies_follows hnode (h.position n hmem) htake
  rw [takeApplies_eq hnode] at htake
  cases htake
  rw [observe_drain, List.map_append, commandsOf_events n (a.log n) (Nat.add_sub_cancel' happlied)
    hcommit]
  have hlen : (((a.log n).take (s.core n).commitIndex).drop (s.core n).lastApplied).length =
      (s.core n).commitIndex - (s.core n).lastApplied := by
    rw [List.length_drop, List.length_take, Nat.min_eq_left hcommit]
  have hposition := h.position_moved hans
    (by
      show Feeds ((s.setCore n _).core n) (s.core n).commitIndex
      rw [Cluster.core_setCore_self]
      exact hfeeds.2)
    (fun m hmn heq => hmn (Action.drain.inj heq).symm) nofun
  -- The pending snapshot, the commands, and then the order.
  have hpending := h.pending hmem
  have hcommands :=
    Broadcast.Trace.delivers (τ := LogEntry.term) (n := n) (i := (s.core n).lastApplied)
    (s := { t with position := Function.update t.position n (s.core n).lastApplied })
    (Function.update_self _ _ _) (hpre.drop (s.core n).lastApplied)
  dsimp only at hcommands
  rw [hlen, Nat.add_sub_cancel' happlied, Function.update_idem] at hcommands
  obtain ⟨t', htrace, hserves⟩ := h.answer
    { t with position := Function.update t.position n (s.core n).commitIndex } hans rfl
    (fun ho => ho) nofun (fun ho => h.owned_later hans ho) hposition hsaved
  have hall := (hpending.trans hcommands).trans htrace
  rw [List.append_nil] at hall
  exact ⟨t', hall, hserves⟩

theorem Serves.restart (h : Serves cfg s a t) {now : Instant} {draw : Nat}
    (hans : Answers cfg True s a (.restart n now draw) s' a')
    (hstep : Cluster.step cfg s (.restart n now draw) = some s') :
    ∃ t', Broadcast.Trace LogEntry.term t (observe s (.restart n now draw) s') t' ∧
      Serves cfg s' a' t' := by
  have hsaved := h.saved_later hstep nofun
  obtain ⟨hmem, hs'⟩ := Cluster.step_restart hstep
  have hfeeds : Feeds (s'.core n) 0 := by
    have hnode := hans.refines.nodes n hmem
    have hcore : s'.core n =
        (startNode cfg n (s.core n).storage ((s.procs n).epoch + 1) now draw).core := by
      rw [hs']
      exact core_update_self rfl
    rw [hcore] at hnode ⊢
    exact startNode_feeds hnode
  obtain ⟨t', htrace, hserves⟩ := h.answer
    { t with position := Function.update t.position n 0 } hans rfl (fun ho => ho) nofun
    (fun ho => h.owned_later hans ho)
    (h.position_moved hans hfeeds nofun fun m hmn _ _ heq => hmn (Action.restart.inj heq).1.symm)
    hsaved
  exact ⟨t', (Broadcast.Trace.single (.restart n)).trans htrace, hserves⟩

/-- **One action is some steps of the broadcast, with what is seen of it.** -/
theorem Serves.step (h : Serves cfg s a t) (hstep : Cluster.step cfg s act = some s') :
    ∃ a' t', Broadcast.Trace LogEntry.term t (observe s act s') t' ∧ Serves cfg s' a' t' := by
  obtain ⟨a', hans⟩ := step_refines h.refines (fun hno => absurd trivial hno) hstep
  refine ⟨a', ?_⟩
  cases act with
  | tick | serve | fold => exact h.quiet hans hstep nofun nofun nofun nofun
  | propose => exact h.propose hans hstep
  | snapshot => exact h.snapshot hans hstep
  | drain => exact h.drain hans hstep
  | restart => exact h.restart hans hstep

end Step

/-! ## Runs -/

theorem Serves.init (cfg : ClusterConfig) : Serves cfg (Cluster.init cfg) State.init .init where
  refines := init_refines cfg True
  order := ⟨0, Committed.nil _ _⟩
  committed _ _ := List.prefix_rfl
  offered ho := nomatch ho.1
  owned := nofun
  position _ _ := .inl ⟨rfl, rfl⟩
  saved := nofun

/-- What is seen of any run from a served state is a trace of the broadcast. -/
theorem Serves.run {t : Sequence} (acts : List Action) (h : Serves cfg s a t) :
    ∃ t', Broadcast.Trace LogEntry.term t (trace cfg s acts) t' := by
  induction acts generalizing s a t with
  | nil => exact ⟨t, .refl⟩
  | cons act acts ih =>
      unfold trace
      cases hstep : Cluster.step cfg s act with
      | none => exact ⟨t, .refl⟩
      | some s' =>
          obtain ⟨a', t', htrace, hserves⟩ := h.step hstep
          obtain ⟨t'', hrest⟩ := ih hserves
          exact ⟨t'', htrace.trans hrest⟩

/-- **The cluster is a totally ordered broadcast.** Whatever is proposed, lost, delayed, reordered
    and restarted: the commands taken, the items the state machines are handed and the snapshots
    they make are a trace of the abstract broadcast. So there is one order, with at each index a
    command that was taken for that index; every process gets it from the start and without a gap, a
    snapshot standing for the prefix it was made of; and no two commands are taken for one index in
    one term. -/
theorem cluster_is_broadcast (cfg : ClusterConfig) (acts : List Action) :
    ∃ t, Broadcast.Trace LogEntry.term .init (trace cfg (Cluster.init cfg) acts) t :=
  (Serves.init cfg).run acts

end Murmur.Raft
