/-
  One node on its own: the operations of `ConsensusModule` with any arguments, the saves each one
  makes on its way, and lifetimes of a node with crashes inside and between operations.

  * `Op.run`: the state an operation returns with; `none` is a panic.
  * `Op.saves`: the states it hands to `persist`, in order. A handler that adopts a newer term saves
    that first, and may save again.
  * `SaveStep`: what one save can change with respect to the one before it.
  * `Op.grants`: the votes an operation tells the outside about.
-/
import Murmur.Raft.Replication

namespace Murmur.Raft

/-- A call of one of the operations, with its arguments. -/
inductive Op where
  | handleRequestVote (args : RequestVoteArgs) (now : Instant) (draw : Nat)
  | handleAppendEntries (args : AppendEntriesArgs) (now : Instant) (draw : Nat)
  | handleInstallSnapshot (args : InstallSnapshotArgs) (now : Instant) (draw : Nat)
  | recordPreVoteReply (sender : NodeId) (reply : RequestVoteReply)
  | recordVoteReply (sender : NodeId) (reply : RequestVoteReply)
  | handleAppendReply (peer : NodeId) (reply : AppendEntriesReply) (matchHint : Nat)
  | handleInstallSnapshotReply (peer : NodeId) (reply : InstallSnapshotReply)
      (lastIncludedIndex : Nat)
  | startPreElection (now : Instant) (draw : Nat)
  | startElection (now : Instant) (draw : Nat)
  | submitCommand (command : Bytes)
  | snapshot (takenAt : Nat) (data : Bytes)
  | takeApplies

/-! ## Saves on the way -/

namespace ConsensusModule

/-- `stepDown` saves a newer term. -/
def stepDownSaves (self : ConsensusModule) (term : Nat) : List PersistentState :=
  if term > self.currentTerm then [(self.stepDown term).storage] else []

/-- `castVote` saves a vote it grants. -/
def castVoteSaves (self : ConsensusModule) (args : RequestVoteArgs) (now : Instant) (draw : Nat) :
    List PersistentState :=
  let (after, reply) := self.castVote args now draw
  if reply.voteGranted then [after.storage] else []

/-- `storeEntries` saves unless there was nothing to store. -/
def storeEntriesSaves (self : ConsensusModule) (prevLogIndex : Nat) (entries : List LogEntry) :
    List PersistentState :=
  if entries.isEmpty then [] else [(self.storeEntries prevLogIndex entries).storage]

end ConsensusModule

namespace Op

/-- The state after the call; what it returns to its caller is left out. -/
def run (self : ConsensusModule) : Op → Option ConsensusModule
  | handleRequestVote args now draw => some (self.handleRequestVote args now draw).1
  | handleAppendEntries args now draw => some (self.handleAppendEntries args now draw).1
  | handleInstallSnapshot args now draw => some (self.handleInstallSnapshot args now draw).1
  | recordPreVoteReply sender reply => some (self.recordPreVoteReply sender reply)
  | recordVoteReply sender reply => some (self.recordVoteReply sender reply)
  | handleAppendReply peer reply matchHint => some (self.handleAppendReply peer reply matchHint)
  | handleInstallSnapshotReply peer reply upTo =>
    some (self.handleInstallSnapshotReply peer reply upTo)
  | startPreElection now draw => some (self.startPreElection now draw).1
  | startElection now draw => some (self.startElection now draw).1
  | submitCommand command => some (self.submitCommand command).1
  | snapshot takenAt data => self.takeSnapshot takenAt data
  | takeApplies => self.takeApplies.map Prod.fst

/-- The states saved during the call, oldest first. -/
def saves (self : ConsensusModule) : Op → List PersistentState
  | handleRequestVote args now draw =>
    if args.preVote then []
    else if args.term < self.currentTerm then []
    else
      let current := if args.term > self.currentTerm then self.stepDown args.term else self
      self.stepDownSaves args.term ++ current.castVoteSaves args now draw
  | handleAppendEntries args now draw =>
    if args.term < self.currentTerm then []
    else
      let follower := self.yieldTo args.term args.leaderId now draw
      self.stepDownSaves args.term ++
        if !follower.consistent args then []
        else follower.storeEntriesSaves args.prevLogIndex args.entries
  | handleInstallSnapshot args now draw =>
    if args.term < self.currentTerm then []
    else
      let follower := self.yieldTo args.term args.leaderId now draw
      self.stepDownSaves args.term ++
        if args.lastIncludedIndex ≤ follower.commitIndex then []
        else [(follower.acceptSnapshot args).storage]
  | recordPreVoteReply _ reply => self.stepDownSaves reply.term
  | recordVoteReply _ reply => self.stepDownSaves reply.term
  | handleAppendReply _ reply _ => self.stepDownSaves reply.term
  | handleInstallSnapshotReply _ reply _ => self.stepDownSaves reply.term
  | startPreElection _ _ => []
  | startElection now draw => [(self.startElection now draw).1.storage]
  | submitCommand command =>
    if self.role ≠ .leader then [] else [(self.submitCommand command).1.storage]
  | snapshot takenAt data =>
    if takenAt ≤ self.log.snapshotIndex ∨ takenAt > self.lastApplied then []
    else (self.takeSnapshot takenAt data).toList.map ConsensusModule.storage
  | takeApplies => []

/-- The votes the call gives: the one a reply grants, and a candidate's own. -/
def grants (self : ConsensusModule) : Op → List (Nat × NodeId)
  | handleRequestVote args now draw =>
    let reply := (self.handleRequestVote args now draw).2
    if !args.preVote ∧ reply.voteGranted then [(reply.term, args.candidateId)] else []
  | startElection _ _ => [(self.currentTerm + 1, self.id)]
  | _ => []

end Op

/-! ## What a save can change -/

/-- A snapshot boundary exists only together with the snapshot's bytes. -/
def PersistentState.Rooted (p : PersistentState) : Prop :=
  p.snapshot = none → p.log.snapshotIndex = 0 ∧ p.log.snapshotTerm = 0

/-- `p'` is saved where `p` was the state before. -/
inductive SaveStep (p : PersistentState) : PersistentState → Prop
  | adopt (term : Nat) (h : p.currentTerm < term) :
      SaveStep p { p with currentTerm := term, votedFor := none }
  | campaign (id : NodeId) :
      SaveStep p { p with currentTerm := p.currentTerm + 1, votedFor := some id }
  | vote (candidate : NodeId) (h : p.votedFor.isNone ∨ p.votedFor = some candidate) :
      SaveStep p { p with votedFor := some candidate }
  | entries (log : Log) (hi : log.snapshotIndex = p.log.snapshotIndex)
      (ht : log.snapshotTerm = p.log.snapshotTerm) : SaveStep p { p with log }
  | compact (log : Log) (data : Bytes) (h : p.log.snapshotIndex ≤ log.snapshotIndex) :
      SaveStep p { p with log, snapshot := some data }

/-- A later state: the term never falls, and within a term a vote stays as it was cast. -/
structure PersistentState.Later (p p' : PersistentState) : Prop where
  term : p.currentTerm ≤ p'.currentTerm
  vote : p.currentTerm = p'.currentTerm → ∀ c, p.votedFor = some c → p'.votedFor = some c

namespace PersistentState.Later

protected theorem refl (p : PersistentState) : Later p p := ⟨Nat.le_refl _, fun _ _ h => h⟩

protected theorem trans {p q r : PersistentState} (h : Later p q) (h' : Later q r) : Later p r where
  term := Nat.le_trans h.term h'.term
  vote := by
    intro heq c hc
    have hpq := h.term
    have hqr := h'.term
    exact h'.vote (by omega) c (h.vote (by omega) c hc)

end PersistentState.Later

namespace SaveStep

variable {p p' : PersistentState}

theorem later (h : SaveStep p p') : p.Later p' := by
  cases h with
  | adopt term hlt => exact ⟨Nat.le_of_lt hlt, fun heq => absurd heq (Nat.ne_of_lt hlt)⟩
  | campaign id => exact ⟨Nat.le_succ _, fun heq => absurd heq (Nat.ne_of_lt (Nat.lt_succ_self _))⟩
  | vote candidate hfree =>
      refine ⟨Nat.le_refl _, fun _ c hc => ?_⟩
      rw [hc] at hfree
      cases hfree with
      | inl h => cases h
      | inr h => exact h.symm
  | entries log hi ht => exact ⟨Nat.le_refl _, fun _ _ h => h⟩
  | compact log data hle => exact ⟨Nat.le_refl _, fun _ _ h => h⟩

theorem boundary_le (h : SaveStep p p') : p.log.snapshotIndex ≤ p'.log.snapshotIndex := by
  cases h with
  | adopt term hlt => exact Nat.le_refl _
  | campaign id => exact Nat.le_refl _
  | vote candidate hfree => exact Nat.le_refl _
  | entries log hi ht => exact Nat.le_of_eq hi.symm
  | compact log data hle => exact hle

theorem rooted (h : SaveStep p p') (hp : p.Rooted) : p'.Rooted := by
  cases h with
  | adopt term hlt => exact hp
  | campaign id => exact hp
  | vote candidate hfree => exact hp
  | entries log hi ht =>
      intro hnone
      rw [hi, ht]
      exact hp hnone
  | compact log data hle => exact nofun

end SaveStep

/-- The saves made on the way from `p` to `p'`. -/
inductive SavePath : PersistentState → List PersistentState → PersistentState → Prop
  | nil (p : PersistentState) : SavePath p [] p
  | cons {p q r : PersistentState} {saves : List PersistentState} (h : SaveStep p q)
      (rest : SavePath q saves r) : SavePath p (q :: saves) r

namespace SavePath

variable {p q r : PersistentState} {saves saves' : List PersistentState}

theorem once (h : SaveStep p q) : SavePath p [q] q := .cons h (.nil q)

theorem append (h : SavePath p saves q) (h' : SavePath q saves' r) :
    SavePath p (saves ++ saves') r := by
  induction h with
  | nil p => exact h'
  | cons hstep _ ih => exact .cons hstep (ih h')

theorem getLastD_eq (h : SavePath p saves q) : saves.getLastD p = q := by
  induction h with
  | nil p => rfl
  | cons hstep _ ih => rw [List.getLastD_cons, ih]

theorem boundary_le (h : SavePath p saves q) : p.log.snapshotIndex ≤ q.log.snapshotIndex := by
  induction h with
  | nil p => exact Nat.le_refl _
  | cons hstep _ ih => exact hstep.boundary_le.trans ih

/-- Every state on the way is later than the first. -/
theorem later (h : SavePath p saves q) : ∀ s ∈ p :: saves, p.Later s := by
  induction h with
  | nil p =>
      intro s hs
      cases List.mem_singleton.mp hs
      exact .refl p
  | cons hstep _ ih =>
      intro s hs
      cases List.mem_cons.mp hs with
      | inl heq => exact heq ▸ .refl _
      | inr hs => exact hstep.later.trans (ih s hs)

theorem rooted (h : SavePath p saves q) (hp : p.Rooted) : ∀ s ∈ p :: saves, s.Rooted := by
  induction h with
  | nil p =>
      intro s hs
      cases List.mem_singleton.mp hs
      exact hp
  | cons hstep _ ih =>
      intro s hs
      cases List.mem_cons.mp hs with
      | inl heq => exact heq ▸ hp
      | inr hs => exact ih (hstep.rooted hp) s hs

end SavePath

/-! ## The saves of each operation -/

namespace ConsensusModule

variable {c : ConsensusModule}

theorem stepDown_path (c : ConsensusModule) (term : Nat) :
    SavePath c.persistentState (c.stepDownSaves term) (c.stepDown term).persistentState := by
  unfold stepDownSaves stepDown
  by_cases hnew : term > c.currentTerm
  · simp only [hnew, if_true]
    exact .once (.adopt term hnew)
  · simp only [hnew, if_false]
    exact .nil _

/-- A reply is ignored, or steps down for its newer term. -/
theorem reply_path {c' : ConsensusModule} {term : Nat}
    (hnew : term > c.currentTerm → c'.persistentState = (c.stepDown term).persistentState)
    (hold : ¬ term > c.currentTerm → c'.persistentState = c.persistentState) :
    SavePath c.persistentState (c.stepDownSaves term) c'.persistentState := by
  by_cases h : term > c.currentTerm
  · rw [hnew h]
    exact stepDown_path c term
  · rw [hold h, stepDownSaves, if_neg h]
    exact .nil _

theorem yieldTo_path (c : ConsensusModule) (term : Nat) (leader : NodeId) (now : Instant)
    (draw : Nat) : SavePath c.persistentState (c.stepDownSaves term)
      (c.yieldTo term leader now draw).persistentState := by
  refine reply_path (fun hnew => ?_) (fun hold => ?_)
  · unfold yieldTo
    rw [if_pos hnew]
    rfl
  · unfold yieldTo
    rw [if_neg hold]
    rfl

theorem castVote_path (c : ConsensusModule) (args : RequestVoteArgs) (now : Instant) (draw : Nat) :
    SavePath c.persistentState (c.castVoteSaves args now draw)
      (c.castVote args now draw).1.persistentState := by
  unfold castVoteSaves castVote
  dsimp only
  by_cases hgrant : (decide (c.votedFor.isNone = true ∨ c.votedFor = some args.candidateId) = true ∧
      c.logIsUpToDate args.lastLogIndex args.lastLogTerm = true)
  · simp only [hgrant, and_self, if_true]
    exact .once (.vote args.candidateId (of_decide_eq_true hgrant.1))
  · simp only [hgrant, if_false, Bool.false_eq_true]
    exact .nil _

theorem storeEntries_path (c : ConsensusModule) (prevLogIndex : Nat) (entries : List LogEntry) :
    SavePath c.persistentState (c.storeEntriesSaves prevLogIndex entries)
      (c.storeEntries prevLogIndex entries).persistentState := by
  cases entries with
  | nil => exact .nil _
  | cons e rest =>
      have hb := splice_boundary c.log prevLogIndex (e :: rest)
      exact .once (.entries _ hb.1 hb.2)

/-- Compaction never moves the boundary back. -/
theorem compact_le (log : Log) (index term : Nat) :
    log.snapshotIndex ≤ (log.compact index term).snapshotIndex := by
  unfold Log.compact
  split
  · exact Nat.le_refl _
  · show log.snapshotIndex ≤ index
    omega

theorem acceptSnapshot_path (c : ConsensusModule) (args : InstallSnapshotArgs) :
    SavePath c.persistentState [(c.acceptSnapshot args).storage]
      (c.acceptSnapshot args).persistentState :=
  .once (.compact _ args.data (compact_le _ _ _))

theorem followCommit_persistentState (leaderCommit : Nat) :
    (c.followCommit leaderCommit).persistentState = c.persistentState := by
  unfold followCommit
  split
  · rfl
  · rfl

theorem maybeBecomeLeader_persistentState :
    c.maybeBecomeLeader.persistentState = c.persistentState := by
  unfold maybeBecomeLeader
  split
  · rfl
  · rfl

theorem maybeAdvanceCommit_persistentState :
    c.maybeAdvanceCommit.persistentState = c.persistentState := by
  obtain ⟨j, heq⟩ := maybeAdvanceCommit_eq (c := c)
  rw [heq]
  rfl

theorem applyCommitted_persistentState {fuel : Nat} {c' : ConsensusModule} {out : List Apply}
    (h : applyCommitted fuel c = some (c', out)) : c'.persistentState = c.persistentState := by
  induction fuel generalizing c out with
  | zero =>
      cases h
      rfl
  | succ fuel ih =>
      unfold applyCommitted at h
      split at h
      · dsimp only at h
        split at h
        · cases h
        · obtain ⟨⟨d, rest⟩, hd, heq⟩ := Option.map_eq_some_iff.mp h
          cases heq
          exact ih (c := { c with lastApplied := c.lastApplied + 1 }) hd
      · cases h
        rfl

end ConsensusModule

namespace Op

open ConsensusModule

variable {c c' : ConsensusModule}

theorem handleRequestVote_path (c : ConsensusModule) (args : RequestVoteArgs) (now : Instant)
    (draw : Nat) : SavePath c.persistentState ((handleRequestVote args now draw).saves c)
      (c.handleRequestVote args now draw).1.persistentState := by
  unfold saves ConsensusModule.handleRequestVote
  dsimp only
  split
  · exact .nil _
  · split
    · exact .nil _
    · split
      · exact (stepDown_path c args.term).append (castVote_path _ args now draw)
      · next hold =>
          rw [stepDownSaves, if_neg hold]
          exact castVote_path c args now draw

theorem handleAppendEntries_path (c : ConsensusModule) (args : AppendEntriesArgs) (now : Instant)
    (draw : Nat) : SavePath c.persistentState ((handleAppendEntries args now draw).saves c)
      (c.handleAppendEntries args now draw).1.persistentState := by
  have hyield := yieldTo_path c args.term args.leaderId now draw
  unfold saves ConsensusModule.handleAppendEntries
  dsimp only
  split
  · exact .nil _
  · split
    · rw [List.append_nil]
      exact hyield
    · rw [followCommit_persistentState]
      exact hyield.append (storeEntries_path _ args.prevLogIndex args.entries)

theorem handleInstallSnapshot_path (c : ConsensusModule) (args : InstallSnapshotArgs)
    (now : Instant) (draw : Nat) :
    SavePath c.persistentState ((handleInstallSnapshot args now draw).saves c)
      (c.handleInstallSnapshot args now draw).1.persistentState := by
  have hyield := yieldTo_path c args.term args.leaderId now draw
  unfold saves ConsensusModule.handleInstallSnapshot
  dsimp only
  split
  · exact .nil _
  · split
    · rw [List.append_nil]
      exact hyield
    · exact hyield.append (acceptSnapshot_path _ args)

theorem recordVoteReply_path (c : ConsensusModule) (sender : NodeId) (reply : RequestVoteReply) :
    SavePath c.persistentState (c.stepDownSaves reply.term)
      (c.recordVoteReply sender reply).persistentState := by
  refine reply_path (fun hnew => ?_) (fun hold => ?_)
  · unfold ConsensusModule.recordVoteReply
    rw [if_pos hnew]
    rfl
  · unfold ConsensusModule.recordVoteReply
    rw [if_neg hold]
    split
    · rfl
    · split
      · exact maybeBecomeLeader_persistentState
      · rfl

theorem recordPreVoteReply_path (c : ConsensusModule) (sender : NodeId)
    (reply : RequestVoteReply) : SavePath c.persistentState (c.stepDownSaves reply.term)
      (c.recordPreVoteReply sender reply).persistentState := by
  refine reply_path (fun hnew => ?_) (fun hold => ?_)
  · unfold ConsensusModule.recordPreVoteReply
    rw [if_pos hnew]
    rfl
  · unfold ConsensusModule.recordPreVoteReply
    rw [if_neg hold]
    split
    · rfl
    · rfl

theorem handleAppendReply_path (c : ConsensusModule) (peer : NodeId) (reply : AppendEntriesReply)
    (matchHint : Nat) : SavePath c.persistentState (c.stepDownSaves reply.term)
      (c.handleAppendReply peer reply matchHint).persistentState := by
  refine reply_path (fun hnew => ?_) (fun hold => ?_)
  · unfold ConsensusModule.handleAppendReply
    rw [if_pos hnew]
    rfl
  · unfold ConsensusModule.handleAppendReply
    rw [if_neg hold]
    split
    · rfl
    · split
      · exact maybeAdvanceCommit_persistentState
      · rfl

theorem handleInstallSnapshotReply_path (c : ConsensusModule) (peer : NodeId)
    (reply : InstallSnapshotReply) (upTo : Nat) :
    SavePath c.persistentState (c.stepDownSaves reply.term)
      (c.handleInstallSnapshotReply peer reply upTo).persistentState := by
  refine reply_path (fun hnew => ?_) (fun hold => ?_)
  · unfold ConsensusModule.handleInstallSnapshotReply
    rw [if_pos hnew]
    rfl
  · unfold ConsensusModule.handleInstallSnapshotReply
    rw [if_neg hold]
    split
    · rfl
    · exact maybeAdvanceCommit_persistentState

theorem startElection_path (c : ConsensusModule) (now : Instant) (draw : Nat) :
    SavePath c.persistentState [(c.startElection now draw).1.storage]
      (c.startElection now draw).1.persistentState := by
  rw [startElection_stored now draw]
  refine .once ?_
  unfold ConsensusModule.startElection
  dsimp only
  rw [maybeBecomeLeader_persistentState]
  exact .campaign c.id

theorem submitCommand_path (hc : Stored c) (command : Bytes) :
    SavePath c.persistentState ((submitCommand command).saves c)
      (c.submitCommand command).1.persistentState := by
  unfold saves
  dsimp only
  rw [submitCommand_stored hc command]
  unfold ConsensusModule.submitCommand
  split
  · exact .nil _
  · dsimp only
    rw [maybeAdvanceCommit_persistentState]
    exact .once (.entries _ rfl rfl)

theorem snapshot_path {takenAt : Nat} {data : Bytes} (h : c.takeSnapshot takenAt data = some c') :
    SavePath c.persistentState ((snapshot takenAt data).saves c) c'.persistentState := by
  unfold saves
  dsimp only
  rw [h]
  unfold takeSnapshot at h
  split at h
  · next hskip =>
      cases h
      rw [if_pos hskip]
      exact .nil _
  · next htake =>
      split at h
      · cases h
      · cases h
        rw [if_neg htake]
        exact .once (.compact _ data (compact_le _ _ _))

theorem takeApplies_path {out : List Apply} (h : c.takeApplies = some (c', out)) :
    SavePath c.persistentState (takeApplies.saves c) c'.persistentState := by
  unfold ConsensusModule.takeApplies at h
  obtain ⟨⟨d, rest⟩, hd, heq⟩ := Option.map_eq_some_iff.mp h
  cases heq
  rw [applyCommitted_persistentState hd]
  exact .nil _

/-- Every operation saves its way from the state it found to the one it leaves. -/
theorem saves_path (hc : Stored c) {o : Op} (h : o.run c = some c') :
    SavePath c.persistentState (o.saves c) c'.persistentState := by
  cases o with
  | handleRequestVote args now draw => cases h; exact handleRequestVote_path c args now draw
  | handleAppendEntries args now draw => cases h; exact handleAppendEntries_path c args now draw
  | handleInstallSnapshot args now draw =>
      cases h
      exact handleInstallSnapshot_path c args now draw
  | recordPreVoteReply sender reply => cases h; exact recordPreVoteReply_path c sender reply
  | recordVoteReply sender reply => cases h; exact recordVoteReply_path c sender reply
  | handleAppendReply peer reply matchHint =>
      cases h
      exact handleAppendReply_path c peer reply matchHint
  | handleInstallSnapshotReply peer reply upTo =>
      cases h
      exact handleInstallSnapshotReply_path c peer reply upTo
  | startPreElection now draw => cases h; exact .nil _
  | startElection now draw => cases h; exact startElection_path c now draw
  | submitCommand command => cases h; exact submitCommand_path hc command
  | snapshot takenAt data => exact snapshot_path h
  | takeApplies =>
      obtain ⟨⟨d, out⟩, hd, heq⟩ := Option.map_eq_some_iff.mp h
      cases heq
      exact takeApplies_path hd

theorem run_stored (hc : Stored c) {o : Op} (h : o.run c = some c') : Stored c' := by
  cases o with
  | handleRequestVote args now draw => cases h; exact handleRequestVote_stored hc args now draw
  | handleAppendEntries args now draw => cases h; exact handleAppendEntries_stored hc args now draw
  | handleInstallSnapshot args now draw =>
      cases h
      exact handleInstallSnapshot_stored hc args now draw
  | recordPreVoteReply sender reply => cases h; exact recordPreVoteReply_stored hc sender reply
  | recordVoteReply sender reply => cases h; exact recordVoteReply_stored hc sender reply
  | handleAppendReply peer reply matchHint =>
      cases h
      exact handleAppendReply_stored hc peer reply matchHint
  | handleInstallSnapshotReply peer reply upTo =>
      cases h
      exact handleInstallSnapshotReply_stored hc peer reply upTo
  | startPreElection now draw => cases h; exact startPreElection_stored hc now draw
  | startElection now draw => cases h; exact startElection_stored now draw
  | submitCommand command => cases h; exact submitCommand_stored hc command
  | snapshot takenAt data => exact takeSnapshot_stored hc h
  | takeApplies =>
      obtain ⟨⟨d, out⟩, hd, heq⟩ := Option.map_eq_some_iff.mp h
      cases heq
      exact takeApplies_stored hc hd

/-! ## Votes -/

theorem castVote_grant {args : RequestVoteArgs} {now : Instant} {draw : Nat}
    (h : (c.castVote args now draw).2.voteGranted = true) :
    (c.castVote args now draw).1.currentTerm = (c.castVote args now draw).2.term ∧
      (c.castVote args now draw).1.votedFor = some args.candidateId := by
  unfold castVote at h ⊢
  dsimp only at h ⊢
  split
  · exact ⟨rfl, rfl⟩
  · next hno => simp only [hno, if_false, Bool.false_eq_true] at h

theorem handleRequestVote_grant {args : RequestVoteArgs} {now : Instant} {draw : Nat}
    (hreal : ¬ args.preVote = true)
    (h : (c.handleRequestVote args now draw).2.voteGranted = true) :
    (c.handleRequestVote args now draw).1.currentTerm =
        (c.handleRequestVote args now draw).2.term ∧
      (c.handleRequestVote args now draw).1.votedFor = some args.candidateId := by
  unfold ConsensusModule.handleRequestVote at h ⊢
  rw [if_neg hreal] at h ⊢
  split at h
  · cases h
  · next hterm =>
      rw [if_neg hterm]
      split at h
      · next hnew =>
          rw [if_pos hnew]
          exact castVote_grant h
      · next hold =>
          rw [if_neg hold]
          exact castVote_grant h

/-- A vote that is given is on record when the operation returns. -/
theorem granted_recorded {o : Op} (h : o.run c = some c') {term : Nat} {candidate : NodeId}
    (hg : (term, candidate) ∈ o.grants c) :
    c'.currentTerm = term ∧ c'.votedFor = some candidate := by
  cases o with
  | handleRequestVote args now draw =>
      cases h
      unfold grants at hg
      dsimp only at hg
      split at hg
      · next hyes =>
          cases List.mem_singleton.mp hg
          have hreal : ¬ args.preVote = true := fun hpre => by
            rw [hpre] at hyes
            cases hyes.1
          exact handleRequestVote_grant hreal hyes.2
      · cases hg
  | startElection now draw =>
      cases h
      cases List.mem_singleton.mp hg
      have hp : (c.startElection now draw).1.persistentState = _ :=
        maybeBecomeLeader_persistentState
      exact ⟨congrArg PersistentState.currentTerm hp, congrArg PersistentState.votedFor hp⟩
  | handleAppendEntries args now draw => cases hg
  | handleInstallSnapshot args now draw => cases hg
  | recordPreVoteReply sender reply => cases hg
  | recordVoteReply sender reply => cases hg
  | handleAppendReply peer reply matchHint => cases hg
  | handleInstallSnapshotReply peer reply upTo => cases hg
  | startPreElection now draw => cases hg
  | submitCommand command => cases hg
  | snapshot takenAt data => cases hg
  | takeApplies => cases hg

end Op

/-! ## Lifetimes -/

/-- What happens to a node: an operation runs to its end, or the node crashes in one after `k` of
    its saves and starts again on what was saved. -/
inductive NodeEvent where
  | op (o : Op)
  | crash (o : Op) (k : Nat) (now : Instant) (draw : Nat)

/-- The storage a crash after `k` saves leaves. -/
def ConsensusModule.savedAfter (c : ConsensusModule) (o : Op) (k : Nat) : PersistentState :=
  ((o.saves c).take k).getLastD c.storage

def NodeEvent.step (c : ConsensusModule) : NodeEvent → Option ConsensusModule
  | op o => o.run c
  | crash o k now draw =>
    some (ConsensusModule.new c.id c.peers (c.savedAfter o k) c.timing now draw)

/-- The states of a node that was first started on an empty storage. -/
def Lives (c : ConsensusModule) : Prop :=
  ∃ id peers timing now draw,
    Basis.Reaches NodeEvent.step (ConsensusModule.new id peers {} timing now draw) c

/-- A running node never has more in memory than in storage. -/
theorem NodeEvent.step_stored {c c' : ConsensusModule} {e : NodeEvent} (hc : Stored c)
    (h : NodeEvent.step c e = some c') : Stored c' := by
  cases e with
  | op o => exact Op.run_stored hc h
  | crash o k now draw =>
      cases h
      exact ConsensusModule.new_stored _ _ _ _ _ _

/-- An operation that panics has saved nothing. -/
theorem Op.saves_of_none {c : ConsensusModule} {o : Op} (h : o.run c = none) : o.saves c = [] := by
  cases o with
  | snapshot takenAt data =>
      unfold saves
      dsimp only
      rw [show c.takeSnapshot takenAt data = none from h]
      exact ite_self _
  | takeApplies => rfl
  | _ => cases h

/-- The saves of an operation are a path, whether it returns or not. -/
theorem Op.exists_path {c : ConsensusModule} (hc : Stored c) (o : Op) :
    ∃ p, SavePath c.storage (o.saves c) p := by
  rw [hc]
  cases h : o.run c with
  | none =>
      rw [Op.saves_of_none h]
      exact ⟨_, .nil _⟩
  | some c' => exact ⟨_, Op.saves_path hc h⟩

theorem savedAfter_mem (c : ConsensusModule) (o : Op) (k : Nat) :
    c.savedAfter o k ∈ c.storage :: o.saves c := by
  cases List.mem_cons.mp (List.getLastD_mem_cons (l := (o.saves c).take k) (a := c.storage)) with
  | inl h => exact List.mem_cons.mpr (.inl h)
  | inr h => exact List.mem_cons_of_mem _ (List.mem_of_mem_take h)

/-- Storage is up to date after every operation and every restart, and a boundary without snapshot
    bytes is never saved. -/
theorem lives_saved {c : ConsensusModule} (h : Lives c) :
    Stored c ∧ c.storage.Rooted ∧ ∀ o : Op, ∀ s ∈ o.saves c, s.Rooted := by
  obtain ⟨id, peers, timing, now, draw, hrun⟩ := h
  have hsaves : ∀ {c : ConsensusModule}, Stored c → c.storage.Rooted →
      ∀ o : Op, ∀ s ∈ c.storage :: o.saves c, s.Rooted := by
    intro c hc hroot o
    obtain ⟨p, hpath⟩ := Op.exists_path hc o
    exact hpath.rooted hroot
  have hinv : Stored c ∧ c.storage.Rooted := by
    refine hrun.invariant (I := fun c => Stored c ∧ c.storage.Rooted) ?_
      ⟨ConsensusModule.new_stored id peers {} timing now draw, fun _ => ⟨rfl, rfl⟩⟩
    rintro c e c' ⟨hc, hroot⟩ hstep
    have hc' := NodeEvent.step_stored hc hstep
    refine ⟨hc', ?_⟩
    cases e with
    | op o =>
        have hpath := Op.saves_path hc hstep
        rw [← hc, ← hc'] at hpath
        rw [← hpath.getLastD_eq]
        exact hsaves hc hroot o _ List.getLastD_mem_cons
    | crash o k now draw =>
        cases hstep
        exact hsaves hc hroot o _ (savedAfter_mem c o k)
  exact ⟨hinv.1, hinv.2, fun o s hs =>
    hsaves hinv.1 hinv.2 o s (List.mem_cons_of_mem _ hs)⟩

end Murmur.Raft
