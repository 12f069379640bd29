/-
  Where terms come from.

  * `Op.reaches`: the term an operation leaves is the one before it, the one its message carries,
    or, for a campaign, the next one.
  * `request_term_le`, `reply_term_le`: no message carries a term its author has not reached.
  * `step_terms_le`: so no action takes a node past the highest term there is, a campaign apart.
-/
import Murmur.Raft.Evidence
import Murmur.Raft.PreVote
import Murmur.Raft.Wire

namespace Murmur.Raft

open Murmur.Basis Murmur.Protocol ConsensusModule

variable {cfg : ClusterConfig} {s s' : Cluster} {a : Ghost} {n : NodeId} {c c' : ConsensusModule}

/-! ## One node -/

/-- The term of the message behind a call. A probe's term is not one to adopt. -/
def Op.carries : Op → Option Nat
  | handleRequestVote args _ _ => if args.preVote then none else some args.term
  | handleAppendEntries args _ _ => some args.term
  | handleInstallSnapshot args _ _ => some args.term
  | recordPreVoteReply _ reply => some reply.term
  | recordVoteReply _ reply => some reply.term
  | handleAppendReply _ reply _ => some reply.term
  | handleInstallSnapshotReply _ reply _ => some reply.term
  | _ => none

/-- The term a call can leave. -/
inductive Op.Reaches (term : Nat) : Op → Nat → Prop
  | keep (o : Op) : Op.Reaches term o term
  | adopt (o : Op) {t : Nat} (h : o.carries = some t) : Op.Reaches term o t
  | campaign (now : Instant) (draw : Nat) : Op.Reaches term (.startElection now draw) (term + 1)

/-- A message with a newer term is followed. -/
theorem stepDown_currentTerm {term : Nat} (hnew : c.currentTerm < term) :
    (c.stepDown term).currentTerm = term :=
  congrArg Standing.currentTerm (stepDown_standing hnew)

theorem handleRequestVote_reaches (args : RequestVoteArgs) (now : Instant) (draw : Nat) :
    Op.Reaches c.currentTerm (.handleRequestVote args now draw)
      (c.handleRequestVote args now draw).1.currentTerm := by
  have hcast : ∀ d : ConsensusModule, (d.castVote args now draw).1.currentTerm = d.currentTerm :=
    fun d => congrArg Standing.currentTerm (castVote_standing (c := d) args now draw)
  unfold handleRequestVote
  split
  · exact .keep _
  · next hpre =>
      split
      · exact .keep _
      · split
        · next hnew =>
            rw [hcast, stepDown_currentTerm hnew]
            exact .adopt _ (by simp [Op.carries, hpre])
        · rw [hcast]
          exact .keep _

theorem handleAppendEntries_reaches (args : AppendEntriesArgs) (now : Instant) (draw : Nat) :
    Op.Reaches c.currentTerm (.handleAppendEntries args now draw)
      (c.handleAppendEntries args now draw).1.currentTerm := by
  unfold handleAppendEntries
  split
  · exact .keep _
  · next hterm =>
      have hyield := congrArg Standing.currentTerm
        (yieldTo_standing hterm args.leaderId now draw)
      have hcur : (c.yieldTo args.term args.leaderId now draw).currentTerm = args.term := hyield
      dsimp only
      split
      · rw [hcur]
        exact .adopt _ rfl
      · rw [followCommit_currentTerm, storeEntries_currentTerm, hcur]
        exact .adopt _ rfl

theorem handleInstallSnapshot_reaches (args : InstallSnapshotArgs) (now : Instant) (draw : Nat) :
    Op.Reaches c.currentTerm (.handleInstallSnapshot args now draw)
      (c.handleInstallSnapshot args now draw).1.currentTerm := by
  unfold handleInstallSnapshot
  split
  · exact .keep _
  · next hterm =>
      have hyield := congrArg Standing.currentTerm
        (yieldTo_standing hterm args.leaderId now draw)
      have hcur : (c.yieldTo args.term args.leaderId now draw).currentTerm = args.term := hyield
      dsimp only
      split
      · rw [hcur]
        exact .adopt _ rfl
      · show Op.Reaches _ _ (c.yieldTo args.term args.leaderId now draw).currentTerm
        rw [hcur]
        exact .adopt _ rfl

/-- A reply with a newer term is followed, whatever it answers. -/
theorem outranked_reaches {o : Op} {term : Nat} (ho : o.carries = some term)
    (hnew : term > c.currentTerm) :
    Op.Reaches c.currentTerm o { c.stepDown term with leaderId := none }.currentTerm := by
  show Op.Reaches _ _ (c.stepDown term).currentTerm
  rw [stepDown_currentTerm hnew]
  exact .adopt _ ho

theorem recordPreVoteReply_reaches (sender : NodeId) (reply : RequestVoteReply) :
    Op.Reaches c.currentTerm (.recordPreVoteReply sender reply)
      (c.recordPreVoteReply sender reply).currentTerm := by
  unfold recordPreVoteReply
  split
  · next hnew => exact outranked_reaches rfl hnew
  · split
    · exact .keep _
    · exact .keep _

theorem recordVoteReply_reaches (sender : NodeId) (reply : RequestVoteReply) :
    Op.Reaches c.currentTerm (.recordVoteReply sender reply)
      (c.recordVoteReply sender reply).currentTerm := by
  unfold recordVoteReply
  split
  · next hnew => exact outranked_reaches rfl hnew
  · split
    · exact .keep _
    · split
      · unfold maybeBecomeLeader
        split
        · exact .keep _
        · exact .keep _
      · exact .keep _

theorem maybeAdvanceCommit_currentTerm : c.maybeAdvanceCommit.currentTerm = c.currentTerm :=
  congrArg Standing.currentTerm maybeAdvanceCommit_standing

theorem handleAppendReply_reaches (peer : NodeId) (reply : AppendEntriesReply) (upTo : Nat) :
    Op.Reaches c.currentTerm (.handleAppendReply peer reply upTo)
      (c.handleAppendReply peer reply upTo).currentTerm := by
  unfold handleAppendReply
  split
  · next hnew => exact outranked_reaches rfl hnew
  · split
    · exact .keep _
    · split
      · rw [maybeAdvanceCommit_currentTerm]
        exact .keep _
      · exact .keep _

theorem handleInstallSnapshotReply_reaches (peer : NodeId) (reply : InstallSnapshotReply)
    (upTo : Nat) : Op.Reaches c.currentTerm (.handleInstallSnapshotReply peer reply upTo)
      (c.handleInstallSnapshotReply peer reply upTo).currentTerm := by
  unfold handleInstallSnapshotReply
  split
  · next hnew => exact outranked_reaches rfl hnew
  · split
    · exact .keep _
    · rw [maybeAdvanceCommit_currentTerm]
      exact .keep _

/-- **The term an operation leaves.** -/
theorem Op.reaches {o : Op} (h : o.run c = some c') : o.Reaches c.currentTerm c'.currentTerm := by
  cases o with
  | handleRequestVote args now draw => cases h; exact handleRequestVote_reaches args now draw
  | handleAppendEntries args now draw => cases h; exact handleAppendEntries_reaches args now draw
  | handleInstallSnapshot args now draw =>
      cases h
      exact handleInstallSnapshot_reaches args now draw
  | recordPreVoteReply sender reply => cases h; exact recordPreVoteReply_reaches sender reply
  | recordVoteReply sender reply => cases h; exact recordVoteReply_reaches sender reply
  | handleAppendReply peer reply upTo => cases h; exact handleAppendReply_reaches peer reply upTo
  | handleInstallSnapshotReply peer reply upTo =>
      cases h
      exact handleInstallSnapshotReply_reaches peer reply upTo
  | startPreElection now draw => cases h; exact .keep _
  | startElection now draw =>
      cases h
      rw [startElection_currentTerm]
      exact .campaign now draw
  | submitCommand command =>
      cases h
      unfold ConsensusModule.submitCommand
      split
      · exact .keep _
      · dsimp only
        rw [maybeAdvanceCommit_currentTerm]
        exact .keep _
  | snapshot takenAt data =>
      change c.takeSnapshot takenAt data = some c' at h
      unfold takeSnapshot at h
      split at h
      · cases h
        exact .keep _
      · split at h
        · cases h
        · cases h
          exact .keep _
  | takeApplies =>
      obtain ⟨⟨d, out⟩, hd, heq⟩ := Option.map_eq_some_iff.mp h
      cases heq
      unfold ConsensusModule.takeApplies at hd
      obtain ⟨⟨d', rest⟩, hd', heq⟩ := Option.map_eq_some_iff.mp hd
      cases heq
      have hterm : d.currentTerm = c.currentTerm :=
        congrArg Standing.currentTerm (applyCommitted_standing hd')
      show Op.Reaches _ _ d.currentTerm
      rw [hterm]
      exact .keep _

/-! ## Messages -/

/-- The term of an answer is that of the node that gives it. -/
def Reply.term : Reply → Nat
  | .vote reply => reply.term
  | .append reply => reply.term
  | .install reply => reply.term

theorem castVote_reply_term (args : RequestVoteArgs) (now : Instant) (draw : Nat) :
    (c.castVote args now draw).2.term = (c.castVote args now draw).1.currentTerm := by
  unfold castVote
  dsimp only
  split
  · rfl
  · rfl

theorem serve_reply_term (c : ConsensusModule) (request : Request) (now : Instant) (draw : Nat) :
    (serve c request now draw).2.term = (serve c request now draw).1.currentTerm := by
  cases request with
  | vote args =>
      show (c.handleRequestVote args now draw).2.term =
        (c.handleRequestVote args now draw).1.currentTerm
      unfold handleRequestVote
      split
      · rfl
      · split
        · rfl
        · split
          · exact castVote_reply_term args now draw
          · exact castVote_reply_term args now draw
  | append args =>
      rw [serve_eq_direct]
      show (c.handleAppendEntries args now draw).2.term =
        (c.handleAppendEntries args now draw).1.currentTerm
      unfold handleAppendEntries
      split
      · rfl
      · dsimp only
        split
        · exact appendConflict_term _
        · rfl
  | install args =>
      show (c.handleInstallSnapshot args now draw).2.term =
        (c.handleInstallSnapshot args now draw).1.currentTerm
      unfold handleInstallSnapshot
      split
      · rfl
      · dsimp only
        split
        · rfl
        · rfl

/-- No action takes a node back to an earlier term. -/
theorem step_term_le (h : Cluster.Reachable cfg s) {act : Action}
    (hstep : Cluster.step cfg s act = some s') (hn : n ∈ cfg.members) :
    (s.core n).currentTerm ≤ (s'.core n).currentTerm := by
  obtain ⟨a, hr⟩ := reachable_refines h
  obtain ⟨a', hans⟩ := step_refines hr (fun hno => absurd trivial hno) hstep
  rw [(hr.nodes n hn).mirrors.term, (hans.refines.nodes n hn).mirrors.term]
  exact (hans.later.grows hr.safe).term n

/-- An answer on record is of a term its author has reached. -/
theorem reply_term_le (h : Cluster.Reachable cfg s) {x : Rpc × Reply} (hx : x ∈ s.replies) :
    x.2.term ≤ (s.core x.1.peer).currentTerm := by
  have hinv :
      Cluster.Reachable cfg s ∧ ∀ x ∈ s.replies, x.2.term ≤ (s.core x.1.peer).currentTerm := by
    refine h.invariant (I := fun s => Cluster.Reachable cfg s ∧
      ∀ x ∈ s.replies, x.2.term ≤ (s.core x.1.peer).currentTerm) ?_ ⟨Reaches.refl _ _, nofun⟩
    rintro s act s' ⟨hreach, hs⟩ hstep
    have hreach' := hreach.step hstep
    refine ⟨hreach', fun x hx => ?_⟩
    obtain ⟨a', hr'⟩ := reachable_refines hreach'
    have hrpc := (hr'.replies x hx).1
    have hmono := step_term_le hreach hstep (cfg.mem_of_mem_peers hrpc.sender hrpc.peer)
    rcases Cluster.step_replies hstep hx with hold | ⟨k, now, draw, rfl, hk, hreply⟩
    · exact (hs x hold).trans hmono
    · obtain ⟨rpc, hk', rfl⟩ := Cluster.step_serve hstep
      rw [hk] at hk'
      cases hk'
      rw [hreply, serve_reply_term]
      exact (congrArg currentTerm (Cluster.core_setCore_self s x.1.peer _)).ge
  exact hinv.2 x hx

/-- A request on record, a probe apart, is of a term its sender has reached. -/
theorem request_term_le (hr : Refines cfg True s a) {rpc : Rpc} (hrpc : rpc ∈ s.requests) :
    (∀ args, rpc.request = .vote args → args.preVote = false →
      args.term ≤ (s.core rpc.sender).currentTerm) ∧
    (∀ args, rpc.request = .append args → args.term ≤ (s.core rpc.sender).currentTerm) ∧
    ∀ args, rpc.request = .install args → args.term ≤ (s.core rpc.sender).currentTerm := by
  have hok := hr.requests rpc hrpc
  have hreq := hok.request
  rw [(hr.nodes _ hok.sender).mirrors.term]
  refine ⟨fun args hargs hpre => ?_, fun args hargs => ?_, fun args hargs => ?_⟩
  · rw [hargs] at hreq
    exact hr.safe.votes.le_term (hreq hpre).self
  · rw [hargs] at hreq
    have hseg : Segment cfg a rpc.sender args := hreq
    exact hr.safe.votes.le_term (hr.safe.logs.lead_self hseg.lead)
  · rw [hargs] at hreq
    have hoff : Offer cfg s.taken a rpc.sender args := hreq
    exact hr.safe.votes.le_term (hr.safe.logs.lead_self hoff.lead)

/-! ## The cluster -/

/-- The term a call can adopt is that of some member. -/
theorem carries_le (h : Cluster.Reachable cfg s) {act : Action} {m : NodeId} {o : Op}
    (hcall : Cluster.Calls s act m o) {t : Nat} (ht : o.carries = some t) :
    ∃ v ∈ cfg.members, t ≤ (s.core v).currentTerm := by
  obtain ⟨a, hr⟩ := reachable_refines h
  have hrequest : ∀ {k rpc}, s.requests[k]? = some rpc →
      rpc ∈ s.requests ∧ rpc.sender ∈ cfg.members := fun hk =>
    ⟨List.mem_of_getElem? hk, (hr.requests _ (List.mem_of_getElem? hk)).sender⟩
  have hreply : ∀ {k} {x : Rpc × Reply}, s.replies[k]? = some x →
      ∃ v ∈ cfg.members, x.2.term ≤ (s.core v).currentTerm := fun hk =>
    have hx := List.mem_of_getElem? hk
    have hrpc := (hr.replies _ hx).1
    ⟨_, cfg.mem_of_mem_peers hrpc.sender hrpc.peer, reply_term_le h hx⟩
  cases hcall with
  | @vote k rpc args hk hreq =>
      obtain ⟨hmem, hsender⟩ := hrequest hk
      cases hpre : args.preVote with
      | true => simp [Op.carries, hpre] at ht
      | false =>
          have : args.term = t := by simpa [Op.carries, hpre] using ht
          exact ⟨_, hsender, this ▸ (request_term_le hr hmem).1 args hreq hpre⟩
  | append hk hreq =>
      obtain ⟨hmem, hsender⟩ := hrequest hk
      cases ht
      exact ⟨_, hsender, (request_term_le hr hmem).2.1 _ hreq⟩
  | install hk hreq =>
      obtain ⟨hmem, hsender⟩ := hrequest hk
      cases ht
      exact ⟨_, hsender, (request_term_le hr hmem).2.2 _ hreq⟩
  | preVoted hk | voted hk | appended hk | installed hk =>
      cases ht
      exact hreply hk
  | campaign | probe | propose | snapshot | drain => cases ht

/-- **Only a campaign opens a term.** An action after which some member is past every term there was
    is a tick that campaigns, with a majority of pre-votes. -/
theorem step_terms_le (h : Cluster.Reachable cfg s) {act : Action}
    (hstep : Cluster.step cfg s act = some s') {T : Nat}
    (hT : ∀ n ∈ cfg.members, (s.core n).currentTerm ≤ T)
    (hno : ∀ n now draw, act = .tick n now draw → (s.core n).role ≠ .leader →
      (s.core n).preVoteSucceeded = false) (hn : n ∈ cfg.members) :
    (s'.core n).currentTerm ≤ T := by
  have hmoved := Cluster.step_core hstep n
  generalize s'.core n = c at hmoved ⊢
  cases hmoved with
  | same => exact hT n hn
  | op o hcall hrun =>
      have hreaches := Op.reaches hrun
      generalize c.currentTerm = t at hreaches ⊢
      cases hreaches with
      | keep => exact hT n hn
      | adopt _ ht =>
          obtain ⟨v, hv, hle⟩ := carries_le h hcall ht
          exact hle.trans (hT v hv)
      | campaign now draw =>
          cases hcall with
          | campaign hrole hwon => rw [hno n _ _ rfl hrole] at hwon; cases hwon
  | start epoch now draw hact =>
      show (s.core n).storage.currentTerm ≤ T
      rw [reachable_stored h n]
      exact hT n hn

end Murmur.Raft
