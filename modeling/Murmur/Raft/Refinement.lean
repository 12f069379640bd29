/-
  The refinement relation: which state of the abstract protocol a cluster state stands for.

  * `NodeInv`: a node's term, vote and log are the protocol's (`Mirrors`); its cursors are in order
    and what it takes as committed is (`Cursors`); a candidate's tally and a leader's tables are
    backed by ballots and acknowledgements (`Candidacy`, `Leadership`).
  * `RequestOk`, `ReplyOk`, `ItemOk`: what a message in flight and a delivered item say about the
    protocol's history. All of it is monotone, so messages may arrive at any later time.
  * `Refines`: all of it together.

  Every part takes the fields it is about, so a change of other fields leaves it as it is.
-/
import Murmur.Protocol.Safety
import Murmur.Raft.LogRefinement
import Murmur.Raft.Node

namespace Murmur.Raft

open Murmur.Basis Murmur.Protocol

/-- The protocol's state behind a cluster, with uncompacted logs. -/
abbrev Ghost := Protocol.State NodeId LogEntry

/-- The majorities of the membership. -/
def ClusterConfig.quorums (cfg : ClusterConfig) : QuorumSystem NodeId :=
  majority cfg.members.toFinset

abbrev Safe (cfg : ClusterConfig) (a : Ghost) : Prop := Protocol.Inv cfg.quorums LogEntry.term a

abbrev Commits (cfg : ClusterConfig) (a : Ghost) (T : Nat) (m : List LogEntry) : Prop :=
  Protocol.Committed cfg.quorums LogEntry.term a T m

abbrev MovesBy (cfg : ClusterConfig) (n : NodeId) (a a' : Ghost) : Prop :=
  Protocol.Moves cfg.quorums LogEntry.term n a a'

/-! ## What a snapshot stands for -/

/-- The snapshot `data` through `index` was taken by a node that held `e` at `i`, or had
    replaced it by an earlier snapshot of which the same is true. -/
inductive Covers (taken : List Taken) : Nat → Bytes → Nat → LogEntry → Prop
  | held {r : Taken} {i : Nat} {e : LogEntry} (hr : r ∈ taken) (hi : i ≤ r.index)
      (he : r.log.get i = some e) : Covers taken r.index r.data i e
  | older {r : Taken} {d : Bytes} {i : Nat} {e : LogEntry} (hr : r ∈ taken)
      (hd : r.previous = some d) (hi : i ≤ r.log.snapshotIndex)
      (hc : Covers taken r.log.snapshotIndex d i e) : Covers taken r.index r.data i e

theorem Covers.mono {taken taken' : List Taken} {k i : Nat} {d : Bytes} {e : LogEntry}
    (hsub : taken ⊆ taken') (h : Covers taken k d i e) : Covers taken' k d i e := by
  induction h with
  | held hr hi he => exact .held (hsub hr) hi he
  | older hr hd hi _ ih => exact .older (hsub hr) hd hi ih

/-- A covering snapshot was supplied by some `snapshot` call at its index. -/
theorem Covers.supplied {taken : List Taken} {k i : Nat} {d : Bytes} {e : LogEntry}
    (h : Covers taken k d i e) : ∃ r ∈ taken, r.index = k ∧ r.data = d := by
  cases h with
  | held hr _ _ => exact ⟨_, hr, rfl, rfl⟩
  | older hr _ _ _ => exact ⟨_, hr, rfl, rfl⟩

/-- `data` is a snapshot of the log prefix `p`. -/
def Backed (taken : List Taken) (p : List LogEntry) (data : Bytes) : Prop :=
  ∀ (i : Nat) (e : LogEntry), p[i]? = some e → Covers taken p.length data (i + 1) e

/-- A snapshot of some entries was supplied by a call. -/
theorem Backed.supplied {taken : List Taken} {p : List LogEntry} {d : Bytes}
    (h : Backed taken p d) (hpos : 0 < p.length) :
    ∃ r ∈ taken, r.index = p.length ∧ r.data = d :=
  (h 0 _ (List.getElem?_eq_getElem hpos)).supplied

theorem Backed.mono {taken taken' : List Taken} {p : List LogEntry} {d : Bytes}
    (hsub : taken ⊆ taken') (h : Backed taken p d) : Backed taken' p d :=
  fun i e he => (h i e he).mono hsub

/-! ## Nodes -/

structure Identity (cfg : ClusterConfig) (n id : NodeId) (peers : List NodeId) (quorum : Nat) :
    Prop where
  id : id = n
  peers : peers = cfg.peers n
  quorum : quorum = ((cfg.peers n).length + 1) / 2 + 1

/-- The persistent fields are the protocol's. -/
structure Mirrors (a : Ghost) (n : NodeId) (currentTerm : Nat) (votedFor : Option NodeId)
    (log : Log) : Prop where
  term : currentTerm = a.term n
  vote : votedFor = a.vote n (a.term n)
  log : log.Represents (a.log n)

/-- Snapshot boundary, apply cursor and commit index are in order, the commit index is backed by
    the protocol, and the snapshot stands for what was compacted. -/
structure Cursors (cfg : ClusterConfig) (taken : List Taken) (a : Ghost) (n : NodeId) (log : Log)
    (snapshot : Option Bytes) (commitIndex lastApplied : Nat) (pending : Option Snapshot) :
    Prop where
  snapshot_le : log.snapshotIndex ≤ lastApplied
  applied_le : lastApplied ≤ commitIndex
  commit_le : commitIndex ≤ (a.log n).length
  committed : Commits cfg a (a.term n) ((a.log n).take commitIndex)
  no_snapshot : snapshot = none → log.snapshotIndex = 0
  backed : ∀ {data}, snapshot = some data →
    0 < log.snapshotIndex ∧ Backed taken ((a.log n).take log.snapshotIndex) data
  pending : ∀ {sn}, pending = some sn → lastApplied = log.snapshotIndex ∧
    sn.lastIncludedIndex = log.snapshotIndex ∧ sn.lastIncludedTerm = log.snapshotTerm ∧
    snapshot = some sn.data

/-- A candidate stands with its log, and its tally is of ballots cast for it. -/
structure Candidacy (cfg : ClusterConfig) (a : Ghost) (n : NodeId) (votes : Finset NodeId) :
    Prop where
  self : a.vote n (a.term n) = some n
  log : a.clog n (a.term n) = a.log n
  fresh : a.lead (a.term n) ≠ some n
  votes : ∀ v ∈ votes, v ∈ cfg.members ∧ a.vote v (a.term n) = some n

/-- A leader's log is the log of its term, and a peer is matched as far as it acknowledged. With
    `lax` an index up to the leader's own commit index is let through as well. -/
structure Leadership (lax : Prop) (a : Ghost) (n : NodeId) (commitIndex : Nat)
    (nextIndex matchIndex : HashMap NodeId Nat) : Prop where
  lead : a.lead (a.term n) = some n
  log : a.llog (a.term n) = a.log n
  next : ∀ {p i}, nextIndex.lookup p = some i → 0 < i ∧ i ≤ (a.log n).length + 1
  matched : ∀ {p m}, matchIndex.lookup p = some m →
    m ≤ a.acked p (a.term n) ∨ lax ∧ m ≤ commitIndex

structure NodeInv (cfg : ClusterConfig) (lax : Prop) (taken : List Taken) (a : Ghost) (n : NodeId)
    (c : ConsensusModule) : Prop where
  identity : Identity cfg n c.id c.peers c.quorum
  mirrors : Mirrors a n c.currentTerm c.votedFor c.log
  cursors : Cursors cfg taken a n c.log c.snapshot c.commitIndex c.lastApplied c.pendingSnapshot
  candidacy : c.role = .candidate → Candidacy cfg a n c.votes
  leadership : c.role = .leader → Leadership lax a n c.commitIndex c.nextIndex c.matchIndex

/-- Storage holds the persistent fields. -/
def Stored (c : ConsensusModule) : Prop := c.storage = c.persistentState

/-! ## Messages and deliveries -/

/-- A vote request tells of a candidacy. -/
structure Ballot (a : Ghost) (sender : NodeId) (args : RequestVoteArgs) : Prop where
  cand : args.candidateId = sender
  self : a.vote sender args.term = some sender
  lastIndex : args.lastLogIndex = (a.clog sender args.term).length
  lastTerm : args.lastLogTerm = Protocol.lastTerm LogEntry.term (a.clog sender args.term)

/-- An AppendEntries is a segment of the leader's log, committed as far as it says. -/
structure Segment (cfg : ClusterConfig) (a : Ghost) (sender : NodeId) (args : AppendEntriesArgs) :
    Prop where
  lead : a.lead args.term = some sender
  len : args.prevLogIndex + args.entries.length ≤ (a.llog args.term).length
  term : plainTerm (a.llog args.term) args.prevLogIndex = some args.prevLogTerm
  entries : ((a.llog args.term).take (args.prevLogIndex + args.entries.length)).drop
    args.prevLogIndex = args.entries
  commit_le : args.leaderCommit ≤ args.prevLogIndex + args.entries.length
  committed : Commits cfg a args.term ((a.llog args.term).take args.leaderCommit)

/-- An InstallSnapshot is a committed prefix of the leader's log and a snapshot of it. -/
structure Offer (cfg : ClusterConfig) (taken : List Taken) (a : Ghost) (sender : NodeId)
    (args : InstallSnapshotArgs) : Prop where
  lead : a.lead args.term = some sender
  pos : 0 < args.lastIncludedIndex
  len : args.lastIncludedIndex ≤ (a.llog args.term).length
  term : plainTerm (a.llog args.term) args.lastIncludedIndex = some args.lastIncludedTerm
  committed : Commits cfg a args.term ((a.llog args.term).take args.lastIncludedIndex)
  backed : Backed taken ((a.llog args.term).take args.lastIncludedIndex) args.data

def RequestOk (cfg : ClusterConfig) (taken : List Taken) (a : Ghost) (sender : NodeId) :
    Request → Prop
  | .vote args => args.preVote = false → Ballot a sender args
  | .append args => Segment cfg a sender args
  | .install args => Offer cfg taken a sender args

/-- An answer tells what the peer did: a grant is its ballot, a success its acknowledgement; a
    conflict hint points into the refused prefix. -/
def ReplyOk (a : Ghost) (sender peer : NodeId) : Request → Reply → Prop
  | .vote args, .vote reply => args.preVote = false → reply.voteGranted →
      reply.term = args.term ∧ a.vote peer args.term = some sender
  | .append args, .append reply =>
      (reply.success → reply.term = args.term ∧
        args.prevLogIndex + args.entries.length ≤ a.acked peer args.term) ∧
      ∀ ci, reply.conflictIndex = some ci →
        reply.term = args.term ∧ 0 < ci ∧ ci ≤ args.prevLogIndex
  | .install args, .install reply =>
      reply.term = args.term → args.lastIncludedIndex ≤ a.acked peer args.term
  | _, _ => True

/-- A call between two members, of an incarnation no newer than the one that runs; a snapshot the
    running process offered is within what it takes as committed. -/
structure RpcOk (cfg : ClusterConfig) (s : Cluster) (a : Ghost) (rpc : Rpc) : Prop where
  sender : rpc.sender ∈ cfg.members
  peer : rpc.peer ∈ cfg.peers rpc.sender
  epoch : rpc.epoch ≤ (s.procs rpc.sender).epoch
  request : RequestOk cfg s.taken a rpc.sender rpc.request
  offered : ∀ {args}, rpc.request = .install args → rpc.epoch = (s.procs rpc.sender).epoch →
    args.lastIncludedIndex ≤ (s.core rpc.sender).commitIndex

/-- A delivered item is part of a committed log. -/
def ItemOk (cfg : ClusterConfig) (taken : List Taken) (a : Ghost) : Apply → Prop
  | .command ap => 0 < ap.index ∧
      ∃ T p, Commits cfg a T p ∧ p[ap.index - 1]? = some { term := ap.term, command := ap.command }
  | .snapshot sn => 0 < sn.lastIncludedIndex ∧
      ∃ T p, Commits cfg a T p ∧ p.length = sn.lastIncludedIndex ∧
        plainTerm p sn.lastIncludedIndex = some sn.lastIncludedTerm ∧ Backed taken p sn.data

/-- The cluster state `s` stands for the protocol state `a`. -/
structure Refines (cfg : ClusterConfig) (lax : Prop) (s : Cluster) (a : Ghost) : Prop where
  safe : Safe cfg a
  nodes : ∀ n ∈ cfg.members, NodeInv cfg lax s.taken a n (s.core n)
  stored : ∀ n ∈ cfg.members, Stored (s.core n)
  requests : ∀ rpc ∈ s.requests, RpcOk cfg s a rpc
  replies : ∀ x ∈ s.replies, RpcOk cfg s a x.1 ∧ ReplyOk a x.1.sender x.1.peer x.1.request x.2
  delivered : ∀ x ∈ s.delivered, ItemOk cfg s.taken a x.2

/-! ## Messages and deliveries are facts about the past -/

section Mono

variable {cfg : ClusterConfig} {taken taken' : List Taken} {a a' : Ghost} {sender peer : NodeId}

theorem plainTerm_grow {l m : List LogEntry} {i t : Nat} (h : l <+: m)
    (ht : plainTerm l i = some t) : plainTerm m i = some t := by
  have hi : i ≤ l.length := by
    by_contra hlt
    rw [plainTerm_eq_none l (by omega)] at ht
    exact absurd ht (by simp)
  rw [← plainTerm_of_pre h hi, ht]

theorem Ballot.grow {args : RequestVoteArgs} (h : Ballot a sender args) (hg : Grows a a') :
    Ballot a' sender args where
  cand := h.cand
  self := hg.vote h.self
  lastIndex := by rw [hg.clog h.self, h.lastIndex]
  lastTerm := by rw [hg.clog h.self, h.lastTerm]

theorem Segment.grow {args : AppendEntriesArgs} (h : Segment cfg a sender args)
    (hg : Grows a a') : Segment cfg a' sender args where
  lead := hg.lead h.lead
  len := h.len.trans (hg.llog _).length_le
  term := plainTerm_grow (hg.llog _) h.term
  entries := by rw [hg.take_llog h.len, h.entries]
  commit_le := h.commit_le
  committed := by
    rw [hg.take_llog (h.commit_le.trans h.len)]
    exact h.committed.grow hg

theorem Offer.grow {args : InstallSnapshotArgs} (h : Offer cfg taken a sender args)
    (hsub : taken ⊆ taken') (hg : Grows a a') : Offer cfg taken' a' sender args where
  lead := hg.lead h.lead
  pos := h.pos
  len := h.len.trans (hg.llog _).length_le
  term := plainTerm_grow (hg.llog _) h.term
  committed := by rw [hg.take_llog h.len]; exact h.committed.grow hg
  backed := by rw [hg.take_llog h.len]; exact h.backed.mono hsub

theorem RequestOk.grow {r : Request} (h : RequestOk cfg taken a sender r)
    (hsub : taken ⊆ taken') (hg : Grows a a') : RequestOk cfg taken' a' sender r := by
  cases r with
  | vote args => exact fun hpre => (h hpre).grow hg
  | append args => exact Segment.grow h hg
  | install args => exact Offer.grow h hsub hg

theorem ReplyOk.grow {q : Request} {r : Reply} (h : ReplyOk a sender peer q r)
    (hg : Grows a a') : ReplyOk a' sender peer q r := by
  cases q with
  | vote args =>
      cases r with
      | vote reply => exact fun hpre hgr => (h hpre hgr).imp_right fun hv => hg.vote hv
      | append | install => trivial
  | append args =>
      cases r with
      | append reply =>
          exact ⟨fun hs => (h.1 hs).imp_right fun hk => hk.trans (hg.acked _ _), h.2⟩
      | vote | install => trivial
  | install args =>
      cases r with
      | install reply => exact fun ht => (h ht).trans (hg.acked _ _)
      | vote | append => trivial

theorem ItemOk.grow {item : Apply} (h : ItemOk cfg taken a item) (hsub : taken ⊆ taken')
    (hg : Grows a a') : ItemOk cfg taken' a' item := by
  cases item with
  | command ap =>
      obtain ⟨hpos, T, p, hc, hp⟩ := h
      exact ⟨hpos, T, p, hc.grow hg, hp⟩
  | snapshot sn =>
      obtain ⟨hpos, T, p, hc, hlen, ht, hb⟩ := h
      exact ⟨hpos, T, p, hc.grow hg, hlen, ht, hb.mono hsub⟩

end Mono

/-! ## A node is untouched by the others -/

section Frame

variable {cfg : ClusterConfig} {lax : Prop} {taken taken' : List Taken} {a a' : Ghost}
  {n m : NodeId}

theorem Cursors.mono {log : Log} {snapshot : Option Bytes} {ci la : Nat} {pd : Option Snapshot}
    (h : Cursors cfg taken a n log snapshot ci la pd) (hsub : taken ⊆ taken') :
    Cursors cfg taken' a n log snapshot ci la pd :=
  { h with backed := fun hd => ⟨(h.backed hd).1, (h.backed hd).2.mono hsub⟩ }

/-- The parts of the protocol's state that belong to node `m` are those of `a`. -/
theorem NodeInv.frame {c : ConsensusModule} (h : NodeInv cfg lax taken a m c)
    (hsub : taken ⊆ taken') (hm : m ≠ n) (hg : Grows a a') (hl : Protocol.Local n a a') :
    NodeInv cfg lax taken' a' m c where
  identity := h.identity
  mirrors :=
    { term := by rw [hl.term hm, h.mirrors.term]
      vote := by rw [hl.term hm, hl.vote hm, h.mirrors.vote]
      log := by rw [hl.log hm]; exact h.mirrors.log }
  cursors :=
    { h.cursors.mono hsub with
      commit_le := by rw [hl.log hm]; exact h.cursors.commit_le
      committed := by rw [hl.log hm, hl.term hm]; exact h.cursors.committed.grow hg
      backed := by rw [hl.log hm]; exact (h.cursors.mono hsub).backed }
  candidacy hr :=
    have hc := h.candidacy hr
    { self := by rw [hl.term hm]; exact hg.vote hc.self
      log := by rw [hl.term hm, hl.clog hm, hl.log hm, hc.log]
      fresh := by rw [hl.term hm]; exact fun hlead => hc.fresh (hl.lead hm hlead)
      votes := fun v hv => by
        rw [hl.term hm]
        exact ⟨(hc.votes v hv).1, hg.vote (hc.votes v hv).2⟩ }
  leadership hr :=
    have hc := h.leadership hr
    { lead := by rw [hl.term hm]; exact hg.lead hc.lead
      log := by rw [hl.term hm, hl.llog hm hc.lead, hl.log hm, hc.log]
      next := by rw [hl.log hm]; exact hc.next
      matched := fun hp => by
        rw [hl.term hm]
        exact (hc.matched hp).imp_left fun hk => hk.trans (hg.acked _ _) }

end Frame

/-! ## One node's operations -/

/-- What an operation does to the commit index, which never falls, and to the apply stream: nothing,
    or a snapshot ahead of it is queued. -/
structure Advances (c c' : ConsensusModule) : Prop where
  commit_le : c.commitIndex ≤ c'.commitIndex
  stream : c'.lastApplied = c.lastApplied ∧ c'.pendingSnapshot = c.pendingSnapshot ∨
    c.lastApplied < c'.lastApplied ∧ c'.pendingSnapshot.isSome

theorem Advances.same {c c' : ConsensusModule} (hc : c.commitIndex ≤ c'.commitIndex)
    (hl : c'.lastApplied = c.lastApplied) (hp : c'.pendingSnapshot = c.pendingSnapshot) :
    Advances c c' :=
  ⟨hc, Or.inl ⟨hl, hp⟩⟩

theorem Advances.trans {c c' c'' : ConsensusModule} (h : Advances c c') (h' : Advances c' c'') :
    Advances c c'' := by
  refine ⟨h.commit_le.trans h'.commit_le, ?_⟩
  rcases h'.stream with ⟨hl', hp'⟩ | ⟨hl', hp'⟩
  · rw [hl', hp']
    exact h.stream
  · rcases h.stream with ⟨hl, -⟩ | ⟨hl, -⟩
    · exact Or.inr ⟨hl ▸ hl', hp'⟩
    · exact Or.inr ⟨hl.trans hl', hp'⟩

/-- Node `n` went from `c` to `c'` while the protocol took steps of `n` from `a` to `a'`, none of
    which appends. -/
structure Simulates (cfg : ClusterConfig) (lax : Prop) (taken : List Taken) (n : NodeId)
    (a : Ghost) (c : ConsensusModule) (a' : Ghost) (c' : ConsensusModule) : Prop where
  moves : MovesBy cfg n a a'
  quiet : Quiet LogEntry.term a a'
  node : NodeInv cfg lax taken a' n c'
  advances : Advances c c'

namespace Simulates

variable {cfg : ClusterConfig} {lax : Prop} {taken : List Taken} {n : NodeId} {a a' a'' : Ghost}
  {c c' c'' : ConsensusModule}

/-- No step of the protocol. -/
theorem stay (h : NodeInv cfg lax taken a n c') (hc : Advances c c') :
    Simulates cfg lax taken n a c a c' :=
  ⟨Relation.ReflTransGen.refl, Quiet.refl a, h, hc⟩

/-- One step of the protocol. -/
theorem step (hs : Protocol.Step cfg.quorums LogEntry.term n a a')
    (hq : Quiet LogEntry.term a a') (h : NodeInv cfg lax taken a' n c') (hc : Advances c c') :
    Simulates cfg lax taken n a c a' c' :=
  ⟨Relation.ReflTransGen.single hs, hq, h, hc⟩

theorem trans (h : Simulates cfg lax taken n a c a' c')
    (h' : Simulates cfg lax taken n a' c' a'' c'') : Simulates cfg lax taken n a c a'' c'' :=
  ⟨Relation.ReflTransGen.trans h.moves h'.moves, Quiet.trans h.quiet h'.quiet, h'.node,
    h.advances.trans h'.advances⟩

theorem safe (h : Simulates cfg lax taken n a c a' c') (hs : Safe cfg a) : Safe cfg a' :=
  (Moves.later h.moves).inv hs

theorem grows (h : Simulates cfg lax taken n a c a' c') (hs : Safe cfg a) : Grows a a' :=
  (Moves.later h.moves).grows hs

end Simulates

end Murmur.Raft
