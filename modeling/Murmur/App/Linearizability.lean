/-
  What the clients of a cluster without restarts see is linearizable.

  A mutation takes effect at the first committed entry of its request that reaches the engine, a
  read at the entry that answered it; these are the points of the linearization.

  * `kvObject`: the sequential key/value map.
  * `Clients`: commands, requests and answers belong to invoked operations, and each command that
    reached a node has its own nonce.
  * `Timed`: when an operation is invoked, everything answered so far is in a committed log that
    holds no command of this operation; an answer comes from a log in which the operation is the
    client's latest.
  * `linearizable`: every run in which no nonce is drawn twice.
-/
import Murmur.App.Agreement
import Murmur.App.Clerk

namespace Murmur.App

open Murmur.Raft (Bytes NodeId ClusterConfig LogEntry Ghost Commits)
open Murmur.Basis Murmur.Protocol

/-! ## The sequential object -/

/-- A single key/value map, one operation after the other. -/
def kvObject : Object (Bytes → Option Bytes) Operation Response where
  init := fun _ => none
  apply m
    | .get key => (m, .found (m key))
    | .put key value => (Function.update m key (some value), .done)
    | .append key value =>
      let value := (m key).getD [] ++ value
      (Function.update m key (some value), .appended value)
    | .delete key => (Function.update m key none, .done)

/-- `c` is the command of an operation, under some nonce. -/
def IsCommand (c : Command) (id : OpId) (op : Operation) : Prop :=
  c = { op.command id.1 id.2 with nonce := c.nonce }

def Operation.isRead : Operation → Bool
  | .get _ => true
  | _ => false

theorem IsCommand.isMutation {c : Command} {id : OpId} {op : Operation} (h : IsCommand c id op) :
    c.isMutation = !op.isRead := by
  rw [h]
  cases op <;> rfl

theorem IsCommand.no_client {c : Command} {id : OpId} {op : Operation} (h : IsCommand c id op)
    (hop : op.isRead = true) : c.clientId = 0 := by
  rw [h]
  cases op with
  | get key => rfl
  | put | append | delete => cases hop

theorem IsCommand.client {c : Command} {id : OpId} {op : Operation} (h : IsCommand c id op)
    (hop : op.isRead = false) : c.clientId = id.1 ∧ c.seq = id.2 := by
  rw [h]
  cases op with
  | get key => cases hop
  | put | append | delete => exact ⟨rfl, rfl⟩

/-- Running the command of an operation is what the map does. -/
theorem run_isCommand {c : Command} {id : OpId} {op : Operation} (h : IsCommand c id op)
    (r : Replica (Bytes → Option Bytes)) :
    (r.run mapDb (Op.tryFrom c.op) c).1.store = (kvObject.apply r.store op).1 ∧
      op.answer (r.run mapDb (Op.tryFrom c.op) c).2 = .ok (kvObject.apply r.store op).2 := by
  rw [h]
  cases op <;> exact ⟨rfl, rfl⟩

/-- At an entry that takes effect the reference does what the map does. -/
theorem reference_point {log : List Command} {i : Nat} {c : Command} {id : OpId} {op : Operation}
    (h : IsCommand c id op) (hid : id.1 ≠ 0) (hc : log[i]? = some c)
    (heff : op.isRead = false → Effective log i c) :
    (reference log (i + 1)).store = (kvObject.apply (reference log i).store op).1 ∧
      op.answer (outcomeAt log i c) = .ok (kvObject.apply (reference log i).store op).2 := by
  have hrun := run_isCommand h (reference log i)
  rw [reference_succ hc]
  unfold outcomeAt
  cases hop : op.isRead with
  | true =>
      have hm : c.isMutation = false := by rw [h.isMutation, hop]; rfl
      rw [Replica.apply_bypass mapDb (Or.inl hm)]
      exact hrun
  | false =>
      have hm : c.isMutation = true := by rw [h.isMutation, hop]; rfl
      have hclient : c.clientId ≠ 0 := by rwa [(h.client hop).1]
      rw [Replica.apply_fresh mapDb hm hclient
        (((reference_tracks log i).effective_iff hm hclient).mp (heff hop).2)]
      exact hrun

/-- At any other entry nothing happens. -/
theorem reference_idle {log : List Command} {i : Nat} {c : Command} {id : OpId} {op : Operation}
    (h : IsCommand c id op) (hc : log[i]? = some c)
    (hidle : op.isRead = false → ¬ Effective log i c) :
    (reference log (i + 1)).store = (reference log i).store := by
  rw [reference_succ hc]
  cases hop : op.isRead with
  | true =>
      have hm : c.isMutation = false := by rw [h.isMutation, hop]; rfl
      rw [Replica.apply_bypass mapDb (Or.inl hm), Replica.run_read mapDb hm]
  | false =>
      have hno : isEffective (effective [] (log.take i)) c = false := by
        rw [Bool.eq_false_iff]
        exact fun heff => hidle hop ⟨hc, heff⟩
      rw [Replica.apply_idle (reference_tracks log i) hno _ rfl]

/-! ## The invariant -/

variable {σ : Type} {cfg : ClusterConfig} {db : Db σ} {codec : Codec}
  {contents : σ → Bytes → Option Bytes} {s s' : System σ} {a a' : Ghost}

/-- Whatever clients and nodes hold belongs to an operation that was invoked. -/
structure Clients (s : System σ) : Prop where
  calls : s.issued.map Prod.snd = s.kv.calls.map Call.command
  issued : ∀ x ∈ s.issued, ∃ op, .invoke x.1 op ∈ s.history ∧ IsCommand x.2 x.1 op
  nonces : ((s.issued.map Prod.snd).map Command.nonce).Nodup
  invoked : ∀ id op, .invoke id op ∈ s.history → id.1 ≠ 0 ∧ id.2 ≤ (s.clerks id.1).seq
  single : ∀ id op op', .invoke id op ∈ s.history → .invoke id op' ∈ s.history → op = op'
  pending : ∀ client p, (s.clerks client).pending = some p →
    .invoke (client, (s.clerks client).seq) p.op ∈ s.history ∧
      (∀ c, ((client, (s.clerks client).seq), c) ∉ s.answers) ∧
      ∀ j, p.request = some j →
        ∃ r, s.requests[j]? = some r ∧ r.id = (client, (s.clerks client).seq)
  requests : ∀ (j : Nat) r, s.requests[j]? = some r → .invoke r.id r.op ∈ s.history ∧
    ∀ k, r.call = some k → ∃ c, s.issued[k]? = some (r.id, c)
  answered : ∀ x ∈ s.answers, x ∈ s.issued
  once : ∀ id c c', (id, c) ∈ s.answers → (id, c') ∈ s.answers → c = c'

/-- Everything answered in `before` is in the committed log `p`, which has no command of `id`. -/
def Marked (codec : Codec) (s : System σ) (before : List (Event OpId Operation Response))
    (id : OpId) (p : List LogEntry) : Prop :=
  (∀ c, (id, c) ∈ s.issued → c ∉ commands codec p) ∧
    ∀ id' r, .respond id' r ∈ before → ∃ c, (id', c) ∈ s.answers ∧ c ∈ commands codec p

/-- The response is that of a performed command, which is in a committed log without a later request
    of the client. -/
def Justified (cfg : ClusterConfig) (codec : Codec) (s : System σ) (a : Ghost) (id : OpId)
    (r : Response) : Prop :=
  ∃ op, .invoke id op ∈ s.history ∧ ∃ done ∈ s.kv.performed, (id, done.command) ∈ s.answers ∧
    op.answer done.outcome = .ok r ∧ ∃ T p, Commits cfg a T p ∧ done.command ∈ commands codec p ∧
      ∀ d ∈ commands codec p, d.clientId = id.1 → d.seq ≤ id.2

structure Timed (cfg : ClusterConfig) (codec : Codec) (s : System σ) (a : Ghost) : Prop where
  marks : ∀ before after id op, s.history = before ++ .invoke id op :: after →
    ∃ T p, Commits cfg a T p ∧ Marked codec s before id p
  responses : ∀ id r, .respond id r ∈ s.history → Justified cfg codec s a id r

structure SystemInv (cfg : ClusterConfig) (codec : Codec) (contents : σ → Bytes → Option Bytes)
    (s : System σ) (a : Ghost) : Prop where
  kv : KvInv cfg codec s.kv a
  agrees : Agrees cfg codec contents s.kv a
  clients : Clients s
  timed : Timed cfg codec s a

/-- A request that arrives draws a nonce no call has. -/
def FreshNonce (s : System σ) : SystemAction → Prop
  | .arrive j => ∀ r ∈ s.requests[j]?, ∀ call ∈ s.kv.calls,
      call.command.nonce ≠ nextNonce r.node (s.kv.services r.node).nonce
  | _ => True

instance (s : System σ) (act : SystemAction) : Decidable (FreshNonce s act) := by
  cases act <;> unfold FreshNonce <;> infer_instance

/-! ## Committed commands -/

section Committed

variable {T T' i j : Nat} {p q : List LogEntry} {c d : Command}

/-- A committed command was issued for some operation, and proposed by one call at this index. -/
theorem SystemInv.origin (h : SystemInv cfg codec contents s a) (hcodec : codec.Lossless)
    (hp : Commits cfg a T p) (hc : (commands codec p)[i]? = some c) :
    ∃ (k : Nat) (call : Call) (t : Nat), s.kv.calls[k]? = some call ∧ call.command = c ∧
      call.entry = some (i + 1, t) := by
  unfold commands at hc
  rw [List.getElem?_map, Option.map_eq_some_iff] at hc
  obtain ⟨e, he, hdec⟩ := hc
  obtain ⟨k, call, hk, hentry, hbytes⟩ := h.kv.source hp he
  rw [hbytes, hcodec, Option.getD_some] at hdec
  exact ⟨k, call, e.term, hk, hdec, hentry⟩

theorem Clients.mem_issued (h : Clients s) {call : Call} (hcall : call ∈ s.kv.calls) :
    ∃ id, (id, call.command) ∈ s.issued := by
  have hmem : call.command ∈ s.issued.map Prod.snd := by
    rw [h.calls]
    exact List.mem_map_of_mem hcall
  obtain ⟨x, hx, heq⟩ := List.mem_map.mp hmem
  exact ⟨x.1, heq ▸ hx⟩

theorem SystemInv.issued_of_committed (h : SystemInv cfg codec contents s a)
    (hcodec : codec.Lossless) (hp : Commits cfg a T p) (hc : c ∈ commands codec p) :
    ∃ id, (id, c) ∈ s.issued := by
  obtain ⟨i, hi⟩ := List.mem_iff_getElem?.mp hc
  obtain ⟨k, call, t, hk, rfl, -⟩ := h.origin hcodec hp hi
  exact h.clients.mem_issued (List.mem_of_getElem? hk)

/-- A command was issued once, for one operation. -/
theorem Clients.issued_unique (h : Clients s) {id id' : OpId} (hx : (id, c) ∈ s.issued)
    (hy : (id', c) ∈ s.issued) : id = id' := by
  have hnodup := h.nonces
  rw [List.map_map] at hnodup
  exact congrArg Prod.fst (List.inj_on_of_nodup_map hnodup hx hy rfl)

/-- A command is at one index of the committed log. -/
theorem SystemInv.position_unique (h : SystemInv cfg codec contents s a)
    (hcodec : codec.Lossless) (hp : Commits cfg a T p) (hi : (commands codec p)[i]? = some c)
    (hj : (commands codec p)[j]? = some c) : i = j := by
  obtain ⟨k, call, t, hk, hcall, hentry⟩ := h.origin hcodec hp hi
  obtain ⟨k', call', t', hk', hcall', hentry'⟩ := h.origin hcodec hp hj
  have hnodup : (s.kv.calls.map Call.command).Nodup := by
    rw [← h.clients.calls]
    exact List.Nodup.of_map _ h.clients.nonces
  have hkc : (s.kv.calls.map Call.command)[k]? = some c := by
    rw [List.getElem?_map, hk, ← hcall]
    rfl
  have hkc' : (s.kv.calls.map Call.command)[k']? = some c := by
    rw [List.getElem?_map, hk', ← hcall']
    rfl
  have hkk : k = k' :=
    (List.getElem?_inj (List.getElem?_eq_some_iff.mp hkc).1 hnodup).mp (hkc.trans hkc'.symm)
  subst hkk
  rw [hk] at hk'
  cases hk'
  rw [hentry] at hentry'
  cases hentry'
  rfl

/-- Where a command is in one committed log, it is in every other that reaches so far. -/
theorem SystemInv.same_position (h : SystemInv cfg codec contents s a) (hp : Commits cfg a T p)
    (hq : Commits cfg a T' q) (hi : (commands codec p)[i]? = some c) (hlt : i < q.length) :
    (commands codec q)[i]? = some c := by
  rcases hp.comparable h.kv.fed.refines.safe hq with hpq | hqp
  · exact getElem?_of_pre (commands_pre hpq) hi
  · rw [getElem?_pre_of_lt (commands_pre hqp) (by rwa [length_commands])]
    exact hi

end Committed

/-! ## Growth -/

theorem Justified.mono {id : OpId} {r : Response} (h : Justified cfg codec s a id r)
    (hg : Grows a a') (hhistory : s.history ⊆ s'.history)
    (hperformed : s.kv.performed ⊆ s'.kv.performed) (hanswers : s.answers ⊆ s'.answers) :
    Justified cfg codec s' a' id r := by
  obtain ⟨op, hop, done, hdone, hans, hr, T, p, hp, hrest⟩ := h
  exact ⟨op, hhistory hop, done, hperformed hdone, hanswers hans, hr, T, p, hp.grow hg, hrest⟩

theorem Marked.mono {before : List (Event OpId Operation Response)} {id : OpId}
    {p : List LogEntry} (h : Marked codec s before id p)
    (hissued : ∀ c, (id, c) ∈ s'.issued → (id, c) ∈ s.issued ∨ c ∉ commands codec p)
    (hanswers : s.answers ⊆ s'.answers) : Marked codec s' before id p := by
  refine ⟨fun c hc => ?_, fun id' r hr => ?_⟩
  · rcases hissued c hc with hold | hnew
    · exact h.1 c hold
    · exact hnew
  · obtain ⟨c, hc, hmem⟩ := h.2 id' r hr
    exact ⟨c, hanswers hc, hmem⟩

/-- The history gets no new invocation, and a new response is justified. -/
theorem Timed.extend (h : Timed cfg codec s a) (hg : Grows a a')
    {events : List (Event OpId Operation Response)} (hhistory : s'.history = s.history ++ events)
    (hevents : events = [] ∨ ∃ e, events = [e] ∧ (∀ id op, e ≠ .invoke id op) ∧
      ∀ id r, e = .respond id r → Justified cfg codec s' a' id r)
    (hperformed : s.kv.performed ⊆ s'.kv.performed)
    (hissued : ∀ T p, Commits cfg a T p → ∀ x ∈ s'.issued, x ∈ s.issued ∨ x.2 ∉ commands codec p)
    (hanswers : s.answers ⊆ s'.answers) : Timed cfg codec s' a' := by
  have hsub : s.history ⊆ s'.history := by
    rw [hhistory]
    exact List.subset_append_left _ _
  refine ⟨fun before after id op hsplit => ?_, fun id r hr => ?_⟩
  · have hold : ∃ after', s.history = before ++ .invoke id op :: after' := by
      rw [hhistory] at hsplit
      rcases hevents with rfl | ⟨e, rfl, hno, -⟩
      · exact ⟨after, by rw [← hsplit, List.append_nil]⟩
      · rcases snoc_split hsplit with ⟨-, heq, -⟩ | ⟨after', hl, -⟩
        · exact absurd heq.symm (hno id op)
        · exact ⟨after', hl⟩
    obtain ⟨after', hsplit'⟩ := hold
    obtain ⟨T, p, hp, hmark⟩ := h.marks before after' id op hsplit'
    exact ⟨T, p, hp.grow hg, hmark.mono (fun c hc => hissued T p hp _ hc) hanswers⟩
  · rw [hhistory] at hr
    rcases List.mem_append.mp hr with hold | hnew
    · exact (h.responses id r hold).mono hg hsub hperformed hanswers
    · rcases hevents with rfl | ⟨e, rfl, -, hjust⟩
      · cases hnew
      · exact hjust id r (List.mem_singleton.mp hnew).symm

/-- Clients see nothing of it. -/
theorem Timed.frame (h : Timed cfg codec s a) (hg : Grows a a') (hhistory : s'.history = s.history)
    (hperformed : s.kv.performed ⊆ s'.kv.performed)
    (hissued : ∀ T p, Commits cfg a T p → ∀ x ∈ s'.issued, x ∈ s.issued ∨ x.2 ∉ commands codec p)
    (hanswers : s.answers ⊆ s'.answers) : Timed cfg codec s' a' :=
  h.extend hg (by rw [hhistory, List.append_nil]) (Or.inl rfl) hperformed hissued hanswers

/-! ## What clients do -/

namespace Clients

/-- The clerk goes on with the operation it is running, or stops. -/
theorem setClerk (h : Clients s) {client : UInt64} {clerk : Clerk}
    (hseq : clerk.seq = (s.clerks client).seq)
    (hpending : ∀ p, clerk.pending = some p →
      .invoke (client, (s.clerks client).seq) p.op ∈ s.history ∧
        (∀ c, ((client, (s.clerks client).seq), c) ∉ s.answers) ∧
        ∀ j, p.request = some j →
          ∃ r, s.requests[j]? = some r ∧ r.id = (client, (s.clerks client).seq)) :
    Clients (s.setClerk client clerk) := by
  have hclerk : ∀ m, ((s.setClerk client clerk).clerks m).seq = (s.clerks m).seq := by
    intro m
    by_cases hm : m = client
    · subst hm
      show (Function.update s.clerks m clerk m).seq = _
      rw [Function.update_self, hseq]
    · show (Function.update s.clerks client clerk m).seq = _
      rw [Function.update_of_ne hm]
  refine { h with invoked := fun id op hop => ?_, pending := fun m p hp => ?_ }
  · rw [hclerk]
    exact h.invoked id op hop
  · rw [hclerk]
    have hp : (Function.update s.clerks client clerk m).pending = some p := hp
    by_cases hm : m = client
    · subst hm
      rw [Function.update_self] at hp
      exact hpending p hp
    · rw [Function.update_of_ne hm] at hp
      exact h.pending m p hp

theorem stop (h : Clients s) (client : UInt64) :
    Clients (s.setClerk client { s.clerks client with pending := none }) :=
  h.setClerk rfl nofun

theorem addRequest (h : Clients s) {r : ClerkRequest} (hop : .invoke r.id r.op ∈ s.history)
    (hcall : r.call = none) : Clients { s with requests := s.requests ++ [r] } := by
  refine { h with pending := fun m p hp => ?_, requests := fun j r' hj => ?_ }
  · obtain ⟨hinv, hno, hreq⟩ := h.pending m p hp
    refine ⟨hinv, hno, fun j hj => ?_⟩
    obtain ⟨r', hr', hid⟩ := hreq j hj
    have hlt := (List.getElem?_eq_some_iff.mp hr').1
    exact ⟨r', by rw [List.getElem?_append_left hlt]; exact hr', hid⟩
  · rcases getElem?_snoc hj with hold | ⟨-, rfl⟩
    · exact h.requests j r' hold
    · refine ⟨hop, fun k hk => ?_⟩
      rw [hcall] at hk
      cases hk

/-- The history gets an event that is no invocation. -/
theorem note (h : Clients s) {e : Event OpId Operation Response}
    (he : ∀ id op, e ≠ .invoke id op) : Clients { s with history := s.history ++ [e] } := by
  have hold : ∀ id op, Event.invoke id op ∈ s.history ++ [e] → .invoke id op ∈ s.history := by
    intro id op hmem
    rcases List.mem_append.mp hmem with hold | hnew
    · exact hold
    · exact absurd (List.mem_singleton.mp hnew).symm (he id op)
  refine { h with
    issued := fun x hx => ?_
    invoked := fun id op hop => h.invoked id op (hold id op hop)
    single := fun id op op' hop hop' => h.single id op op' (hold id op hop) (hold id op' hop')
    pending := fun m p hp => ?_
    requests := fun j r hj => ?_ }
  · obtain ⟨op, hop, hcmd⟩ := h.issued x hx
    exact ⟨op, List.mem_append_left _ hop, hcmd⟩
  · obtain ⟨hinv, hrest⟩ := h.pending m p hp
    exact ⟨List.mem_append_left _ hinv, hrest⟩
  · obtain ⟨hinv, hrest⟩ := h.requests j r hj
    exact ⟨List.mem_append_left _ hinv, hrest⟩

/-- An operation that is not running any more is answered. -/
theorem answer (h : Clients s) {id : OpId} {c : Command} (hc : (id, c) ∈ s.issued)
    (hnew : ∀ c', (id, c') ∉ s.answers) (hidle : (s.clerks id.1).pending = none) :
    Clients { s with answers := s.answers ++ [(id, c)] } := by
  refine { h with pending := fun m p hp => ?_, answered := fun x hx => ?_, once := ?_ }
  · obtain ⟨hinv, hno, hreq⟩ := h.pending m p hp
    refine ⟨hinv, fun c' hc' => ?_, hreq⟩
    rcases List.mem_append.mp hc' with hold | hlast
    · exact hno c' hold
    · have hid := congrArg (fun x => x.1.1) (List.mem_singleton.mp hlast)
      dsimp only at hid
      subst hid
      rw [show (s.clerks id.1).pending = some p from hp] at hidle
      cases hidle
  · rcases List.mem_append.mp hx with hold | hlast
    · exact h.answered x hold
    · rw [List.mem_singleton.mp hlast]
      exact hc
  · intro id' d d' hd hd'
    rcases List.mem_append.mp hd with hold | hlast
    · rcases List.mem_append.mp hd' with hold' | hlast'
      · exact h.once id' d d' hold hold'
      · cases List.mem_singleton.mp hlast'
        exact absurd hold (hnew d)
    · cases List.mem_singleton.mp hlast
      rcases List.mem_append.mp hd' with hold' | hlast'
      · exact absurd hold' (hnew d')
      · cases List.mem_singleton.mp hlast'
        rfl

end Clients

/-! ## One lemma an action -/

namespace SystemInv

/-- The nodes work on. -/
theorem server (h : SystemInv cfg codec contents s a) (hcodec : codec.Lossless)
    (hdb : Faithful db contents) {act : KvAction}
    (hstep : s.step cfg db codec (.server act) = some s') :
    ∃ a', SystemInv cfg codec contents s' a' := by
  obtain ⟨hserver, hstep⟩ := of_guard hstep
  obtain ⟨kv, hkv, heq⟩ := Option.bind_eq_some_iff.mp hstep
  cases heq
  have hexec : ∀ n command, act ≠ .execute n command := by
    rintro n command rfl
    cases hserver
  have hun : Unambiguous s.kv act := by
    cases act with
    | execute n command => exact absurd rfl (hexec n command)
    | _ => trivial
  have hcrash : act.crashFree = true := by
    cases act with
    | restart n now draw => cases hserver
    | _ => rfl
  obtain ⟨a', hlater, hkv'⟩ := h.kv.step hcodec hun hkv
  have hg := hlater.grows h.kv.fed.refines.safe
  have hkeeps := step_keeps hexec hkv
  refine ⟨a', hkv', (h.agrees.step h.kv hcodec hdb hcrash hkv).grow hg,
    { h.clients with calls := ?_ },
    h.timed.frame hg rfl hkeeps.performed (fun _ _ _ _ hx => Or.inl hx)
      (List.Subset.refl _)⟩
  have hcommands := congrArg (List.map fun x => x.2.2) hkeeps.calls
  rw [List.map_map, List.map_map] at hcommands
  exact h.clients.calls.trans hcommands.symm

/-- An operation's commands are issued after it is invoked. -/
theorem not_issued (h : Clients s) {client : UInt64} {c : Command}
    (hseq : (s.clerks client).seq.toNat + 1 < 2 ^ 64) :
    ((client, (s.clerks client).seq + 1), c) ∉ s.issued := by
  intro hc
  obtain ⟨op, hop, -⟩ := h.issued _ hc
  have hle := (h.invoked _ _ hop).2
  rw [UInt64.le_iff_toNat_le, UInt64.toNat_add] at hle
  have : (1 : UInt64).toNat = 1 := rfl
  dsimp only at hle
  omega

/-- Everything answered so far is in one committed log. -/
theorem exists_mark (h : SystemInv cfg codec contents s a) :
    ∃ T p, Commits cfg a T p ∧ ∀ id r, .respond id r ∈ s.history →
      ∃ c, (id, c) ∈ s.answers ∧ c ∈ commands codec p := by
  obtain ⟨T, p, hp, hall⟩ := h.agrees.covered
  refine ⟨T, p, hp, fun id r hr => ?_⟩
  obtain ⟨op, -, done, hdone, hans, -⟩ := h.timed.responses id r hr
  obtain ⟨hpos, T', q, hq, hat, -⟩ := h.agrees.performed done hdone
  have hle := hall done hdone
  exact ⟨done.command, hans, List.mem_of_getElem? (h.same_position hq hp hat (by omega))⟩

theorem invoke (h : SystemInv cfg codec contents s a) {client : UInt64} {op : Operation}
    (hstep : s.step cfg db codec (.invoke client op) = some s') :
    SystemInv cfg codec contents s' a := by
  obtain ⟨⟨hclient, hidle, hseq⟩, heq⟩ := of_guard hstep
  cases heq
  have hfresh : ∀ c, ((client, (s.clerks client).seq + 1), c) ∉ s.issued :=
    fun c => not_issued h.clients hseq
  have hlt : (s.clerks client).seq < (s.clerks client).seq + 1 := by
    rw [UInt64.lt_iff_toNat_lt, UInt64.toNat_add]
    have : (1 : UInt64).toNat = 1 := rfl
    omega
  have hnew : ∀ op', .invoke (client, (s.clerks client).seq + 1) op' ∉ s.history := by
    intro op' hop
    exact absurd (h.clients.invoked _ _ hop).2 (UInt64.not_le.mpr hlt)
  have hclerk : ∀ m, m ≠ client → Function.update s.clerks client
      { seq := (s.clerks client).seq + 1, pending := some { op } } m = s.clerks m :=
    fun m hm => Function.update_of_ne hm _ _
  refine ⟨h.kv, h.agrees, ?_, ?_⟩
  · have hold : ∀ {id op'}, Event.invoke id op' ∈
        s.history ++ [.invoke (client, (s.clerks client).seq + 1) op] →
        .invoke id op' ∈ s.history ∨ id = (client, (s.clerks client).seq + 1) ∧ op' = op := by
      intro id op' hmem
      rcases List.mem_append.mp hmem with hold | hlast
      · exact Or.inl hold
      · cases List.mem_singleton.mp hlast
        exact Or.inr ⟨rfl, rfl⟩
    refine { h.clients with
      issued := fun x hx => ?_
      invoked := fun id op' hop => ?_
      single := fun id op₁ op₂ h₁ h₂ => ?_
      pending := fun m p hp => ?_
      requests := fun j r hj => ?_ }
    · obtain ⟨op', hop, hcmd⟩ := h.clients.issued x hx
      exact ⟨op', List.mem_append_left _ hop, hcmd⟩
    · show _ ∧ id.2 ≤ (Function.update s.clerks client _ id.1).seq
      rcases hold hop with hop | ⟨rfl, -⟩
      · obtain ⟨hne, hle⟩ := h.clients.invoked id op' hop
        refine ⟨hne, ?_⟩
        by_cases hm : id.1 = client
        · rw [hm] at hle ⊢
          rw [Function.update_self]
          exact UInt64.le_trans hle (UInt64.le_of_lt hlt)
        · rw [hclerk _ hm]
          exact hle
      · refine ⟨hclient, ?_⟩
        rw [Function.update_self]
        exact UInt64.le_refl _
    · rcases hold h₁ with h₁ | ⟨rfl, rfl⟩
      · rcases hold h₂ with h₂ | ⟨rfl, -⟩
        · exact h.clients.single id op₁ op₂ h₁ h₂
        · exact absurd h₁ (hnew op₁)
      · rcases hold h₂ with h₂ | ⟨-, rfl⟩
        · exact absurd h₂ (hnew op₂)
        · rfl
    · have hp : (Function.update s.clerks client _ m).pending = some p := hp
      show Event.invoke (m, (Function.update s.clerks client _ m).seq) p.op ∈ _ ∧
        (∀ c, ((m, (Function.update s.clerks client _ m).seq), c) ∉ s.answers) ∧
          ∀ j, p.request = some j → ∃ r, s.requests[j]? = some r ∧
            r.id = (m, (Function.update s.clerks client _ m).seq)
      by_cases hm : m = client
      · subst hm
        rw [Function.update_self] at hp ⊢
        cases hp
        refine ⟨List.mem_append_right _ List.mem_cons_self, fun c hc => ?_, nofun⟩
        exact hfresh c (h.clients.answered _ hc)
      · rw [hclerk m hm] at hp ⊢
        obtain ⟨hinv, hrest⟩ := h.clients.pending m p hp
        exact ⟨List.mem_append_left _ hinv, hrest⟩
    · obtain ⟨hinv, hrest⟩ := h.clients.requests j r hj
      exact ⟨List.mem_append_left _ hinv, hrest⟩
  · refine ⟨fun before after id op' hsplit => ?_, fun id r hr => ?_⟩
    · rcases snoc_split hsplit with ⟨rfl, heq, -⟩ | ⟨after', hold, -⟩
      · cases heq
        obtain ⟨T, p, hp, hall⟩ := h.exists_mark
        exact ⟨T, p, hp, fun c hc => absurd hc (hfresh c), hall⟩
      · exact h.timed.marks before after' id op' hold
    · rcases List.mem_append.mp hr with hold | hlast
      · exact (h.timed.responses id r hold).mono (Grows.refl a) (List.subset_append_left _ _)
          (List.Subset.refl _) (List.Subset.refl _)
      · cases List.mem_singleton.mp hlast

theorem send (h : SystemInv cfg codec contents s a) {client : UInt64} {node : NodeId}
    (hstep : s.step cfg db codec (.send client node) = some s') :
    SystemInv cfg codec contents s' a := by
  obtain ⟨pending, hpending, hstep⟩ := Option.bind_eq_some_iff.mp hstep
  obtain ⟨-, heq⟩ := of_guard hstep
  cases heq
  obtain ⟨hinv, hno, -⟩ := h.clients.pending client pending hpending
  refine ⟨h.kv, h.agrees, ?_, h.timed.frame (Grows.refl a) rfl (List.Subset.refl _)
    (fun _ _ _ _ hx => Or.inl hx) (List.Subset.refl _)⟩
  have hadd := h.clients.addRequest
    (r := { node, id := (client, (s.clerks client).seq), op := pending.op }) hinv rfl
  refine hadd.setClerk rfl fun p hp => ?_
  cases hp
  refine ⟨hinv, hno, fun j hj => ?_⟩
  cases hj
  exact ⟨_, List.getElem?_concat_length, rfl⟩

theorem abandon (h : SystemInv cfg codec contents s a) {client : UInt64}
    (hstep : s.step cfg db codec (.abandon client) = some s') :
    SystemInv cfg codec contents s' a := by
  obtain ⟨pending, hpending, heq⟩ := Option.bind_eq_some_iff.mp hstep
  cases heq
  obtain ⟨hinv, hno, -⟩ := h.clients.pending client pending hpending
  refine ⟨h.kv, h.agrees, h.clients.setClerk rfl fun p hp => ?_, h.timed.frame (Grows.refl a)
    rfl (List.Subset.refl _) (fun _ _ _ _ hx => Or.inl hx) (List.Subset.refl _)⟩
  cases hp
  exact ⟨hinv, hno, nofun⟩

/-- The operation fails. -/
theorem fail (h : SystemInv cfg codec contents s a) (client : UInt64) :
    SystemInv cfg codec contents
      { s.setClerk client { s.clerks client with pending := none } with
        history := s.history ++ [.fail (client, (s.clerks client).seq)] } a :=
  ⟨h.kv, h.agrees, (h.clients.stop client).note (e := .fail _) nofun,
    h.timed.extend (Grows.refl a) rfl (Or.inr ⟨_, rfl, nofun, nofun⟩) (List.Subset.refl _)
      (fun _ _ _ _ hx => Or.inl hx) (List.Subset.refl _)⟩

theorem giveUp (h : SystemInv cfg codec contents s a) {client : UInt64}
    (hstep : s.step cfg db codec (.giveUp client) = some s') :
    SystemInv cfg codec contents s' a := by
  obtain ⟨pending, -, hstep⟩ := Option.bind_eq_some_iff.mp hstep
  obtain ⟨-, heq⟩ := of_guard hstep
  cases heq
  exact h.fail client

/-- The answer of a call is justified: the operation is its client's latest. -/
theorem justified (h : SystemInv cfg codec contents s a) (hcodec : codec.Lossless)
    {client : UInt64} {pending : Pending} (hpending : (s.clerks client).pending = some pending)
    {k : Nat} {call : Call} (hk : s.kv.calls[k]? = some call) {o : Outcome}
    (hphase : call.phase = .returned o) {r : Response} (hr : pending.op.answer o = .ok r)
    (hans : s'.answers = s.answers ++ [((client, (s.clerks client).seq), call.command)])
    (hhistory : s.history ⊆ s'.history) (hkv : s'.kv = s.kv) :
    Justified cfg codec s' a (client, (s.clerks client).seq) r := by
  obtain ⟨hinv, -, -⟩ := h.clients.pending client pending hpending
  have hne := (h.clients.invoked _ _ hinv).1
  obtain ⟨index, term, -, hdone⟩ := h.kv.table.returned hk hphase
  obtain ⟨-, T, p, hp, hat, -⟩ := h.agrees.performed _ hdone
  refine ⟨pending.op, hhistory hinv, _, hkv ▸ hdone, ?_, hr, T, p, hp, List.mem_of_getElem? hat,
    fun d hd hclient => ?_⟩
  · rw [hans]
    exact List.mem_append_right _ List.mem_cons_self
  · obtain ⟨id, hid⟩ := h.issued_of_committed hcodec hp hd
    obtain ⟨op, hop, hcmd⟩ := h.clients.issued _ hid
    cases hread : op.isRead with
    | true =>
        have hzero : d.clientId = 0 := hcmd.no_client hread
        rw [hzero] at hclient
        exact absurd hclient.symm hne
    | false =>
        obtain ⟨hc, hseq⟩ := hcmd.client hread
        have hle := (h.clients.invoked id op hop).2
        have hclient : d.clientId = client := hclient
        have hc : d.clientId = id.1 := hc
        rw [← hc, hclient] at hle
        rw [show d.seq = id.2 from hseq]
        exact hle

theorem finish (h : SystemInv cfg codec contents s a) (hcodec : codec.Lossless) {client : UInt64}
    (hstep : s.step cfg db codec (.finish client) = some s') :
    SystemInv cfg codec contents s' a := by
  obtain ⟨pending, hpending, hstep⟩ := Option.bind_eq_some_iff.mp hstep
  obtain ⟨j, hj, hstep⟩ := Option.bind_eq_some_iff.mp hstep
  obtain ⟨request, hrequest, hstep⟩ := Option.bind_eq_some_iff.mp hstep
  obtain ⟨k, hk, hstep⟩ := Option.bind_eq_some_iff.mp hstep
  obtain ⟨call, hcall, hstep⟩ := Option.bind_eq_some_iff.mp hstep
  split at hstep
  · next outcome hphase =>
    dsimp only at hstep
    split at hstep
    · next response hresponse =>
      cases hstep
      obtain ⟨-, hno, hreq⟩ := h.clients.pending client pending hpending
      obtain ⟨r, hr, hid⟩ := hreq j hj
      rw [hrequest] at hr
      cases hr
      obtain ⟨c, hissued⟩ := (h.clients.requests j request hrequest).2 k hk
      have hcommand : c = call.command := by
        have hsnd : (s.issued.map Prod.snd)[k]? = some c := by
          rw [List.getElem?_map, hissued]
          rfl
        rw [h.clients.calls, List.getElem?_map, hcall] at hsnd
        exact (Option.some.inj hsnd).symm
      rw [hid, hcommand] at hissued
      have hstop : ((s.setClerk client { s.clerks client with pending := none }).clerks
          client).pending = none := by
        show (Function.update s.clerks client _ client).pending = none
        rw [Function.update_self]
      refine ⟨h.kv, h.agrees, ?_, h.timed.extend (Grows.refl a) rfl
        (Or.inr ⟨_, rfl, nofun, fun id r heq => ?_⟩) (List.Subset.refl _)
        (fun _ _ _ _ hx => Or.inl hx) (List.subset_append_left _ _)⟩
      · exact ((h.clients.stop client).answer (List.mem_of_getElem? hissued) hno hstop).note
          (e := .respond _ _) nofun
      · cases heq
        exact h.justified hcodec hpending hcall hphase hresponse rfl
          (List.subset_append_left _ _) rfl
    · cases hstep
      exact h.fail client
  · cases hstep

/-- A request reaches its node. -/
theorem arrive (h : SystemInv cfg codec contents s a) (hcodec : codec.Lossless)
    (hdb : Faithful db contents) {j : Nat} (hfresh : FreshNonce s (.arrive j))
    (hstep : s.step cfg db codec (.arrive j) = some s') : SystemInv cfg codec contents s' a := by
  obtain ⟨request, hrequest, hstep⟩ := Option.bind_eq_some_iff.mp hstep
  obtain ⟨-, hstep⟩ := of_guard hstep
  obtain ⟨kv, hkv, heq⟩ := Option.bind_eq_some_iff.mp hstep
  cases heq
  have hfresh := hfresh request hrequest
  have hun : Unambiguous s.kv
      (.execute request.node (request.op.command request.id.1 request.id.2)) :=
    fun call hcall hnonce => absurd hnonce (hfresh call hcall)
  have hkv' := h.kv.execute hun
  have hagrees := h.agrees.step h.kv hcodec hdb rfl hkv
  obtain ⟨-, hshape⟩ := of_guard hkv
  cases hshape
  obtain ⟨hinv, -⟩ := h.clients.requests j request hrequest
  have hlen : s.issued.length = s.kv.calls.length := by
    have := congrArg List.length h.clients.calls
    rwa [List.length_map, List.length_map] at this
  have hlt : j < s.requests.length := (List.getElem?_eq_some_iff.mp hrequest).1
  have hnew : ∀ x ∈ s.issued, x.2.nonce ≠ (s.stamped request).nonce := by
    intro x hx
    have hmem : x.2 ∈ s.kv.calls.map Call.command := by
      rw [← h.clients.calls]
      exact List.mem_map_of_mem hx
    obtain ⟨call, hcall, heq⟩ := List.mem_map.mp hmem
    rw [← heq]
    exact hfresh call hcall
  refine ⟨hkv', hagrees, ?_, h.timed.frame (Grows.refl a) rfl (List.Subset.refl _)
    (fun T p hp x hx => ?_) (List.Subset.refl _)⟩
  · refine { h.clients with
      calls := ?_
      issued := fun x hx => ?_
      nonces := ?_
      pending := fun m p hp => ?_
      requests := fun i r hi => ?_
      answered := fun x hx => List.mem_append_left _ (h.clients.answered x hx) }
    · show (s.issued ++ [_]).map Prod.snd = (s.kv.calls ++ [_]).map Call.command
      rw [List.map_append, List.map_append, h.clients.calls]
      rfl
    · rcases List.mem_append.mp hx with hold | hlast
      · exact h.clients.issued x hold
      · rw [List.mem_singleton.mp hlast]
        exact ⟨request.op, hinv, rfl⟩
    · show (((s.issued ++ [_]).map Prod.snd).map Command.nonce).Nodup
      rw [List.map_append, List.map_append]
      refine List.nodup_append.mpr ⟨h.clients.nonces, List.nodup_singleton _, fun x hx y hy => ?_⟩
      rw [List.map_map] at hx
      obtain ⟨z, hz, rfl⟩ := List.mem_map.mp hx
      rw [List.mem_singleton.mp hy]
      exact hnew z hz
    · obtain ⟨hp₁, hp₂, hreq⟩ := h.clients.pending m p hp
      refine ⟨hp₁, hp₂, fun i hi => ?_⟩
      obtain ⟨r, hr, hid⟩ := hreq i hi
      by_cases hij : i = j
      · subst hij
        rw [hrequest] at hr
        cases hr
        exact ⟨_, List.getElem?_set_self hlt, hid⟩
      · exact ⟨r, by rw [List.getElem?_set_ne (Ne.symm hij)]; exact hr, hid⟩
    · rcases getElem?_set_some hi with ⟨-, rfl⟩ | ⟨-, hold⟩
      · refine ⟨hinv, fun k hk => ?_⟩
        cases hk
        refine ⟨s.stamped request, ?_⟩
        rw [← hlen]
        exact List.getElem?_concat_length
      · obtain ⟨hop, hcalls⟩ := h.clients.requests i r hold
        refine ⟨hop, fun k hk => ?_⟩
        obtain ⟨c, hc⟩ := hcalls k hk
        have hltk := (List.getElem?_eq_some_iff.mp hc).1
        exact ⟨c, by rw [List.getElem?_append_left hltk]; exact hc⟩
  · rcases List.mem_append.mp hx with hold | hlast
    · exact Or.inl hold
    · -- What is committed has been issued before.
      right
      rw [List.mem_singleton.mp hlast]
      intro hmem
      obtain ⟨id, hid⟩ := h.issued_of_committed hcodec hp hmem
      exact hnew _ hid rfl

/-- **One step of the system.** -/
theorem step (h : SystemInv cfg codec contents s a) (hcodec : codec.Lossless)
    (hdb : Faithful db contents) {act : SystemAction} (hfresh : FreshNonce s act)
    (hstep : s.step cfg db codec act = some s') : ∃ a', SystemInv cfg codec contents s' a' := by
  cases act with
  | server act => exact h.server hcodec hdb hstep
  | invoke client op => exact ⟨a, h.invoke hstep⟩
  | send client node => exact ⟨a, h.send hstep⟩
  | arrive j => exact ⟨a, h.arrive hcodec hdb hfresh hstep⟩
  | abandon client => exact ⟨a, h.abandon hstep⟩
  | finish client => exact ⟨a, h.finish hcodec hstep⟩
  | giveUp client => exact ⟨a, h.giveUp hstep⟩

theorem init {store : NodeId → σ} (hempty : ∀ n, contents (store n) = fun _ => none) :
    SystemInv cfg codec contents (.init cfg store) State.init where
  kv := KvInv.init store
  agrees :=
    { inStep := fun n _ => by
        refine ⟨⟨0, [], Committed.nil _ _, rfl, ?_⟩, nofun⟩
        show (Replica.start (store n)).view contents = reference _ 0
        rw [reference_zero, Replica.start_view (hempty n)]
      taken := nofun
      performed := nofun
      covered := ⟨0, [], Committed.nil _ _, nofun⟩ }
  clients :=
    { calls := rfl
      issued := nofun
      nonces := List.nodup_nil
      invoked := nofun
      single := nofun
      pending := nofun
      requests := nofun
      answered := nofun
      once := nofun }
  timed :=
    { marks := fun before after id op hsplit => by
        have := congrArg List.length hsplit
        simp [System.init] at this
      responses := nofun }

end SystemInv

/-! ## The points -/

/-- Entry `i + 1` of the log is the point of an operation: of a mutation the entry that reaches the
    engine, of a read the entry that answered it. -/
def IsPoint (s : System σ) (log : List Command) (i : Nat) (x : OpId × Operation) : Prop :=
  ∃ c, log[i]? = some c ∧ (x.1, c) ∈ s.issued ∧ .invoke x.1 x.2 ∈ s.history ∧
    (x.2.isRead = false → Effective log i c) ∧ (x.2.isRead = true → (x.1, c) ∈ s.answers)

/-- A command issued for an operation is the command of that operation. -/
theorem Clients.isCommand (h : Clients s) {id : OpId} {op : Operation} {c : Command}
    (hc : (id, c) ∈ s.issued) (hop : .invoke id op ∈ s.history) : IsCommand c id op := by
  obtain ⟨op', hop', hcmd⟩ := h.issued _ hc
  rwa [h.single id op op' hop hop']

section Points

variable {T T' i j : Nat} {p q : List LogEntry} {c d : Command} {x y : OpId × Operation}

theorem IsPoint.unique (h : Clients s) {log : List Command} (hx : IsPoint s log i x)
    (hy : IsPoint s log i y) : x = y := by
  obtain ⟨c, hc, hcx, hopx, -⟩ := hx
  obtain ⟨d, hd, hdy, hopy, -⟩ := hy
  rw [hc] at hd
  cases hd
  have hid := h.issued_unique hcx hdy
  rw [← hid] at hopy
  exact Prod.ext hid (h.single _ _ _ hopx hopy)

namespace SystemInv

/-- What committed logs say of an entry they both have. -/
theorem outcomeAt_eq (h : SystemInv cfg codec contents s a) (hp : Commits cfg a T p)
    (hq : Commits cfg a T' q) (hip : i < p.length) (hiq : i < q.length) (c : Command) :
    outcomeAt (commands codec p) i c = outcomeAt (commands codec q) i c := by
  unfold outcomeAt
  rcases hp.comparable h.kv.fed.refines.safe hq with hpq | hqp
  · rw [reference_pre hpq (Nat.le_of_lt hip)]
  · rw [reference_pre hqp (Nat.le_of_lt hiq)]

/-- An operation has one point. -/
theorem point_once (h : SystemInv cfg codec contents s a) (hcodec : codec.Lossless)
    (hp : Commits cfg a T p) (hx : IsPoint s (commands codec p) i x)
    (hy : IsPoint s (commands codec p) j y) (hxy : x.1 = y.1) : i = j := by
  obtain ⟨c, hc, hcx, hopx, hmx, hrx⟩ := hx
  obtain ⟨d, hd, hdy, hopy, hmy, hry⟩ := hy
  rw [← hxy] at hdy hopy hry
  have hop := h.clients.single _ _ _ hopx hopy
  rw [← hop] at hmy hry
  have hcmd := h.clients.isCommand hcx hopx
  have hcmd' := h.clients.isCommand hdy hopx
  cases hread : x.2.isRead with
  | true =>
      rw [h.clients.once _ _ _ (hry hread) (hrx hread)] at hd
      exact h.position_unique hcodec hp hc hd
  | false =>
      obtain ⟨hclient, hseq⟩ := hcmd.client hread
      obtain ⟨hclient', hseq'⟩ := hcmd'.client hread
      refine effective_once (hmx hread) (hmy hread) ?_ (hclient.trans hclient'.symm)
        (hseq.trans hseq'.symm)
      rw [hclient]
      exact (h.clients.invoked _ _ hopx).1

/-- At the point of an operation the reference does what the map does. -/
theorem point_step (h : SystemInv cfg codec contents s a) {log : List Command}
    (hx : IsPoint s log i x) :
    (reference log (i + 1)).store = (kvObject.apply (reference log i).store x.2).1 := by
  obtain ⟨c, hc, hcx, hop, hm, -⟩ := hx
  exact (reference_point (h.clients.isCommand hcx hop) (h.clients.invoked _ _ hop).1 hc hm).1

/-- Where no operation has its point nothing happens. -/
theorem no_point_step (h : SystemInv cfg codec contents s a) (hcodec : codec.Lossless)
    (hp : Commits cfg a T p) (hi : i < (commands codec p).length)
    (hno : ∀ x, ¬ IsPoint s (commands codec p) i x) :
    (reference (commands codec p) (i + 1)).store = (reference (commands codec p) i).store := by
  have hc := List.getElem?_eq_getElem hi
  obtain ⟨id, hid⟩ := h.issued_of_committed hcodec hp (List.mem_of_getElem? hc)
  obtain ⟨op, hop, hcmd⟩ := h.clients.issued _ hid
  refine reference_idle hcmd hc fun hread heff => hno (id, op) ?_
  exact ⟨_, hc, hid, hop, fun _ => heff, fun hr => by rw [hread] at hr; cases hr⟩

/-- **Every response has its point**, and is what the map answers there. -/
theorem response_point (h : SystemInv cfg codec contents s a) (hcodec : codec.Lossless)
    (hp : Commits cfg a T p) (hall : ∀ r ∈ s.kv.performed, r.entry.index ≤ p.length) {id : OpId}
    {r : Response} (hr : .respond id r ∈ s.history) :
    ∃ i < (commands codec p).length, ∃ op, IsPoint s (commands codec p) i (id, op) ∧
      (kvObject.apply (reference (commands codec p) i).store op).2 = r := by
  obtain ⟨op, hop, done, hdone, hans, hanswer, T₁, q, hq, hmem, hlatest⟩ :=
    h.timed.responses id r hr
  obtain ⟨hpos, T₂, q', hq', hget', hout⟩ := h.agrees.performed done hdone
  have hlen' : done.entry.index - 1 < q'.length := by
    have hlt := (List.getElem?_eq_some_iff.mp hget').1
    rwa [length_commands] at hlt
  have hlen : done.entry.index - 1 < p.length := by
    have := hall done hdone
    omega
  have hget := h.same_position hq' hp hget' hlen
  rw [h.outcomeAt_eq hq' hp hlen' hlen] at hout
  generalize done.entry.index - 1 = j at *
  have hissued := h.clients.answered _ hans
  have hcmd := h.clients.isCommand hissued hop
  obtain ⟨hid, -⟩ := h.clients.invoked _ _ hop
  -- The response is what the map answers at an entry with the same outcome.
  have hpoint : ∀ i d, Effective (commands codec p) i d ∨ op.isRead = true →
      (commands codec p)[i]? = some d → (id, d) ∈ s.issued →
      done.outcome = outcomeAt (commands codec p) i d →
      (kvObject.apply (reference (commands codec p) i).store op).2 = r := by
    intro i d heff hd hdi houti
    have hpt := (reference_point (h.clients.isCommand hdi hop) hid hd fun hread =>
      heff.resolve_right (by rw [hread]; exact Bool.false_ne_true)).2
    rw [← houti, hanswer] at hpt
    cases hpt
    rfl
  cases hread : op.isRead with
  | true =>
      refine ⟨j, (List.getElem?_eq_some_iff.mp hget).1, op, ⟨done.command, hget, hissued, hop,
        fun hno => ?_, fun _ => hans⟩, hpoint j _ (Or.inr hread) hget hissued hout⟩
      rw [hread] at hno
      cases hno
  | false =>
      obtain ⟨hclient, hseq⟩ := hcmd.client hread
      have hm : done.command.isMutation = true := by rw [hcmd.isMutation, hread]; rfl
      have hbefore : ∀ d ∈ (commands codec p).take j, d.clientId = done.command.clientId →
          d.seq ≤ done.command.seq := by
        intro d hd hdc
        rw [hclient] at hdc
        rw [hseq]
        refine hlatest d ?_ hdc
        -- The log that justifies the response has the command at the same index.
        rcases hp.comparable h.kv.fed.refines.safe hq with hpq | hqp
        · exact (commands_pre hpq).subset (List.mem_of_mem_take hd)
        · obtain ⟨k, hk⟩ := List.mem_iff_getElem?.mp hmem
          have hkj := h.position_unique hcodec hp (getElem?_of_pre (commands_pre hqp) hk) hget
          rw [hkj] at hk
          have hlt := (List.getElem?_eq_some_iff.mp hk).1
          rw [← take_eq_of_pre (commands_pre hqp) (Nat.le_of_lt hlt)] at hd
          exact List.mem_of_mem_take hd
      obtain ⟨i, d, hij, heff, hdc, hds, hsame⟩ :=
        answer_of_repeated hget hm (by rwa [hclient]) hbefore
      -- The effective entry was issued for the same operation.
      obtain ⟨id', hid'⟩ :=
        h.issued_of_committed hcodec hp (List.mem_of_getElem? heff.1)
      obtain ⟨op', hop', hcmd'⟩ := h.clients.issued _ hid'
      have hread' : op'.isRead = false := by
        have hmd := (isEffective_iff.mp heff.2).1
        rw [hcmd'.isMutation] at hmd
        simpa using hmd
      obtain ⟨hclient', hseq'⟩ := hcmd'.client hread'
      have hidd : id' = id := Prod.ext (hclient'.symm.trans (hdc.trans hclient))
        (hseq'.symm.trans (hds.trans hseq))
      rw [hidd] at hid'
      refine ⟨i, (List.getElem?_eq_some_iff.mp heff.1).1, op, ⟨d, heff.1, hid', hop,
        fun _ => heff, fun hno => ?_⟩, hpoint i d (Or.inl heff) heff.1 hid' (hout.trans hsame)⟩
      rw [hread] at hno
      cases hno

/-- An operation that returned before another was invoked has its point before. -/
theorem point_realTime (h : SystemInv cfg codec contents s a) (hcodec : codec.Lossless)
    (hp : Commits cfg a T p) (hx : IsPoint s (commands codec p) i x)
    (hy : IsPoint s (commands codec p) j y) (hxy : Precedes s.history x.1 y.1) : i < j := by
  obtain ⟨before, after, hsplit, ⟨r, hr⟩, op, hop⟩ := hxy
  obtain ⟨mid, rest, rfl⟩ := List.append_of_mem hop
  rw [← List.append_assoc] at hsplit
  obtain ⟨T', q, hq, hnone, hall⟩ := h.timed.marks _ _ _ _ hsplit
  obtain ⟨c, hcans, hcq⟩ := hall x.1 r (List.mem_append_left _ hr)
  obtain ⟨d, hd, hdy, -⟩ := hy
  have hdq := hnone d hdy
  -- The later operation has no command in the log of the mark, which is therefore the shorter.
  have hqp : q <+: p := (hq.comparable h.kv.fed.refines.safe hp).resolve_right fun hpq =>
    hdq ((commands_pre hpq).subset (List.mem_of_getElem? hd))
  have hj : (commands codec q).length ≤ j := by
    by_contra hlt
    push Not at hlt
    have hd' := (getElem?_pre_of_lt (commands_pre hqp) hlt).trans hd
    exact hdq (List.mem_of_getElem? hd')
  obtain ⟨k, hk⟩ := List.mem_iff_getElem?.mp hcq
  have hklt := (List.getElem?_eq_some_iff.mp hk).1
  have hkp : (commands codec p)[k]? = some c := getElem?_of_pre (commands_pre hqp) hk
  obtain ⟨e, he, hex, hopx, hmx, hrx⟩ := hx
  have hik : i ≤ k := by
    cases hread : x.2.isRead with
    | true =>
        rw [h.clients.once _ _ _ hcans (hrx hread)] at hkp
        exact Nat.le_of_eq (h.position_unique hcodec hp he hkp)
    | false =>
        have hcmd := h.clients.isCommand (h.clients.answered _ hcans) hopx
        obtain ⟨hclient, hseq⟩ := hcmd.client hread
        obtain ⟨hclient', hseq'⟩ := (h.clients.isCommand hex hopx).client hread
        have hm : c.isMutation = true := by rw [hcmd.isMutation, hread]; rfl
        refine effective_first (hmx hread) hkp hm ?_ (hclient.trans hclient'.symm)
          (hseq.trans hseq'.symm)
        rw [hclient]
        exact (h.clients.invoked _ _ hopx).1
  omega

open Classical in
/-- What clients see in a state of the invariant is linearizable. -/
theorem linearizable_history (h : SystemInv cfg codec contents s a) (hcodec : codec.Lossless) :
    Linearizable kvObject s.history := by
  obtain ⟨T, p, hp, hall⟩ := h.agrees.covered
  let log := commands codec p
  let point : Nat → Option (OpId × Operation) := fun i =>
    if hi : ∃ x, IsPoint s log i x then some hi.choose else none
  have point_some : ∀ i x, point i = some x ↔ IsPoint s log i x := by
    intro i x
    by_cases hi : ∃ x, IsPoint s log i x
    · have hpt : point i = some hi.choose := dif_pos hi
      rw [hpt, Option.some.injEq]
      constructor
      · rintro rfl
        exact hi.choose_spec
      · exact fun hx => IsPoint.unique h.clients hi.choose_spec hx
    · have hpt : point i = none := dif_neg hi
      rw [hpt]
      exact ⟨nofun, fun hx => absurd ⟨x, hx⟩ hi⟩
  refine Linearizable.of_points point (fun i => (reference log i).store) log.length ?_
    (fun i _ x hx => h.point_step ((point_some i x).mp hx))
    (fun i hi hnone => h.no_point_step hcodec hp hi fun x hx => ?_)
    (fun i _ j _ x y hx hy hxy =>
      h.point_once hcodec hp ((point_some i x).mp hx) ((point_some j y).mp hy) hxy)
    (fun i _ x hx => ?_) (fun id r hr => ?_)
    (fun i _ j _ x y hx hy hxy =>
      h.point_realTime hcodec hp ((point_some i x).mp hx) ((point_some j y).mp hy) hxy)
  · show (reference log 0).store = kvObject.init
    rw [reference_zero]
    rfl
  · rw [(point_some i x).mpr hx] at hnone
    cases hnone
  · obtain ⟨c, -, -, hop, -⟩ := (point_some i x).mp hx
    exact hop
  · obtain ⟨i, hi, op, hpt, hres⟩ := h.response_point hcodec hp hall hr
    exact ⟨i, hi, op, (point_some i _).mpr hpt, hres⟩

end SystemInv

end Points

/-- **Linearizability.** In every run of a cluster and its clients in which no process is restarted
    and no nonce is drawn twice, what the clients see is linearizable. -/
theorem linearizable {store : NodeId → σ} (hcodec : codec.Lossless) (hdb : Faithful db contents)
    (hempty : ∀ n, contents (store n) = fun _ => none)
    (hrun : Within (System.step cfg db codec) FreshNonce (.init cfg store) s) :
    Linearizable kvObject s.history := by
  have hinv : ∃ a, SystemInv cfg codec contents s a :=
    hrun.invariant (I := fun s => ∃ a, SystemInv cfg codec contents s a)
      (fun _ _ _ ⟨_, h⟩ hfresh hstep => h.step hcodec hdb hfresh hstep)
      ⟨_, SystemInv.init hempty⟩
  obtain ⟨a, h⟩ := hinv
  exact h.linearizable_history hcodec

/-! ## The layout of nonces -/

/-- The process a request arrives at has drawn fewer than 2^48 nonces. -/
def ScarceNonce (s : System σ) : SystemAction → Prop
  | .arrive j => ∀ r ∈ s.requests[j]?, (s.kv.services r.node).nonce < 2 ^ 48
  | _ => True

/-- Every call has a nonce of the layout, drawn by the process that is running. -/
structure Laid (cfg : ClusterConfig) (s : System σ) : Prop where
  drawn : Drawn cfg s.kv
  first : ∀ n, s.kv.epoch n = 0

theorem Laid.freshNonce (h : Laid cfg s) (hids : ∀ n ∈ cfg.members, n < 2 ^ 16)
    {act : SystemAction} (hscarce : ScarceNonce s act)
    (hstep : s.step cfg db codec act = some s') : FreshNonce s act := by
  cases act with
  | arrive j =>
      intro r hr call hcall hnonce
      obtain ⟨r', hr', hstep⟩ := Option.bind_eq_some_iff.mp hstep
      rw [show s.requests[j]? = some r from hr] at hr'
      cases hr'
      obtain ⟨-, hstep⟩ := of_guard hstep
      obtain ⟨kv, hkv, -⟩ := Option.bind_eq_some_iff.mp hstep
      -- No process has been replaced, so the nonce of a call is below the counter.
      have hun := h.drawn.unambiguous hids hkv (hscarce r hr) fun call' _ _ hlt => by
        rw [h.first] at hlt
        omega
      obtain ⟨-, hlt, -⟩ := hun call hcall hnonce
      rw [h.first] at hlt
      omega
  | _ => trivial

theorem Laid.step (h : Laid cfg s) {act : SystemAction} (hscarce : ScarceNonce s act)
    (hstep : s.step cfg db codec act = some s') : Laid cfg s' := by
  have hkv : ∀ {act kv}, s.kv.step cfg db codec act = some kv →
      (∀ n now draw, act ≠ .restart n now draw) → Scarce s.kv act →
      Drawn cfg kv ∧ ∀ n, kv.epoch n = 0 :=
    fun hstep hact hscarce => ⟨h.drawn.step hstep hscarce, fun n => by
      rw [KvCluster.step_epoch hstep (hact n), h.first]⟩
  cases act with
  | server act =>
      obtain ⟨hserver, hstep⟩ := of_guard hstep
      obtain ⟨kv, hnext, heq⟩ := Option.bind_eq_some_iff.mp hstep
      cases heq
      obtain ⟨hd, he⟩ : Drawn cfg kv ∧ ∀ n, kv.epoch n = 0 := by
        cases act with
        | execute | restart => cases hserver
        | _ => exact hkv hnext nofun trivial
      exact ⟨hd, he⟩
  | arrive j =>
      obtain ⟨r, hr, hstep⟩ := Option.bind_eq_some_iff.mp hstep
      obtain ⟨-, hstep⟩ := of_guard hstep
      obtain ⟨kv, hnext, heq⟩ := Option.bind_eq_some_iff.mp hstep
      cases heq
      obtain ⟨hd, he⟩ := hkv hnext nofun (hscarce r hr)
      exact ⟨hd, he⟩
  | invoke client op =>
      obtain ⟨-, heq⟩ := of_guard hstep
      cases heq
      exact ⟨h.drawn, h.first⟩
  | send client node | giveUp client =>
      obtain ⟨p, -, hstep⟩ := Option.bind_eq_some_iff.mp hstep
      obtain ⟨-, heq⟩ := of_guard hstep
      cases heq
      exact ⟨h.drawn, h.first⟩
  | abandon client =>
      obtain ⟨p, -, heq⟩ := Option.bind_eq_some_iff.mp hstep
      cases heq
      exact ⟨h.drawn, h.first⟩
  | finish client =>
      obtain ⟨_, -, hstep⟩ := Option.bind_eq_some_iff.mp hstep
      obtain ⟨_, -, hstep⟩ := Option.bind_eq_some_iff.mp hstep
      obtain ⟨_, -, hstep⟩ := Option.bind_eq_some_iff.mp hstep
      obtain ⟨_, -, hstep⟩ := Option.bind_eq_some_iff.mp hstep
      obtain ⟨_, -, hstep⟩ := Option.bind_eq_some_iff.mp hstep
      split at hstep
      · dsimp only at hstep
        split at hstep
        · cases hstep
          exact ⟨h.drawn, h.first⟩
        · cases hstep
          exact ⟨h.drawn, h.first⟩
      · cases hstep

/-- With ids below 2^16 and fewer than 2^48 requests for each node, no nonce is drawn twice. -/
theorem fresh_of_scarce {store : NodeId → σ} (hids : ∀ n ∈ cfg.members, n < 2 ^ 16)
    (hrun : Within (System.step cfg db codec) ScarceNonce (.init cfg store) s) :
    Within (System.step cfg db codec) FreshNonce (.init cfg store) s := by
  have hinv : Laid cfg s ∧ Within (System.step cfg db codec) FreshNonce (.init cfg store) s := by
    refine hrun.invariant (I := fun s => Laid cfg s ∧
      Within (System.step cfg db codec) FreshNonce (.init cfg store) s) ?_
      ⟨⟨nofun, fun _ => rfl⟩, .refl⟩
    rintro s act s' ⟨hlaid, hfresh⟩ hscarce hstep
    exact ⟨hlaid.step hscarce hstep,
      hfresh.step act (hlaid.freshNonce hids hscarce hstep) hstep⟩
  exact hinv.2

/-! ## Runs of clients -/

/-- A client appends, gives its first attempt up, and both attempts are committed. -/
def retriedRun : List SystemAction :=
  [.server (.raft (.tick 1 1000 0)), .server (.raft (.tick 1 1000 0)),
    .invoke 5 (.append [7] [1]), .send 5 1, .arrive 0, .server (.register 0), .server (.propose 0),
    .abandon 5, .send 5 1, .arrive 1, .server (.register 1), .server (.propose 1),
    .server (.drain 1), .server (.apply 1 []), .server (.check 1), .server (.apply 1 []),
    .server (.respond 1), .finish 5]

theorem retriedRun_isSome :
    (run (fun s act => if FreshNonce s act then
      System.step Raft.solo mapDb Protobuf.codec s act else none)
      (.init Raft.solo fun _ _ => none) retriedRun).isSome = true := by
  decide +kernel

/-- The state after `retriedRun`. -/
def retried : System (Bytes → Option Bytes) :=
  (run (fun s act => if FreshNonce s act then
    System.step Raft.solo mapDb Protobuf.codec s act else none)
    (.init Raft.solo fun _ _ => none) retriedRun).get retriedRun_isSome

theorem linearizable_retried :
    .respond (5, 1) (.appended [1]) ∈ retried.history ∧ Linearizable kvObject retried.history :=
  ⟨by decide +kernel,
    linearizable Protobuf.codec_lossless mapDb_faithful (fun _ => rfl)
      (Within.of_run (Option.eq_some_of_isSome retriedRun_isSome))⟩

/-- Nodes 1 and 65537 have the same low 16 bits. -/
def lookalikes : ClusterConfig where
  members := [1, 65537, 3]
  peers n := [1, 65537, 3].erase n
  nodup := by decide
  peers_perm := by decide

/-- Node 1 is elected and takes an append; node 65537 is elected after it and commits a put, which
    replaces the append in the log of node 1. -/
def crossedRun : List SystemAction :=
  let raft : List Raft.Action → List SystemAction := List.map fun act => .server (.raft act)
  raft [.tick 1 1000 0, .serve 1 1000 0, .fold 0, .tick 1 1000 0, .serve 3 1000 0, .fold 1] ++
    [.invoke 5 (.append [7] [1]), .send 5 1, .arrive 0, .server (.register 0),
      .server (.propose 0)] ++
    raft [.tick 65537 2000 0, .serve 5 2000 0, .fold 2, .tick 65537 3000 0, .serve 7 3000 0,
      .fold 3, .tick 65537 3000 0, .serve 9 3000 0, .fold 4] ++
    [.invoke 6 (.put [8] [2]), .send 6 65537, .arrive 1, .server (.register 1),
      .server (.propose 1)] ++
    raft [.tick 65537 3000 0, .serve 11 3000 0, .fold 5, .tick 65537 4000 0, .serve 12 4000 0] ++
    [.server (.drain 1), .server (.apply 1 []), .server (.respond 0), .finish 5]

theorem crossedRun_isSome :
    (run (System.step lookalikes mapDb Protobuf.codec) (.init lookalikes fun _ _ => none)
      crossedRun).isSome = true := by
  decide +kernel

/-- The state after `crossedRun`. -/
def crossed : System (Bytes → Option Bytes) :=
  (run (System.step lookalikes mapDb Protobuf.codec) (.init lookalikes fun _ _ => none)
    crossedRun).get crossedRun_isSome

/-- The put has the nonce of the append and wakes its waiter on node 1, so that an append of one
    byte returns the empty value. -/
theorem shared_nonce_not_linearizable :
    Reaches (System.step lookalikes mapDb Protobuf.codec) (.init lookalikes fun _ _ => none)
      crossed ∧ ¬ Linearizable kvObject crossed.history := by
  refine ⟨⟨crossedRun, Option.eq_some_of_isSome crossedRun_isSome⟩, ?_⟩
  have hhistory : crossed.history =
      [.invoke (5, 1) (.append [7] [1]), .invoke (6, 1) (.put [8] [2]),
        .respond (5, 1) (.appended [])] := by decide +kernel
  rw [hhistory]
  rintro ⟨order, horder⟩
  obtain ⟨m, op, hop, hres⟩ := Object.mem_answers (horder.answers (5, 1) (.appended []) (by simp))
  have hinv := horder.invoked _ hop
  simp only [List.mem_cons, Event.invoke.injEq, reduceCtorEq, List.not_mem_nil, or_false] at hinv
  rcases hinv with ⟨-, rfl⟩ | ⟨hid, -⟩
  · simp [kvObject] at hres
  · simp at hid

end Murmur.App
