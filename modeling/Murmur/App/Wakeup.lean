/-
  The table of waiters in `src/app.rs`, exactly: which calls have a waiter, and who is woken.

  * `Call.listens`: the call has registered, has not cleaned up and has not been sent anything.
  * `Bells`: the waiters of a process are those of its calls that listen, and a call that has not
    failed was sent the outcome of its entry if its process has applied that entry.
  * `waiters_exact`, `no_lost_wakeup`: so it is in every run in which nonces are unambiguous.
-/
import Murmur.App.Waiters
import Murmur.Raft.Broadcast

namespace Murmur.App

open Murmur.Raft (NodeId Instant Cluster ClusterConfig Action Apply Applied LogEntry Ghost)
open Murmur.Basis Murmur.Protocol

variable {σ : Type} {cfg : ClusterConfig} {db : Db σ} {codec : Codec} {s s' : KvCluster σ}
  {a a' : Ghost} {n : NodeId} {k : Nat} {call call' : Call}

/-- The phases between `insert` and `remove` in `execute`. -/
def Phase.listening : Phase → Bool
  | .registered | .waiting | .refused | .expired => true
  | .drawn | .failed | .returned _ => false

/-- The sender of the call's channel is in the table. -/
def Call.listens (call : Call) : Bool := call.phase.listening && call.received.isNone

/-- What is at `(i, t)` in the log of the term is the command of the call. -/
def Placed (codec : Codec) (a : Ghost) (call : Call) : Prop :=
  ∀ i t, call.entry = some (i, t) →
    0 < i ∧ ∃ e, Owns LogEntry.term a t (i - 1) e ∧ e.command = codec.encode call.command

/-- The process of the call has applied its entry, with this outcome. -/
def Ran (call : Call) (r : Performed) : Prop :=
  r.node = call.node ∧ r.epoch = call.epoch ∧ call.entry = some (r.entry.index, r.entry.term)

instance (call : Call) (r : Performed) : Decidable (Ran call r) :=
  inferInstanceAs (Decidable (_ ∧ _ ∧ _))

structure Bells (codec : Codec) (epoch : NodeId → Nat) (services : NodeId → KvService σ)
    (calls : List Call) (performed : List Performed) (a : Ghost) : Prop where
  waiter : ∀ {k : Nat} {call : Call}, calls[k]? = some call → call.epoch = epoch call.node →
    (services call.node).waiters.lookup call.command.nonce = if call.listens then some k else none
  placed : ∀ {k : Nat} {call : Call}, calls[k]? = some call → Placed codec a call
  behind : ∀ r ∈ performed, r.epoch ≤ epoch r.node ∧
    (r.epoch = epoch r.node → r.entry.index ≤ (services r.node).cursor)
  woken : ∀ {k : Nat} {call : Call}, calls[k]? = some call → call.phase ≠ .failed →
    ∀ r ∈ performed, Ran call r → call.received = some r.outcome

/-! ## Growth and frames -/

theorem Placed.grow (h : Placed codec a call) (hg : Grows a a') : Placed codec a' call := by
  intro i t he
  obtain ⟨hpos, e, ⟨hget, hterm⟩, hbytes⟩ := h i t he
  exact ⟨hpos, e, ⟨getElem?_of_pre (hg.llog t) hget, hterm⟩, hbytes⟩

theorem Placed.of_eq (h : Placed codec a call) (hcommand : call'.command = call.command)
    (hentry : call'.entry = call.entry) : Placed codec a call' := by
  unfold Placed
  rw [hcommand, hentry]
  exact h

namespace Bells

variable {epoch epoch' : NodeId → Nat} {services services' : NodeId → KvService σ}
  {calls : List Call} {performed : List Performed}

theorem grow (h : Bells codec epoch services calls performed a) (hg : Grows a a') :
    Bells codec epoch services calls performed a' where
  waiter := h.waiter
  placed hk := (h.placed hk).grow hg
  behind := h.behind
  woken := h.woken

/-- A process goes on with its waiters. -/
theorem update (h : Bells codec epoch services calls performed a) (sv : KvService σ)
    (hw : sv.waiters = (services n).waiters) (hc : (services n).cursor ≤ sv.cursor) :
    Bells codec epoch (Function.update services n sv) calls performed a := by
  refine ⟨fun {k call} hk hlive => ?_, h.placed, fun r hr => ?_, h.woken⟩
  · rw [← h.waiter hk hlive]
    by_cases hn : call.node = n
    · rw [hn, Function.update_self, hw]
    · rw [Function.update_of_ne hn]
  · obtain ⟨hpast, hle⟩ := h.behind r hr
    refine ⟨hpast, fun hlive => ?_⟩
    by_cases hn : r.node = n
    · rw [hn, Function.update_self]
      exact (hn ▸ hle hlive).trans hc
    · rw [Function.update_of_ne hn]
      exact hle hlive

/-- A call of a running process goes on, and its waiter with it. -/
theorem turn (h : Bells codec epoch services calls performed a)
    (ht : Table codec epoch services calls performed) (hk : calls[k]? = some call)
    (hlive : call.epoch = epoch call.node) (call' : Call)
    (hsame : call'.identity = call.identity) (sv : KvService σ)
    (hother : ∀ nonce, nonce ≠ call.command.nonce →
      sv.waiters.lookup nonce = (services call.node).waiters.lookup nonce)
    (hown : sv.waiters.lookup call.command.nonce = if call'.listens then some k else none)
    (hcursor : (services call.node).cursor ≤ sv.cursor) (hplaced : Placed codec a call')
    (hwoken : call'.phase ≠ .failed → ∀ r ∈ performed, Ran call' r →
      call'.received = some r.outcome) :
    Bells codec epoch (Function.update services call.node sv) (calls.set k call') performed a := by
  simp only [Call.identity, Prod.mk.injEq] at hsame
  obtain ⟨hn, he, hc⟩ := hsame
  refine ⟨fun {j d} hj hcur => ?_, fun {j d} hj => ?_, fun r hr => ?_, fun {j d} hj => ?_⟩
  · rcases getElem?_set_some hj with ⟨rfl, rfl⟩ | ⟨hjk, hj⟩
    · rw [hn, hc, Function.update_self, hown]
    · rw [← h.waiter hj hcur]
      by_cases hdn : d.node = call.node
      · -- Two calls of one process have different nonces.
        have hne : d.command.nonce ≠ call.command.nonce := by
          intro hnonce
          obtain ⟨-, hlt, -⟩ := ht.distinct hk hj hjk hnonce hlive
          rw [hdn, ← hlive] at hcur
          omega
        rw [hdn, Function.update_self, hother _ hne]
      · rw [Function.update_of_ne hdn]
  · rcases getElem?_set_some hj with ⟨-, rfl⟩ | ⟨-, hj⟩
    · exact hplaced
    · exact h.placed hj
  · obtain ⟨hpast, hle⟩ := h.behind r hr
    refine ⟨hpast, fun hcur => ?_⟩
    by_cases hrn : r.node = call.node
    · rw [hrn, Function.update_self]
      exact (hrn ▸ hle hcur).trans hcursor
    · rw [Function.update_of_ne hrn]
      exact hle hcur
  · rcases getElem?_set_some hj with ⟨-, rfl⟩ | ⟨-, hj⟩
    · exact hwoken
    · exact h.woken hj

/-- The same with no process touched. -/
theorem advance (h : Bells codec epoch services calls performed a)
    (ht : Table codec epoch services calls performed) (hk : calls[k]? = some call)
    (hlive : call.epoch = epoch call.node) (call' : Call)
    (hsame : call'.identity = call.identity) (hlistens : call'.listens = call.listens)
    (hplaced : Placed codec a call')
    (hwoken : call'.phase ≠ .failed → ∀ r ∈ performed, Ran call' r →
      call'.received = some r.outcome) :
    Bells codec epoch services (calls.set k call') performed a := by
  have hturn := h.turn ht hk hlive call' hsame (services call.node) (fun _ _ => rfl)
    (by rw [hlistens]; exact h.waiter hk hlive) (Nat.le_refl _) hplaced hwoken
  rwa [Function.update_eq_self] at hturn

/-- A process applies a command; whoever proposed it and still cares has been sent the outcome. -/
theorem perform (h : Bells codec epoch services calls performed a) (r : Performed)
    (hlive : r.epoch = epoch r.node) (hle : r.entry.index ≤ (services r.node).cursor)
    (hsent : ∀ {k : Nat} {call : Call}, calls[k]? = some call → call.phase ≠ .failed →
      Ran call r → call.received = some r.outcome) :
    Bells codec epoch services calls (performed ++ [r]) a where
  waiter := h.waiter
  placed := h.placed
  behind r' hr' := by
    rcases List.mem_append.mp hr' with hold | hnew
    · exact h.behind r' hold
    · rw [List.mem_singleton.mp hnew]
      exact ⟨Nat.le_of_eq hlive, fun _ => hle⟩
  woken hk hphase r' hr' hran := by
    rcases List.mem_append.mp hr' with hold | hnew
    · exact h.woken hk hphase r' hold hran
    · rw [List.mem_singleton.mp hnew] at hran ⊢
      exact hsent hk hphase hran

/-- A request draws its nonce; it has no waiter yet. -/
theorem draw (h : Bells codec epoch services calls performed a)
    (ht : Table codec epoch services calls performed) {command : Command}
    (hfresh : ∀ {k : Nat} {d : Call}, calls[k]? = some d → d.command.nonce = command.nonce →
      d.epoch < epoch n) :
    Bells codec epoch services (calls ++ [{ node := n, epoch := epoch n, command }])
      performed a := by
  have hsplit : ∀ {j : Nat} {d : Call},
      (calls ++ [{ node := n, epoch := epoch n, command }])[j]? = some d →
      calls[j]? = some d ∨ d = { node := n, epoch := epoch n, command } := by
    intro j d hj
    rcases Nat.lt_or_ge j calls.length with hlt | hge
    · exact Or.inl (by rwa [List.getElem?_append_left hlt] at hj)
    · rw [List.getElem?_append_right hge] at hj
      exact Or.inr (List.mem_singleton.mp (List.mem_of_getElem? hj))
  refine ⟨fun {j d} hj hlive => ?_, fun {j d} hj => ?_, h.behind,
    fun {j d} hj hphase r hr hran => ?_⟩
  · rcases hsplit hj with hold | rfl
    · exact h.waiter hold hlive
    · show (services n).waiters.lookup command.nonce = none
      by_contra hsome
      obtain ⟨k, hl⟩ := Option.ne_none_iff_exists'.mp hsome
      obtain ⟨d, hd, -, hepoch, hnonce⟩ := ht.waiters hl
      have := hfresh hd hnonce
      omega
  · rcases hsplit hj with hold | rfl
    · exact h.placed hold
    · exact fun i t he => absurd he nofun
  · rcases hsplit hj with hold | rfl
    · exact h.woken hold hphase r hr hran
    · exact absurd hran.2.2 nofun

/-- A new process knows no waiter, and no call is its own. -/
theorem restart (h : Bells codec epoch services calls performed a)
    (ht : Table codec epoch services calls performed) (hself : epoch' n = epoch n + 1)
    (hepoch : ∀ m, m ≠ n → epoch' m = epoch m) (hservices : ∀ m, m ≠ n → services' m = services m) :
    Bells codec epoch' services' calls performed a := by
  refine ⟨fun {k call} hk hlive => ?_, h.placed, fun r hr => ?_, h.woken⟩
  · by_cases hn : call.node = n
    · have := ht.past hk
      rw [hn] at this hlive
      omega
    · rw [hservices _ hn]
      exact h.waiter hk (by rw [hlive, hepoch _ hn])
  · obtain ⟨hpast, hle⟩ := h.behind r hr
    by_cases hn : r.node = n
    · rw [hn] at hpast ⊢
      exact ⟨by omega, fun hcur => by omega⟩
    · rw [hepoch _ hn, hservices _ hn]
      exact ⟨hpast, hle⟩

end Bells

/-! ## Steps of a call -/

/-- All that is known of a state: the simulation with the table, and the bells. -/
structure Rings (cfg : ClusterConfig) (codec : Codec) (s : KvCluster σ) (a : Ghost) : Prop where
  kv : KvInv cfg codec s a
  bells : Bells codec s.epoch s.services s.calls s.performed a

namespace Rings

/-- What a call that has not proposed was sent: nothing. -/
theorem unsent (h : Rings cfg codec s a) (hk : s.calls[k]? = some call)
    (hentry : call.entry = none) :
    call.received = none := by
  by_contra hsome
  obtain ⟨o, ho⟩ := Option.ne_none_iff_exists'.mp hsome
  obtain ⟨index, term, he, -⟩ := h.kv.table.received hk ho
  rw [hentry] at he
  cases he

theorem unran (hentry : call.entry = none) (r : Performed) : ¬ Ran call r := by
  rintro ⟨-, -, he⟩
  rw [hentry] at he
  cases he

theorem register (h : Rings cfg codec s a) (hin : s.callIn k [.drawn] = some call) :
    Bells codec s.epoch (Function.update s.services call.node
      { s.services call.node with
        waiters := (s.services call.node).waiters.insert call.command.nonce k })
      (s.calls.set k { call with phase := .registered }) s.performed a := by
  obtain ⟨hk, hlive, hphase⟩ := KvCluster.of_callIn hin
  have hentry := h.kv.table.unproposed hk (Or.inl (List.mem_singleton.mp hphase))
  refine h.bells.turn h.kv.table hk hlive { call with phase := .registered } rfl _
    (fun nonce hne => Finmap.lookup_insert_of_ne _ hne) ?_ (Nat.le_refl _)
    ((h.bells.placed hk).of_eq rfl rfl) fun _ r _ hran => absurd hran (unran hentry r)
  have hlistens : ({ call with phase := .registered } : Call).listens = true := by
    unfold Call.listens
    rw [h.unsent hk hentry]
    rfl
  rw [hlistens, if_pos rfl]
  exact Finmap.lookup_insert _

/-- A leader takes the call's command. -/
theorem accepted (h : Rings cfg codec s a) {raft : Cluster} {index : Nat}
    (hin : s.callIn k [.registered] = some call)
    (hraft : s.raft.step cfg (.propose call.node (codec.encode call.command)) = some raft)
    (hindex : ((s.raft.core call.node).submitCommand (codec.encode call.command)).2 = some index)
    (hg : Grows a a') (hr' : Raft.Refines cfg True raft a') :
    Bells codec s.epoch s.services (s.calls.set k
      { call with phase := .waiting, entry := some (index, (s.raft.core call.node).currentTerm) })
      s.performed a' := by
  obtain ⟨hk, hlive, hphase⟩ := KvCluster.of_callIn hin
  have hrole : (s.raft.core call.node).role = .leader := by
    by_contra hno
    unfold Raft.ConsensusModule.submitCommand at hindex
    rw [if_pos hno] at hindex
    cases hindex
  obtain ⟨hlast, -, -⟩ := Raft.submitCommand_effect hrole (codec.encode call.command)
  rw [hlast] at hindex
  cases hindex
  refine (h.bells.grow hg).advance h.kv.table hk hlive _ rfl ?_ (fun i t he => ?_)
    fun _ r hr hran => ?_
  · unfold Call.listens
    rw [List.mem_singleton.mp hphase]
    rfl
  · cases he
    exact ⟨Nat.succ_pos _, _, Raft.owns_submitted hr' hraft hrole, rfl⟩
  · -- The index is past all the process has applied.
    obtain ⟨hnode, hepoch, hentry⟩ := hran
    have hnode : r.node = call.node := hnode
    obtain ⟨hat, -⟩ := Prod.mk.inj (Option.some.inj hentry)
    have hmem := (Raft.Cluster.step_propose hraft).1
    have hle := (h.bells.behind r hr).2 (by rw [hnode, ← hlive]; exact hepoch)
    rw [hnode, ← hat] at hle
    have hN := h.kv.fed.refines.nodes _ hmem
    have := h.kv.fed.cursor_le hmem
    have := hN.cursors.applied_le.trans hN.cursors.commit_le
    rw [← hN.mirrors.log.lastIndex_eq] at this
    omega

theorem refused (h : Rings cfg codec s a) (hin : s.callIn k [.registered] = some call) :
    Bells codec s.epoch s.services (s.calls.set k { call with phase := .refused })
      s.performed a := by
  obtain ⟨hk, hlive, hphase⟩ := KvCluster.of_callIn hin
  have hentry := h.kv.table.unproposed hk (Or.inr (List.mem_singleton.mp hphase))
  refine h.bells.advance h.kv.table hk hlive { call with phase := .refused } rfl ?_
    ((h.bells.placed hk).of_eq rfl rfl) fun _ r _ hran => absurd hran (unran hentry r)
  unfold Call.listens
  rw [List.mem_singleton.mp hphase]
  rfl

theorem expire (h : Rings cfg codec s a) (hin : s.callIn k [.waiting] = some call) :
    Bells codec s.epoch s.services (s.calls.set k { call with phase := .expired })
      s.performed a := by
  obtain ⟨hk, hlive, hphase⟩ := KvCluster.of_callIn hin
  have hwaiting := List.mem_singleton.mp hphase
  refine h.bells.advance h.kv.table hk hlive { call with phase := .expired } rfl ?_
    ((h.bells.placed hk).of_eq rfl rfl) fun _ r hr hran =>
      h.bells.woken hk (by rw [hwaiting]; nofun) r hr hran
  unfold Call.listens
  rw [hwaiting]
  rfl

theorem cleanup (h : Rings cfg codec s a) (hin : s.callIn k [.refused, .expired] = some call) :
    Bells codec s.epoch (Function.update s.services call.node
      { s.services call.node with
        waiters := (s.services call.node).waiters.erase call.command.nonce })
      (s.calls.set k { call with phase := .failed }) s.performed a := by
  obtain ⟨hk, hlive, -⟩ := KvCluster.of_callIn hin
  exact h.bells.turn h.kv.table hk hlive { call with phase := .failed } rfl _
    (fun nonce hne => Finmap.lookup_erase_ne hne) (Finmap.lookup_erase _ _) (Nat.le_refl _)
    ((h.bells.placed hk).of_eq rfl rfl) fun hno => absurd rfl hno

theorem respond (h : Rings cfg codec s a) {o : Outcome}
    (hin : s.callIn k [.waiting] = some call) (hout : call.received = some o) :
    Bells codec s.epoch s.services (s.calls.set k { call with phase := .returned o })
      s.performed a := by
  obtain ⟨hk, hlive, hphase⟩ := KvCluster.of_callIn hin
  have hwaiting := List.mem_singleton.mp hphase
  refine h.bells.advance h.kv.table hk hlive { call with phase := .returned o } rfl ?_
    ((h.bells.placed hk).of_eq rfl rfl) fun _ r hr hran =>
      h.bells.woken hk (by rw [hwaiting]; nofun) r hr hran
  unfold Call.listens
  rw [hwaiting, hout]
  rfl

/-! ## Steps of the apply loop -/

/-- If the next entry is that of a call that has not failed, the waiter under its nonce is the
    call's. -/
theorem heard (h : Rings cfg codec s a) (hcodec : codec.Lossless) (hn : n ∈ cfg.members)
    {entry : Applied} (hitem : (s.services n).applies.head? = some (.command entry))
    {command : Command} (hdec : codec.decode entry.command = some command)
    (hk : s.calls[k]? = some call) (hphase : call.phase ≠ .failed) (hnode : call.node = n)
    (hlive : call.epoch = s.epoch n) (hentry : call.entry = some (entry.index, entry.term)) :
    (s.services n).waiters.lookup command.nonce = some k := by
  obtain ⟨⟨hpos, T, p, hp, he⟩, i, hnext, -⟩ := h.kv.fed.next hn hitem
  -- What is committed at an index was appended there in its term, and so by this call.
  have hcommand : call.command = command := by
    obtain ⟨hat, -⟩ := hp.owns h.kv.fed.refines.safe he
    obtain ⟨-, e, ⟨hat', -⟩, hbytes⟩ := h.bells.placed hk _ _ hentry
    rw [hat] at hat'
    cases hat'
    have hbytes : entry.command = codec.encode call.command := hbytes
    rw [hbytes, hcodec] at hdec
    exact Option.some.inj hdec
  have hunanswered : ∀ o, ¬ Answered codec s.performed call o := by
    rintro o ⟨index, term, he', hr⟩
    rw [hentry] at he'
    cases he'
    have hle := (h.bells.behind _ hr).2 (by show call.epoch = s.epoch call.node; rw [hlive, hnode])
    have hle : entry.index ≤ (s.services call.node).cursor := hle
    rw [hnode] at hle
    omega
  have hlistens : call.listens = true := by
    have hunproposed := h.kv.table.unproposed hk
    have hreceived : call.received = none := by
      by_contra hsome
      obtain ⟨o, ho⟩ := Option.ne_none_iff_exists'.mp hsome
      exact hunanswered o (h.kv.table.received hk ho)
    unfold Call.listens
    rw [hreceived]
    cases hp : call.phase with
    | registered | waiting | refused | expired => rfl
    | drawn =>
        rw [hunproposed (Or.inl hp)] at hentry
        cases hentry
    | failed => exact absurd hp hphase
    | returned o => exact absurd (h.kv.table.returned hk hp) (hunanswered o)
  have hwaiter := h.bells.waiter hk (by rw [hlive, hnode])
  rwa [hnode, hcommand, if_pos hlistens] at hwaiter

theorem applied (h : Rings cfg codec s a) (hcodec : codec.Lossless) (hn : n ∈ cfg.members)
    {entry : Applied} (hitem : (s.services n).applies.head? = some (.command entry))
    {command : Command} (hdec : codec.decode entry.command = some command) (sv : KvService σ)
    (hwaiters : sv.waiters = (s.services n).waiters) (hcursor : sv.cursor = entry.index)
    (hs' : (s.setService n sv).apply db n entry command = s') :
    Bells codec s.epoch s'.services s'.calls s'.performed a := by
  obtain ⟨-, i, hnext, -⟩ := h.kv.fed.next hn hitem
  have hself : (s.setService n sv).services n = sv := Function.update_self ..
  unfold KvCluster.apply at hs'
  dsimp only at hs'
  rw [hself] at hs'
  generalize sv.replica.applyCommitted db command = result at hs'
  obtain ⟨replica, outcome⟩ := result
  split at hs'
  · next j hw =>
    rw [hwaiters] at hw
    obtain ⟨call, hj, rfl, hepoch, hcommand, hentry, -⟩ := h.kv.own_entry hcodec hn hitem hdec hw
    unfold KvCluster.send KvCluster.setService at hs'
    dsimp only at hs'
    rw [hj, Function.update_idem] at hs'
    subst hs'
    have hturn := h.bells.turn h.kv.table hj hepoch { call with received := some outcome } rfl
      { sv with replica, waiters := sv.waiters.erase command.nonce }
      (fun nonce hne => ?_) ?_ (by show _ ≤ sv.cursor; omega)
      ((h.bells.placed hj).of_eq rfl rfl) fun _ r hr hran => ?_
    · refine hturn.perform ⟨call.node, s.epoch call.node, entry, command, outcome⟩ rfl ?_
        fun {k d} hk hphase hran => ?_
      · show entry.index ≤ (Function.update s.services call.node _ call.node).cursor
        rw [Function.update_self]
        exact Nat.le_of_eq hcursor.symm
      · rcases getElem?_set_some hk with ⟨-, rfl⟩ | ⟨hkj, hk⟩
        · rfl
        · obtain ⟨hdn, hde, hdentry⟩ := hran
          have hother := h.heard hcodec hn hitem hdec hk hphase hdn.symm hde.symm hdentry
          rw [hw] at hother
          exact absurd (Option.some.inj hother).symm hkj
    · rw [← hwaiters]
      exact Finmap.lookup_erase_ne (by rwa [← hcommand])
    · unfold Call.listens
      rw [Option.isNone_some, Bool.and_false, if_neg Bool.false_ne_true, hcommand]
      exact Finmap.lookup_erase _ _
    · -- The process has not applied this index before.
      obtain ⟨hrn, hre, hrentry⟩ := hran
      have hrn : r.node = call.node := hrn
      have hrentry : call.entry = some (r.entry.index, r.entry.term) := hrentry
      rw [hentry] at hrentry
      obtain ⟨hat, -⟩ := Prod.mk.inj (Option.some.inj hrentry)
      have hle := (h.bells.behind r hr).2 (by rw [hrn]; exact hre.trans hepoch)
      rw [hrn] at hle
      omega
  · next hw =>
    rw [hwaiters] at hw
    unfold KvCluster.setService at hs'
    dsimp only at hs'
    rw [Function.update_idem] at hs'
    subst hs'
    refine (h.bells.update { sv with replica } hwaiters (by show _ ≤ sv.cursor; omega)).perform
      ⟨n, s.epoch n, entry, command, outcome⟩ rfl ?_ fun {k d} hk hphase hran => ?_
    · show entry.index ≤ (Function.update s.services n _ n).cursor
      rw [Function.update_self]
      exact Nat.le_of_eq hcursor.symm
    · obtain ⟨hdn, hde, hdentry⟩ := hran
      have hother := h.heard hcodec hn hitem hdec hk hphase hdn.symm hde.symm hdentry
      rw [hw] at hother
      cases hother

/-! ## Runs -/

theorem step (h : Rings cfg codec s a) (hcodec : codec.Lossless) {act : KvAction}
    (hun : Unambiguous s act) (hstep : s.step cfg db codec act = some s') :
    ∃ a', Rings cfg codec s' a' := by
  obtain ⟨a', hlater, hkv⟩ := h.kv.step hcodec hun hstep
  have hg := hlater.grows h.kv.fed.refines.safe
  refine ⟨a', hkv, ?_⟩
  have hgrown := h.bells.grow hg
  -- Only a restart changes the processes.
  have hepoch : (∀ n now draw, act ≠ .restart n now draw) → s'.epoch = s.epoch :=
    fun hact => funext fun n => KvCluster.step_epoch hstep (hact n)
  cases KvCluster.step_sound hstep with
  | raft hinternal hraft =>
      rw [hepoch nofun]
      exact hgrown
  | drain hraft htake =>
      rw [hepoch nofun]
      exact hgrown.update _ rfl (Nat.le_refl _)
  | @execute n command hn =>
      rw [hepoch nofun]
      refine (hgrown.draw h.kv.table fun hk hnonce => ?_).update _ rfl (Nat.le_refl _)
      exact (hun _ (List.mem_of_getElem? hk) hnonce).2.1
  | register hin =>
      rw [hepoch nofun]
      exact (h.register hin).grow hg
  | accepted hin hraft hindex =>
      rw [hepoch nofun]
      exact h.accepted hin hraft hindex hg hkv.fed.refines
  | refused hin hraft hindex =>
      rw [hepoch nofun]
      exact (h.refused hin).grow hg
  | expire hin hnone =>
      rw [hepoch nofun]
      exact (h.expire hin).grow hg
  | cleanup hin =>
      rw [hepoch nofun]
      exact (h.cleanup hin).grow hg
  | respond hin hout =>
      rw [hepoch nofun]
      exact (h.respond hin hout).grow hg
  | @applied n order entry command hn hloop hitem hdec =>
      rw [hepoch nofun]
      exact (h.applied hcodec hn hitem hdec
        { s.services n with
          applies := (s.services n).applies.tail
          loop := .applied entry.index
          cursor := entry.index } rfl rfl rfl).grow hg
  | skipped hn hloop hitem hdec =>
      rw [hepoch nofun]
      obtain ⟨-, i, hnext, -⟩ := h.kv.fed.next hn hitem
      exact hgrown.update _ rfl (by dsimp only; omega)
  | installed hn hloop hitem =>
      rw [hepoch nofun]
      obtain ⟨-, i, hnext, -⟩ := h.kv.fed.next hn hitem
      exact hgrown.update _ rfl (Nat.le_of_lt hnext)
  | check hloop =>
      rw [hepoch nofun]
      exact hgrown.update _ rfl (Nat.le_refl _)
  | capture hloop hfit hraft =>
      rw [hepoch nofun]
      exact hgrown.update _ rfl (Nat.le_refl _)
  | @restart n now draw raft hraft =>
      refine hgrown.restart h.kv.table (Raft.restart_epoch hraft) (fun m hm => ?_)
        fun m hm => Function.update_of_ne hm _ _
      exact (Raft.step_recorded hraft).epoch m fun _ _ heq => hm (Action.restart.inj heq).1.symm

theorem init (store : NodeId → σ) : Rings cfg codec (.init cfg store) State.init :=
  ⟨KvInv.init store, nofun, nofun, nofun, nofun⟩

end Rings

/-- The runs in which no process draws 2^48 nonces, and none draws the nonce of a call of an earlier
    process of its node before it has applied what that call proposed. With node ids below 2^16 each
    step is then `Unambiguous`. -/
abbrev Distinctly (cfg : ClusterConfig) (db : Db σ) (codec : Codec) (store : NodeId → σ) :
    KvCluster σ → Prop :=
  Within (KvCluster.step cfg db codec) (fun s act => Scarce s act ∧ Retired s act) (.init cfg store)

variable {store : NodeId → σ}

theorem exists_rings (hcodec : codec.Lossless) (hids : ∀ n ∈ cfg.members, n < 2 ^ 16)
    (hrun : Distinctly cfg db codec store s) : ∃ a, Rings cfg codec s a := by
  have hinv : (∃ a, Rings cfg codec s a) ∧ Drawn cfg s := by
    refine hrun.invariant (I := fun s => (∃ a, Rings cfg codec s a) ∧ Drawn cfg s) ?_
      ⟨⟨State.init, Rings.init store⟩, nofun⟩
    rintro s act s' ⟨⟨a, h⟩, hdrawn⟩ ⟨hscarce, hretired⟩ hstep
    exact ⟨h.step hcodec (hdrawn.unambiguous hids hstep hscarce hretired) hstep,
      hdrawn.step hstep hscarce⟩
  exact hinv.1

theorem proposedRun_isSome :
    (run (fun s act => if Scarce s act ∧ Retired s act then
      s.step Raft.solo mapDb Protobuf.codec act else none) soloStart
      (answeredRun.take 6)).isSome = true := by
  decide +kernel

/-- The request of `answeredRun` has proposed and waits. -/
def proposed : KvCluster (Raft.Bytes → Option Raft.Bytes) :=
  (run (fun s act => if Scarce s act ∧ Retired s act then
    s.step Raft.solo mapDb Protobuf.codec act else none) soloStart (answeredRun.take 6)).get
    proposedRun_isSome

/-- **No wakeup is lost.** With node ids below 2^16 and in the runs of `Distinctly`: if the process
    of a call has applied the entry the call proposed, then the call has failed or was sent the
    outcome. -/
theorem no_lost_wakeup (hcodec : codec.Lossless) (hids : ∀ n ∈ cfg.members, n < 2 ^ 16)
    (hrun : Distinctly cfg db codec store s) (hcall : call ∈ s.calls) {r : Performed}
    (hr : r ∈ s.performed) (hran : Ran call r) :
    call.phase = .failed ∨ call.received = some r.outcome := by
  obtain ⟨a, h⟩ := exists_rings hcodec hids hrun
  obtain ⟨k, hk⟩ := List.mem_iff_getElem?.mp hcall
  by_cases hphase : call.phase = .failed
  · exact Or.inl hphase
  · exact Or.inr (h.bells.woken hk hphase r hr hran)

theorem no_lost_wakeup_answered :
    ∃ call ∈ answered.calls, ∃ r ∈ answered.performed, Ran call r ∧
      (call.phase = .failed ∨ call.received = some r.outcome) := by
  obtain ⟨call, hcall, r, hr, hran⟩ :
      ∃ call ∈ answered.calls, ∃ r ∈ answered.performed, Ran call r := by
    decide +kernel
  exact ⟨call, hcall, r, hr, hran, no_lost_wakeup Protobuf.codec_lossless (by decide)
    (Within.of_run (Option.eq_some_of_isSome answeredRun_isSome)) hcall hr hran⟩

end Murmur.App
