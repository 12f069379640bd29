/-
  Requests and the entries they propose: which outcome a waiting call is given.

  * `Sourced`: every entry a leader ever appended was proposed by a call.
  * `Table`: the waiters are calls of the running process, and whoever shares a nonce with such a
    call proposed at an index this process has behind it.
  * `KvInv`: these together with the simulation of Raft and the apply streams, kept by every step
    whose nonce is `Unambiguous`.
  * `answered_by_own_entry`: what `execute` returns is the outcome of its own entry.
-/
import Mathlib.Data.UInt
import Murmur.App.Protobuf
import Murmur.App.Service
import Murmur.Raft.Stream
import Murmur.Raft.Safety

namespace Murmur.App

open Murmur.Raft (NodeId Instant Cluster ClusterConfig Action Apply Applied LogEntry Ghost Refines
  Answers Follows Feeds)
open Murmur.Basis Murmur.Protocol

variable {σ : Type} {cfg : ClusterConfig} {db : Db σ} {codec : Codec} {s s' : KvCluster σ}
  {a a' : Ghost} {n : NodeId} {k : Nat} {call call' : Call}

/-! ## The invariant -/

/-- Every entry of a leader's log was proposed by a call. -/
def Sourced (codec : Codec) (a : Ghost) (calls : List Call) : Prop :=
  ∀ t i e, Owns LogEntry.term a t i e →
    ∃ (k : Nat) (call : Call), calls[k]? = some call ∧ call.entry = some (i + 1, t) ∧
      e.command = codec.encode call.command

/-- The call was given the outcome of its own entry. -/
def Answered (codec : Codec) (performed : List Performed) (call : Call) (outcome : Outcome) :
    Prop :=
  ∃ index term, call.entry = some (index, term) ∧
    { node := call.node, epoch := call.epoch
      entry := { index, term, command := codec.encode call.command }
      command := call.command, outcome } ∈ performed

/-- The waiters and the calls behind them; `epoch` and `cursor` are those of the running
    processes. -/
structure Table (codec : Codec) (epoch : NodeId → Nat) (services : NodeId → KvService σ)
    (calls : List Call) (performed : List Performed) : Prop where
  past : ∀ {k : Nat} {call : Call}, calls[k]? = some call → call.epoch ≤ epoch call.node
  unproposed : ∀ {k : Nat} {call : Call}, calls[k]? = some call →
    call.phase = .drawn ∨ call.phase = .registered → call.entry = none
  waiters : ∀ {n nonce k}, (services n).waiters.lookup nonce = some k →
    ∃ call, calls[k]? = some call ∧ call.node = n ∧ call.epoch = epoch n ∧
      call.command.nonce = nonce
  distinct : ∀ {k k' : Nat} {call call' : Call}, calls[k]? = some call → calls[k']? = some call' →
    k' ≠ k → call'.command.nonce = call.command.nonce → call.epoch = epoch call.node →
    call'.node = call.node ∧ call'.epoch < call.epoch ∧
      ∀ {i t}, call'.entry = some (i, t) → i ≤ (services call.node).cursor
  received : ∀ {k : Nat} {call : Call} {o : Outcome}, calls[k]? = some call →
    call.received = some o → Answered codec performed call o
  returned : ∀ {k : Nat} {call : Call} {o : Outcome}, calls[k]? = some call →
    call.phase = .returned o → Answered codec performed call o

/-- Raft is simulated, and every process takes its apply stream in order. -/
structure Fed (cfg : ClusterConfig) (raft : Cluster) (services : NodeId → KvService σ) (a : Ghost) :
    Prop where
  refines : Refines cfg True raft a
  streams : ∀ n ∈ cfg.members, ∃ j, Follows (services n).cursor (services n).applies j ∧
    Feeds (raft.core n) j
  queued : ∀ n ∈ cfg.members, ∀ item ∈ (services n).applies, (n, item) ∈ raft.delivered

structure KvInv (cfg : ClusterConfig) (codec : Codec) (s : KvCluster σ) (a : Ghost) : Prop where
  fed : Fed cfg s.raft s.services a
  sourced : Sourced codec a s.calls
  table : Table codec s.epoch s.services s.calls s.performed

/-- The nonce drawn is not that of another call, unless of an earlier process of this node whose
    entry is already behind the apply loop. -/
def Unambiguous (s : KvCluster σ) : KvAction → Prop
  | .execute n _ => ∀ call ∈ s.calls, call.command.nonce = nextNonce n (s.services n).nonce →
      call.node = n ∧ call.epoch < s.epoch n ∧
        ∀ i t, call.entry = some (i, t) → i ≤ (s.services n).cursor
  | _ => True

/-! ## Changes to the table -/

theorem Answered.mono {performed performed' : List Performed} {o : Outcome}
    (h : Answered codec performed call o) (hsub : performed ⊆ performed') :
    Answered codec performed' call o := by
  obtain ⟨index, term, he, hp⟩ := h
  exact ⟨index, term, he, hsub hp⟩

namespace Table

variable {epoch : NodeId → Nat} {services services' : NodeId → KvService σ} {calls : List Call}
  {performed performed' : List Performed}

theorem mono (h : Table codec epoch services calls performed) (hsub : performed ⊆ performed') :
    Table codec epoch services calls performed' where
  past := h.past
  unproposed := h.unproposed
  waiters := h.waiters
  distinct := h.distinct
  received hk ho := (h.received hk ho).mono hsub
  returned hk hp := (h.returned hk hp).mono hsub

/-- Waiters go, or come in for a call of the process; no process goes back. -/
theorem frame (h : Table codec epoch services calls performed)
    (hw : ∀ {n nonce k}, (services' n).waiters.lookup nonce = some k →
      (services n).waiters.lookup nonce = some k ∨
        ∃ call, calls[k]? = some call ∧ call.node = n ∧ call.epoch = epoch n ∧
          call.command.nonce = nonce)
    (hc : ∀ n, (services n).cursor ≤ (services' n).cursor) :
    Table codec epoch services' calls performed where
  past := h.past
  unproposed := h.unproposed
  waiters hl := (hw hl).elim h.waiters id
  distinct hk hk' hne hnonce hlive := by
    obtain ⟨hn, hlt, hle⟩ := h.distinct hk hk' hne hnonce hlive
    exact ⟨hn, hlt, fun he => (hle he).trans (hc _)⟩
  received := h.received
  returned := h.returned

theorem update (h : Table codec epoch services calls performed) (sv : KvService σ)
    (hw : ∀ {nonce k}, sv.waiters.lookup nonce = some k →
      (services n).waiters.lookup nonce = some k ∨
        ∃ call, calls[k]? = some call ∧ call.node = n ∧ call.epoch = epoch n ∧
          call.command.nonce = nonce)
    (hc : (services n).cursor ≤ sv.cursor) :
    Table codec epoch (Function.update services n sv) calls performed := by
  apply h.frame
  · intro m nonce k hl
    by_cases hm : m = n
    · subst hm
      rw [Function.update_self] at hl
      exact hw hl
    · rw [Function.update_of_ne hm] at hl
      exact Or.inl hl
  · intro m
    by_cases hm : m = n
    · subst hm
      rw [Function.update_self]
      exact hc
    · rw [Function.update_of_ne hm]

/-- A call goes on. Only a call of a running process gets an entry. -/
theorem set (h : Table codec epoch services calls performed) (hk : calls[k]? = some call)
    (call' : Call)
    (hsame : call'.node = call.node ∧ call'.epoch = call.epoch ∧ call'.command = call.command)
    (hentry : call'.entry = call.entry ∨ call.epoch = epoch call.node)
    (hnew : call'.phase = .drawn ∨ call'.phase = .registered → call'.entry = none)
    (hrec : ∀ o, call'.received = some o → Answered codec performed call' o)
    (hret : ∀ o, call'.phase = .returned o → Answered codec performed call' o) :
    Table codec epoch services (calls.set k call') performed := by
  obtain ⟨hn, he, hc⟩ := hsame
  refine ⟨fun {j d} hj => ?_, fun {j d} hj hp => ?_, fun {m nonce j} hl => ?_,
    fun {j j' d d'} hj hj' hne hnonce hlive => ?_, fun {j d o} hj ho => ?_, fun {j d o} hj hp => ?_⟩
  · rcases getElem?_set_some hj with ⟨-, rfl⟩ | ⟨-, hj⟩
    · rw [hn, he]
      exact h.past hk
    · exact h.past hj
  · rcases getElem?_set_some hj with ⟨-, rfl⟩ | ⟨-, hj⟩
    · exact hnew hp
    · exact h.unproposed hj hp
  · obtain ⟨d, hj, hdn, hde, hdc⟩ := h.waiters hl
    by_cases hjk : j = k
    · subst hjk
      rw [hk] at hj
      cases hj
      exact ⟨call', List.getElem?_set_self (List.getElem?_eq_some_iff.mp hk).1,
        hn.trans hdn, he.trans hde, (congrArg Command.nonce hc).trans hdc⟩
    · exact ⟨d, by rw [List.getElem?_set_ne (Ne.symm hjk)]; exact hj, hdn, hde, hdc⟩
  · rcases getElem?_set_some hj with ⟨rfl, rfl⟩ | ⟨hjk, hd⟩
    · rcases getElem?_set_some hj' with ⟨rfl, -⟩ | ⟨-, hd'⟩
      · exact absurd rfl hne
      · rw [hn, he] at hlive
        rw [hc] at hnonce
        rw [hn, he]
        exact h.distinct hk hd' hne hnonce hlive
    · rcases getElem?_set_some hj' with ⟨rfl, rfl⟩ | ⟨-, hd'⟩
      · rw [hc] at hnonce
        obtain ⟨hdn, hlt, hle⟩ := h.distinct hd hk hne hnonce hlive
        refine ⟨hn.trans hdn, he ▸ hlt, fun {i t} hit => ?_⟩
        rcases hentry with hsame | hcur
        · rw [hsame] at hit
          exact hle hit
        · -- It would be of a process before the running one.
          rw [hdn, ← hlive] at hcur
          omega
      · exact h.distinct hd hd' hne hnonce hlive
  · rcases getElem?_set_some hj with ⟨-, rfl⟩ | ⟨-, hj⟩
    · exact hrec o ho
    · exact h.received hj ho
  · rcases getElem?_set_some hj with ⟨-, rfl⟩ | ⟨-, hj⟩
    · exact hret o hp
    · exact h.returned hj hp

/-- A new call, whose nonce is unambiguous. -/
theorem draw (h : Table codec epoch services calls performed) {command : Command}
    (hfresh : ∀ {k : Nat} {d : Call}, calls[k]? = some d → d.command.nonce = command.nonce →
      d.node = n ∧ d.epoch < epoch n ∧ ∀ {i t}, d.entry = some (i, t) → i ≤ (services n).cursor) :
    Table codec epoch services (calls ++ [{ node := n, epoch := epoch n, command }])
      performed := by
  refine ⟨fun {j d} hj => ?_, fun {j d} hj hp => ?_, fun {m nonce j} hl => ?_,
    fun {j j' d d'} hj hj' hne hnonce hlive => ?_, fun {j d o} hj ho => ?_, fun {j d o} hj hp => ?_⟩
  · rcases getElem?_snoc hj with hj | ⟨-, rfl⟩
    · exact h.past hj
    · exact Nat.le_refl _
  · rcases getElem?_snoc hj with hj | ⟨-, rfl⟩
    · exact h.unproposed hj hp
    · rfl
  · obtain ⟨d, hj, hd⟩ := h.waiters hl
    have hlt := (List.getElem?_eq_some_iff.mp hj).1
    exact ⟨d, by rw [List.getElem?_append_left hlt]; exact hj, hd⟩
  · rcases getElem?_snoc hj with hj | ⟨rfl, rfl⟩
    · rcases getElem?_snoc hj' with hj' | ⟨-, rfl⟩
      · exact h.distinct hj hj' hne hnonce hlive
      · -- An older call of a running process does not have the new nonce.
        obtain ⟨hn, hlt, -⟩ := hfresh hj hnonce.symm
        rw [hn] at hlive
        omega
    · rcases getElem?_snoc hj' with hj' | ⟨rfl, -⟩
      · exact hfresh hj' hnonce
      · exact absurd rfl hne
  · rcases getElem?_snoc hj with hj | ⟨-, rfl⟩
    · exact h.received hj ho
    · cases ho
  · rcases getElem?_snoc hj with hj | ⟨-, rfl⟩
    · exact h.returned hj hp
    · cases hp

/-- A new process has no waiters, and the calls of the old one are over. -/
theorem restart {epoch' : NodeId → Nat} (h : Table codec epoch services calls performed)
    (hself : epoch' n = epoch n + 1) (hepoch : ∀ m, m ≠ n → epoch' m = epoch m)
    (hstart : (services' n).waiters = ∅) (hservices : ∀ m, m ≠ n → services' m = services m) :
    Table codec epoch' services' calls performed := by
  refine ⟨fun {j d} hj => ?_, h.unproposed, fun {m nonce j} hl => ?_,
    fun {j j' d d'} hj hj' hne hnonce hlive => ?_, h.received, h.returned⟩
  · have := h.past hj
    by_cases hd : d.node = n
    · rw [hd] at this ⊢
      omega
    · rw [hepoch _ hd]
      exact this
  · by_cases hm : m = n
    · rw [hm, hstart, Finmap.lookup_empty] at hl
      cases hl
    · rw [hservices m hm] at hl
      rw [hepoch m hm]
      exact h.waiters hl
  · have hpast := h.past hj
    by_cases hd : d.node = n
    · rw [hd] at hpast hlive
      omega
    · rw [hepoch _ hd] at hlive
      rw [hservices _ hd]
      exact h.distinct hj hj' hne hnonce hlive

end Table

/-- What is left after an erasure was there before. -/
theorem lookup_of_erase {waiters : Raft.HashMap UInt64 Nat} {x nonce : UInt64}
    (h : (waiters.erase x).lookup nonce = some k) : waiters.lookup nonce = some k := by
  by_cases hx : nonce = x
  · subst hx
    rw [Finmap.lookup_erase] at h
    cases h
  · rwa [Finmap.lookup_erase_ne hx] at h

namespace Sourced

variable {calls : List Call}

theorem set (h : Sourced codec a calls) (hk : calls[k]? = some call) (call' : Call)
    (hcommand : call'.command = call.command)
    (hentry : call'.entry = call.entry ∨ call.entry = none) :
    Sourced codec a (calls.set k call') := by
  intro t i e ho
  obtain ⟨j, d, hj, hd, hcmd⟩ := h t i e ho
  by_cases hjk : j = k
  · subst hjk
    rw [hk] at hj
    cases hj
    refine ⟨j, call', List.getElem?_set_self (List.getElem?_eq_some_iff.mp hk).1, ?_, ?_⟩
    · rcases hentry with hsame | hnone
      · rw [hsame, hd]
      · rw [hnone] at hd
        cases hd
    · rw [hcommand, hcmd]
  · exact ⟨j, d, by rw [List.getElem?_set_ne (Ne.symm hjk)]; exact hj, hd, hcmd⟩

theorem draw (h : Sourced codec a calls) : Sourced codec a (calls ++ [call]) := by
  intro t i e ho
  obtain ⟨j, d, hj, hd⟩ := h t i e ho
  have hlt := (List.getElem?_eq_some_iff.mp hj).1
  exact ⟨j, d, by rw [List.getElem?_append_left hlt]; exact hj, hd⟩

end Sourced

namespace Fed

variable {raft raft' : Cluster} {services services' : NodeId → KvService σ} {sv : KvService σ}
  {act : Action}

/-- Nothing happens to the streams. -/
theorem frame (h : Fed cfg raft services a)
    (hsame : ∀ n, (services' n).cursor = (services n).cursor ∧
      (services' n).applies = (services n).applies) : Fed cfg raft services' a := by
  refine ⟨h.refines, fun n hn => ?_, fun n hn => ?_⟩
  · rw [(hsame n).1, (hsame n).2]
    exact h.streams n hn
  · rw [(hsame n).2]
    exact h.queued n hn

theorem update_frame (h : Fed cfg raft services a) (hc : sv.cursor = (services n).cursor)
    (ha : sv.applies = (services n).applies) :
    Fed cfg raft (Function.update services n sv) a := by
  apply h.frame
  intro m
  by_cases hm : m = n
  · subst hm
    rw [Function.update_self]
    exact ⟨hc, ha⟩
  · rw [Function.update_of_ne hm]
    exact ⟨rfl, rfl⟩

/-- Raft moves, but delivers nothing and starts no process. -/
theorem advance (h : Fed cfg raft services a) (hstep : raft.step cfg act = some raft')
    (hdrain : ∀ n, act ≠ .drain n) (hrestart : ∀ n now draw, act ≠ .restart n now draw) :
    ∃ a', Answers cfg True raft a act raft' a' ∧ Fed cfg raft' services a' := by
  obtain ⟨a', hans⟩ := Raft.step_refines h.refines (fun hno => absurd trivial hno) hstep
  refine ⟨a', hans, hans.refines, fun n hn => ?_, fun n hn item hi => ?_⟩
  · obtain ⟨j, hfol, hfeeds⟩ := h.streams n hn
    exact ⟨j, hfol, hfeeds.advance (hans.advances n (hdrain n) (hrestart n))⟩
  · exact (Raft.step_recorded hstep).delivered (h.queued n hn item hi)

/-- The channel of `n` gets what its stream carries next. -/
theorem drain (h : Fed cfg raft services a) (hstep : raft.step cfg (.drain n) = some raft')
    {core : Raft.ConsensusModule} {out : List Apply}
    (htake : (raft.core n).takeApplies = some (core, out)) (sv : KvService σ)
    (hc : sv.cursor = (services n).cursor) (ha : sv.applies = (services n).applies ++ out) :
    ∃ a', Answers cfg True raft a (.drain n) raft' a' ∧
      Fed cfg raft' (Function.update services n sv) a' := by
  obtain ⟨a', hans⟩ := Raft.step_refines h.refines (fun hno => absurd trivial hno) hstep
  have hrec := Raft.step_recorded hstep
  obtain ⟨hn, core', out', htake', rfl⟩ := Raft.Cluster.step_drain hstep
  rw [htake] at htake'
  cases htake'
  refine ⟨a', hans, hans.refines, fun m hm => ?_, fun m hm item hi => ?_⟩
  · obtain ⟨j, hfol, hfeeds⟩ := h.streams m hm
    by_cases hmn : m = n
    · subst hmn
      obtain ⟨hout, hnext⟩ := Raft.takeApplies_follows (h.refines.nodes m hn) hfeeds htake
      rw [Function.update_self, hc, ha]
      refine ⟨_, hfol.append hout, ?_⟩
      rw [Raft.core_update_self (p := { raft.procs m with core }) rfl]
      exact hnext
    · rw [Function.update_of_ne hmn]
      refine ⟨j, hfol, hfeeds.advance (hans.advances m ?_ nofun)⟩
      exact fun heq => hmn (Action.drain.inj heq).symm
  · by_cases hmn : m = n
    · subst hmn
      rw [Function.update_self, ha] at hi
      rcases List.mem_append.mp hi with hold | hnew
      · exact hrec.delivered (h.queued m hm item hold)
      · exact List.mem_append_right _ (List.mem_map_of_mem hnew)
    · rw [Function.update_of_ne hmn] at hi
      exact hrec.delivered (h.queued m hm item hi)

/-- The apply loop of `n` takes an item out of its channel. -/
theorem take (h : Fed cfg raft services a) (hn : n ∈ cfg.members) {item : Apply}
    (hitem : (services n).applies.head? = some item)
    (hc : Follows (services n).cursor [item] sv.cursor)
    (ha : sv.applies = (services n).applies.tail) :
    Fed cfg raft (Function.update services n sv) a := by
  obtain ⟨rest, hrest⟩ := List.head?_eq_some_iff.mp hitem
  refine ⟨h.refines, fun m hm => ?_, fun m hm x hx => ?_⟩
  · obtain ⟨j, hfol, hfeeds⟩ := h.streams m hm
    by_cases hmn : m = n
    · subst hmn
      rw [Function.update_self, ha, hrest]
      rw [hrest] at hfol
      refine ⟨j, ?_, hfeeds⟩
      cases item with
      | command entry =>
          have heq : entry.index = sv.cursor := hc.2
          exact heq ▸ hfol.2
      | snapshot sn =>
          have heq : sn.lastIncludedIndex = sv.cursor := hc.2
          exact heq ▸ hfol.2
    · rw [Function.update_of_ne hmn]
      exact ⟨j, hfol, hfeeds⟩
  · by_cases hmn : m = n
    · subst hmn
      rw [Function.update_self, ha] at hx
      exact h.queued m hm x (List.mem_of_mem_tail hx)
    · rw [Function.update_of_ne hmn] at hx
      exact h.queued m hm x hx

/-- What the apply loop of `n` takes next is delivered, and goes on from its cursor. -/
theorem next (h : Fed cfg raft services a) (hn : n ∈ cfg.members) {item : Apply}
    (hitem : (services n).applies.head? = some item) :
    Raft.ItemOk cfg raft.taken a item ∧ ∃ i, Follows (services n).cursor [item] i := by
  obtain ⟨rest, hrest⟩ := List.head?_eq_some_iff.mp hitem
  obtain ⟨j, hfol, -⟩ := h.streams n hn
  rw [hrest] at hfol
  refine ⟨h.refines.delivered _ (h.queued n hn item ?_), ?_⟩
  · rw [hrest]
    exact List.mem_cons_self
  · cases item with
    | command entry => exact ⟨entry.index, hfol.1, rfl⟩
    | snapshot sn => exact ⟨sn.lastIncludedIndex, hfol.1, rfl⟩

theorem cursor_le (h : Fed cfg raft services a) (hn : n ∈ cfg.members) :
    (services n).cursor ≤ (raft.core n).lastApplied := by
  obtain ⟨j, hfollows, hfeeds⟩ := h.streams n hn
  have hle := hfollows.le
  rcases hfeeds with ⟨-, hj⟩ | ⟨-, hj⟩
  · omega
  · omega

theorem restart (h : Fed cfg raft services a) {now : Instant} {draw : Nat}
    (hstep : raft.step cfg (.restart n now draw) = some raft') (sv : KvService σ)
    (hc : sv.cursor = 0) (ha : sv.applies = []) :
    ∃ a', Answers cfg True raft a (.restart n now draw) raft' a' ∧
      Fed cfg raft' (Function.update services n sv) a' := by
  obtain ⟨a', hans⟩ := Raft.step_refines h.refines (fun hno => absurd trivial hno) hstep
  have hrec := Raft.step_recorded hstep
  obtain ⟨-, rfl⟩ := Raft.Cluster.step_restart hstep
  refine ⟨a', hans, hans.refines, fun m hm => ?_, fun m hm item hi => ?_⟩
  · by_cases hmn : m = n
    · subst hmn
      have hnode := hans.refines.nodes m hm
      have hcore : ∀ p, Cluster.core { raft with procs := Function.update raft.procs m p } m =
          p.core := fun _ => Raft.core_update_self rfl
      rw [hcore] at hnode
      rw [Function.update_self, hc, ha, hcore]
      exact ⟨0, rfl, Raft.startNode_feeds hnode⟩
    · obtain ⟨j, hfol, hfeeds⟩ := h.streams m hm
      rw [Function.update_of_ne hmn]
      refine ⟨j, hfol, hfeeds.advance (hans.advances m nofun ?_)⟩
      exact fun _ _ heq => hmn (Action.restart.inj heq).1.symm
  · by_cases hmn : m = n
    · subst hmn
      rw [Function.update_self, ha] at hi
      cases hi
    · rw [Function.update_of_ne hmn] at hi
      exact hrec.delivered (h.queued m hm item hi)

end Fed

/-! ## What the apply loop takes -/

theorem KvCluster.of_callIn {phases : List Phase} (h : s.callIn k phases = some call) :
    s.calls[k]? = some call ∧ call.epoch = s.epoch call.node ∧ call.phase ∈ phases := by
  unfold callIn at h
  obtain ⟨d, hd, h⟩ := Option.bind_eq_some_iff.mp h
  obtain ⟨hlive, h⟩ := of_guard h
  cases h
  exact ⟨hd, hlive⟩

namespace KvInv

/-- A committed entry was proposed by a call. -/
theorem source (h : KvInv cfg codec s a) {T i : Nat} {p : List LogEntry} {e : LogEntry}
    (hp : Raft.Commits cfg a T p) (he : p[i]? = some e) :
    ∃ (k : Nat) (call : Call), s.calls[k]? = some call ∧ call.entry = some (i + 1, e.term) ∧
      e.command = codec.encode call.command :=
  h.sourced _ _ _ (hp.owns h.fed.refines.safe he)

/-- A waiter that is found under the nonce of an applied entry is the call that proposed it. -/
theorem own_entry (h : KvInv cfg codec s a) (hcodec : codec.Lossless) (hn : n ∈ cfg.members)
    {entry : Applied} (hitem : (s.services n).applies.head? = some (.command entry))
    {command : Command} (hdec : codec.decode entry.command = some command)
    (hw : (s.services n).waiters.lookup command.nonce = some k) :
    ∃ call, s.calls[k]? = some call ∧ call.node = n ∧ call.epoch = s.epoch n ∧
      call.command = command ∧ call.entry = some (entry.index, entry.term) ∧
      entry.command = codec.encode command := by
  obtain ⟨⟨hpos, T, p, hp, he⟩, i, hnext, -⟩ := h.fed.next hn hitem
  obtain ⟨j, d, hj, hd, hbytes⟩ := h.source hp he
  have hpos : 0 < entry.index := hpos
  rw [Nat.sub_add_cancel hpos] at hd
  have hbytes : entry.command = codec.encode d.command := hbytes
  have hcommand : d.command = command := by
    rw [hbytes, hcodec] at hdec
    exact Option.some.inj hdec
  obtain ⟨call, hk, hnode, hepoch, hnonce⟩ := h.table.waiters hw
  by_cases hjk : j = k
  · subst hjk
    rw [hk] at hj
    cases hj
    exact ⟨_, hk, hnode, hepoch, hcommand, hd, hcommand ▸ hbytes⟩
  · -- Another call with this nonce proposed at an index that is already behind.
    obtain ⟨-, -, hle⟩ := h.table.distinct hk hj hjk (by rw [hcommand, hnonce])
      (by rw [hepoch, hnode])
    have := hle hd
    rw [hnode] at this
    omega

/-! ## One lemma for each way a step can end -/

theorem epoch_eq {raft : Cluster} {act : Action} (hrec : Raft.Recorded s.raft act raft)
    (hrestart : ∀ n now draw, act ≠ .restart n now draw) :
    ({ s with raft } : KvCluster σ).epoch = s.epoch :=
  funext fun n => hrec.epoch n (hrestart n)

/-- Nothing is proposed. -/
theorem sourced_of_answers (h : KvInv cfg codec s a) {raft : Cluster} {act : Action}
    (hans : Answers cfg True s.raft a act raft a') (hact : ∀ n command, act ≠ .propose n command) :
    Sourced codec a' s.calls := by
  intro t i e ho
  rcases hans.adds ho with hold | ⟨n, command, hpropose, -⟩
  · exact h.sourced t i e hold
  · exact absurd hpropose (hact n command)

theorem raft (h : KvInv cfg codec s a) {act : Action} {raft : Cluster}
    (hact : internal act = true) (hraft : s.raft.step cfg act = some raft) :
    ∃ a', Later cfg.quorums LogEntry.term a a' ∧ KvInv cfg codec { s with raft } a' := by
  have hrestart : ∀ n now draw, act ≠ .restart n now draw := by
    rintro n now draw rfl
    cases hact
  obtain ⟨a', hans, hfed⟩ := h.fed.advance hraft (by rintro n rfl; cases hact) hrestart
  refine ⟨a', hans.later, hfed, h.sourced_of_answers hans (by rintro n c rfl; cases hact), ?_⟩
  rw [epoch_eq (Raft.step_recorded hraft) hrestart]
  exact h.table

theorem drain (h : KvInv cfg codec s a) {raft : Cluster} {core : Raft.ConsensusModule}
    {out : List Apply} (hraft : s.raft.step cfg (.drain n) = some raft)
    (htake : (s.raft.core n).takeApplies = some (core, out)) :
    ∃ a', Later cfg.quorums LogEntry.term a a' ∧ KvInv cfg codec (.setService { s with raft } n
      { s.services n with applies := (s.services n).applies ++ out }) a' := by
  obtain ⟨a', hans, hfed⟩ := h.fed.drain hraft htake
    { s.services n with applies := (s.services n).applies ++ out } rfl rfl
  refine ⟨a', hans.later, hfed, h.sourced_of_answers hans nofun, ?_⟩
  show Table codec ({ s with raft } : KvCluster σ).epoch _ s.calls s.performed
  rw [epoch_eq (Raft.step_recorded hraft) nofun]
  exact h.table.update _ (fun hl => Or.inl hl) (Nat.le_refl _)

theorem execute (h : KvInv cfg codec s a) {command : Command}
    (hun : Unambiguous s (.execute n command)) :
    KvInv cfg codec (.setService
      { s with
        calls := s.calls ++ [
          { node := n, epoch := s.epoch n
            command := { command with nonce := nextNonce n (s.services n).nonce } }] } n
      { s.services n with nonce := (s.services n).nonce + 1 }) a := by
  refine ⟨h.fed.update_frame rfl rfl, h.sourced.draw, ?_⟩
  refine Table.update (h.table.draw fun hk hnonce => ?_) _ (fun hl => Or.inl hl) (Nat.le_refl _)
  obtain ⟨hn, hlt, hle⟩ := hun _ (List.mem_of_getElem? hk) hnonce
  exact ⟨hn, hlt, fun he => hle _ _ he⟩

theorem register (h : KvInv cfg codec s a) (hin : s.callIn k [.drawn] = some call) :
    KvInv cfg codec ((s.setCall k { call with phase := .registered }).setService call.node
      { s.services call.node with
        waiters := (s.services call.node).waiters.insert call.command.nonce k }) a := by
  obtain ⟨hk, hlive, hphase⟩ := KvCluster.of_callIn hin
  have hentry := h.table.unproposed hk (Or.inl (List.mem_singleton.mp hphase))
  have hrec : ∀ o, call.received = some o → Answered codec s.performed call o :=
    fun o => h.table.received hk
  refine ⟨h.fed.update_frame rfl rfl, h.sourced.set hk _ rfl (Or.inl rfl), ?_⟩
  refine (h.table.set hk { call with phase := .registered } ⟨rfl, rfl, rfl⟩ (Or.inl rfl)
    (fun _ => hentry) hrec nofun).update { s.services call.node with
      waiters := (s.services call.node).waiters.insert call.command.nonce k }
    (fun {nonce j} hl => ?_) (Nat.le_refl _)
  by_cases hnonce : nonce = call.command.nonce
  · subst hnonce
    rw [Finmap.lookup_insert] at hl
    cases hl
    exact Or.inr ⟨_, List.getElem?_set_self (List.getElem?_eq_some_iff.mp hk).1, rfl, hlive, rfl⟩
  · rw [Finmap.lookup_insert_of_ne _ hnonce] at hl
    exact Or.inl hl

theorem expire (h : KvInv cfg codec s a) (hin : s.callIn k [.waiting] = some call) :
    KvInv cfg codec (s.setCall k { call with phase := .expired }) a := by
  obtain ⟨hk, -, -⟩ := KvCluster.of_callIn hin
  have hrec : ∀ o, call.received = some o → Answered codec s.performed call o :=
    fun o => h.table.received hk
  exact ⟨h.fed, h.sourced.set hk _ rfl (Or.inl rfl),
    h.table.set hk _ ⟨rfl, rfl, rfl⟩ (Or.inl rfl) nofun hrec nofun⟩

theorem cleanup (h : KvInv cfg codec s a) (hin : s.callIn k [.refused, .expired] = some call) :
    KvInv cfg codec ((s.setCall k { call with phase := .failed }).setService call.node
      { s.services call.node with
        waiters := (s.services call.node).waiters.erase call.command.nonce }) a := by
  obtain ⟨hk, -, -⟩ := KvCluster.of_callIn hin
  have hrec : ∀ o, call.received = some o → Answered codec s.performed call o :=
    fun o => h.table.received hk
  refine ⟨h.fed.update_frame rfl rfl, h.sourced.set hk _ rfl (Or.inl rfl), ?_⟩
  exact (h.table.set hk { call with phase := .failed } ⟨rfl, rfl, rfl⟩ (Or.inl rfl) nofun hrec
    nofun).update { s.services call.node with
      waiters := (s.services call.node).waiters.erase call.command.nonce }
    (fun hl => Or.inl (lookup_of_erase hl)) (Nat.le_refl _)

theorem respond (h : KvInv cfg codec s a) {outcome : Outcome}
    (hin : s.callIn k [.waiting] = some call) (hout : call.received = some outcome) :
    KvInv cfg codec (s.setCall k { call with phase := .returned outcome }) a := by
  obtain ⟨hk, -, -⟩ := KvCluster.of_callIn hin
  have hrec : ∀ o, call.received = some o → Answered codec s.performed call o :=
    fun o => h.table.received hk
  refine ⟨h.fed, h.sourced.set hk _ rfl (Or.inl rfl),
    h.table.set hk _ ⟨rfl, rfl, rfl⟩ (Or.inl rfl) nofun hrec fun o ho => ?_⟩
  cases ho
  exact hrec outcome hout

/-- What a call that is about to propose has in the table. -/
theorem unproposed (h : KvInv cfg codec s a) (hin : s.callIn k [.registered] = some call) :
    call.entry = none ∧ ∀ (call' : Call), call'.received = call.received →
      ∀ o, call'.received = some o → Answered codec s.performed call' o := by
  obtain ⟨hk, -, hphase⟩ := KvCluster.of_callIn hin
  have hentry := h.table.unproposed hk (Or.inr (List.mem_singleton.mp hphase))
  refine ⟨hentry, fun call' hsame o ho => ?_⟩
  obtain ⟨index, term, he, -⟩ := h.table.received hk (hsame.symm.trans ho)
  rw [hentry] at he
  cases he

theorem accepted (h : KvInv cfg codec s a) {raft : Cluster} {index : Nat}
    (hin : s.callIn k [.registered] = some call)
    (hraft : s.raft.step cfg (.propose call.node (codec.encode call.command)) = some raft)
    (hindex : ((s.raft.core call.node).submitCommand (codec.encode call.command)).2 = some index) :
    ∃ a', Later cfg.quorums LogEntry.term a a' ∧ KvInv cfg codec (.setCall { s with raft } k
      { call with phase := .waiting
                  entry := some (index, (s.raft.core call.node).currentTerm) }) a' := by
  obtain ⟨hk, hlive, -⟩ := KvCluster.of_callIn hin
  obtain ⟨hentry, hrec⟩ := h.unproposed hin
  obtain ⟨a', hans, hfed⟩ := h.fed.advance hraft nofun nofun
  refine ⟨a', hans.later, hfed, fun t i e ho => ?_, ?_⟩
  · rcases hans.adds ho with hold | ⟨n, bytes, hact, hnew, ht, he⟩
    · exact h.sourced.set hk { call with phase := .waiting, entry := some (index, _) } rfl
        (Or.inr hentry) t i e hold
    · -- The entry this call appends.
      cases hact
      rw [hindex] at hnew
      cases hnew
      refine ⟨k, _, List.getElem?_set_self (List.getElem?_eq_some_iff.mp hk).1, ?_, ?_⟩
      · rw [ht]
      · rw [he]
  · show Table codec ({ s with raft } : KvCluster σ).epoch s.services _ s.performed
    rw [epoch_eq (Raft.step_recorded hraft) nofun]
    exact h.table.set hk _ ⟨rfl, rfl, rfl⟩ (Or.inr hlive) nofun (hrec _ rfl) nofun

theorem refused (h : KvInv cfg codec s a) {raft : Cluster}
    (hin : s.callIn k [.registered] = some call)
    (hraft : s.raft.step cfg (.propose call.node (codec.encode call.command)) = some raft)
    (hindex : ((s.raft.core call.node).submitCommand (codec.encode call.command)).2 = none) :
    ∃ a', Later cfg.quorums LogEntry.term a a' ∧
      KvInv cfg codec (.setCall { s with raft } k { call with phase := .refused }) a' := by
  obtain ⟨hk, -, -⟩ := KvCluster.of_callIn hin
  obtain ⟨-, hrec⟩ := h.unproposed hin
  obtain ⟨a', hans, hfed⟩ := h.fed.advance hraft nofun nofun
  refine ⟨a', hans.later, hfed, fun t i e ho => ?_, ?_⟩
  · rcases hans.adds ho with hold | ⟨n, bytes, hact, hnew, -⟩
    · exact h.sourced.set hk { call with phase := .refused } rfl (Or.inl rfl) t i e hold
    · cases hact
      rw [hindex] at hnew
      cases hnew
  · show Table codec ({ s with raft } : KvCluster σ).epoch s.services _ s.performed
    rw [epoch_eq (Raft.step_recorded hraft) nofun]
    exact h.table.set hk _ ⟨rfl, rfl, rfl⟩ (Or.inl rfl) nofun (hrec _ rfl) nofun

/-- The apply loop takes a command: whoever is woken gets the outcome of its own entry. -/
theorem wake (h : KvInv cfg codec s a) (hcodec : codec.Lossless) (hn : n ∈ cfg.members)
    {entry : Applied} (hitem : (s.services n).applies.head? = some (.command entry))
    {command : Command} (hdec : codec.decode entry.command = some command)
    {sv : KvService σ} (hwaiters : sv.waiters = (s.services n).waiters)
    (hc : Follows (s.services n).cursor [.command entry] sv.cursor)
    (ha : sv.applies = (s.services n).applies.tail) :
    KvInv cfg codec ((s.setService n sv).apply db n entry command) a := by
  have hle : (s.services n).cursor ≤ sv.cursor := by
    obtain ⟨hnext, heq⟩ := hc
    have heq : entry.index = sv.cursor := heq
    omega
  have hself : (s.setService n sv).services n = sv := Function.update_self ..
  unfold KvCluster.apply
  dsimp only
  rw [hself]
  generalize sv.replica.applyCommitted db command = result
  obtain ⟨replica, outcome⟩ := result
  split
  · next j hw =>
    rw [hwaiters] at hw
    obtain ⟨call, hj, hnode, hepoch, hcommand, hentry, hbytes⟩ :=
      h.own_entry hcodec hn hitem hdec hw
    have hold : ∀ o, call.phase = .returned o → Answered codec s.performed call o :=
      fun o => h.table.returned hj
    have hnew := h.table.unproposed hj
    unfold KvCluster.send KvCluster.setService
    dsimp only
    rw [hj, Function.update_idem]
    refine ⟨h.fed.take hn hitem hc ha, h.sourced.set hj _ rfl (Or.inl rfl), ?_⟩
    have hsub := List.subset_append_left s.performed
      [{ node := n, epoch := s.epoch n, entry, command, outcome }]
    have htable := (h.table.mono hsub).set hj { call with received := some outcome }
      ⟨rfl, rfl, rfl⟩ (Or.inl rfl) hnew (fun o ho => ?_) fun o hp => (hold o hp).mono hsub
    · exact htable.update { sv with replica, waiters := sv.waiters.erase command.nonce }
        (fun hl => Or.inl (hwaiters ▸ lookup_of_erase hl)) hle
    · cases ho
      refine ⟨entry.index, entry.term, hentry, List.mem_append_right _ ?_⟩
      rw [List.mem_singleton, hnode, hepoch, hcommand, ← hbytes]
  · unfold KvCluster.setService
    dsimp only
    rw [Function.update_idem]
    exact ⟨h.fed.take hn hitem hc ha, h.sourced,
      (h.table.mono (List.subset_append_left _ _)).update _
        (fun hl => Or.inl (hwaiters ▸ hl)) hle⟩

/-- The apply loop takes an item and wakes nobody. -/
theorem take (h : KvInv cfg codec s a) (hn : n ∈ cfg.members) {item : Apply}
    (hitem : (s.services n).applies.head? = some item) {sv : KvService σ}
    (hwaiters : sv.waiters = (s.services n).waiters)
    (hc : Follows (s.services n).cursor [item] sv.cursor)
    (hle : (s.services n).cursor ≤ sv.cursor)
    (ha : sv.applies = (s.services n).applies.tail) : KvInv cfg codec (s.setService n sv) a :=
  ⟨h.fed.take hn hitem hc ha, h.sourced,
    h.table.update _ (fun hl => Or.inl (hwaiters ▸ hl)) hle⟩

theorem applied (h : KvInv cfg codec s a) (hcodec : codec.Lossless) {entry : Applied}
    {command : Command} (hn : n ∈ cfg.members)
    (hitem : (s.services n).applies.head? = some (.command entry))
    (hdec : codec.decode entry.command = some command) :
    KvInv cfg codec ((s.setService n
      { s.services n with
        applies := (s.services n).applies.tail
        loop := .applied entry.index
        cursor := entry.index }).apply db n entry command) a := by
  obtain ⟨-, i, hnext⟩ := h.fed.next hn hitem
  exact h.wake hcodec hn hitem hdec rfl ⟨hnext.1, rfl⟩ rfl

theorem skipped (h : KvInv cfg codec s a) {entry : Applied} (hn : n ∈ cfg.members)
    (hitem : (s.services n).applies.head? = some (.command entry)) :
    KvInv cfg codec (s.setService n
      { s.services n with
        applies := (s.services n).applies.tail
        loop := .applied entry.index
        cursor := entry.index }) a := by
  obtain ⟨-, i, hnext⟩ := h.fed.next hn hitem
  have hle : (s.services n).cursor ≤ entry.index := by
    have := hnext.1
    omega
  exact h.take hn hitem rfl ⟨hnext.1, rfl⟩ hle rfl

theorem installed (h : KvInv cfg codec s a) {snapshot : Raft.Snapshot} (hn : n ∈ cfg.members)
    (hitem : (s.services n).applies.head? = some (.snapshot snapshot)) (replica : Replica σ) :
    KvInv cfg codec (s.setService n
      { s.services n with
        applies := (s.services n).applies.tail
        replica
        cursor := snapshot.lastIncludedIndex }) a := by
  obtain ⟨-, i, hnext⟩ := h.fed.next hn hitem
  exact h.take hn hitem rfl ⟨hnext.1, rfl⟩ (Nat.le_of_lt hnext.1) rfl

theorem check (h : KvInv cfg codec s a) (loop : LoopState) :
    KvInv cfg codec (s.setService n { s.services n with loop }) a :=
  ⟨h.fed.update_frame rfl rfl, h.sourced, h.table.update _ (fun hl => Or.inl hl) (Nat.le_refl _)⟩

theorem capture (h : KvInv cfg codec s a) {raft : Cluster} {index : Nat} {data : Raft.Bytes}
    (hraft : s.raft.step cfg (.snapshot n index data) = some raft) :
    ∃ a', Later cfg.quorums LogEntry.term a a' ∧ KvInv cfg codec (.setService { s with raft } n
      { s.services n with loop := .receiving }) a' := by
  obtain ⟨a', hans, hfed⟩ := h.fed.advance hraft nofun nofun
  refine ⟨a', hans.later, hfed.update_frame rfl rfl, h.sourced_of_answers hans nofun, ?_⟩
  show Table codec ({ s with raft } : KvCluster σ).epoch _ s.calls s.performed
  rw [epoch_eq (Raft.step_recorded hraft) nofun]
  exact h.table.update _ (fun hl => Or.inl hl) (Nat.le_refl _)

theorem restart (h : KvInv cfg codec s a) {now : Instant} {draw : Nat} {raft : Cluster}
    (hraft : s.raft.step cfg (.restart n now draw) = some raft) :
    ∃ a', Later cfg.quorums LogEntry.term a a' ∧ KvInv cfg codec (.setService { s with raft } n
      (.start (s.services n).replica.store)) a' := by
  have hrec := Raft.step_recorded hraft
  obtain ⟨a', hans, hfed⟩ := h.fed.restart hraft (.start (s.services n).replica.store) rfl rfl
  refine ⟨a', hans.later, hfed, h.sourced_of_answers hans nofun, h.table.restart ?_ (fun m hm => ?_)
    ?_ fun m hm => Function.update_of_ne hm _ _⟩
  · exact Raft.restart_epoch hraft
  · exact hrec.epoch m fun now' draw' heq => hm (Action.restart.inj heq).1.symm
  · show (Function.update s.services n _ n).waiters = ∅
    rw [Function.update_self]
    rfl

/-- **One step of the service.** -/
theorem step (h : KvInv cfg codec s a) (hcodec : codec.Lossless) {act : KvAction}
    (hun : Unambiguous s act) (hstep : s.step cfg db codec act = some s') :
    ∃ a', Later cfg.quorums LogEntry.term a a' ∧ KvInv cfg codec s' a' := by
  have stay : KvInv cfg codec s' a → ∃ a', Later cfg.quorums LogEntry.term a a' ∧
      KvInv cfg codec s' a' := fun h' => ⟨a, Relation.ReflTransGen.refl, h'⟩
  cases KvCluster.step_sound hstep with
  | raft hact hraft => exact h.raft hact hraft
  | drain hraft htake => exact h.drain hraft htake
  | execute hn => exact stay (h.execute hun)
  | register hin => exact stay (h.register hin)
  | accepted hin hraft hindex => exact h.accepted hin hraft hindex
  | refused hin hraft hindex => exact h.refused hin hraft hindex
  | expire hin hnone => exact stay (h.expire hin)
  | cleanup hin => exact stay (h.cleanup hin)
  | respond hin hout => exact stay (h.respond hin hout)
  | applied hn hloop hitem hdec => exact stay (h.applied hcodec hn hitem hdec)
  | skipped hn hloop hitem hdec => exact stay (h.skipped hn hitem)
  | installed hn hloop hitem => exact stay (h.installed hn hitem _)
  | check hloop => exact stay (h.check _)
  | capture hloop hfit hraft => exact h.capture hraft
  | restart hraft => exact h.restart hraft

theorem init (store : NodeId → σ) : KvInv cfg codec (.init cfg store) State.init where
  fed := ⟨Raft.init_refines cfg True, fun n hn => ⟨0, rfl, Or.inl ⟨rfl, rfl⟩⟩, nofun⟩
  sourced := by
    rintro t i e ⟨he, -⟩
    cases he
  table :=
    { past := nofun
      unproposed := nofun
      waiters := nofun
      distinct := nofun
      received := nofun
      returned := nofun }

end KvInv

/-! ## What becomes of a call -/

/-- The part of a call that never changes. -/
def Call.identity (call : Call) : NodeId × Nat × Command := (call.node, call.epoch, call.command)

theorem identity_set {calls : List Call} (hk : calls[k]? = some call)
    (hsame : call'.identity = call.identity) :
    (calls.set k call').map Call.identity = calls.map Call.identity := by
  have hmap : (calls.map Call.identity)[k]? = some call.identity := by
    rw [List.getElem?_map, hk]
    rfl
  obtain ⟨hlt, heq⟩ := List.getElem?_eq_some_iff.mp hmap
  rw [List.map_set, hsame, ← heq, List.set_getElem_self]

/-- A step that draws no nonce: the calls are the same, a process that goes on keeps its counter,
    and nothing is undone. -/
structure Keeps (s s' : KvCluster σ) : Prop where
  calls : s'.calls.map Call.identity = s.calls.map Call.identity
  counter : ∀ m, s'.epoch m = s.epoch m ∧ (s'.services m).nonce = (s.services m).nonce ∨
    s.epoch m < s'.epoch m
  performed : s.performed ⊆ s'.performed

theorem Keeps.origin (h : Keeps s s') (hcall : call' ∈ s'.calls) :
    ∃ call ∈ s.calls, call.identity = call'.identity := by
  have := List.mem_map_of_mem (f := Call.identity) hcall
  rw [h.calls] at this
  exact List.mem_map.mp this

/-- One process changes, within its incarnation. -/
theorem Keeps.of_update {sv : KvService σ}
    (hcalls : s'.calls.map Call.identity = s.calls.map Call.identity)
    (hepoch : ∀ m, s'.epoch m = s.epoch m)
    (hservices : s'.services = Function.update s.services n sv)
    (hnonce : sv.nonce = (s.services n).nonce) (hperformed : s.performed ⊆ s'.performed) :
    Keeps s s' := by
  refine ⟨hcalls, fun m => Or.inl ⟨hepoch m, ?_⟩, hperformed⟩
  rw [hservices]
  by_cases hm : m = n
  · subst hm
    rw [Function.update_self]
    exact hnonce
  · rw [Function.update_of_ne hm]

/-- What `apply` does to the process, to the calls and to the history. -/
theorem apply_result (db : Db σ) (sv : KvService σ) (entry : Applied) (command : Command) :
    ∃ waiters calls, calls.map Call.identity = s.calls.map Call.identity ∧
      (s.setService n sv).apply db n entry command =
        { s with
          services := Function.update s.services n
            { sv with replica := (sv.replica.applyCommitted db command).1, waiters }
          calls
          performed := s.performed ++
            [⟨n, s.epoch n, entry, command, (sv.replica.applyCommitted db command).2⟩] } := by
  have hself : (s.setService n sv).services n = sv := Function.update_self ..
  unfold KvCluster.apply
  dsimp only
  rw [hself]
  split
  · next j hw =>
    unfold KvCluster.send KvCluster.setService
    dsimp only
    rw [Function.update_idem]
    split
    · next call hj =>
      exact ⟨_, s.calls.set j { call with received := some _ }, identity_set hj rfl, rfl⟩
    · exact ⟨_, _, rfl, rfl⟩
  · unfold KvCluster.setService
    dsimp only
    rw [Function.update_idem]
    exact ⟨_, _, rfl, rfl⟩

/-- The same once the apply loop has taken the entry from its channel. -/
theorem applied_result (s : KvCluster σ) (db : Db σ) (n : NodeId) (entry : Applied)
    (command : Command) :
    ∃ waiters calls, calls.map Call.identity = s.calls.map Call.identity ∧
      (s.setService n
        { s.services n with
          applies := (s.services n).applies.tail
          loop := .applied entry.index
          cursor := entry.index }).apply db n entry command =
        { s with
          services := Function.update s.services n
            { s.services n with
              replica := ((s.services n).replica.applyCommitted db command).1
              waiters
              applies := (s.services n).applies.tail
              loop := .applied entry.index
              cursor := entry.index }
          calls
          performed := s.performed ++ [⟨n, s.epoch n, entry, command,
            ((s.services n).replica.applyCommitted db command).2⟩] } :=
  apply_result db _ entry command

/-- A process goes on until it is restarted. -/
theorem KvCluster.step_epoch {act : KvAction} (hstep : s.step cfg db codec act = some s')
    (hact : ∀ now draw, act ≠ .restart n now draw) : s'.epoch n = s.epoch n := by
  have hraft : ∀ {act raft}, s.raft.step cfg act = some raft →
      (∀ now draw, act ≠ .restart n now draw) → (raft.procs n).epoch = s.epoch n :=
    fun hraft hact => (Raft.step_recorded hraft).epoch n hact
  cases KvCluster.step_sound hstep with
  | raft hinternal hr =>
      refine hraft hr ?_
      rintro now draw rfl
      cases hinternal
  | drain hr htake => exact hraft hr nofun
  | accepted hin hr hindex => exact hraft hr nofun
  | refused hin hr hindex => exact hraft hr nofun
  | capture hloop hfit hr => exact hraft hr nofun
  | restart hr =>
      refine hraft hr fun now draw heq => ?_
      cases heq
      exact hact _ _ rfl
  | @applied m order entry command hn hloop hitem hdec =>
      obtain ⟨waiters, calls, -, heq⟩ := applied_result s db m entry command
      rw [heq]
      rfl
  | _ => rfl

theorem step_keeps {act : KvAction} (hact : ∀ n command, act ≠ .execute n command)
    (hstep : s.step cfg db codec act = some s') : Keeps s s' := by
  have hepoch : (∀ m now draw, act ≠ .restart m now draw) → ∀ m, s'.epoch m = s.epoch m :=
    fun hact m => KvCluster.step_epoch hstep (hact m)
  cases KvCluster.step_sound hstep with
  | execute hn => exact absurd rfl (hact _ _)
  | raft => exact ⟨rfl, fun m => Or.inl ⟨hepoch nofun m, rfl⟩, List.Subset.refl _⟩
  | drain => exact .of_update rfl (hepoch nofun) rfl rfl (List.Subset.refl _)
  | register hin | cleanup hin =>
      exact .of_update (identity_set (KvCluster.of_callIn hin).1 rfl) (hepoch nofun) rfl rfl
        (List.Subset.refl _)
  | accepted hin | refused hin | expire hin | respond hin =>
      exact ⟨identity_set (KvCluster.of_callIn hin).1 rfl,
        fun m => Or.inl ⟨hepoch nofun m, rfl⟩, List.Subset.refl _⟩
  | @applied n order entry command hn hloop hitem hdec =>
      obtain ⟨waiters, calls, hcalls, heq⟩ := applied_result s db n entry command
      rw [heq]
      exact .of_update hcalls (fun _ => rfl) rfl rfl (List.subset_append_left _ _)
  | skipped | installed | check | capture =>
      exact .of_update rfl (hepoch nofun) rfl rfl (List.Subset.refl _)
  | @restart n now draw raft hraft =>
      refine ⟨rfl, fun m => ?_, List.Subset.refl _⟩
      by_cases hm : m = n
      · subst hm
        have := Raft.restart_epoch hraft
        exact Or.inr (by show s.epoch m < (raft.procs m).epoch; unfold KvCluster.epoch; omega)
      · refine Or.inl ⟨KvCluster.step_epoch hstep ?_, ?_⟩
        · exact fun now' draw' heq => hm (KvAction.restart.inj heq).1.symm
        · show (Function.update s.services n _ m).nonce = _
          rw [Function.update_of_ne hm]

/-! ## Nonces -/

theorem nextNonce_toNat {n : Nat} {c : UInt64} (hn : n < 2 ^ 16) (hc : c.toNat < 2 ^ 48) :
    (nextNonce n c).toNat = 2 ^ 48 * n + c.toNat := by
  have hid : (UInt64.ofNat n).toNat = n := UInt64.toNat_ofNat_of_lt' (by show n < 2 ^ 64; omega)
  have hhigh : n <<< 48 % 2 ^ 64 = 2 ^ 48 * n := by
    rw [Nat.shiftLeft_eq, Nat.mul_comm, Nat.mod_eq_of_lt (by omega)]
  have hlow : c.toNat &&& 2 ^ 48 - 1 = c.toNat := by
    rw [Nat.and_two_pow_sub_one_eq_mod, Nat.mod_eq_of_lt hc]
  unfold nextNonce
  rw [UInt64.toNat_or, UInt64.toNat_shiftLeft, UInt64.toNat_and, hid]
  show n <<< 48 % 2 ^ 64 ||| c.toNat &&& 2 ^ 48 - 1 = _
  rw [hhigh, hlow, ← Nat.two_pow_add_eq_or_of_lt hc]

/-- Within the layout, a nonce tells node and counter. -/
theorem nextNonce_inj {n m : Nat} {c d : UInt64} (hn : n < 2 ^ 16) (hm : m < 2 ^ 16)
    (hc : c.toNat < 2 ^ 48) (hd : d.toNat < 2 ^ 48) (h : nextNonce n c = nextNonce m d) :
    n = m ∧ c = d := by
  have h := congrArg UInt64.toNat h
  rw [nextNonce_toNat hn hc, nextNonce_toNat hm hd] at h
  have hnm : n = m := by omega
  subst hnm
  exact ⟨rfl, UInt64.toNat_inj.mp (by omega)⟩

/-- Every call has a nonce of the layout, below the counter if its process is running. -/
def Drawn (cfg : ClusterConfig) (s : KvCluster σ) : Prop :=
  ∀ call ∈ s.calls, call.node ∈ cfg.members ∧ call.epoch ≤ s.epoch call.node ∧
    ∃ c : UInt64, c.toNat < 2 ^ 48 ∧ call.command.nonce = nextNonce call.node c ∧
      (call.epoch = s.epoch call.node → c < (s.services call.node).nonce)

/-- Fewer than 2^48 nonces have been drawn by the process. -/
def Scarce (s : KvCluster σ) : KvAction → Prop
  | .execute n _ => (s.services n).nonce < 2 ^ 48
  | _ => True

/-- What earlier processes of the node proposed under the nonce to be drawn is already behind the
    apply loop of the running one. -/
def Retired (s : KvCluster σ) : KvAction → Prop
  | .execute n _ => ∀ call ∈ s.calls, call.node = n → call.epoch < s.epoch n →
      call.command.nonce = nextNonce n (s.services n).nonce →
      ∀ proposed ∈ call.entry, proposed.1 ≤ (s.services n).cursor
  | _ => True

instance (s : KvCluster σ) (act : KvAction) : Decidable (Scarce s act) := by
  cases act <;> unfold Scarce <;> infer_instance

instance (s : KvCluster σ) (act : KvAction) : Decidable (Retired s act) := by
  cases act <;> unfold Retired <;> infer_instance

theorem Drawn.unambiguous (h : Drawn cfg s) (hids : ∀ n ∈ cfg.members, n < 2 ^ 16)
    {act : KvAction} (hstep : s.step cfg db codec act = some s') (hscarce : Scarce s act)
    (hret : Retired s act) : Unambiguous s act := by
  cases act with
  | execute n command =>
      intro call hcall hnonce
      obtain ⟨hn, -⟩ := of_guard hstep
      obtain ⟨hm, hpast, c, hc, hdraw, hlive⟩ := h call hcall
      have hscarce : (s.services n).nonce.toNat < 2 ^ 48 := UInt64.lt_iff_toNat_lt.mp hscarce
      obtain ⟨hnode, rfl⟩ := nextNonce_inj (hids _ hm) (hids n hn) hc hscarce
        (hdraw.symm.trans hnonce)
      rw [hnode] at hpast hlive
      -- The running process has not drawn this counter yet.
      have hlt : call.epoch < s.epoch n :=
        lt_of_le_of_ne hpast fun hcur => UInt64.lt_irrefl _ (hlive hcur)
      exact ⟨hnode, hlt, fun i t hit => hret call hcall hnode hlt hnonce _ hit⟩
  | _ => trivial

theorem Drawn.step (h : Drawn cfg s) {act : KvAction} (hstep : s.step cfg db codec act = some s')
    (hscarce : Scarce s act) : Drawn cfg s' := by
  by_cases hact : ∃ n command, act = .execute n command
  · obtain ⟨n, command, rfl⟩ := hact
    obtain ⟨hn, heq⟩ := of_guard hstep
    cases heq
    have hscarce : (s.services n).nonce < 2 ^ 48 := hscarce
    have hsucc : (s.services n).nonce < (s.services n).nonce + 1 := by
      rw [UInt64.lt_iff_toNat_lt] at hscarce ⊢
      rw [UInt64.toNat_add]
      have : (2 ^ 48 : UInt64).toNat = 2 ^ 48 := rfl
      have : (1 : UInt64).toNat = 1 := rfl
      omega
    have hcounter : ∀ m, (s.services m).nonce ≤ (Function.update s.services n
        { s.services n with nonce := (s.services n).nonce + 1 } m).nonce := by
      intro m
      by_cases hm : m = n
      · subst hm
        rw [Function.update_self]
        exact UInt64.le_of_lt hsucc
      · rw [Function.update_of_ne hm]
        exact UInt64.le_refl _
    intro call hcall
    rcases List.mem_append.mp hcall with hold | hnew
    · obtain ⟨hm, hpast, c, hc, hdraw, hlive⟩ := h call hold
      exact ⟨hm, hpast, c, hc, hdraw, fun hcur => UInt64.lt_of_lt_of_le (hlive hcur) (hcounter _)⟩
    · rw [List.mem_singleton.mp hnew]
      refine ⟨hn, Nat.le_refl _, (s.services n).nonce, UInt64.lt_iff_toNat_lt.mp hscarce, rfl,
        fun _ => ?_⟩
      show _ < (Function.update s.services n _ n).nonce
      rw [Function.update_self]
      exact hsucc
  · have hkeeps := step_keeps (fun n command heq => hact ⟨n, command, heq⟩) hstep
    intro call' hcall'
    obtain ⟨call, hcall, hsame⟩ := hkeeps.origin hcall'
    obtain ⟨hm, hpast, c, hc, hdraw, hlive⟩ := h call hcall
    simp only [Call.identity, Prod.mk.injEq] at hsame
    obtain ⟨hn, he, hcmd⟩ := hsame
    rw [hn] at hm hpast hdraw hlive
    rw [he] at hpast hlive
    rw [hcmd] at hdraw
    rcases hkeeps.counter call'.node with ⟨hep, hsame⟩ | hgrown
    · rw [← hep] at hpast hlive
      rw [← hsame] at hlive
      exact ⟨hm, hpast, c, hc, hdraw, hlive⟩
    · exact ⟨hm, by omega, c, hc, hdraw, fun hcur => by omega⟩

/-! ## A request is answered with its own result -/

/-- **Own result.** In runs in which a nonce is drawn again only when the entries of its former
    calls are behind the apply loop: what `execute` returns is the outcome that this process got
    from `apply_committed` for the entry the call proposed. -/
theorem answered_by_own_entry (hcodec : codec.Lossless) (hids : ∀ n ∈ cfg.members, n < 2 ^ 16)
    {store : NodeId → σ}
    (hrun : Within (KvCluster.step cfg db codec) (fun s act => Scarce s act ∧ Retired s act)
      (.init cfg store) s)
    (hcall : call ∈ s.calls) {o : Outcome} (hret : call.phase = .returned o) :
    ∃ index term, call.entry = some (index, term) ∧
      { node := call.node, epoch := call.epoch
        entry := { index, term, command := codec.encode call.command }
        command := call.command, outcome := o } ∈ s.performed := by
  have hinv : ∃ a, KvInv cfg codec s a ∧ Drawn cfg s := by
    refine hrun.invariant (I := fun s => ∃ a, KvInv cfg codec s a ∧ Drawn cfg s) ?_
      ⟨State.init, KvInv.init store, nofun⟩
    rintro s act s' ⟨a, hkv, hdrawn⟩ ⟨hscarce, hretired⟩ hstep
    obtain ⟨a', -, hkv'⟩ := hkv.step hcodec (hdrawn.unambiguous hids hstep hscarce hretired) hstep
    exact ⟨a', hkv', hdrawn.step hstep hscarce⟩
  obtain ⟨a, hkv, -⟩ := hinv
  obtain ⟨k, hk⟩ := List.mem_iff_getElem?.mp hcall
  exact hkv.table.returned hk hret

/-- The cluster of one over an empty map. -/
def soloStart : KvCluster (Raft.Bytes → Option Raft.Bytes) := .init Raft.solo fun _ _ => none

/-- The node restarts before its first request; the request is a put, and it is answered. -/
def answeredRun : List KvAction :=
  [.restart 1 500 0, .raft (.tick 1 1000 0), .raft (.tick 1 1000 0), .execute 1 (.put [7] [1] 5 1),
    .register 0, .propose 0, .drain 1, .apply 1 [], .respond 0]

theorem answeredRun_isSome :
    (run (fun s act => if Scarce s act ∧ Retired s act then
      s.step Raft.solo mapDb Protobuf.codec act else none) soloStart answeredRun).isSome =
      true := by
  decide +kernel

/-- The state after `answeredRun`. -/
def answered : KvCluster (Raft.Bytes → Option Raft.Bytes) :=
  (run (fun s act => if Scarce s act ∧ Retired s act then
    s.step Raft.solo mapDb Protobuf.codec act else none) soloStart answeredRun).get
    answeredRun_isSome

theorem answered_by_own_entry_solo :
    ∃ call ∈ answered.calls, call.phase = .returned .done ∧
      ∃ index term, call.entry = some (index, term) ∧
        { node := call.node, epoch := call.epoch
          entry := { index, term, command := Protobuf.codec.encode call.command }
          command := call.command, outcome := .done } ∈ answered.performed := by
  have hrun := Within.of_run (Option.eq_some_of_isSome answeredRun_isSome)
  have hcall : ∃ call ∈ answered.calls, call.phase = .returned .done := by decide +kernel
  obtain ⟨call, hmem, hret⟩ := hcall
  exact ⟨call, hmem, hret,
    answered_by_own_entry Protobuf.codec_lossless (by decide) hrun hmem hret⟩

/-- A put is proposed, the node restarts, and a get draws the nonce of the put. -/
def reusedRun : List KvAction :=
  [.raft (.tick 1 1000 0), .raft (.tick 1 1000 0), .execute 1 (.put [7] [1] 5 1), .register 0,
    .propose 0, .restart 1 2000 0, .raft (.tick 1 3000 0), .raft (.tick 1 3000 0),
    .execute 1 (.get [7]), .register 1, .propose 1, .drain 1, .apply 1 [], .respond 1]

theorem reusedRun_isSome :
    (run (fun s act => if Scarce s act then s.step Raft.solo mapDb Protobuf.codec act else none)
      soloStart reusedRun).isSome = true := by
  decide +kernel

/-- The state after `reusedRun`. -/
def reused : KvCluster (Raft.Bytes → Option Raft.Bytes) :=
  (run (fun s act => if Scarce s act then s.step Raft.solo mapDb Protobuf.codec act else none)
    soloStart reusedRun).get reusedRun_isSome

/-- The put's entry is applied again after the restart and wakes the get, which returns `Done`; its
    own entry has not been applied by anyone. -/
theorem reused_nonce_misleads :
    Within (KvCluster.step Raft.solo mapDb Protobuf.codec) Scarce soloStart reused ∧
      (∀ n ∈ Raft.solo.members, n < 2 ^ 16) ∧
      ∃ call ∈ reused.calls, call.command.op = Op.get.toI32 ∧ call.phase = .returned .done ∧
        call.entry = some (2, 2) ∧ ∀ r ∈ reused.performed, r.entry.index ≠ 2 := by
  refine ⟨Within.of_run (Option.eq_some_of_isSome reusedRun_isSome), by decide, ?_⟩
  decide +kernel

end Murmur.App
