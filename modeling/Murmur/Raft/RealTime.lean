/-
  Real time.

  `Timed` is a cluster with clocks in which every action happens at an instant of one time that all
  nodes share but none can read. It notes when each node ticked last, when each message was sent and
  which of them have arrived. Nothing here says how fast anything is: that is up to the runs a
  result is about.

  * `Timed.underway`, `Timed.returning`: the requests and the replies that have not arrived yet,
    each with the instant it was sent.
  * `Timed.kept`: what is noted is so in every reachable state.
-/
import Murmur.Raft.Clock

namespace Murmur.Raft

open Murmur.Basis

variable {cfg : ClusterConfig} {act : Action}

/-! ## Messages and their instants -/

/-- The instants of `count` messages, of which those that have none yet are sent now. -/
def stamp (now : Instant) (stamps : List Instant) (count : Nat) : List Instant :=
  stamps ++ List.replicate (count - stamps.length) now

theorem length_stamp {stamps : List Instant} {count : Nat} (h : stamps.length ≤ count)
    (now : Instant) : (stamp now stamps count).length = count := by
  simp [stamp, Nat.add_sub_cancel' h]

theorem stamp_old {stamps : List Instant} {k : Nat} {t : Instant} (h : stamps[k]? = some t)
    (now : Instant) (count : Nat) : (stamp now stamps count)[k]? = some t :=
  getElem?_of_pre (List.prefix_append _ _) h

theorem stamp_new {stamps : List Instant} {count k : Nat} (h : stamps.length ≤ k) (hk : k < count)
    (now : Instant) : (stamp now stamps count)[k]? = some now := by
  unfold stamp
  rw [List.getElem?_append_right h, List.getElem?_replicate_of_lt]
  omega

/-- Message `k` and when it was sent, if it has not arrived yet. -/
def unread {α : Type} (arrived : Nat → Bool) (messages : List α) (stamps : List Instant) (k : Nat) :
    Option (α × Instant) :=
  if arrived k then none else (messages.zip stamps)[k]?

theorem unread_eq_some {α : Type} {arrived : Nat → Bool} {messages : List α} {stamps : List Instant}
    {k : Nat} {message : α} {t : Instant} :
    unread arrived messages stamps k = some (message, t) ↔
      arrived k = false ∧ messages[k]? = some message ∧ stamps[k]? = some t := by
  unfold unread
  split
  · next hserved => simp [hserved]
  · next hserved => simp [hserved, List.getElem?_zip_eq_some]

/-! ## The cluster in real time -/

/-- A cluster in real time. -/
structure Timed where
  clocked : Clocked
  time : Instant
  /-- When each node ticked last. -/
  ticked : NodeId → Instant
  /-- When each request and each reply was sent. -/
  asked : List Instant
  answered : List Instant
  /-- Which requests and which replies have arrived. -/
  served : Nat → Bool
  folded : Nat → Bool

def Action.ticks (n : NodeId) : Action → Bool
  | .tick m _ _ => m = n
  | _ => false

def Action.serves (k : Nat) : Action → Bool
  | .serve j _ _ => j = k
  | _ => false

def Action.folds (k : Nat) : Action → Bool
  | .fold j => j = k
  | _ => false

namespace Timed

abbrev cluster (x : Timed) : Cluster := x.clocked.cluster

def init (cfg : ClusterConfig) : Timed :=
  { clocked := Clocked.init cfg
    time := 0
    ticked := fun _ => 0
    asked := []
    answered := []
    served := fun _ => false
    folded := fun _ => false }

/-- What is noted of an action at an instant. -/
def note (x : Timed) (now : Instant) (act : Action) (clocked : Clocked) : Timed :=
  { clocked
    time := now
    ticked := fun n => if act.ticks n then now else x.ticked n
    asked := stamp now x.asked clocked.cluster.requests.length
    answered := stamp now x.answered clocked.cluster.replies.length
    served := fun k => x.served k || act.serves k
    folded := fun k => x.folded k || act.folds k }

def step (cfg : ClusterConfig) (x : Timed) (event : Instant × Action) : Option Timed :=
  if x.time ≤ event.1 then
    (Clocked.step cfg x.clocked event.2).map (x.note event.1 event.2)
  else none

def Reachable (cfg : ClusterConfig) (x : Timed) : Prop :=
  Reaches (step cfg) (init cfg) x

/-- The requests that have not arrived yet. -/
def underway (x : Timed) : Nat → Option (Rpc × Instant) :=
  unread x.served x.cluster.requests x.asked

/-- The replies that have not arrived yet. -/
def returning (x : Timed) : Nat → Option ((Rpc × Reply) × Instant) :=
  unread x.folded x.cluster.replies x.answered

variable {x y : Timed} {now : Instant}

theorem of_step (h : step cfg x (now, act) = some y) :
    x.time ≤ now ∧ ∃ clocked, Clocked.step cfg x.clocked act = some clocked ∧
      y = x.note now act clocked := by
  unfold step at h
  split at h
  · next hle =>
      obtain ⟨clocked, hstep, rfl⟩ := Option.map_eq_some_iff.mp h
      exact ⟨hle, clocked, hstep, rfl⟩
  · cases h

/-- Every message has its instant, what has arrived was sent, and no node has ticked in the
    future. -/
structure Kept (cfg : ClusterConfig) (x : Timed) : Prop where
  reachable : Clocked.Reachable cfg x.clocked
  asked : x.asked.length = x.cluster.requests.length
  answered : x.answered.length = x.cluster.replies.length
  served : ∀ k, x.served k = true → k < x.cluster.requests.length
  folded : ∀ k, x.folded k = true → k < x.cluster.replies.length
  ticked : ∀ n, x.ticked n ≤ x.time

theorem Kept.step (h : Kept cfg x) (hle : x.time ≤ now) {clocked : Clocked}
    (hstep : Clocked.step cfg x.clocked act = some clocked) :
    Kept cfg (x.note now act clocked) := by
  have hcluster := (Clocked.of_step hstep).2.1
  obtain ⟨hrequests, hreplies, -⟩ := Cluster.step_grows hcluster
  refine ⟨Reaches.step h.reachable hstep, ?_, ?_, fun k hk => ?_, fun k hk => ?_, fun n => ?_⟩
  · exact length_stamp (h.asked.trans_le hrequests.length_le) now
  · exact length_stamp (h.answered.trans_le hreplies.length_le) now
  · rcases Bool.or_eq_true_iff.mp hk with hold | hnew
    · exact (h.served k hold).trans_le hrequests.length_le
    · cases act with
      | serve j r draw =>
          obtain rfl : j = k := of_decide_eq_true hnew
          obtain ⟨rpc, hj, -⟩ := Cluster.step_serve hcluster
          exact (List.getElem?_eq_some_iff.mp hj).1.trans_le hrequests.length_le
      | _ => cases hnew
  · rcases Bool.or_eq_true_iff.mp hk with hold | hnew
    · exact (h.folded k hold).trans_le hreplies.length_le
    · cases act with
      | fold j =>
          obtain rfl : j = k := of_decide_eq_true hnew
          obtain ⟨rpc, reply, hj, -⟩ := Cluster.step_fold hcluster
          exact (List.getElem?_eq_some_iff.mp hj).1.trans_le hreplies.length_le
      | _ => cases hnew
  · show (if act.ticks n then now else x.ticked n) ≤ now
    split
    · exact le_rfl
    · exact (h.ticked n).trans hle

theorem kept (h : Reachable cfg x) : Kept cfg x := by
  refine Reaches.invariant (I := Kept cfg) ?_ h
    ⟨Reaches.refl _ _, rfl, rfl, nofun, nofun, fun _ => le_rfl⟩
  rintro x ⟨now, act⟩ y hx hstep
  obtain ⟨hle, clocked, hclocked, rfl⟩ := of_step hstep
  exact hx.step hle hclocked

section Note

variable {clocked : Clocked} {k : Nat} {rpc : Rpc} {reply : Reply} {t : Instant}

/-- What does not arrive stays on its way. -/
theorem underway_note (h : x.underway k = some (rpc, t))
    (hstep : Clocked.step cfg x.clocked act = some clocked) (hact : act.serves k = false)
    (now : Instant) : (x.note now act clocked).underway k = some (rpc, t) := by
  obtain ⟨hserved, hk, ht⟩ := unread_eq_some.mp h
  have hrequests := (Cluster.step_grows (Clocked.of_step hstep).2.1).1
  refine unread_eq_some.mpr ⟨?_, getElem?_of_pre hrequests hk, stamp_old ht _ _⟩
  exact Bool.or_eq_false_iff.mpr ⟨hserved, hact⟩

theorem returning_note (h : x.returning k = some ((rpc, reply), t))
    (hstep : Clocked.step cfg x.clocked act = some clocked) (hact : act.folds k = false)
    (now : Instant) : (x.note now act clocked).returning k = some ((rpc, reply), t) := by
  obtain ⟨hfolded, hk, ht⟩ := unread_eq_some.mp h
  have hreplies := (Cluster.step_grows (Clocked.of_step hstep).2.1).2.1
  refine unread_eq_some.mpr ⟨?_, getElem?_of_pre hreplies hk, stamp_old ht _ _⟩
  exact Bool.or_eq_false_iff.mpr ⟨hfolded, hact⟩

/-- What is sent now is on its way. -/
theorem Kept.underway_new (h : Kept cfg x) (hnew : x.cluster.requests.length ≤ k)
    (hk : clocked.cluster.requests[k]? = some rpc) (hact : act.serves k = false) (now : Instant) :
    (x.note now act clocked).underway k = some (rpc, now) := by
  have hserved : x.served k = false := Bool.eq_false_iff.mpr fun hserved =>
    absurd (h.served k hserved) (Nat.not_lt.mpr hnew)
  have hlen := (List.getElem?_eq_some_iff.mp hk).1
  refine unread_eq_some.mpr ⟨?_, hk, stamp_new (h.asked.trans_le hnew) hlen now⟩
  exact Bool.or_eq_false_iff.mpr ⟨hserved, hact⟩

theorem Kept.returning_new (h : Kept cfg x) (hnew : x.cluster.replies.length ≤ k)
    (hk : clocked.cluster.replies[k]? = some (rpc, reply)) (hact : act.folds k = false)
    (now : Instant) : (x.note now act clocked).returning k = some ((rpc, reply), now) := by
  have hfolded : x.folded k = false := Bool.eq_false_iff.mpr fun hfolded =>
    absurd (h.folded k hfolded) (Nat.not_lt.mpr hnew)
  have hlen := (List.getElem?_eq_some_iff.mp hk).1
  refine unread_eq_some.mpr ⟨?_, hk, stamp_new (h.answered.trans_le hnew) hlen now⟩
  exact Bool.or_eq_false_iff.mpr ⟨hfolded, hact⟩

/-- What is on its way after an event was so before, or has just been sent. -/
theorem Kept.of_underway (h : Kept cfg x) (hstep : Clocked.step cfg x.clocked act = some clocked)
    (hk : (x.note now act clocked).underway k = some (rpc, t)) :
    (∃ t', x.underway k = some (rpc, t')) ∨
      ∃ n r draw, act = .tick n r draw ∧ Cluster.Sent x.cluster n r draw rpc := by
  obtain ⟨hserved, hk, -⟩ := unread_eq_some.mp hk
  have hserved : x.served k = false := (Bool.or_eq_false_iff.mp hserved).1
  have hcluster := (Clocked.of_step hstep).2.1
  rcases Nat.lt_or_ge k x.cluster.requests.length with hlt | hge
  · left
    have hstamp : k < x.asked.length := h.asked ▸ hlt
    refine ⟨x.asked[k], unread_eq_some.mpr ⟨hserved, ?_, List.getElem?_eq_getElem hstamp⟩⟩
    exact (getElem?_pre_of_lt (Cluster.step_grows hcluster).1 hlt).trans hk
  · exact .inr (Cluster.step_requests_new hcluster hk hge)

theorem Kept.of_returning (h : Kept cfg x) (hstep : Clocked.step cfg x.clocked act = some clocked)
    (hk : (x.note now act clocked).returning k = some ((rpc, reply), t)) :
    (∃ t', x.returning k = some ((rpc, reply), t')) ∨
      ∃ j r draw, act = .serve j r draw ∧ x.cluster.requests[j]? = some rpc ∧
        reply = (serve (x.cluster.core rpc.peer) rpc.request r draw).2 := by
  obtain ⟨hfolded, hk, -⟩ := unread_eq_some.mp hk
  have hfolded : x.folded k = false := (Bool.or_eq_false_iff.mp hfolded).1
  have hcluster := (Clocked.of_step hstep).2.1
  rcases Nat.lt_or_ge k x.cluster.replies.length with hlt | hge
  · left
    have hstamp : k < x.answered.length := h.answered ▸ hlt
    refine ⟨x.answered[k], unread_eq_some.mpr ⟨hfolded, ?_, List.getElem?_eq_getElem hstamp⟩⟩
    exact (getElem?_pre_of_lt (Cluster.step_grows hcluster).2.1 hlt).trans hk
  · exact .inr (Cluster.step_replies_new hcluster hk hge)

end Note

end Timed

end Murmur.Raft
