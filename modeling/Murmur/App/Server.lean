/-
  `src/server.rs`: the direct service of one node, without Raft.

  A handler is a thread whose operations are the calls it makes on the store; `serve` runs one for
  each request, so the runs of a server are the interleavings of the store operations of all
  requests. Of a request only what a handler reads is kept (the direct path ignores `client_id` and
  `seq`).

  * `Appending`: where the handler of an append can be. It reads the key, and later writes what it
    read with its own value at the end.
  * `append_is_lost`: between the two another append may have been written, and then it is gone.
  * `undisturbed`: the append about to write read what the key still holds; so it is when nobody
    else has written the key since (`undisturbed_of_sparing`).
  * `appends_kept`: in runs of such steps no append is lost, whatever else the server is asked.
-/
import Mathlib.Algebra.Group.Nat.Defs
import Mathlib.Data.List.Nodup
import Murmur.App.Store
import Murmur.Basis.Prefix
import Murmur.Basis.Run
import Murmur.Basis.Thread

namespace Murmur.App.Server

open Murmur.Basis
open Murmur.Raft (Bytes)

/-! ## The store's operations -/

/-- A call on the store. -/
inductive StoreOp where
  | get (key : Bytes)
  | put (key value : Bytes)
  | delete (key : Bytes)

namespace StoreOp

/-- What the call returns when it succeeds. -/
abbrev Answer : StoreOp → Type
  | .get _ => Option Bytes
  | .put _ _ => Unit
  | .delete _ => Unit

abbrev Result (op : StoreOp) : Type := Except StoreError op.Answer

def exec {σ : Type} (db : Db σ) : (op : StoreOp) → σ → op.Result × σ
  | .get key, store => (KvStore.get db store key, store)
  | .put key value, store => KvStore.put db store key value
  | .delete key, store => KvStore.delete db store key

/-- The call can change what is stored under `key`. -/
def writes (key : Bytes) : StoreOp → Bool
  | .get _ => false
  | .put k _ => k = key
  | .delete k => k = key

end StoreOp

/-! ## The handlers -/

/-- `tonic::Status`, of which the service builds `Status::internal`. -/
inductive Status where
  | internal (message : String)

abbrev Handler := Thread StoreOp StoreOp.Result

/-- A call on the store whose error ends the handler. -/
def call (op : StoreOp) : ExceptT Status Handler op.Answer :=
  ExceptT.mk (.call op fun result => .done (result.mapError fun e => .internal e.toString))

structure RegisterResponse where
  clientId : UInt64

structure GetRequest where
  key : Bytes

structure GetResponse where
  found : Bool
  value : Bytes

structure PutRequest where
  key : Bytes
  value : Bytes

structure AppendRequest where
  key : Bytes
  value : Bytes

structure AppendResponse where
  value : Bytes
deriving DecidableEq

structure DeleteRequest where
  key : Bytes

namespace KvService

/-- An id drawn from `1..=u64::MAX`; nothing is stored. -/
def register (draw : Nat) : ExceptT Status Handler RegisterResponse :=
  return { clientId := UInt64.ofNat (1 + draw % (2 ^ 64 - 1)) }

def get (request : GetRequest) : ExceptT Status Handler GetResponse := do
  let found : Option Bytes ← call (.get request.key)
  return match found with
    | some value => { found := true, value }
    | none => { found := false, value := [] }

def put (request : PutRequest) : ExceptT Status Handler Unit :=
  call (.put request.key request.value)

def append (request : AppendRequest) : ExceptT Status Handler AppendResponse := do
  let found : Option Bytes ← call (.get request.key)
  let current := found.getD [] ++ request.value
  call (.put request.key current)
  return { value := current }

def delete (request : DeleteRequest) : ExceptT Status Handler Unit :=
  call (.delete request.key)

end KvService

/-! ## The server -/

inductive Request where
  | register (draw : Nat)
  | get (request : GetRequest)
  | put (request : PutRequest)
  | append (request : AppendRequest)
  | delete (request : DeleteRequest)

inductive Response where
  | register (response : RegisterResponse)
  | get (response : GetResponse)
  | put
  | append (response : AppendResponse)
  | delete

def handle : Request → Handler (Except Status Response)
  | .register draw => (Response.register <$> KvService.register draw).run
  | .get request => (Response.get <$> KvService.get request).run
  | .put request => ((fun _ => Response.put) <$> KvService.put request).run
  | .append request => (Response.append <$> KvService.append request).run
  | .delete request => ((fun _ => Response.delete) <$> KvService.delete request).run

/-- A store and the handlers at work on it. -/
abbrev State (σ : Type) := Pool StoreOp StoreOp.Result (Except Status Response) σ

variable {σ : Type} {db : Db σ} {contents : σ → Bytes → Option Bytes} {key value : Bytes}
  {requests : List Request} {store : σ} {s s' : State σ} {order : List Nat} {i : Nat}

def serve (store : σ) (requests : List Request) : State σ :=
  { shared := store, threads := requests.map handle }

def step (db : Db σ) : State σ → Nat → Option (State σ) := Pool.step (StoreOp.exec db)

/-! ## What is said of appends -/

/-- What request `i` appends. -/
def appendValue (requests : List Request) (i : Nat) : Bytes :=
  match requests[i]? with
  | some (.append request) => request.value
  | _ => []

/-- Request `i` is an append to `key` that was answered with success. -/
def Acknowledged (requests : List Request) (key : Bytes) (s : State σ) (i : Nat) : Prop :=
  ∃ value response, requests[i]? = some (.append { key, value }) ∧
    s.threads[i]? = some (.done (.ok (.append response)))

/-- The key holds its first value and then, each once, the values of the acknowledged appends in
    `order`; each of them was answered with what the key holds up to its own value. -/
structure Kept (contents : σ → Bytes → Option Bytes) (requests : List Request) (key : Bytes)
    (store : σ) (s : State σ) (order : List Nat) : Prop where
  once : order.Nodup
  all : ∀ i, i ∈ order ↔ Acknowledged requests key s i
  value : (contents s.shared key).getD [] =
    (contents store key).getD [] ++ order.flatMap (appendValue requests)
  response : ∀ k i : Nat, order[k]? = some i → s.threads[i]? = some (.done (.ok (.append
    { value := (contents store key).getD [] ++
        (order.take (k + 1)).flatMap (appendValue requests) })))

/-- An append about to write read what the key still holds. -/
def undisturbed (contents : σ → Bytes → Option Bytes) (requests : List Request) (key : Bytes)
    (s : State σ) (i : Nat) : Bool :=
  match requests[i]?, s.threads[i]? with
  | some (.append request), some (.call (.put _ current) _) =>
    request.key ≠ key || current = (contents s.shared key).getD [] ++ request.value
  | _, _ => true

/-- The next call of handler `i` leaves the key alone. -/
def sparing (key : Bytes) (s : State σ) (i : Nat) : Bool :=
  match s.threads[i]? with
  | some (.call op _) => !op.writes key
  | _ => true

/-- The request can change what is stored under `key`. -/
def Request.writes (key : Bytes) : Request → Bool
  | .register _ => false
  | .get _ => false
  | .put request => request.key = key
  | .append request => request.key = key
  | .delete request => request.key = key

/-- Nothing but appends is asked to write the key. -/
def AppendOnly (requests : List Request) (key : Bytes) : Prop :=
  ∀ request ∈ requests, request.writes key = true → ∃ value, request = .append { key, value }

/-! ## Where a handler can be -/

/-- The write of an append, and what follows it. -/
def writing (key current : Bytes) : Handler (Except Status Response) :=
  .call (.put key current) fun
    | .ok _ => .done (.ok (.append { value := current }))
    | .error e => .done (.error (.internal e.toString))

theorem handle_append (key value : Bytes) :
    handle (.append { key, value }) = .call (.get key) fun
      | .ok found => writing key (found.getD [] ++ value)
      | .error e => .done (.error (.internal e.toString)) := by
  refine congrArg (Thread.call (StoreOp.get key)) (funext fun result => ?_)
  cases result with
  | error e => rfl
  | ok found =>
      refine congrArg (Thread.call (StoreOp.put key _)) (funext fun result => ?_)
      cases result with
      | error e => rfl
      | ok _ => rfl

/-- The handler of an append, from its first operation to its answer. -/
inductive Appending (key value : Bytes) : Handler (Except Status Response) → Prop
  | reading : Appending key value (handle (.append { key, value }))
  | writing (read : Bytes) : Appending key value (writing key (read ++ value))
  | acknowledged (read : Bytes) :
      Appending key value (.done (.ok (.append { value := read ++ value })))
  | failed (status : Status) : Appending key value (.done (.error status))

/-- An append at work reads, or is about to write. -/
theorem Appending.at_work {op : StoreOp} {next : op.Result → Handler (Except Status Response)}
    (h : Appending key value (.call op next)) :
    (op.writes key = false ∧ ∀ result, Appending key value (next result) ∧
      ∀ response, next result ≠ .done (.ok (.append response))) ∨
    ∃ read, Thread.call op next = Server.writing key (read ++ value) := by
  generalize ht : Thread.call op next = t at h
  cases h with
  | reading =>
      rw [handle_append] at ht
      cases ht
      refine Or.inl ⟨rfl, fun result => ?_⟩
      cases result with
      | error e => exact ⟨.failed _, fun response => by simp⟩
      | ok found => exact ⟨.writing _, fun response => by simp [Server.writing]⟩
  | writing read => exact Or.inr ⟨read, rfl⟩
  | acknowledged read => cases ht
  | failed status => cases ht

/-- The handler of `request`, as far as `key` is concerned. -/
def Staged (key : Bytes) (request : Request) (t : Handler (Except Status Response)) : Prop :=
  (∃ value, request = .append { key, value } ∧ Appending key value t) ∨
    ((∀ value, request ≠ .append { key, value }) ∧ t.Uses fun op => op.writes key = false)

/-- A handler calls the store for the key of its request only. -/
theorem uses_handle {request : Request} (h : request.writes key = false) :
    (handle request).Uses fun op => op.writes key = false := by
  cases request with
  | register draw => trivial
  | get request =>
      refine ⟨rfl, fun result => ?_⟩
      cases result <;> trivial
  | put request =>
      refine ⟨h, fun result => ?_⟩
      cases result <;> trivial
  | append request =>
      rw [handle_append]
      refine ⟨rfl, fun result => ?_⟩
      cases result with
      | error e => trivial
      | ok found =>
          refine ⟨h, fun result => ?_⟩
          cases result <;> trivial
  | delete request =>
      refine ⟨h, fun result => ?_⟩
      cases result <;> trivial

theorem staged_handle (honly : AppendOnly requests key) {request : Request}
    (hmem : request ∈ requests) : Staged key request (handle request) := by
  cases hw : request.writes key with
  | true =>
      obtain ⟨value, rfl⟩ := honly request hmem hw
      exact Or.inl ⟨value, rfl, .reading⟩
  | false =>
      refine Or.inr ⟨?_, uses_handle hw⟩
      rintro value rfl
      simp [Request.writes] at hw

/-! ## One step -/

/-- A call that does not write the key leaves what it holds. -/
theorem exec_frame (hdb : Honest db contents) {op : StoreOp} (h : op.writes key = false)
    (store : σ) : contents (op.exec db store).2 key = contents store key := by
  cases op with
  | get k => rfl
  | put k v =>
      have hne : key ≠ k := fun heq => by simp [StoreOp.writes, heq] at h
      show contents (KvStore.put db store k v).2 key = _
      rcases hdb.store_put store k v with ⟨-, heq⟩ | ⟨-, heq⟩
      · rw [heq, Function.update_of_ne hne]
      · rw [heq]
  | delete k =>
      have hne : key ≠ k := fun heq => by simp [StoreOp.writes, heq] at h
      show contents (KvStore.delete db store k).2 key = _
      rcases hdb.store_delete store k with ⟨-, heq⟩ | ⟨-, heq⟩
      · rw [heq, Function.update_of_ne hne]
      · rw [heq]

section Kept

variable {op : StoreOp} {next : op.Result → Handler (Except Status Response)}

/-- A handler at work has acknowledged nothing. -/
theorem Acknowledged.ne_of_at_work {j : Nat} (h : Acknowledged requests key s j)
    (hi : s.threads[i]? = some (.call op next)) : j ≠ i := by
  rintro rfl
  obtain ⟨value, response, -, hdone⟩ := h
  rw [hi] at hdone
  cases hdone

theorem acknowledged_of_ne {j : Nat} (hothers : ∀ j, j ≠ i → s'.threads[j]? = s.threads[j]?)
    (hj : j ≠ i) : Acknowledged requests key s' j ↔ Acknowledged requests key s j := by
  unfold Acknowledged
  rw [hothers j hj]

/-- A step that neither acknowledges an append nor changes the key. -/
theorem Kept.frame (h : Kept contents requests key store s order)
    (hi : s.threads[i]? = some (.call op next))
    (hothers : ∀ j, j ≠ i → s'.threads[j]? = s.threads[j]?)
    (hself : ¬ Acknowledged requests key s' i)
    (hvalue : contents s'.shared key = contents s.shared key) :
    Kept contents requests key store s' order := by
  refine ⟨h.once, fun j => ?_, by rw [hvalue]; exact h.value, fun k j hk => ?_⟩
  · rw [h.all]
    by_cases hj : j = i
    · subst hj
      exact ⟨fun hack => absurd rfl (hack.ne_of_at_work hi), fun hack => absurd hack hself⟩
    · exact (acknowledged_of_ne hothers hj).symm
  · have hack := (h.all j).mp (List.mem_of_getElem? hk)
    rw [hothers j (hack.ne_of_at_work hi)]
    exact h.response k j hk

/-- The write of an append that read what the key still holds. -/
theorem Kept.append (h : Kept contents requests key store s order)
    (hi : s.threads[i]? = some (.call op next))
    (hreq : requests[i]? = some (.append { key, value }))
    (hothers : ∀ j, j ≠ i → s'.threads[j]? = s.threads[j]?) {current : Bytes}
    (hcurrent : current = (contents s.shared key).getD [] ++ value)
    (hself : s'.threads[i]? = some (.done (.ok (.append { value := current }))))
    (hvalue : contents s'.shared key = some current) :
    Kept contents requests key store s' (order ++ [i]) := by
  have hown : appendValue requests i = value := by
    unfold appendValue
    rw [hreq]
  have hall : current =
      (contents store key).getD [] ++ (order ++ [i]).flatMap (appendValue requests) := by
    rw [hcurrent, h.value, List.flatMap_append, List.flatMap_singleton, hown, List.append_assoc]
  refine ⟨?_, fun j => ?_, by rw [hvalue]; exact hall, fun k j hk => ?_⟩
  · refine h.once.append (List.nodup_singleton i) (List.disjoint_singleton.mpr fun hmem => ?_)
    exact ((h.all i).mp hmem).ne_of_at_work hi rfl
  · rw [List.mem_append, List.mem_singleton, h.all]
    by_cases hj : j = i
    · subst hj
      exact ⟨fun _ => ⟨value, _, hreq, hself⟩, fun _ => Or.inr rfl⟩
    · rw [acknowledged_of_ne hothers hj]
      exact ⟨fun hack => hack.resolve_right hj, Or.inl⟩
  · rcases getElem?_snoc hk with hk | ⟨rfl, rfl⟩
    · -- An earlier append: its part of the order is as it was.
      have hack := (h.all j).mp (List.mem_of_getElem? hk)
      rw [List.take_append_of_le_length (List.getElem?_eq_some_iff.mp hk).1,
        hothers j (hack.ne_of_at_work hi)]
      exact h.response k j hk
    · rw [hself, List.take_of_length_le (by simp), ← hall]

end Kept

/-- Every handler is at one of its places, and the appends acknowledged so far are kept. -/
structure Inv (contents : σ → Bytes → Option Bytes) (requests : List Request) (key : Bytes)
    (store : σ) (s : State σ) : Prop where
  staged : ∀ (j : Nat) t, s.threads[j]? = some t →
    ∃ request, requests[j]? = some request ∧ Staged key request t
  kept : ∃ order, Kept contents requests key store s order

theorem Inv.init (honly : AppendOnly requests key) (store : σ) :
    Inv contents requests key store (serve store requests) := by
  have hstaged : ∀ (j : Nat) t, (serve store requests).threads[j]? = some t →
      ∃ request, requests[j]? = some request ∧ t = handle request := by
    intro j t ht
    obtain ⟨request, hreq, rfl⟩ := Option.map_eq_some_iff.mp (List.getElem?_map.symm.trans ht)
    exact ⟨request, hreq, rfl⟩
  refine ⟨fun j t ht => ?_, [], List.nodup_nil, fun j => ?_, by simp [serve], fun k j hk => ?_⟩
  · obtain ⟨request, hreq, rfl⟩ := hstaged j t ht
    exact ⟨request, hreq, staged_handle honly (List.mem_of_getElem? hreq)⟩
  · -- No handler has returned before its first operation.
    refine ⟨fun hj => (List.not_mem_nil hj).elim, ?_⟩
    rintro ⟨value, response, hreq, hdone⟩
    obtain ⟨request, hreq', hhandle⟩ := hstaged j _ hdone
    rw [hreq] at hreq'
    obtain rfl := Option.some.inj hreq'
    rw [handle_append] at hhandle
    cases hhandle
  · cases hk

/-- Only the handler that moved has to be looked at again. -/
theorem Inv.update (h : Inv contents requests key store s) {request : Request}
    {t : Handler (Except Status Response)} (hreq : requests[i]? = some request)
    (hself : s'.threads[i]? = some t) (hothers : ∀ j, j ≠ i → s'.threads[j]? = s.threads[j]?)
    (hstaged : Staged key request t) (hkept : Kept contents requests key store s' order) :
    Inv contents requests key store s' := by
  refine ⟨fun j t' hj => ?_, order, hkept⟩
  by_cases hji : j = i
  · subst hji
    rw [hself] at hj
    obtain rfl := Option.some.inj hj
    exact ⟨request, hreq, hstaged⟩
  · rw [hothers j hji] at hj
    exact h.staged j t' hj

/-- What the write of an append comes to. -/
theorem step_writing (hdb : Honest db contents) {current : Bytes}
    (hi : s.threads[i]? = some (writing key current)) (hstep : Server.step db s i = some s') :
    (s'.threads[i]? = some (.done (.ok (.append { value := current }))) ∧
      contents s'.shared key = some current) ∨
    ∃ status, s'.threads[i]? = some (.done (.error status)) ∧
      contents s'.shared key = contents s.shared key := by
  obtain ⟨op, next, hcall, hshared, hself, -⟩ := Pool.of_step hstep
  cases hi.symm.trans hcall
  rw [hshared, hself]
  rcases hdb.store_put s.shared key current with ⟨hres, heq⟩ | ⟨⟨e, hres⟩, heq⟩
  · have hres : ((StoreOp.put key current).exec db s.shared).1 = .ok () := hres
    rw [hres]
    exact Or.inl ⟨rfl, (congrFun heq key).trans (Function.update_self _ _ _)⟩
  · have hres : ((StoreOp.put key current).exec db s.shared).1 = .error e := hres
    rw [hres]
    exact Or.inr ⟨_, rfl, congrFun heq key⟩

/-- An append is undisturbed if since its read no other handler has written the key. -/
theorem undisturbed_of_sparing (hdb : Honest db contents) {s'' : State σ}
    (hreq : requests[i]? = some (.append { key, value }))
    (hi : s.threads[i]? = some (handle (.append { key, value })))
    (hread : Server.step db s i = some s')
    (hrun : Within (Server.step db) (fun s j => j ≠ i ∧ sparing key s j = true) s' s'') :
    undisturbed contents requests key s'' i = true := by
  rw [handle_append] at hi
  obtain ⟨op, next, hcall, hshared, hself, -⟩ := Pool.of_step hread
  cases hi.symm.trans hcall
  obtain ⟨hsame, hvalue⟩ : s''.threads[i]? = s'.threads[i]? ∧
      contents s''.shared key = contents s'.shared key := by
    refine hrun.invariant (I := fun t => t.threads[i]? = s'.threads[i]? ∧
      contents t.shared key = contents s'.shared key) ?_ ⟨rfl, rfl⟩
    rintro t j t' ⟨hsame, hvalue⟩ ⟨hj, hsparing⟩ hstep
    obtain ⟨op, next, hcall, hshared, -, hothers⟩ := Pool.of_step hstep
    have hreads : op.writes key = false := by
      simpa [sparing, hcall] using hsparing
    rw [hothers i (Ne.symm hj), hshared, exec_frame hdb hreads]
    exact ⟨hsame, hvalue⟩
  have hget : ((StoreOp.get key).exec db s.shared).1 = KvStore.get db s.shared key := rfl
  rw [hget] at hself
  cases hres : KvStore.get db s.shared key with
  | error e => simp [undisturbed, hreq, hsame, hself, hres]
  | ok found =>
      have hfound : contents s''.shared key = found := by
        rw [hvalue, hshared, hdb.store_get hres]
        rfl
      simp [undisturbed, hreq, hsame, hself, hres, writing, hfound]

theorem Inv.step (hdb : Honest db contents) (h : Inv contents requests key store s)
    (hok : undisturbed contents requests key s i = true) (hstep : Server.step db s i = some s') :
    Inv contents requests key store s' := by
  obtain ⟨op, next, hi, hshared, hself, hothers⟩ := Pool.of_step hstep
  obtain ⟨request, hreq, hstaged⟩ := h.staged i _ hi
  obtain ⟨order, hkept⟩ := h.kept
  have hframe : op.writes key = false → contents s'.shared key = contents s.shared key := by
    intro hreads
    rw [hshared]
    exact exec_frame hdb hreads s.shared
  rcases hstaged with ⟨value, rfl, happ⟩ | ⟨hne, huses⟩
  · rcases happ.at_work with ⟨hreads, hnext⟩ | ⟨read, hwrites⟩
    · -- It reads.
      obtain ⟨hplace, hnot⟩ := hnext (op.exec db s.shared).1
      refine h.update hreq hself hothers (Or.inl ⟨value, rfl, hplace⟩)
        (hkept.frame hi hothers ?_ (hframe hreads))
      rintro ⟨value', response, -, hdone⟩
      rw [hself] at hdone
      exact hnot response (Option.some.inj hdone)
    · -- It writes, and what it read is still there.
      have hwriting : s.threads[i]? = some (writing key (read ++ value)) := by rw [hi, hwrites]
      have hcurrent : read ++ value = (contents s.shared key).getD [] ++ value := by
        simpa [undisturbed, hreq, hwriting, writing] using hok
      rcases step_writing hdb hwriting hstep with ⟨hdone, hvalue⟩ | ⟨status, hdone, hvalue⟩
      · exact h.update hreq hdone hothers (Or.inl ⟨value, rfl, .acknowledged read⟩)
          (hkept.append hi hreq hothers hcurrent hdone hvalue)
      · refine h.update hreq hdone hothers (Or.inl ⟨value, rfl, .failed status⟩)
          (hkept.frame hi hothers ?_ hvalue)
        rintro ⟨value', response, -, hack⟩
        rw [hdone] at hack
        cases hack
  · -- It has nothing to do with the key.
    refine h.update hreq hself hothers (Or.inr ⟨hne, huses.2 _⟩)
      (hkept.frame hi hothers ?_ (hframe huses.1))
    rintro ⟨value, response, hreq', -⟩
    rw [hreq] at hreq'
    exact hne value (Option.some.inj hreq')

/-- **No append is lost** while the appends to the key do not disturb each other, on an engine that
    may fail, with any number of requests and whatever else is asked in between. -/
theorem appends_kept (hdb : Honest db contents) (honly : AppendOnly requests key)
    (hrun : Within (step db) (fun s i => undisturbed contents requests key s i = true)
      (serve store requests) s) :
    ∃ order, Kept contents requests key store s order :=
  (hrun.invariant (fun _ _ _ h hok hstep => h.step hdb hok hstep) (Inv.init honly store)).kept

/-- Two appends to one key that holds nothing. -/
def rivals : List Request :=
  [.append { key := [7], value := [1] }, .append { key := [7], value := [2] }]

theorem rivals_appendOnly : AppendOnly rivals [7] := by
  intro request hmem _
  rcases List.mem_pair.mp hmem with rfl | rfl
  · exact ⟨[1], rfl⟩
  · exact ⟨[2], rfl⟩

/-- One after the other. -/
theorem inTurn_isSome :
    (run (fun s i => if undisturbed (fun s => s) rivals [7] s i then step mapDb s i else none)
      (serve (fun _ => none) rivals) [1, 1, 0, 0]).isSome = true := by decide

def inTurn : State (Bytes → Option Bytes) :=
  (run (fun s i => if undisturbed (fun s => s) rivals [7] s i then step mapDb s i else none)
    (serve (fun _ => none) rivals) [1, 1, 0, 0]).get inTurn_isSome

theorem appends_kept_in_turn :
    inTurn.shared [7] = some [2, 1] ∧
      ∃ order, Kept (fun s => s) rivals [7] (fun _ => none) inTurn order :=
  ⟨by decide, appends_kept mapDb_faithful.honest rivals_appendOnly
    (Within.of_run (Option.eq_some_of_isSome inTurn_isSome))⟩

/-- Both read before either writes. -/
theorem overlapped_isSome :
    (run (step mapDb) (serve (fun _ => none) rivals) [0, 1, 0, 1]).isSome = true := by decide

def overlapped : State (Bytes → Option Bytes) :=
  (run (step mapDb) (serve (fun _ => none) rivals) [0, 1, 0, 1]).get overlapped_isSome

/-- Both appends are acknowledged, and the first one is gone. -/
theorem append_is_lost :
    Reaches (step mapDb) (serve (fun _ => none) rivals) overlapped ∧ AppendOnly rivals [7] ∧
      Acknowledged rivals [7] overlapped 0 ∧ Acknowledged rivals [7] overlapped 1 ∧
      overlapped.shared [7] = some [2] ∧
      ¬ ∃ order, Kept (fun s => s) rivals [7] (fun _ => none) overlapped order := by
  have hfirst : Acknowledged rivals [7] overlapped 0 := ⟨[1], { value := [1] }, rfl, rfl⟩
  refine ⟨⟨_, Option.eq_some_of_isSome overlapped_isSome⟩, rivals_appendOnly, hfirst,
    ⟨[2], { value := [2] }, rfl, rfl⟩, by decide, ?_⟩
  rintro ⟨order, h⟩
  have hvalue : [2] = order.flatMap (appendValue rivals) := h.value
  have hlost : (1 : UInt8) ∈ order.flatMap (appendValue rivals) :=
    List.mem_flatMap.mpr ⟨0, (h.all 0).mpr hfirst, by decide⟩
  rw [← hvalue] at hlost
  exact absurd hlost (by decide)

end Murmur.App.Server
