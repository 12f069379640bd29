/-
  `src/raft/storage.rs`, `FileStorage`: a save as the sequence of its file operations, what a crash
  in the middle of it can leave, and a node that runs on such a file through any number of crashes.

  Of the file system we assume: bytes that were synced are stable; a rename is atomic, and stands
  once the directory was synced; a file that was not synced may hold anything after a crash. The
  parent directories exist (`create_dir_all`), every call succeeds, and the numbers stay within
  their machine types (`Fits`).

  * `crash_in_saves`: a crash at any file operation of any save leaves the last completed save or
    the one in progress, whole.
  * `Host`: a disk, the node that runs on it if one does, and the votes it ever gave. One invariant
    (`HostInv`), one lemma an event.
  * `recovers`: what holds over every run.
-/
import Murmur.Raft.StateFile

namespace Murmur.Raft.FileStorage

open Murmur.Basis StateFile

/-! ## Files -/

/-- The bytes of a file, and whether they are known to be stable. -/
structure File where
  bytes : Bytes
  synced : Bool
deriving DecidableEq

/-- The state file, its temp sibling, and what the last rename replaced, which a crash can bring
    back until the directory is synced. -/
structure Disk where
  path : Option File := none
  tmp : Option File := none
  replaced : Option (Option File) := none
deriving DecidableEq

inductive FileOp where
  | create
  | writeAll (bytes : Bytes)
  | syncAll
  | rename
  | syncDir

def FileOp.apply (disk : Disk) : FileOp → Disk
  | create => { disk with tmp := some ⟨[], false⟩ }
  | writeAll bytes => { disk with tmp := disk.tmp.map fun f => ⟨f.bytes ++ bytes, false⟩ }
  | syncAll => { disk with tmp := disk.tmp.map fun f => { f with synced := true } }
  | rename =>
    match disk.tmp with
    | some f => { path := some f, tmp := none, replaced := some disk.path }
    | none => disk
  | syncDir => { disk with replaced := none }

def Disk.after (disk : Disk) (ops : List FileOp) : Disk := ops.foldl FileOp.apply disk

/-- `FileStorage::save`. -/
def save (state : PersistentState) : List FileOp :=
  [.create, .writeAll (encode state), .syncAll, .rename, .syncDir]

/-- `FileStorage::load`. -/
def load (disk : Disk) : Option (Except String PersistentState) :=
  match disk.path with
  | some file => decode file.bytes
  | none => some (.ok {})

/-- What a crash makes of a directory entry. -/
def Remains : Option File → Option File → Prop
  | some f, left => f.synced = true → left = some f
  | none, left => left = none

instance (entry left : Option File) : Decidable (Remains entry left) :=
  match entry with
  | some f => inferInstanceAs (Decidable (f.synced = true → left = some f))
  | none => inferInstanceAs (Decidable (left = none))

/-- `left` is what a crash at `disk` can leave. Of the temp file nothing is known. -/
def Crash (disk left : Disk) : Prop :=
  left.replaced = none ∧
    (Remains disk.path left.path ∨ ∃ entry ∈ disk.replaced, Remains entry left.path)

instance (disk left : Disk) : Decidable (Crash disk left) :=
  inferInstanceAs (Decidable (_ ∧ (_ ∨ ∃ entry ∈ disk.replaced, _)))

/-! ## Saves and crashes -/

/-- A directory entry stands for a state: none yet, or the whole image of it, stable. -/
def Stands (entry : Option File) (state : PersistentState) : Prop :=
  (entry = none ∧ state = {}) ∨ (entry = some ⟨encode state, true⟩ ∧ state.Rooted ∧ Fits state)

/-- The disk stands for a state, with no rename outstanding. -/
def Holds (disk : Disk) (state : PersistentState) : Prop :=
  disk.replaced = none ∧ Stands disk.path state

section

variable {disk left : Disk} {state state' : PersistentState}

theorem Holds.load (h : Holds disk state) : load disk = some (.ok state) := by
  unfold FileStorage.load
  cases h.2 with
  | inl hnone => rw [hnone.1, hnone.2]
  | inr hsome =>
      rw [hsome.1]
      exact decode_encode hsome.2.1 hsome.2.2

theorem Stands.remains {entry entry' : Option File} (h : Stands entry state)
    (hleft : Remains entry entry') : Stands entry' state := by
  cases h with
  | inl hnone =>
      rw [hnone.1] at hleft
      exact .inl ⟨hleft, hnone.2⟩
  | inr hsome =>
      rw [hsome.1] at hleft
      exact .inr ⟨hleft rfl, hsome.2⟩

/-- A crash with no rename outstanding changes nothing. -/
theorem Holds.crash (h : Holds disk state) (hcrash : Crash disk left) : Holds left state := by
  refine ⟨hcrash.1, ?_⟩
  cases hcrash.2 with
  | inl hpath => exact h.2.remains hpath
  | inr hback =>
      obtain ⟨entry, hentry, -⟩ := hback
      rw [h.1] at hentry
      cases hentry

/-- A completed save stands, whatever was on the disk. -/
theorem save_holds (disk : Disk) (hroot : state.Rooted) (hfit : Fits state) :
    Holds (disk.after (save state)) state :=
  ⟨rfl, .inr ⟨rfl, hroot, hfit⟩⟩

/-- A crash in the middle of a save: before the rename the old state stands, and until the directory
    is synced one of the two. -/
theorem crash_in_save (h : Holds disk state) (hroot : state'.Rooted) (hfit : Fits state') {k : Nat}
    (hk : k < 5) (hcrash : Crash (disk.after ((save state').take k)) left) :
    Holds left state ∨ (0 < k ∧ Holds left state') := by
  match k, hk with
  | 0, _ => exact .inl (h.crash hcrash)
  | 1, _ =>
      have hstill : Holds (disk.after ((save state').take 1)) state := h
      exact .inl (hstill.crash hcrash)
  | 2, _ =>
      have hstill : Holds (disk.after ((save state').take 2)) state := h
      exact .inl (hstill.crash hcrash)
  | 3, _ =>
      have hstill : Holds (disk.after ((save state').take 3)) state := h
      exact .inl (hstill.crash hcrash)
  | 4, _ =>
      obtain ⟨hleft, hnew | ⟨entry, hentry, hold⟩⟩ := hcrash
      · exact .inr ⟨by decide, hleft, .inr ⟨hnew rfl, hroot, hfit⟩⟩
      · cases hentry
        exact .inl ⟨hleft, h.2.remains hold⟩

theorem Disk.after_append (disk : Disk) (ops ops' : List FileOp) :
    disk.after (ops ++ ops') = (disk.after ops).after ops' := List.foldl_append

/-- A crash after `k` file operations of a sequence of saves leaves the state after `j` of them,
    where `j` counts the completed ones, or one more if a save was in progress. -/
theorem crash_in_saves {saves : List PersistentState} (h : Holds disk state)
    (hsaves : ∀ s ∈ saves, s.Rooted ∧ Fits s) {k : Nat}
    (hcrash : Crash (disk.after ((saves.flatMap save).take k)) left) :
    ∃ j, k / 5 ≤ j ∧ j ≤ (k + 4) / 5 ∧ Holds left ((saves.take j).getLastD state) := by
  induction saves generalizing disk state k with
  | nil =>
      rw [List.flatMap_nil, List.take_nil] at hcrash
      refine ⟨k / 5, Nat.le_refl _, by omega, ?_⟩
      rw [List.take_nil]
      exact h.crash hcrash
  | cons s saves ih =>
      obtain ⟨hroot, hfit⟩ := hsaves s List.mem_cons_self
      rw [List.flatMap_cons] at hcrash
      rcases Nat.lt_or_ge k 5 with hk | hk
      · rw [List.take_append_of_le_length (show k ≤ (save s).length from Nat.le_of_lt hk)] at hcrash
        rcases crash_in_save h hroot hfit hk hcrash with hold | ⟨hpos, hnew⟩
        · exact ⟨0, by omega, by omega, hold⟩
        · exact ⟨1, by omega, by omega, hnew⟩
      · have hsplit : (save s ++ saves.flatMap save).take k =
            save s ++ (saves.flatMap save).take (k - 5) := by
          rw [List.take_append, List.take_of_length_le (show (save s).length ≤ k from hk)]
          rfl
        rw [hsplit, Disk.after_append] at hcrash
        obtain ⟨j, hlo, hhi, hholds⟩ := ih (save_holds disk hroot hfit)
          (fun s hs => hsaves s (List.mem_cons_of_mem _ hs)) hcrash
        refine ⟨j + 1, by omega, by omega, ?_⟩
        rwa [List.take_succ_cons, List.getLastD_cons]

/-- The saves of an operation that ran to its end. -/
theorem saves_hold {saves : List PersistentState} (h : Holds disk state)
    (hsaves : ∀ s ∈ saves, s.Rooted ∧ Fits s) :
    Holds (disk.after (saves.flatMap save)) (saves.getLastD state) := by
  induction saves generalizing disk state with
  | nil => exact h
  | cons s saves ih =>
      obtain ⟨hroot, hfit⟩ := hsaves s List.mem_cons_self
      rw [List.flatMap_cons, Disk.after_append, List.getLastD_cons]
      exact ih (save_holds disk hroot hfit) fun s hs => hsaves s (List.mem_cons_of_mem _ hs)

end

/-! ## A node on a disk -/

/-- A disk, the node that runs on it, and the votes it ever gave, as (term, candidate). -/
structure Host where
  disk : Disk
  node : Option ConsensusModule
  granted : List (Nat × NodeId)

/-- A disk no node ever ran on. -/
def Host.blank : Host := { disk := {}, node := none, granted := [] }

inductive HostEvent where
  | start (now : Instant) (draw : Nat)
  | op (o : Op)
  /-- The node crashes in `o` after `k` file operations. -/
  | crash (o : Op) (k : Nat) (left : Disk)

/-- The file operations of a call. -/
def fileOps (c : ConsensusModule) (o : Op) : List FileOp := (o.saves c).flatMap save

def Host.step (id : NodeId) (peers : List NodeId) (timing : Timing) (self : Host) :
    HostEvent → Option Host
  | .start now draw => do
    guard (self.node.isNone = true)
    match load self.disk with
    | some (.ok state) =>
      some { self with node := some (ConsensusModule.new id peers state timing now draw) }
    | _ => none
  | .op o => do
    let c ← self.node
    guard (∀ s ∈ o.saves c, Fits s)
    let c' ← o.run c
    some
      { disk := self.disk.after (fileOps c o)
        node := some c'
        granted := self.granted ++ o.grants c }
  | .crash o k left => do
    let c ← self.node
    guard (∀ s ∈ o.saves c, Fits s)
    guard (Crash (self.disk.after ((fileOps c o).take k)) left)
    some { self with disk := left, node := none }

/-- The votes given so far are on record. -/
def OnRecord (granted : List (Nat × NodeId)) (p : PersistentState) : Prop :=
  ∀ t x, (t, x) ∈ granted → t ≤ p.currentTerm ∧ (t = p.currentTerm → p.votedFor = some x)

theorem OnRecord.later {granted : List (Nat × NodeId)} {p p' : PersistentState}
    (h : OnRecord granted p) (hp : p.Later p') : OnRecord granted p' := by
  intro t x hx
  obtain ⟨hle, hvote⟩ := h t x hx
  have hterm := hp.term
  exact ⟨by omega, fun heq => hp.vote (by omega) x (hvote (by omega))⟩

/-- No term with votes for two candidates. -/
def OneVote (granted : List (Nat × NodeId)) : Prop :=
  ∀ t x y, (t, x) ∈ granted → (t, y) ∈ granted → x = y

/-- New votes are added where all votes are on record and the new ones are those of the state. -/
theorem OneVote.append {granted new : List (Nat × NodeId)} {p : PersistentState}
    (h : OneVote granted) (hrec : OnRecord granted p)
    (hnew : ∀ t x, (t, x) ∈ new → p.currentTerm = t ∧ p.votedFor = some x) :
    OneVote (granted ++ new) ∧ OnRecord (granted ++ new) p := by
  have hcross : ∀ t x y, (t, x) ∈ granted → (t, y) ∈ new → x = y := by
    intro t x y hx hy
    obtain ⟨hterm, hvote⟩ := hnew t y hy
    have := (hrec t x hx).2 hterm.symm
    exact Option.some.inj (this.symm.trans hvote)
  constructor
  · intro t x y hx hy
    rcases List.mem_append.mp hx with hx | hx <;> rcases List.mem_append.mp hy with hy | hy
    · exact h t x y hx hy
    · exact hcross t x y hx hy
    · exact (hcross t y x hy hx).symm
    · exact Option.some.inj ((hnew t x hx).2.symm.trans (hnew t y hy).2)
  · intro t x hx
    rcases List.mem_append.mp hx with hx | hx
    · exact hrec t x hx
    · obtain ⟨hterm, hvote⟩ := hnew t x hx
      exact ⟨Nat.le_of_eq hterm.symm, fun _ => hvote⟩

/-- The disk holds `p`, which is what a running node has in memory, and every vote is on record. -/
structure HostInv (host : Host) (p : PersistentState) : Prop where
  holds : Holds host.disk p
  rooted : p.Rooted
  node : ∀ c, host.node = some c → Stored c ∧ c.storage = p
  recorded : OnRecord host.granted p
  once : OneVote host.granted

section

variable {id : NodeId} {peers : List NodeId} {timing : Timing} {host host' : Host}
  {p : PersistentState}

theorem blank_inv : HostInv .blank {} where
  holds := ⟨rfl, .inl ⟨rfl, rfl⟩⟩
  rooted := fun _ => ⟨rfl, rfl⟩
  node := nofun
  recorded := nofun
  once := nofun

/-- What is saved during a call can be written and read back. -/
theorem HostInv.saves {c : ConsensusModule} (h : HostInv host p) (hc : host.node = some c) {o : Op}
    (hfit : ∀ s ∈ o.saves c, Fits s) : ∀ s ∈ o.saves c, s.Rooted ∧ Fits s := by
  intro s hs
  obtain ⟨hstored, hp⟩ := h.node c hc
  obtain ⟨q, hpath⟩ := Op.exists_path hstored o
  rw [hp] at hpath
  exact ⟨hpath.rooted h.rooted s (List.mem_cons_of_mem _ hs), hfit s hs⟩

theorem start_keeps (h : HostInv host p) {now : Instant} {draw : Nat}
    (hstep : host.step id peers timing (.start now draw) = some host') : HostInv host' p := by
  obtain ⟨-, hmatch⟩ := of_guard hstep
  rw [h.holds.load] at hmatch
  cases hmatch
  exact
    { holds := h.holds
      rooted := h.rooted
      node := by
        intro c hc
        cases hc
        exact ⟨ConsensusModule.new_stored id peers p timing now draw, rfl⟩
      recorded := h.recorded
      once := h.once }

theorem op_keeps (h : HostInv host p) {o : Op}
    (hstep : host.step id peers timing (.op o) = some host') :
    ∃ p', p.Later p' ∧ HostInv host' p' := by
  obtain ⟨c, hc, hrest⟩ := Option.bind_eq_some_iff.mp hstep
  obtain ⟨hfit, hrest⟩ := of_guard hrest
  obtain ⟨c', hrun, heq⟩ := Option.bind_eq_some_iff.mp hrest
  cases heq
  obtain ⟨hstored, hp⟩ := h.node c hc
  have hstored' := Op.run_stored hstored hrun
  have hpath := Op.saves_path hstored hrun
  rw [← hstored, hp] at hpath
  have hlast := saves_hold h.holds (h.saves hc hfit)
  rw [hpath.getLastD_eq] at hlast
  have hmem : c'.persistentState ∈ p :: o.saves c := hpath.getLastD_eq ▸ List.getLastD_mem_cons
  have hlater := hpath.later _ hmem
  obtain ⟨honce, hrec⟩ := h.once.append (h.recorded.later hlater)
    fun t x hx => Op.granted_recorded hrun hx
  refine ⟨c'.persistentState, hlater, ?_⟩
  exact
    { holds := hlast
      rooted := hpath.rooted h.rooted _ hmem
      node := by
        intro d hd
        cases hd
        exact ⟨hstored', hstored'⟩
      recorded := hrec
      once := honce }

/-- A crash in a call leaves the state after the saves it had completed, or after the one in
    progress. -/
theorem crash_leaves (h : HostInv host p) {o : Op} {k : Nat} {left : Disk}
    (hstep : host.step id peers timing (.crash o k left) = some host') :
    ∃ c j, host.node = some c ∧ host' = { host with disk := left, node := none } ∧
      k / 5 ≤ j ∧ j ≤ (k + 4) / 5 ∧ Holds left (c.savedAfter o j) := by
  obtain ⟨c, hc, hrest⟩ := Option.bind_eq_some_iff.mp hstep
  obtain ⟨hfit, hrest⟩ := of_guard hrest
  obtain ⟨hcrash, heq⟩ := of_guard hrest
  cases heq
  obtain ⟨j, hlo, hhi, hholds⟩ := crash_in_saves h.holds (h.saves hc hfit) hcrash
  rw [← (h.node c hc).2] at hholds
  exact ⟨c, j, hc, rfl, hlo, hhi, hholds⟩

theorem crash_keeps (h : HostInv host p) {o : Op} {k : Nat} {left : Disk}
    (hstep : host.step id peers timing (.crash o k left) = some host') :
    ∃ p', p.Later p' ∧ HostInv host' p' := by
  obtain ⟨c, j, hc, rfl, -, -, hholds⟩ := crash_leaves h hstep
  obtain ⟨hstored, hp⟩ := h.node c hc
  obtain ⟨q, hpath⟩ := Op.exists_path hstored o
  have hmem := savedAfter_mem c o j
  have hlater := hpath.later _ hmem
  rw [hp] at hlater
  refine ⟨c.savedAfter o j, hlater, ?_⟩
  exact
    { holds := hholds
      rooted := hpath.rooted (hp ▸ h.rooted) _ hmem
      node := nofun
      recorded := h.recorded.later hlater
      once := h.once }

theorem step_keeps (h : HostInv host p) {e : HostEvent}
    (hstep : host.step id peers timing e = some host') : ∃ p', p.Later p' ∧ HostInv host' p' := by
  cases e with
  | start now draw => exact ⟨p, .refl p, start_keeps h hstep⟩
  | op o => exact op_keeps h hstep
  | crash o k left => exact crash_keeps h hstep

/-- Along every run the invariant holds, of later and later states. -/
theorem run_keeps (hrun : Reaches (Host.step id peers timing) host host') (h : HostInv host p) :
    ∃ p', p.Later p' ∧ HostInv host' p' :=
  hrun.invariant (I := fun host => ∃ p', p.Later p' ∧ HostInv host p')
    (fun _ _ _ ⟨_, hlater, hinv⟩ hstep =>
      let ⟨p', hlater', hinv'⟩ := step_keeps hinv hstep
      ⟨p', hlater.trans hlater', hinv'⟩)
    ⟨p, .refl p, h⟩

end

/-- **Crash recovery.** Over any storage, what is in memory after each operation is what `load`
    returns. On a file, in every run with crashes anywhere: the file loads; it loads as what a
    running node has in memory; a crash after `k` of the five file operations a save takes leaves
    the last completed save or the one in progress; a start resumes from what is there; the saved
    term never falls, and no two candidates are ever given a vote in one term. -/
theorem recovers (id : NodeId) (peers : List NodeId) (timing : Timing) :
    (∀ storage now draw c,
      Reaches NodeEvent.step (ConsensusModule.new id peers storage timing now draw) c →
        c.storage = c.persistentState) ∧
    ∀ host, Reaches (Host.step id peers timing) .blank host →
      ∃ saved, load host.disk = some (.ok saved) ∧
        (∀ c, host.node = some c → c.storage = saved ∧ c.persistentState = saved) ∧
        (∀ c o k left host', host.node = some c →
          host.step id peers timing (.crash o k left) = some host' →
          host'.disk = left ∧ ∃ j, k / 5 ≤ j ∧ j ≤ (k + 4) / 5 ∧
            load left = some (.ok (c.savedAfter o j))) ∧
        (∀ now draw, host.node = none → ∃ c, c.persistentState = saved ∧
          host.step id peers timing (.start now draw) = some { host with node := some c }) ∧
        (∀ host', Reaches (Host.step id peers timing) host host' →
          ∃ saved', load host'.disk = some (.ok saved') ∧ saved.currentTerm ≤ saved'.currentTerm) ∧
        (∀ t x y, (t, x) ∈ host.granted → (t, y) ∈ host.granted → x = y) := by
  refine ⟨fun storage now draw c h => h.invariant (I := Stored)
    (fun _ _ _ hc hstep => NodeEvent.step_stored hc hstep)
    (ConsensusModule.new_stored id peers storage timing now draw), fun host hrun => ?_⟩
  obtain ⟨p, -, h⟩ := run_keeps hrun blank_inv
  refine ⟨p, h.holds.load, ?_, ?_, ?_, ?_, h.once⟩
  · intro c hc
    obtain ⟨hstored, hp⟩ := h.node c hc
    exact ⟨hp, hstored.symm.trans hp⟩
  · intro c o k left host' hc hstep
    obtain ⟨d, j, hd, rfl, hlo, hhi, hholds⟩ := crash_leaves h hstep
    cases hc.symm.trans hd
    exact ⟨rfl, j, hlo, hhi, hholds.load⟩
  · intro now draw hnone
    refine ⟨ConsensusModule.new id peers p timing now draw, rfl, ?_⟩
    unfold Host.step
    rw [hnone, h.holds.load]
    rfl
  · intro host' hrun'
    obtain ⟨p', hlater, h'⟩ := run_keeps hrun' h
    exact ⟨p', h'.holds.load, hlater.term⟩

/-- Node 1 campaigns, then adopts term 5 and crashes while it saves its vote for node 2: the rename
    was made but the directory not synced, and the crash undoes it. It starts again. -/
def crashedRun : List HostEvent :=
  [.start 0 0, .op (.startElection 0 0),
    .crash (.handleRequestVote ⟨5, 2, 0, 0, false⟩ 0 0) 9
      { path := some ⟨encode { currentTerm := 5 }, true⟩, tmp := some ⟨[77, 0], false⟩ },
    .start 0 0]

theorem crashedRun_isSome :
    (run (Host.step 1 [2, 3] {}) .blank crashedRun).isSome = true := by decide +kernel

def crashed : Host := (run (Host.step 1 [2, 3] {}) .blank crashedRun).get crashedRun_isSome

theorem recovers_crashed :
    ∃ saved : PersistentState, load crashed.disk = some (.ok saved) ∧ saved.currentTerm = 5 ∧
      saved.votedFor = none ∧ ∀ c, crashed.node = some c → c.persistentState = saved := by
  obtain ⟨saved, hload, hnode, -⟩ := (recovers 1 [2, 3] {}).2 crashed
    ⟨crashedRun, Option.eq_some_of_isSome crashedRun_isSome⟩
  have hdisk : load crashed.disk = some (.ok { currentTerm := 5 }) :=
    decode_encode (fun _ => ⟨rfl, rfl⟩) (by decide)
  cases hload.symm.trans hdisk
  exact ⟨_, hload, rfl, rfl, fun c hc => (hnode c hc).2⟩

end Murmur.Raft.FileStorage
