/-
  `src/raft/storage.rs`: the layout of the state file, and its strict decoder.

  `encode` writes the four persistent fields; `decode` is the bounds-checked cursor over the file's
  bytes, as a `Parse` that is run on the whole buffer. Its result is `none` where an access would be
  out of range, and an error text otherwise where the file is refused.

  The layout has no room for a snapshot boundary without snapshot bytes, so the round trip is one of
  `Rooted` states; `lives_saved` says that a node saves no others.
-/
import Murmur.Basis.Parse
import Murmur.Raft.Operation

namespace Murmur.Raft

open Murmur.Basis

namespace StateFile

/-- `b"MRMR"`. -/
def MAGIC : Bytes := [77, 82, 77, 82]

def VERSION : UInt8 := 2

/-- `u64::to_le_bytes`. -/
def toLeBytes (n : Nat) : Bytes := u64ToLe (UInt64.ofNat n)

/-! ## Encoder -/

def encodeVote : Option NodeId → Bytes
  | some id => [1] ++ toLeBytes id
  | none => [0] ++ toLeBytes 0

/-- The compaction boundary and the bytes it stands for, all zero when there are none. -/
def encodeSnapshot (log : Log) : Option Bytes → Bytes
  | some data =>
    [1] ++ (toLeBytes log.snapshotIndex ++ (toLeBytes log.snapshotTerm ++
      (toLeBytes data.length ++ data)))
  | none => [0] ++ (toLeBytes 0 ++ (toLeBytes 0 ++ toLeBytes 0))

def encodeEntry (entry : LogEntry) : Bytes :=
  toLeBytes entry.term ++ (toLeBytes entry.command.length ++ entry.command)

def encode (state : PersistentState) : Bytes :=
  let entries := state.log.entries
  MAGIC ++ ([VERSION] ++ (toLeBytes state.currentTerm ++ (encodeVote state.votedFor ++
    (encodeSnapshot state.log state.snapshot ++
      (toLeBytes entries.length ++ entries.flatMap encodeEntry)))))

/-- The numbers are `u64`s, and the file is one that a machine can hold. -/
structure Fits (state : PersistentState) : Prop where
  term : state.currentTerm < 2 ^ 64
  vote : ∀ id ∈ state.votedFor, id < 2 ^ 64
  index : state.log.snapshotIndex < 2 ^ 64
  boundary : state.log.snapshotTerm < 2 ^ 64
  terms : ∀ e ∈ state.log.entries, e.term < 2 ^ 64
  size : (encode state).length < 2 ^ 64

instance (state : PersistentState) : Decidable (Fits state) :=
  decidable_of_iff
    (state.currentTerm < 2 ^ 64 ∧ (∀ id ∈ state.votedFor, id < 2 ^ 64) ∧
      state.log.snapshotIndex < 2 ^ 64 ∧ state.log.snapshotTerm < 2 ^ 64 ∧
      (∀ e ∈ state.log.entries, e.term < 2 ^ 64) ∧ (encode state).length < 2 ^ 64)
    ⟨fun ⟨h1, h2, h3, h4, h5, h6⟩ => ⟨h1, h2, h3, h4, h5, h6⟩,
      fun ⟨h1, h2, h3, h4, h5, h6⟩ => ⟨h1, h2, h3, h4, h5, h6⟩⟩

/-! ## Decoder -/

def take (n : Nat) : Parse String (Block n) :=
  .take n s!"raft state file: truncated (wanted {n} more bytes)" .done

def u8 : Parse String UInt8 := do
  return (← take 1).head

def u64 : Parse String Nat := do
  return (← take 8).u64.toNat

def decodeVote : Parse String (Option NodeId) := do
  let flag ← u8
  match flag.toNat with
  | 0 => do
    -- The id slot is there but unused.
    let _ ← u64
    return none
  | 1 => do return some (← u64)
  | other => .fail s!"raft state file: bad vote flag {other}"

/-- The boundary, and the snapshot behind it. The length is skipped over when the flag is 0. -/
def decodeSnapshot : Parse String (Nat × Nat × Option Bytes) := do
  let flag ← u8
  let index ← u64
  let term ← u64
  let len ← u64
  match flag.toNat with
  | 0 => return (index, term, none)
  | 1 => do
    let data ← take len
    return (index, term, some data.val)
  | other => .fail s!"raft state file: bad snapshot flag {other}"

/-- One pass of the entry loop. -/
def decodeEntry (entries : List LogEntry) : Parse String (List LogEntry) := do
  let term ← u64
  let len ← u64
  let command ← take len
  return entries ++ [{ term, command := command.val }]

def parse : Parse String PersistentState := do
  let magic ← take 4
  Parse.ensure (magic.val = MAGIC) "raft state file: bad magic"
  let version ← u8
  Parse.ensure (version = VERSION) s!"raft state file: unsupported version {version}"
  let currentTerm ← u64
  let votedFor ← decodeVote
  let (snapshotIndex, snapshotTerm, snapshot) ← decodeSnapshot
  let count ← u64
  let entries ← Parse.loop decodeEntry count []
  return { currentTerm, votedFor, log := { entries, snapshotIndex, snapshotTerm }, snapshot }

def decode (bytes : Bytes) : Option (Except String PersistentState) :=
  parse.run (fun left => s!"raft state file: {left} trailing bytes") bytes

/-! ## Round trip -/

theorem reads_u64 {n : Nat} (h : n < 2 ^ 64) : Reads u64.onList (toLeBytes n) n := by
  have hblock := Parse.reads_map (fun b : Block 8 => b.u64.toNat)
    (Parse.reads_take s!"raft state file: truncated (wanted {8} more bytes)"
      ⟨toLeBytes n, length_u64ToLe _⟩)
  have hn : (UInt64.ofNat n).toNat = n := UInt64.toNat_ofNat_of_lt' h
  simp only [Block.u64, toLeBytes, u64OfLe_u64ToLe, hn] at hblock
  exact hblock

theorem reads_u8 (b : UInt8) : Reads u8.onList [b] b :=
  Parse.reads_map (fun block : Block 1 => block.head) (Parse.reads_take _ ⟨[b], rfl⟩)

theorem reads_decodeVote {vote : Option NodeId} (h : ∀ id ∈ vote, id < 2 ^ 64) :
    Reads decodeVote.onList (encodeVote vote) vote := by
  cases vote with
  | none =>
      have hslot := reads_u64 (n := 0) (by decide)
      exact Parse.reads_bind (reads_u8 0) (Parse.reads_map (fun _ => none) hslot)
  | some id => exact Parse.reads_bind (reads_u8 1) (Parse.reads_map some (reads_u64 (h id rfl)))

theorem reads_take (bytes : Bytes) :
    Reads (take bytes.length).onList bytes ⟨bytes, rfl⟩ :=
  Parse.reads_take _ ⟨bytes, rfl⟩

theorem reads_decodeSnapshot_none :
    Reads decodeSnapshot.onList (encodeSnapshot log none) (0, 0, none) := by
  have hzero := reads_u64 (n := 0) (by decide)
  exact Parse.reads_bind (reads_u8 0) (Parse.reads_bind hzero (Parse.reads_bind hzero
    (Parse.reads_map (fun _ => (0, 0, none)) hzero)))

theorem reads_decodeSnapshot_some {log : Log} {data : Bytes} (hi : log.snapshotIndex < 2 ^ 64)
    (ht : log.snapshotTerm < 2 ^ 64) (hd : data.length < 2 ^ 64) :
    Reads decodeSnapshot.onList (encodeSnapshot log (some data))
      (log.snapshotIndex, log.snapshotTerm, some data) := by
  unfold decodeSnapshot encodeSnapshot
  refine Parse.reads_bind (reads_u8 1) ?_
  refine Parse.reads_bind (reads_u64 hi) ?_
  refine Parse.reads_bind (reads_u64 ht) ?_
  refine Parse.reads_bind (reads_u64 hd) ?_
  exact Parse.reads_map
    (fun b : Block data.length => (log.snapshotIndex, log.snapshotTerm, some b.val))
    (reads_take data)

theorem reads_decodeEntry (entries : List LogEntry) {entry : LogEntry} (ht : entry.term < 2 ^ 64)
    (hlen : entry.command.length < 2 ^ 64) :
    Reads (decodeEntry entries).onList (encodeEntry entry) (entries ++ [entry]) := by
  refine Parse.reads_bind (reads_u64 ht) (Parse.reads_bind (reads_u64 hlen) ?_)
  exact Parse.reads_map
    (fun b : Block entry.command.length => entries ++ [{ term := entry.term, command := b.val }])
    (reads_take entry.command)

/-! ### Lengths -/

theorem length_encode (state : PersistentState) :
    (encode state).length = 21 + (encodeVote state.votedFor).length +
      (encodeSnapshot state.log state.snapshot).length +
        (state.log.entries.flatMap encodeEntry).length := by
  unfold encode toLeBytes
  simp only [List.length_append, length_u64ToLe, MAGIC, List.length_cons, List.length_nil]
  omega

theorem length_encodeEntry (entry : LogEntry) :
    (encodeEntry entry).length = 16 + entry.command.length := by
  unfold encodeEntry toLeBytes
  simp only [List.length_append, length_u64ToLe]
  omega

namespace Fits

variable {state : PersistentState}

theorem data (h : Fits state) : ∀ bytes ∈ state.snapshot, bytes.length < 2 ^ 64 := by
  intro bytes hb
  have hsize := h.size
  rw [length_encode, hb] at hsize
  simp only [encodeSnapshot, List.length_append] at hsize
  omega

theorem count (h : Fits state) : state.log.entries.length < 2 ^ 64 := by
  have hsize := h.size
  rw [length_encode] at hsize
  have hle := count_le_flatMap encodeEntry (fun e => by rw [length_encodeEntry]; omega)
    state.log.entries
  omega

theorem commands (h : Fits state) : ∀ e ∈ state.log.entries, e.command.length < 2 ^ 64 := by
  intro e he
  have hsize := h.size
  rw [length_encode] at hsize
  have hle := length_le_flatMap encodeEntry he
  rw [length_encodeEntry] at hle
  omega

end Fits

theorem reads_decodeSnapshot {state : PersistentState} (hroot : state.Rooted) (h : Fits state) :
    Reads decodeSnapshot.onList (encodeSnapshot state.log state.snapshot)
      (state.log.snapshotIndex, state.log.snapshotTerm, state.snapshot) := by
  cases hsnap : state.snapshot with
  | none =>
      obtain ⟨hi, ht⟩ := hroot hsnap
      rw [hi, ht]
      exact reads_decodeSnapshot_none
  | some data => exact reads_decodeSnapshot_some h.index h.boundary (h.data data hsnap)

/-- The parser reads what the encoder writes. -/
theorem reads_parse {state : PersistentState} (hroot : state.Rooted) (h : Fits state) :
    Reads parse.onList (encode state) state := by
  unfold parse encode
  refine Parse.reads_bind (reads_take MAGIC) ?_
  refine Parse.reads_ensure rfl _ ?_
  refine Parse.reads_bind (reads_u8 VERSION) ?_
  refine Parse.reads_ensure rfl _ ?_
  refine Parse.reads_bind (reads_u64 h.term) ?_
  refine Parse.reads_bind (reads_decodeVote h.vote) ?_
  refine Parse.reads_bind (reads_decodeSnapshot hroot h) ?_
  refine Parse.reads_bind (reads_u64 h.count) ?_
  have hloop := Parse.reads_loop state.log.entries
    (fun acc e he => reads_decodeEntry acc (h.terms e he) (h.commands e he)) []
  rw [foldl_snoc, List.nil_append] at hloop
  exact Parse.reads_map (fun entries => _) hloop

/-! ## Strictness -/

theorem yields_u64 : Parse.Yields u64 fun _ cost => cost = 8 := by
  have hblock : Parse.Yields (take 8) fun _ cost => cost = 8 :=
    Parse.yields_take _ fun _ => Parse.yields_done rfl
  exact hblock.bind fun _ _ h => Parse.yields_done h

/-- Each pass of the entry loop costs at least 16 bytes. -/
theorem yields_decodeEntry (entries : List LogEntry) (spent : Nat)
    (h : 16 * entries.length ≤ spent) :
    Parse.Yields (decodeEntry entries) fun entries' cost =>
      16 * entries'.length ≤ spent + cost := by
  refine yields_u64.bind fun term c₁ h₁ => ?_
  refine yields_u64.bind fun len c₂ h₂ => ?_
  refine (Parse.yields_any _).bind fun command c₃ _ => Parse.yields_done ?_
  rw [List.length_append, List.length_singleton]
  omega

/-- Whatever count the bytes claim, the entries that come out were paid for. -/
theorem yields_parse :
    Parse.Yields parse fun state cost => 16 * state.log.entries.length ≤ cost := by
  unfold parse
  refine (Parse.yields_any _).bind fun magic c₁ _ => ?_
  refine (Parse.yields_any _).bind fun _ c₂ _ => ?_
  refine (Parse.yields_any _).bind fun version c₃ _ => ?_
  refine (Parse.yields_any _).bind fun _ c₄ _ => ?_
  refine (Parse.yields_any _).bind fun term c₅ _ => ?_
  refine (Parse.yields_any _).bind fun vote c₆ _ => ?_
  refine (Parse.yields_any _).bind fun snapshot c₇ _ => ?_
  refine (Parse.yields_any _).bind fun count c₈ _ => ?_
  refine (Parse.Yields.loop yields_decodeEntry count (Nat.zero_le 0)).bind fun entries c₉ h => ?_
  refine Parse.yields_done ?_
  show 16 * entries.length ≤ _
  omega

/-- Every buffer is decoded or refused without an access out of range. -/
theorem decode_total (bytes : Bytes) :
    ∃ result, decode bytes = some result ∧
      ∀ state, result = .ok state → 16 * state.log.entries.length ≤ bytes.length := by
  obtain ⟨result, hrun, hok⟩ := parse.run_total _ bytes
  refine ⟨result, hrun, fun state heq => ?_⟩
  obtain ⟨cost, hlen, hcost⟩ := yields_parse (hok state heq)
  rw [hlen]
  exact Nat.le_add_right_of_le hcost

theorem decode_encode {state : PersistentState} (hroot : state.Rooted) (h : Fits state) :
    decode (encode state) = some (.ok state) :=
  Parse.run_reads (reads_parse hroot h) h.size

/-- The format: what is written is read back, what is cut short or extended is refused, what a node
    saves can be written, and no bytes lead the decoder out of its buffer. -/
theorem state_file_round_trips :
    (∀ state : PersistentState, state.Rooted → Fits state →
      decode (encode state) = some (.ok state) ∧
      (∀ cut, cut <+: encode state → cut ≠ encode state → ∃ e, decode cut = some (.error e)) ∧
      (∀ more, more ≠ [] → ∃ e, decode (encode state ++ more) = some (.error e))) ∧
    (∀ c, Lives c → c.storage.Rooted ∧ ∀ o : Op, ∀ state ∈ o.saves c, state.Rooted) ∧
    (∀ bytes, ∃ result, decode bytes = some result ∧
      ∀ state, result = .ok state → 16 * state.log.entries.length ≤ bytes.length) := by
  refine ⟨fun state hroot h => ?_, fun c hc => (lives_saved hc).2, decode_total⟩
  have hreads := reads_parse hroot h
  exact ⟨decode_encode hroot h, fun cut hcut hne => Parse.run_cut hreads hcut hne,
    fun more hne => Parse.run_left hreads hne⟩

/-- A compacted log with a tail, as a file. -/
def compacted : PersistentState :=
  { currentTerm := 4, votedFor := some 1
    log := { entries := [⟨3, [116]⟩, ⟨4, []⟩], snapshotIndex := 5, snapshotTerm := 3 }
    snapshot := some [105, 109] }

theorem state_file_round_trips_compacted :
    decode (encode compacted) = some (.ok compacted) ∧
      (∃ e, decode ((encode compacted).take 40) = some (.error e)) ∧
      ∃ e, decode (encode compacted ++ [0]) = some (.error e) := by
  have h := state_file_round_trips.1 compacted nofun (by decide +kernel)
  have hcut : (encode compacted).take 40 <+: encode compacted := List.take_prefix _ _
  exact ⟨h.1, h.2.1 _ hcut (by decide +kernel), h.2.2 [0] (by decide)⟩

end StateFile

end Murmur.Raft
