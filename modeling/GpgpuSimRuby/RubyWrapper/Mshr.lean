import GpgpuSimRuby.Library.Fault

/-!
# The MSHR table of the Ruby wrapper

`ruby_mshr_table` of `ruby_wrapper.cc`, for one core. An entry collects the accesses of a block
that wait for one answer of Ruby. It also counts, for each warp, the reads and the writes of the
block that are pending.

* `m_readset` and `m_writeset` map a warp to a positive count (an entry whose count drops to zero is
  erased), which is a multiset of warps.
* A failing `assert` is an error that names it.
-/

namespace GpgpuSimRuby.RubyWrapper

open Library

/-- `ruby_addr_type`. -/
abbrev RubyAddr := BitVec 64

/-- The options that the wrapper, the MSHR tables and the sequencers read, with their defaults. -/
structure Config where
  writesStallAtMshr : Bool := false
  singleWritePerWarp : Bool := false
  gmemSkipL1D : Bool := false
  mshrCount : Nat := 64
  mshrSize : Nat := 32
  numSeqEntries : Nat := 64
  deriving DecidableEq, Repr

/-- `g_DATA_BLOCK_BYTES`. -/
def rubyBlockSize : RubyAddr := 128#64

/-- `ruby_memory_space_t`. -/
inductive RubyMemorySpace where
  | global
  | local
  deriving DecidableEq, Repr

/-- An access as the `ldst_unit` issues it: `space` is what `get_ruby_mem_space` makes of it, since
only global and local accesses and memory barriers come this way. -/
structure Access where
  addr : RubyAddr
  dataSize : Nat
  wid : Nat
  isWrite : Bool
  isAtomic : Bool
  isMembar : Bool
  space : RubyMemorySpace
  deriving DecidableEq, Repr

/-- What the wrapper reads of a `mem_fetch`. The shader allocates one for every attempt to issue an
access, under a fresh `m_request_uid`; it stands for the pointer. -/
structure MemFetch extends Access where
  uid : Nat
  deriving DecidableEq, Repr

namespace MemFetch

/-- `mf->get_addr() & ~(line_size-1)`. -/
def blockAddr (mf : MemFetch) : RubyAddr := mf.addr &&& ~~~(rubyBlockSize - 1#64)

/-- `is_write` of `is_ready` and `send_request`: an atomic modifies the line. -/
def modifies (mf : MemFetch) : Bool := mf.isWrite || mf.isAtomic

end MemFetch

/-- The assertions of the code on the way of a request. -/
inductive Assertion where
  | doAccessWrite
  | accessAllowedEntry
  | addWriteToRead
  | addNumEntries
  | addMaxMerged
  | markReadyEntry
  | markReadySize
  | nextAccessReady
  | nextAccessEmpty
  | nextAccessWriteset
  | nextAccessReadset
  | nextAccessReadsLeft
  | skippedWriteMode
  | skippedWriteEntry
  | skippedWriteWarp
  | skippedWriteReadsLeft
  | stallReason
  | dataSize
  | addressZero
  | outstandingRequest
  | outstandingCount
  | skipL1Exists
  | skippedRead
  | memfenceAddress
  deriving DecidableEq, Repr

/-- The assertions of `ruby_mshr_table` itself. -/
def Assertion.ofTable : Assertion → Bool
  | .stallReason | .dataSize | .addressZero | .outstandingRequest | .outstandingCount
  | .skipL1Exists | .skippedRead | .memfenceAddress => false
  | _ => true

/-- `ruby_stall_reason_t`, as far as the table gives one. -/
inductive StallReason where
  | rubyNoStall
  | mshrWriteToPending
  | mshrDiffWarpRWR
  deriving DecidableEq, Repr

/-- `ruby_mshr_table::entry`. -/
structure Entry where
  readset : Multiset Nat := 0
  writeset : Multiset Nat := 0
  writeAfterRead : Bool := false
  list : List MemFetch := []
  deriving DecidableEq

/-- The entry after `add` has put an access into it: a write is queued only if writes do not skip the
MSHRs, and a write on a pending read is remembered. -/
def Entry.take (cfg : Config) (e : Entry) (isWrite : Bool) (mf : MemFetch) : Entry where
  readset := if isWrite then e.readset else mf.wid ::ₘ e.readset
  writeset := if isWrite then mf.wid ::ₘ e.writeset else e.writeset
  writeAfterRead := e.writeAfterRead || (isWrite && decide (e.readset ≠ 0))
  list := if isWrite = false ∨ cfg.writesStallAtMshr = true then e.list ++ [mf] else e.list

/-- `m_data` and `m_current_response`. -/
structure MshrTable where
  data : AList fun _ : RubyAddr => Entry
  currentResponse : List RubyAddr

namespace MshrTable

variable (cfg : Config) (t : MshrTable)

/-- The empty table. -/
def init : MshrTable := ⟨∅, []⟩

/-- `m_data.size()`. -/
def size : Nat := t.data.keys.length

/-- `m_data[block_addr]`, read only. -/
def entry (blockAddr : RubyAddr) : Entry := (t.data.lookup blockAddr).getD {}

/-- Overwrite the entry of a block. -/
def set (blockAddr : RubyAddr) (e : Entry) : MshrTable :=
  { t with data := t.data.insert blockAddr e }

/-- `m_data.erase(block_addr)`. -/
def release (blockAddr : RubyAddr) : MshrTable := { t with data := t.data.erase blockAddr }

/-- Does an MSHR entry already exist? -/
def probe (blockAddr : RubyAddr) : Bool := blockAddr ∈ t.data

/-- Should this access be sent to Ruby? -/
def doAccess (blockAddr : RubyAddr) (isWrite : Bool) : Except Assertion Bool :=
  if cfg.writesStallAtMshr then .ok (blockAddr ∉ t.data)
  else do
    assert (isWrite = false) .doAccessWrite
    .ok (blockAddr ∉ t.data || decide ((t.entry blockAddr).readset = 0))

/-- Is there no space for tracking a new access? -/
def full (blockAddr : RubyAddr) : Bool :=
  if blockAddr ∈ t.data then cfg.mshrSize ≤ (t.entry blockAddr).list.length
  else cfg.mshrCount ≤ t.size

/-- Is this access allowed to go ahead, and if not, why? -/
def accessAllowed (blockAddr : RubyAddr) (isWrite : Bool) (warpId : Nat) :
    Except Assertion (Bool × StallReason) := do
  assert (blockAddr ∈ t.data) .accessAllowedEntry
  let e := t.entry blockAddr
  if cfg.singleWritePerWarp ∧ warpId ∈ e.writeset then .ok (false, .mshrWriteToPending)
  else if cfg.writesStallAtMshr then
    -- the first request asked for read permission only
    if isWrite ∧ e.writeset = 0 then .ok (false, .mshrWriteToPending) else .ok (true, .rubyNoStall)
  else
    -- the R0-W1-R1 case: the second read must not be merged with the first
    if ¬ isWrite ∧ warpId ∈ e.writeset ∧ e.writeAfterRead then .ok (false, .mshrDiffWarpRWR)
    else .ok (true, .rubyNoStall)

/-- Add or merge this access. -/
def add (blockAddr : RubyAddr) (isWrite : Bool) (mf : MemFetch) : Except Assertion MshrTable := do
  let e := t.entry blockAddr
  assert (cfg.writesStallAtMshr → isWrite →
    e.readset = 0 ∧ e.writeset = 0 ∨ e.writeset ≠ 0) .addWriteToRead
  let t' := t.set blockAddr (e.take cfg isWrite mf)
  assert (t'.size ≤ cfg.mshrCount) .addNumEntries
  assert ((e.take cfg isWrite mf).list.length ≤ cfg.mshrSize) .addMaxMerged
  .ok t'

/-- Accept a new cache fill response: mark the entry ready for processing. -/
def markReady (blockAddr : RubyAddr) : Except Assertion MshrTable := do
  assert (blockAddr ∈ t.data) .markReadyEntry
  let t' := { t with currentResponse := t.currentResponse ++ [blockAddr] }
  assert (t'.currentResponse.length ≤ t'.size) .markReadySize
  .ok t'

/-- True if ready accesses exist. -/
def accessReady : Bool := !t.currentResponse.isEmpty

/-- Next ready access. -/
def nextAccess : Except Assertion (MemFetch × MshrTable) :=
  match t.currentResponse with
  | [] => .error .nextAccessReady
  | blockAddr :: responses =>
    match (t.entry blockAddr).list with
    | [] => .error .nextAccessEmpty
    | result :: list => do
      let e := { t.entry blockAddr with list := list }
      let e ←
        if cfg.writesStallAtMshr ∧ result.modifies then do
          assert (result.wid ∈ e.writeset) .nextAccessWriteset
          pure { e with writeset := e.writeset.erase result.wid }
        else do
          assert (result.wid ∈ e.readset) .nextAccessReadset
          pure { e with readset := e.readset.erase result.wid }
      if e.list = [] then do
        assert (e.readset = 0) .nextAccessReadsLeft
        -- with writes that skip the table the entry stays until all of them have returned
        let t' := if cfg.writesStallAtMshr ∨ e.writeset = 0 then t.release blockAddr
          else t.set blockAddr e
        .ok (result, { t' with currentResponse := responses })
      else .ok (result, t.set blockAddr e)

/-- Mark a write that was skipped done in the MSHR. -/
def markSkippedWriteDone (blockAddr : RubyAddr) (warpId : Nat) : Except Assertion MshrTable := do
  assert (cfg.writesStallAtMshr = false) .skippedWriteMode
  assert (blockAddr ∈ t.data) .skippedWriteEntry
  let e := t.entry blockAddr
  assert (warpId ∈ e.writeset) .skippedWriteWarp
  let e := { e with writeset := e.writeset.erase warpId }
  if e.list = [] ∧ e.writeset = 0 then do
    assert (e.readset = 0) .skippedWriteReadsLeft
    .ok (t.release blockAddr)
  else .ok (t.set blockAddr e)

/-! ## Reading the table -/

variable {cfg t} {a b : RubyAddr} {e : Entry}

theorem mem_set : a ∈ (t.set b e).data ↔ a = b ∨ a ∈ t.data := by
  simp [set]

theorem mem_release : a ∈ (t.release b).data ↔ a ≠ b ∧ a ∈ t.data := by
  simp [release]

@[simp]
theorem entry_set_self : (t.set b e).entry b = e := by
  simp [set, entry]

theorem entry_set_of_ne (h : a ≠ b) : (t.set b e).entry a = t.entry a := by
  simp [set, entry, AList.lookup_insert_ne h]

@[simp]
theorem entry_release_self : (t.release b).entry b = {} := by
  simp [release, entry]

theorem entry_release_of_ne (h : a ≠ b) : (t.release b).entry a = t.entry a := by
  simp [release, entry, AList.lookup_erase_ne h]

theorem entry_of_not_mem (h : b ∉ t.data) : t.entry b = {} := by
  simp [entry, AList.lookup_eq_none.mpr h]

theorem size_set_of_mem (h : b ∈ t.data) : (t.set b e).size = t.size := by
  have hk : b ∈ t.data.keys := AList.mem_keys.mp h
  have hpos := List.length_pos_of_mem hk
  simp only [size, set, AList.keys_insert, List.length_cons, List.length_erase_of_mem hk]
  omega

theorem size_set_of_not_mem (h : b ∉ t.data) : (t.set b e).size = t.size + 1 := by
  have hk : b ∉ t.data.keys := fun hb => h (AList.mem_keys.mpr hb)
  simp only [size, set, AList.keys_insert, List.length_cons, List.erase_of_not_mem hk]

theorem size_release_le : (t.release b).size ≤ t.size := by
  simp only [size, release, AList.keys_erase]
  exact List.length_erase_le

theorem length_le_size {l : List RubyAddr} (hnd : l.Nodup) (hmem : ∀ a ∈ l, a ∈ t.data) :
    l.length ≤ t.size := by
  apply List.Subperm.length_le
  apply hnd.subperm
  intro a ha
  exact AList.mem_keys.mp (hmem a ha)

end MshrTable

end GpgpuSimRuby.RubyWrapper
