import GpgpuSimRuby.Ruby.Basic
import GpgpuSimRuby.RubyWrapper.Mshr

/-!
# The sequencer of a core

`Sequencer.C` as the wrapper drives it, with the options of `gpusimconfig.defaults`: no store buffer
(`TSO` is off) and no fast path (`REMOVE_SINGLE_CYCLE_DCACHE_FAST_PATH` is on), so every request
goes to the L1 controller and is outstanding until the controller calls back. Which outstanding
request the controller answers next is the choice of the environment.

* The request tables hold the requests in the order in which they were made. The one `readCallback`
  and `writeCallback` pick, the oldest of the address, is the first.
* `m_skipL1RequestTable` has the pointer to the `mem_fetch` as its key.
-/

namespace GpgpuSimRuby.RubyWrapper

open Ruby Library

/-- A request of the wrapper to Ruby, as `makeRequest` and `isReady` get it. -/
structure Request where
  type : CacheRequestType
  address : RubyAddr
  thread : Nat
  space : RubyMemorySpace
  memfetch : MemFetch
  deriving DecidableEq, Repr

/-- `get_ruby_mem_type`, as the type that `getRubyMemType` makes of it. -/
def MemFetch.type (mf : MemFetch) : CacheRequestType :=
  if mf.isMembar then .MEM_FENCE
  else if mf.isAtomic then .ATOMIC
  else if mf.isWrite then .ST else .LD

/-- The request the wrapper makes for an access. -/
def MemFetch.request (mf : MemFetch) : Request where
  type := mf.type
  address := mf.blockAddr
  thread := mf.wid
  space := mf.space
  memfetch := mf

namespace Request

variable (cfg : Config) (r : Request)

/-- The requests that bypass the normal tables: global accesses under `gmem_skip_L1D`, and stores
and atomics unless writes stall at the MSHRs. -/
def SkipsL1 : Prop :=
  (r.space = .global ∧ cfg.gmemSkipL1D) ∨
    ((r.type = .ST ∨ r.type = .ATOMIC) ∧ cfg.writesStallAtMshr = false)

instance : Decidable (r.SkipsL1 cfg) := inferInstanceAs (Decidable (_ ∨ _))

/-- Does the request go to the write table? -/
def IsWrite : Prop := r.type = .ST ∨ r.type = .ATOMIC

instance : Decidable r.IsWrite := inferInstanceAs (Decidable (_ ∨ _))

end Request

/-- The request tables and `m_outstanding_count`. -/
structure Sequencer where
  readRequestTable : List Request
  writeRequestTable : List Request
  skipL1RequestTable : List Request
  outstandingCount : Nat
  deriving DecidableEq, Repr

namespace Sequencer

variable (cfg : Config) (s : Sequencer) (r : Request)

def init : Sequencer := ⟨[], [], [], 0⟩

/-- The sizes of the tables, as `checkOutstandingRequests` adds them up. -/
def totalOutstanding : Nat :=
  s.writeRequestTable.length + s.readRequestTable.length + s.skipL1RequestTable.length

def checkOutstandingRequests : Except Assertion Unit :=
  assert (s.outstandingCount = s.totalOutstanding) .outstandingCount

/-- Does the table of the request's thread hold a request of its address? -/
def exist (table : List Request) : Prop :=
  ∃ r' ∈ table, r'.thread = r.thread ∧ r'.address = r.address

instance (table : List Request) : Decidable (exist r table) :=
  inferInstanceAs (Decidable (∃ r' ∈ table, _))

/-- The pointers in the skip-L1 table. -/
def skipped : List MemFetch := s.skipL1RequestTable.map Request.memfetch

def insertSkipL1Request : Except Assertion Sequencer := do
  s.checkOutstandingRequests
  assert (r.memfetch ∉ s.skipped) .skipL1Exists
  let s' := { s with
    skipL1RequestTable := s.skipL1RequestTable ++ [r]
    outstandingCount := s.outstandingCount + 1 }
  s'.checkOutstandingRequests
  .ok s'

/-- A request whose thread and address are in the table already takes the place of the old one. -/
def insertRequest : Except Assertion Sequencer := do
  s.checkOutstandingRequests
  if r.IsWrite then
    if exist r s.writeRequestTable then
      .ok { s with writeRequestTable := s.writeRequestTable.map fun r' =>
        if r'.thread = r.thread ∧ r'.address = r.address then r else r' }
    else do
      let s' := { s with
        writeRequestTable := s.writeRequestTable ++ [r]
        outstandingCount := s.outstandingCount + 1 }
      s'.checkOutstandingRequests
      .ok s'
  else
    if exist r s.readRequestTable then
      .ok { s with readRequestTable := s.readRequestTable.map fun r' =>
        if r'.thread = r.thread ∧ r'.address = r.address then r else r' }
    else do
      let s' := { s with
        readRequestTable := s.readRequestTable ++ [r]
        outstandingCount := s.outstandingCount + 1 }
      s'.checkOutstandingRequests
      .ok s'

/-- Address `0` is reserved for memory fences. -/
def makeRequest : Except Assertion Sequencer := do
  assert (r.address ≠ 0) .addressZero
  if r.SkipsL1 cfg then s.insertSkipL1Request r else s.insertRequest r

/-- May the request be made now? -/
def isReady : Except Assertion Bool :=
  if cfg.numSeqEntries ≤ s.outstandingCount then .ok false
  else if r.type = .MEM_FENCE then .ok true
  else if r.SkipsL1 cfg then .ok true
  else do
    -- the MSHR table should prevent a second request for the line
    assert (∀ r' ∈ s.writeRequestTable ++ s.readRequestTable, r'.address ≠ r.address)
      .outstandingRequest
    .ok true

def removeSkipL1Request : Except Assertion Sequencer := do
  s.checkOutstandingRequests
  let s' := { s with
    skipL1RequestTable := s.skipL1RequestTable.erase r
    outstandingCount := s.outstandingCount - 1 }
  s'.checkOutstandingRequests
  .ok s'

def removeRequest : Except Assertion Sequencer := do
  s.checkOutstandingRequests
  let s' := if r.IsWrite then
      { s with
        writeRequestTable := s.writeRequestTable.erase r
        outstandingCount := s.outstandingCount - 1 }
    else
      { s with
        readRequestTable := s.readRequestTable.erase r
        outstandingCount := s.outstandingCount - 1 }
  s'.checkOutstandingRequests
  .ok s'

/-- The oldest read request of an address. -/
def oldestRead (address : RubyAddr) : Option Request :=
  s.readRequestTable.find? fun r => r.address = address

/-- The oldest write request of an address. -/
def oldestWrite (address : RubyAddr) : Option Request :=
  s.writeRequestTable.find? fun r => r.address = address

/-- The skip-L1 request of a `mem_fetch`. -/
def skipL1Request (mf : MemFetch) : Option Request :=
  s.skipL1RequestTable.find? fun r => r.memfetch = mf

end Sequencer

end GpgpuSimRuby.RubyWrapper
