import GpgpuSimRuby.Cache.AddressSplit
import GpgpuSimRuby.Cache.Mshr
import GpgpuSimRuby.Library.Machine
import GpgpuSimRuby.Library.RingBuffer

/-!
# The texture cache

`tex_cache`. An access updates the tags at once and then waits in the fragment FIFO until its data
are in the cache. A miss has an entry of the reorder buffer, too, where its block waits when it
comes back from memory; blocks come back in any order.
-/

namespace GpgpuSimRuby.Cache

open Library Function

/-! ## Configuration -/

/-- What the constructor asserts. -/
structure TexConfig extends ParsedConfig where
  isTexFifo : mshrType = .texFifo
  isReadOnly : cfg.writePolicy = .readOnly
  isOnMiss : cfg.allocPolicy = .onMiss

namespace TexConfig

variable (tc : TexConfig)

/-! The sizes share the place of those of the MSHRs and of the miss queue. -/

def fragmentFifoEntries : Nat := tc.cfg.mshrEntries
def requestFifoEntries : Nat := tc.cfg.mshrMaxMerge
def robEntries : Nat := tc.cfg.missQueueSize

end TexConfig

/-! ## State -/

structure FragmentEntry where
  request : MemFetch
  cacheIndex : Nat
  miss : Bool
  dataSize : Nat

structure RobEntry where
  ready : Bool
  index : Nat
  request : MemFetch
  blockAddr : Nat

structure DataBlock where
  valid : Bool := false
  blockAddr : Nat := 0
  deriving DecidableEq, Repr

/-- The assertions of `tex_cache`, with those of its FIFOs and of its tag array. -/
inductive TexFault where
  | fifo (e : RingBuffer.Fault)
  | tags (e : Fault)
  | dataSize | tagReservationFail | tagHitReserved
  | robRequest | robBlock | robIndex | dataValid | dataBlock
  | unknownFetch | robEmpty | alreadyReady | fillBlock
  deriving DecidableEq, Repr

/-- `dataSize` and `extraMfFields`, the place in the reorder buffer, are by `id` of a `mem_fetch`. -/
structure TexCache where
  tags : Lines
  cache : Nat → DataBlock
  fragmentFifo : RingBuffer FragmentEntry
  requestFifo : RingBuffer MemFetch
  rob : RingBuffer RobEntry
  resultFifo : RingBuffer MemFetch
  extraMfFields : Nat → Option Nat
  dataSize : Nat → Nat

/-- A `mem_fetch` that is nowhere, for the entries of a FIFO that were not pushed. -/
instance : Inhabited MemFetch := ⟨⟨0, 0, .textureAccR, false, false⟩⟩
instance : Inhabited FragmentEntry := ⟨⟨default, 0, false, 0⟩⟩
instance : Inhabited RobEntry := ⟨⟨false, 0, default, 0⟩⟩

namespace TexCache

variable (tc : TexConfig) (s : TexCache)

def new : TexCache where
  tags := fun _ => {}
  cache := fun _ => {}
  fragmentFifo := .new tc.fragmentFifoEntries
  requestFifo := .new tc.requestFifoEntries
  rob := .new tc.robEntries
  resultFifo := .new tc.resultFifoEntries
  extraMfFields := fun _ => none
  dataSize := fun _ => 0

/-! ## Accesses -/

/-- A miss reserves a line, which is valid at once, and asks for its block. -/
def requestBlock (mf : MemFetch) (blockAddr cacheIndex : Nat) : Except TexFault TexCache := do
  let (robIndex, rob) ← (s.rob.push ⟨false, cacheIndex, mf, blockAddr⟩).mapError .fifo
  let tags ← (Lines.fillIndex tc.cfg s.tags cacheIndex).mapError .tags
  let (_, requestFifo) ← (s.requestFifo.push mf).mapError .fifo
  .ok { s with
    rob
    extraMfFields := update s.extraMfFields mf.id (some robIndex)
    dataSize := update s.dataSize mf.id tc.cfg.lineSz
    tags
    requestFifo }

def access (addr : Nat) (mf : MemFetch) (time : Nat) : Except TexFault (CacheRequestStatus × TexCache) :=
  if s.fragmentFifo.full || s.requestFifo.full || s.rob.full then .ok (.reservationFail, s)
  else do
    assert (s.dataSize mf.id ≤ tc.cfg.lineSz) .dataSize
    let blockAddr := tc.cfg.blockAddr addr
    let a ← (Lines.accessClean tc.cfg s.tags blockAddr time).mapError .tags
    let status := a.probe.status
    let cacheIndex := a.probe.index (wordSize - 1)
    assert (status ≠ .reservationFail) .tagReservationFail
    assert (status ≠ .hitReserved) .tagHitReserved
    let (_, fragmentFifo) ←
      (s.fragmentFifo.push ⟨mf, cacheIndex, status = .miss, s.dataSize mf.id⟩).mapError .fifo
    let s := { s with tags := a.lines, fragmentFifo }
    if status = .miss then do
      let s ← s.requestBlock tc mf blockAddr cacheIndex
      .ok (.miss, s)
    else .ok (.hitReserved, s)

/-! ## Cycles -/

/-- The oldest request goes to memory, unless the port is full. -/
def sendRequest (memportFull : Bool) : Except TexFault (Option MemFetch × TexCache) :=
  if s.requestFifo.empty = false ∧ memportFull = false then do
    let mf := s.requestFifo.top
    let (_, requestFifo) ← s.requestFifo.pop.mapError .fifo
    .ok (some mf, { s with requestFifo })
  else .ok (none, s)

def serveMiss (e : FragmentEntry) : Except TexFault TexCache := do
  let r ← (s.rob.peek s.rob.nextPopIndex).mapError .fifo
  assert (r.request = e.request) .robRequest
  assert (r.blockAddr = tc.cfg.blockAddr e.request.addr) .robBlock
  if r.ready then do
    assert (r.index = e.cacheIndex) .robIndex
    let cache := update s.cache r.index ⟨true, r.blockAddr⟩
    let (_, resultFifo) ← (s.resultFifo.push e.request).mapError .fifo
    let (_, rob) ← s.rob.pop.mapError .fifo
    let (_, fragmentFifo) ← s.fragmentFifo.pop.mapError .fifo
    .ok { s with cache, resultFifo, rob, fragmentFifo }
  else .ok s

/-- The second assertion assigns the block address, and fails when this is `0`. -/
def serveHit (e : FragmentEntry) : Except TexFault TexCache := do
  assert ((s.cache e.cacheIndex).valid = true) .dataValid
  let blockAddr := tc.cfg.blockAddr e.request.addr
  let cache := update s.cache e.cacheIndex { s.cache e.cacheIndex with blockAddr }
  assert (blockAddr ≠ 0) .dataBlock
  let (_, resultFifo) ← (s.resultFifo.push e.request).mapError .fifo
  let (_, fragmentFifo) ← s.fragmentFifo.pop.mapError .fifo
  .ok { s with cache, resultFifo, fragmentFifo }

/-- The oldest fragment leaves for the result FIFO if its data are there. -/
def serveFragment : Except TexFault TexCache :=
  if s.fragmentFifo.empty = false ∧ s.resultFifo.full = false then
    let e := s.fragmentFifo.top
    if e.miss then s.serveMiss tc e else s.serveHit tc e
  else .ok s

/-- What a cycle leaves, with the request that it has sent. -/
def cycle (memportFull : Bool) : Except TexFault (Option MemFetch × TexCache) := do
  let (sent, s) ← s.sendRequest memportFull
  let s ← s.serveFragment tc
  .ok (sent, s)

/-! ## Blocks from memory, and results -/

def fill (mf : MemFetch) : Except TexFault TexCache := do
  match s.extraMfFields mf.id with
  | none => .error .unknownFetch
  | some robIndex => do
    assert (s.rob.empty = false) .robEmpty
    let r ← (s.rob.peek robIndex).mapError .fifo
    assert (r.ready = false) .alreadyReady
    let rob ← (s.rob.modify robIndex fun r => { r with ready := true }).mapError .fifo
    assert (r.blockAddr = tc.cfg.blockAddr mf.addr) .fillBlock
    .ok { s with rob }

def accessReady : Bool := !s.resultFifo.empty

def nextAccess : Except TexFault (MemFetch × TexCache) := do
  let (mf, resultFifo) ← s.resultFifo.pop.mapError .fifo
  .ok (mf, { s with resultFifo })

end TexCache

/-! ## Runs -/

/-- The cache between its users and the memory: what was accepted and what was returned, the oldest
first, and what memory has been asked for. -/
structure TexRun where
  core : TexCache
  memory : List MemFetch
  accepted : List MemFetch
  results : List MemFetch

inductive TexAct where
  | access (mf : MemFetch) (dataSize time : Nat)
  | cycle (memportFull : Bool)
  | fill (mf : MemFetch)
  | nextAccess

/-- An access is one of a `mem_fetch` that is not in the cache; memory answers every request once; and
`next_access` is called when there is a result. -/
def texCache (tc : TexConfig) : Machine TexRun TexAct TexFault where
  init := ⟨.new tc, [], [], []⟩
  step s
    | .access mf dataSize time =>
      if mf.id ∈ s.accepted.map MemFetch.id then none
      else some do
        let asked := { s.core with dataSize := update s.core.dataSize mf.id dataSize }
        let (status, core) ← asked.access tc mf.addr mf time
        .ok (if status = .reservationFail then { s with core }
          else { s with core, accepted := s.accepted ++ [mf] })
    | .cycle memportFull => some do
      let (sent, core) ← s.core.cycle tc memportFull
      .ok { s with core, memory := s.memory ++ sent.toList }
    | .fill mf =>
      if mf ∈ s.memory then some do
        let core ← s.core.fill tc mf
        .ok { s with core, memory := s.memory.erase mf }
      else none
    | .nextAccess =>
      if s.core.accessReady then some do
        let (mf, core) ← s.core.nextAccess
        .ok { s with core, results := s.results ++ [mf] }
      else none

end GpgpuSimRuby.Cache
