import GpgpuSimRuby.Cache.DataCache

/-!
# The memory partition

`memory_partition_unit`: a request passes the ROP delay to the L2 cache, which answers it or sends
what it misses to the DRAM; what comes back fills the L2 or goes on to the interconnect. Requests to
DRAM that Ruby makes join the others there.

The DRAM takes what it is given unless it is full, and completes what it holds, in an order of its own:
each `dramCycle` names the request that completes and says when the DRAM is full.
-/

namespace GpgpuSimRuby.Partition

open Library Cache

/-! ## Configuration and state -/

/-- The options of `memory_config` that the partition reads. The constructor of a `fifo_pipeline`
asserts that it has room. -/
structure Config where
  l2 : CacheConfig
  l2Disabled : Bool
  l2TextureOnly : Bool
  icntL2 : Nat
  l2Dram : Nat
  dramL2 : Nat
  l2Icnt : Nat
  returnq : Nat
  ropLatency : Nat
  dramLatency : Nat
  /-- `m_address_mapping.partition_address` -/
  partitionAddress : Nat → Nat
  icntL2_pos : 0 < icntL2
  l2Dram_pos : 0 < l2Dram
  dramL2_pos : 0 < dramL2
  l2Icnt_pos : 0 < l2Icnt
  returnq_pos : 0 < returnq

inductive Fault where
  /-- `push` on a `fifo_pipeline` that is full -/
  | fifoFull
  /-- `set_reply` of a write-back -/
  | replyToWriteback
  /-- a hit that is answered, and still asks for its block -/
  | readSent
  | l2 (e : Cache.Fault)
  deriving DecidableEq, Repr

/-- `rop_delay_t` and `dram_delay_t`. -/
structure Delayed where
  readyCycle : Nat
  req : MemFetch
  deriving DecidableEq, Repr

/-- `l2` numbers all requests. `entered` is what was pushed and `fromRuby` what Ruby asked for;
`popped`, `deleted` and `toRuby` is what has left. -/
structure MemoryPartitionUnit where
  l2 : BaselineCache := {}
  rop : List Delayed := []
  icntL2 : List MemFetch := []
  l2Dram : List MemFetch := []
  dramLatency : List Delayed := []
  dram : List MemFetch := []
  returnq : List MemFetch := []
  dramL2 : List MemFetch := []
  l2Icnt : List MemFetch := []
  requestTracker : Finset MemFetch := ∅
  isTexture : Nat → Bool := fun _ => false
  entered : List MemFetch := []
  fromRuby : List MemFetch := []
  popped : List MemFetch := []
  deleted : List MemFetch := []
  toRuby : List MemFetch := []

def isWriteback (accessType : MemAccessType) : Bool :=
  accessType = .l1WrbkAcc || accessType = .l2WrbkAcc

def isRuby (accessType : MemAccessType) : Bool := accessType = .rubyDramR || accessType = .rubyDramW

/-- `push` of a `fifo_pipeline` without a minimal length. -/
def pushFifo (maxLen : Nat) (q : List MemFetch) (mf : MemFetch) : Except Fault (List MemFetch) := do
  assert (q.length < maxLen) .fifoFull
  return q ++ [mf]

def setReply (mf : MemFetch) : Except Fault Unit :=
  assert (isWriteback mf.accessType = false) .replyToWriteback

namespace MemoryPartitionUnit

variable (cfg : Config) (m : MemoryPartitionUnit)

/-! ## `cache_cycle` -/

/-- `m_request_tracker.erase(mf)` and `delete mf`. -/
def delete (mf : MemFetch) : MemoryPartitionUnit :=
  { m with
    requestTracker := m.requestTracker.erase mf
    deleted := m.deleted ++ [mf] }

/-- The reply goes to the interconnect. -/
def reply (mf : MemFetch) : Except Fault MemoryPartitionUnit := do
  let l2Icnt ← pushFifo cfg.l2Icnt m.l2Icnt mf
  return { m with l2Icnt }

/-- L2 fill responses. A write allocate read request is not passed back. -/
def l2Responses : Except Fault MemoryPartitionUnit :=
  if cfg.l2Disabled = false ∧ m.l2.mshrs.accessReady ∧ m.l2Icnt.length < cfg.l2Icnt then do
    let (mf, _) ← m.l2.mshrs.nextAccess.mapError .l2
    let l2 ← m.l2.nextAccess.mapError .l2
    let m := { m with l2 }
    if mf.accessType ≠ .l2WrAllocR then do
      setReply mf
      m.reply cfg mf
    else return m.delete mf
  else return m

/-- DRAM to L2 and to the interconnect. -/
def dramToL2 (time : Nat) : Except Fault MemoryPartitionUnit :=
  match m.dramL2 with
  | [] => return m
  | mf :: rest =>
    if cfg.l2Disabled = false ∧ m.l2.waitingForFill mf.id then do
      let l2 ← (m.l2.fill cfg.l2 mf.id time).mapError .l2
      return { m with l2, dramL2 := rest }
    else if m.l2Icnt.length < cfg.l2Icnt then { m with dramL2 := rest }.reply cfg mf
    else return m

/-- `m_L2cache->cycle()`, with `L2interface` as its memory port. -/
def l2Cycle : Except Fault MemoryPartitionUnit :=
  match m.l2.missQueue with
  | [] => return m
  | mf :: _ =>
    if cfg.l2Disabled = false ∧ m.l2Dram.length < cfg.l2Dram then do
      let l2Dram ← pushFifo cfg.l2Dram m.l2Dram mf
      return { m with l2 := m.l2.cycle false, l2Dram }
    else return m

/-- What follows an access of the L2 by the request in front, which is `mf`. -/
def l2Answer (mf : MemFetch) (rest : List MemFetch) (status : CacheRequestStatus) :
    Except Fault MemoryPartitionUnit :=
  match status with
  | .hit =>
    if .writeRequestSent ∈ m.l2.events then return { m with icntL2 := rest }
    else do
      assert (.readRequestSent ∉ m.l2.events) .readSent
      let m := { m with icntL2 := rest }
      if mf.accessType = .l1WrbkAcc then return m.delete mf
      else do
        setReply mf
        m.reply cfg mf
  | .reservationFail => do
    assert (.writeRequestSent ∉ m.l2.events ∧ .readRequestSent ∉ m.l2.events) .readSent
    return m
  | _ => return { m with icntL2 := rest }

/-- New accesses of the L2; what is not for the L2 goes straight to the DRAM. -/
def l2Access (time : Nat) : Except Fault MemoryPartitionUnit :=
  match m.icntL2 with
  | [] => return m
  | mf :: rest =>
    if cfg.l2Dram ≤ m.l2Dram.length then return m
    else if cfg.l2Disabled = false ∧ (cfg.l2TextureOnly → m.isTexture mf.id) then
      if m.l2Icnt.length < cfg.l2Icnt then do
        let (l2, status) ← (BaselineCache.access cfg.l2 { m.l2 with events := [] }
          (cfg.partitionAddress mf.addr) mf time .dataCache).mapError .l2
        { m with l2 }.l2Answer cfg mf rest status
      else return m
    else do
      let l2Dram ← pushFifo cfg.l2Dram m.l2Dram mf
      return { m with l2Dram, icntL2 := rest }

/-- The ROP delay queue. -/
def ropDelay (cycle : Nat) : Except Fault MemoryPartitionUnit :=
  match m.rop with
  | [] => return m
  | d :: rest =>
    if d.readyCycle ≤ cycle ∧ m.icntL2.length < cfg.icntL2 then do
      let icntL2 ← pushFifo cfg.icntL2 m.icntL2 d.req
      return { m with rop := rest, icntL2 }
    else return m

def cacheCycle (cycle time : Nat) : Except Fault MemoryPartitionUnit := do
  let m ← m.l2Responses cfg
  let m ← m.dramToL2 cfg time
  let m ← m.l2Cycle cfg
  let m ← m.l2Access cfg time
  m.ropDelay cfg cycle

/-! ## `dram_cycle` -/

/-- What the DRAM has completed goes to the L2; Ruby gets its requests back. -/
def dramReturn : Except Fault MemoryPartitionUnit :=
  match m.returnq with
  | [] => return m
  | mf :: rest =>
    if cfg.dramL2 ≤ m.dramL2.length then return m
    else if mf.accessType = .l1WrbkAcc then return { m with returnq := rest }.delete mf
    else if isRuby mf.accessType then return { m with returnq := rest, toRuby := m.toRuby ++ [mf] }
    else do
      let dramL2 ← pushFifo cfg.dramL2 m.dramL2 mf
      return { m with returnq := rest, dramL2 }

/-- `m_dram->cycle()`: at most one request completes. A write-back is deleted there. -/
def dramComplete (completes : Option Nat) : Except Fault MemoryPartitionUnit :=
  match completes.bind (m.dram[·]?) with
  | none => return m
  | some mf =>
    if cfg.returnq ≤ m.returnq.length then return m
    else
      let m := { m with dram := m.dram.erase mf }
      if isWriteback mf.accessType then return m.delete mf
      else do
        setReply mf
        let returnq ← pushFifo cfg.returnq m.returnq mf
        return { m with returnq }

/-- A request with the next number. -/
def newMf (r : Request) : MemFetch := m.l2.requestMf r

def allocMf (r : Request) : MemoryPartitionUnit := { m with l2 := m.l2.allocMf r.dataSize }

/-- Requests from Ruby go to the DRAM. -/
def rubyToDram (full : Bool) (ruby : Option Request) : MemoryPartitionUnit :=
  match ruby with
  | none => m
  | some r =>
    if full then m
    else
      { m.allocMf r with
        dram := m.dram ++ [m.newMf r]
        fromRuby := m.fromRuby ++ [m.newMf r] }

def l2DramToLatency (full : Bool) (time : Nat) : MemoryPartitionUnit :=
  match m.l2Dram with
  | [] => m
  | mf :: rest =>
    if full then m
    else { m with l2Dram := rest, dramLatency := m.dramLatency ++ [⟨time + cfg.dramLatency, mf⟩] }

/-- The DRAM latency queue. -/
def latencyToDram (full : Bool) (time : Nat) : MemoryPartitionUnit :=
  match m.dramLatency with
  | [] => m
  | d :: rest =>
    if d.readyCycle ≤ time ∧ full = false then { m with dramLatency := rest, dram := m.dram ++ [d.req] }
    else m

end MemoryPartitionUnit

/-- What the DRAM and Ruby do in a `dram_cycle`: the request of the DRAM that completes, the request
that Ruby has, and whether the DRAM is full each time it is asked. -/
structure DramCycle where
  completes : Option Nat := none
  ruby : Option Request := none
  rubyFull : Bool := false
  l2Full : Bool := false
  latencyFull : Bool := false

namespace MemoryPartitionUnit

variable (cfg : Config) (m : MemoryPartitionUnit)

def dramCycle (c : DramCycle) (time : Nat) : Except Fault MemoryPartitionUnit := do
  let m ← m.dramReturn cfg
  let m ← m.dramComplete cfg c.completes
  let m := m.rubyToDram c.rubyFull c.ruby
  let m := m.l2DramToLatency cfg c.l2Full time
  return m.latencyToDram c.latencyFull time

/-! ## `push`, `pop` and `top` -/

def full : Bool := cfg.icntL2 ≤ m.icntL2.length

def push (r : Request) (texture : Bool) (cycle : Nat) : Except Fault MemoryPartitionUnit :=
  let mf := m.newMf r
  let m := { m.allocMf r with
    requestTracker := insert mf m.requestTracker
    isTexture := Function.update m.isTexture mf.id texture
    entered := m.entered ++ [mf] }
  if texture then do
    let icntL2 ← pushFifo cfg.icntL2 m.icntL2 mf
    return { m with icntL2 }
  else return { m with rop := m.rop ++ [⟨cycle + cfg.ropLatency, mf⟩] }

/-- A write-back is deleted. -/
def pop : MemoryPartitionUnit :=
  match m.l2Icnt with
  | [] => m
  | mf :: rest =>
    let m := { m with l2Icnt := rest }
    if isWriteback mf.accessType then m.delete mf
    else
      { m with
        requestTracker := m.requestTracker.erase mf
        popped := m.popped ++ [mf] }

def top : MemoryPartitionUnit :=
  match m.l2Icnt with
  | [] => m
  | mf :: rest => if isWriteback mf.accessType then { m with l2Icnt := rest }.delete mf else m

end MemoryPartitionUnit

/-! ## The machine -/

inductive Act where
  | push (r : Request) (texture : Bool) (cycle : Nat)
  | cacheCycle (cycle time : Nat)
  | dramCycle (c : DramCycle) (time : Nat)
  | pop
  | top

/-- The requests of the cores: Ruby has its own way to the DRAM, and a write-back is a write. -/
def FromCore (accessType : MemAccessType) (isWrite : Bool) : Prop :=
  isRuby accessType = false ∧ (isWriteback accessType = true → isWrite = true)

instance (accessType : MemAccessType) (isWrite : Bool) : Decidable (FromCore accessType isWrite) :=
  inferInstanceAs (Decidable (_ ∧ _))

namespace MemoryPartitionUnit

/-- A caller sees that the partition is not full before it pushes; what Ruby has is of its own types. -/
def step (cfg : Config) (m : MemoryPartitionUnit) : Act → Option (Except Fault MemoryPartitionUnit)
  | .push r texture cycle =>
    if m.full cfg = false ∧ FromCore r.accessType r.isWrite then some (m.push cfg r texture cycle) else none
  | .cacheCycle cycle time => some (m.cacheCycle cfg cycle time)
  | .dramCycle c time =>
    if ∀ r ∈ c.ruby, isRuby r.accessType then some (m.dramCycle cfg c time) else none
  | .pop => some (.ok m.pop)
  | .top => some (.ok m.top)

def machine (cfg : Config) : Machine MemoryPartitionUnit Act Fault where
  init := {}
  step := step cfg

end MemoryPartitionUnit

end GpgpuSimRuby.Partition
