import GpgpuSimRuby.Cache.Mshr
import GpgpuSimRuby.Library.Machine

/-!
# Caches with a miss queue

`baseline_cache` with its two classes of caches: `read_only_cache`, and `data_cache` with the write
policies of its configuration. The `Machine` takes accesses, cycles, fills and calls of `next_access`
in any order; a fill comes for a request that was pushed to the memory port and is still waited for.
-/

namespace GpgpuSimRuby.Cache

open Library Function

/-! ## State -/

structure ExtraMfFields where
  blockAddr : Nat
  cacheIndex : Nat
  dataSize : Nat
  deriving DecidableEq, Repr

inductive CacheEvent where
  | writeBackRequestSent | readRequestSent | writeRequestSent
  deriving DecidableEq, Repr

/-- What happened to the accesses of a block. -/
inductive Entry where
  | requested (blockAddr : Nat)
  | waits (blockAddr : Nat) (mf : MemFetch)
  | answered (blockAddr : Nat) (mf : MemFetch) (status : CacheRequestStatus)
  | filled (blockAddr : Nat)
  | returned (blockAddr : Nat) (mf : MemFetch)
  deriving DecidableEq, Repr

/-- `made` is the number of requests made so far, `below` what was pushed to the memory port and not
answered, `events` what the last access reported, `record` what happened, the latest first. -/
structure BaselineCache where
  lines : Lines := fun _ => {}
  mshrs : MshrTable := {}
  missQueue : List MemFetch := []
  extraMfFields : Nat → Option ExtraMfFields := fun _ => none
  dataSize : Nat → Nat := fun _ => 0
  made : Nat := 0
  below : List MemFetch := []
  events : List CacheEvent := []
  record : List Entry := []

namespace BaselineCache

variable (cfg : CacheConfig) (s : BaselineCache)

/-! ## `baseline_cache` -/

def missQueueFull (numMiss : Nat) : Bool := cfg.missQueueSize ≤ s.missQueue.length + numMiss

/-- The next request, and the cache once it is made. -/
def newMf (addr : Nat) (accessType : MemAccessType) (isWrite isAtomic : Bool) : MemFetch :=
  ⟨s.made, addr, accessType, isWrite, isAtomic⟩

def allocMf (size : Nat) : BaselineCache :=
  { s with made := s.made + 1, dataSize := update s.dataSize s.made size }

structure Sent where
  cache : BaselineCache
  doMiss : Bool
  evicted : Option CacheBlock

/-- The two forms of `tag_array::access` that `send_read_request` chooses from. -/
def tagAccess (readOnly : Bool) (blockAddr time : Nat) : Except Fault Lines.Accessed :=
  if readOnly then Lines.accessClean cfg s.lines blockAddr time
  else Lines.access cfg s.lines blockAddr time

/-- The access joins the others that wait for its block. -/
def merged (r : Lines.Accessed) (mshrs : MshrTable) (blockAddr : Nat) (mf : MemFetch) : BaselineCache :=
  { s with
    lines := r.lines
    mshrs
    record := .waits blockAddr mf :: s.record }

/-- The access asks for its block. -/
def requested (r : Lines.Accessed) (mshrs : MshrTable) (blockAddr cacheIndex : Nat) (mf : MemFetch)
    (wa : Bool) : BaselineCache :=
  { s with
    lines := r.lines
    mshrs
    extraMfFields := update s.extraMfFields mf.id
      (some ⟨blockAddr, r.probe.index cacheIndex, s.dataSize mf.id⟩)
    dataSize := update s.dataSize mf.id cfg.lineSz
    missQueue := s.missQueue ++ [mf]
    events := if wa then s.events else s.events ++ [.readRequestSent]
    record := .requested blockAddr :: .waits blockAddr mf :: s.record }

def sendReadRequest (blockAddr cacheIndex : Nat) (mf : MemFetch) (time : Nat) (readOnly wa : Bool) :
    Except Fault Sent :=
  let mshrHit := s.mshrs.probe blockAddr
  let mshrAvail := !s.mshrs.full cfg blockAddr
  if mshrHit && mshrAvail then do
    let r ← s.tagAccess cfg readOnly blockAddr time
    let mshrs ← s.mshrs.add cfg blockAddr mf
    return ⟨s.merged r mshrs blockAddr mf, true, r.evicted⟩
  else if !mshrHit && mshrAvail && s.missQueue.length < cfg.missQueueSize then do
    let r ← s.tagAccess cfg readOnly blockAddr time
    let mshrs ← s.mshrs.add cfg blockAddr mf
    return ⟨s.requested cfg r mshrs blockAddr cacheIndex mf wa, true, r.evicted⟩
  else return ⟨s, false, none⟩

/-- Send the front of the miss queue, unless the memory port is full. -/
def cycle (full : Bool) : BaselineCache :=
  match s.missQueue with
  | [] => s
  | mf :: rest => if full then s else { s with missQueue := rest, below := s.below ++ [mf] }

def waitingForFill (id : Nat) : Bool := (s.extraMfFields id).isSome

def fillTags (e : ExtraMfFields) (time : Nat) : Except Fault Lines :=
  match cfg.allocPolicy with
  | .onMiss => Lines.fillIndex cfg s.lines e.cacheIndex
  | .onFill => Lines.fillAddr cfg s.lines e.blockAddr time

def fill (id time : Nat) : Except Fault BaselineCache :=
  match s.extraMfFields id with
  | none => .error .notWaiting
  | some e => do
    let lines ← s.fillTags cfg e time
    let hasAtomic := (s.mshrs.entry e.blockAddr).hasAtomic
    let mshrs ← s.mshrs.markReady e.blockAddr
    assert (hasAtomic → cfg.allocPolicy = .onMiss) .atomicOnFill
    return { s with
      lines := if hasAtomic then Lines.setStatus lines e.cacheIndex .modified else lines
      mshrs
      dataSize := update s.dataSize id e.dataSize
      extraMfFields := update s.extraMfFields id none
      record := .filled e.blockAddr :: s.record }

/-- The block whose accesses are handed out. -/
def responding : Nat := s.mshrs.currentResponse.headD 0

def nextAccess : Except Fault BaselineCache := do
  let r ← s.mshrs.nextAccess
  return { s with mshrs := r.2, record := .returned s.responding r.1 :: s.record }

/-! ## `data_cache` -/

variable (addr cacheIndex : Nat) (mf : MemFetch) (time : Nat)

def sendWriteRequest (request : CacheEvent) : BaselineCache :=
  { s with events := s.events ++ [request], missQueue := s.missQueue ++ [mf] }

def wrHitWb : Except Fault (BaselineCache × CacheRequestStatus) := do
  let r ← Lines.accessClean cfg s.lines (cfg.blockAddr addr) time
  return ({ s with lines := Lines.setStatus r.lines (r.probe.index cacheIndex) .modified }, .hit)

def wrHitWt : Except Fault (BaselineCache × CacheRequestStatus) :=
  if s.missQueueFull cfg 0 then return (s, .reservationFail)
  else do
    let r ← Lines.accessClean cfg s.lines (cfg.blockAddr addr) time
    let s := { s with lines := Lines.setStatus r.lines (r.probe.index cacheIndex) .modified }
    return (s.sendWriteRequest mf .writeRequestSent, .hit)

def wrHitWe : Except Fault (BaselineCache × CacheRequestStatus) :=
  if s.missQueueFull cfg 0 then return (s, .reservationFail)
  else
    let s := s.sendWriteRequest mf .writeRequestSent
    return ({ s with lines := Lines.setStatus s.lines cacheIndex .invalid }, .hit)

def wrHitGlobalWeLocalWb : Except Fault (BaselineCache × CacheRequestStatus) :=
  if mf.accessType = .globalAccW then s.wrHitWe cfg cacheIndex mf
  else s.wrHitWb cfg addr cacheIndex time

/-- The block is written back, unless it is written through. -/
def writeBack (evicted : Option CacheBlock) (accessType : MemAccessType) : List MemFetch :=
  match evicted with
  | some e => if cfg.writePolicy = .writeThrough then [] else [s.newMf e.blockAddr accessType true false]
  | none => []

/-- The write-back, if there is one, is made and queued. -/
def sendWriteBack (wb : List MemFetch) (events : List CacheEvent) : BaselineCache :=
  match wb with
  | [] => s
  | _ :: _ => { s.allocMf cfg.lineSz with
      missQueue := s.missQueue ++ wb
      events := s.events ++ events }

def wrMissWa : Except Fault (BaselineCache × CacheRequestStatus) :=
  let blockAddr := cfg.blockAddr addr
  let mshrHit := s.mshrs.probe blockAddr
  let mshrAvail := !s.mshrs.full cfg blockAddr
  if s.missQueueFull cfg 2 ||
      !(mshrHit && mshrAvail) &&
        !(!mshrHit && mshrAvail && s.missQueue.length < cfg.missQueueSize) then
    return (s, .reservationFail)
  else do
    let s := s.sendWriteRequest mf .writeRequestSent
    let nMf := s.newMf mf.addr .l2WrAllocR false false
    let r ← (s.allocMf (s.dataSize mf.id)).sendReadRequest cfg blockAddr cacheIndex nMf time false true
    let wb := r.cache.writeBack cfg r.evicted .l2WrbkAcc
    return (r.cache.sendWriteBack cfg wb [], if r.doMiss then .miss else .reservationFail)

def wrMissNoWa : Except Fault (BaselineCache × CacheRequestStatus) :=
  if s.missQueueFull cfg 0 then return (s, .reservationFail)
  else return (s.sendWriteRequest mf .writeRequestSent, .miss)

def rdHitBase : Except Fault (BaselineCache × CacheRequestStatus) := do
  let r ← Lines.accessClean cfg s.lines (cfg.blockAddr addr) time
  if mf.isAtomic then do
    assert (mf.accessType = .globalAccR) .atomicType
    return ({ s with lines := Lines.setStatus r.lines (r.probe.index cacheIndex) .modified }, .hit)
  else return ({ s with lines := r.lines }, .hit)

def rdMissBase : Except Fault (BaselineCache × CacheRequestStatus) :=
  if s.missQueueFull cfg 1 then return (s, .reservationFail)
  else do
    let r ← s.sendReadRequest cfg (cfg.blockAddr addr) cacheIndex mf time false false
    let wb := r.cache.writeBack cfg r.evicted .l1WrbkAcc
    return (r.cache.sendWriteBack cfg wb [.writeBackRequestSent],
      if r.doMiss then .miss else .reservationFail)

/-- `m_wr_hit`, as the constructor sets it. -/
def wrHit : Except Fault (BaselineCache × CacheRequestStatus) :=
  match cfg.writePolicy with
  | .readOnly => .error .writePolicy
  | .writeBack => s.wrHitWb cfg addr cacheIndex time
  | .writeThrough => s.wrHitWt cfg addr cacheIndex mf time
  | .writeEvict => s.wrHitWe cfg cacheIndex mf
  | .localWbGlobalWt => s.wrHitGlobalWeLocalWb cfg addr cacheIndex mf time

/-- `m_wr_miss`, as the constructor sets it. -/
def wrMiss : Except Fault (BaselineCache × CacheRequestStatus) :=
  match cfg.writeAllocPolicy with
  | .writeAllocate => s.wrMissWa cfg addr cacheIndex mf time
  | .noWriteAllocate => s.wrMissNoWa cfg mf

/-! ## Accesses -/

/-- The classes of caches; `l1_cache` and `l2_cache` access alike. -/
inductive Kind where
  | readOnlyCache | dataCache
  deriving DecidableEq, Repr

/-- `read_only_cache::access`. -/
def accessReadOnly : Except Fault (BaselineCache × CacheRequestStatus) := do
  assert (s.dataSize mf.id ≤ cfg.lineSz) .dataSize
  assert (cfg.writePolicy = .readOnly) .writePolicy
  assert (mf.isWrite = false) .writeToReadOnly
  let blockAddr := cfg.blockAddr addr
  match ← Lines.probe cfg s.lines blockAddr with
  | .hit _ =>
    let r ← Lines.accessClean cfg s.lines blockAddr time
    return ({ s with lines := r.lines }, .hit)
  | .reservationFail => return (s, .reservationFail)
  | .miss cacheIndex | .hitReserved cacheIndex =>
    if s.missQueueFull cfg 0 then return (s, .reservationFail)
    else do
      let r ← s.sendReadRequest cfg blockAddr cacheIndex mf time true false
      return (r.cache, if r.doMiss then .miss else .reservationFail)

/-- `l1_cache::access` and `l2_cache::access`. -/
def accessData : Except Fault (BaselineCache × CacheRequestStatus) := do
  assert (s.dataSize mf.id ≤ cfg.lineSz) .dataSize
  match ← Lines.probe cfg s.lines (cfg.blockAddr addr) with
  | .hit cacheIndex =>
    if mf.isWrite then s.wrHit cfg addr cacheIndex mf time
    else s.rdHitBase cfg addr cacheIndex mf time
  | .reservationFail => return (s, .reservationFail)
  | .miss cacheIndex | .hitReserved cacheIndex =>
    if mf.isWrite then s.wrMiss cfg addr cacheIndex mf time
    else s.rdMissBase cfg addr cacheIndex mf time

def access : Kind → Except Fault (BaselineCache × CacheRequestStatus)
  | .readOnlyCache => s.accessReadOnly cfg addr mf time
  | .dataCache => s.accessData cfg addr mf time

end BaselineCache

/-! ## The machine -/

/-- The request of an access; `addr` is the address of the access itself. -/
structure Request where
  addr : Nat
  accessType : MemAccessType
  isWrite : Bool
  isAtomic : Bool
  dataSize : Nat

inductive Act where
  | access (addr : Nat) (r : Request) (time : Nat)
  | cycle (full : Bool)
  | fill (id time : Nat)
  | nextAccess

namespace BaselineCache

def requestMf (s : BaselineCache) (r : Request) : MemFetch := s.newMf r.addr r.accessType r.isWrite r.isAtomic

/-- The cache at an access. -/
def asked (s : BaselineCache) (r : Request) : BaselineCache := { s.allocMf r.dataSize with events := [] }

def step (kind : Kind) (cfg : CacheConfig) (s : BaselineCache) : Act → Option (Except Fault BaselineCache)
  | .access addr r time =>
    some (((s.asked r).access cfg addr (s.requestMf r) time kind).map fun a =>
      { a.1 with record := .answered (cfg.blockAddr addr) (s.requestMf r) a.2 :: a.1.record })
  | .cycle full => some (.ok (s.cycle full))
  | .fill id time =>
    if s.waitingForFill id ∧ ∃ mf ∈ s.below, mf.id = id then
      some ((s.fill cfg id time).map fun t => { t with below := t.below.filter (·.id ≠ id) })
    else none
  | .nextAccess => if s.mshrs.accessReady then some s.nextAccess else none

/-- The cache at work. -/
def machine (kind : Kind) (cfg : CacheConfig) : Machine BaselineCache Act Fault where
  init := {}
  step := step kind cfg

end BaselineCache

/-! ## A small cache -/

/-- One line, which blocks 0 and 128 share. -/
def oneLine (allocPolicy : AllocationPolicy) : CacheConfig where
  nset := 1
  lineSz := 128
  assoc := 1
  replacementPolicy := .lru
  writePolicy := .writeBack
  allocPolicy
  writeAllocPolicy := .noWriteAllocate
  mshrEntries := 4
  mshrMaxMerge := 4
  missQueueSize := 8

/-- A read of a whole line. -/
def readOf (addr : Nat) : Request := ⟨addr, .globalAccR, false, false, 128⟩

/-- A write of one word. -/
def writeTo (addr : Nat) : Request := ⟨addr, .globalAccW, true, false, 4⟩

end GpgpuSimRuby.Cache
