import GpgpuSimRuby.Ruby.Cachelease3.L1Cache

/-!
# cachelease3: the L2 controller

`cachelease3-L2cache.sm`, for one block. The L2 remembers one time per block, the largest lease it
has given out, and no sharers. A write is performed at once and moves the time on. How it is answered
depends on the state (`E`: every lease is over, `S`: one reader, `SS`: possibly several) and, for an
upgrade, on whether the time the L1 sends is still the L2's:

* `ACK` — nobody else can read an older copy;
* `ACK_GLOBAL`, `DATA_GLOBAL`, `DATA_ATOMIC` — others may, until the `GWCT` in the message.

A block evicted with a live lease leaves a TBE in `MI` behind. A request that comes in meanwhile
fetches the block again and keeps the time of the TBE.

With the oracle predictor (`L2.Mode`) the L2 resets its time instead, and has the sharers it has
noted (`SharerPCPairSet`, of which only the sharers are kept here) reset theirs.

The controller works on `Block`, which also holds the network around it. The request network is
ordered (`toL2 i`, then `L1RequestToL2Cache`); responses wait in `responseToL1 i`. Requests to other
blocks only delay those to this one, and which block is the victim of a replacement is up to them.
-/

namespace GpgpuSimRuby.Ruby.Cachelease3

open Library

inductive L2State where
  | NP | E | S | SS | IS | IM | IMA | MI
  deriving DecidableEq, Repr

inductive L2Event where
  | l1GETS | l1Write | l1UpgradeT | l1UpgradeNT | l2Atomic
  | l2Expire | l2Replacement | l2ReplacementClean | memData | memDataSS
  deriving DecidableEq, Repr

structure L2Entry (ι : Type) where
  cacheState : L2State := .NP
  dataBlk : DataBlock ι := []
  dirty : Bool := false
  liveUntilTime : Nat := 0
  sharers : Finset ι := ∅
  deriving DecidableEq

structure L2TBE (ι : Type) where
  tbeState : L2State := .NP
  dataBlk : DataBlock ι := []
  dirty : Bool := false
  l1GetSIDs : Finset ι := ∅
  l1WBAckID : Option ι := none
  space : MemorySpaceType := .NULL
  deltaRequested : Nat := 0
  liveUntilTime : Nat := 0
  memfetch : Option (MemFetch ι) := none
  mfset : List (ι × MemFetch ι) := []
  deriving DecidableEq

/-- The L1's share of a block: its cache entry and TBE, and the read its MSHR waits for. -/
structure L1Line (ι : Type) where
  entry : Option (L1Entry ι) := none
  tbe : Option L1TBE := none
  readPending : Bool := false
  deriving DecidableEq

/-- One block throughout the system: every L1's line, the L2 bank's entry and TBE, the messages
under way, and the memory behind the L2. -/
structure Block (ι : Type) where
  now : Nat := startTime
  l1 : ι → L1Line ι := fun _ => {}
  toL2 : ι → List (RequestMsg ι) := fun _ => []
  l1RequestToL2Cache : List (RequestMsg ι) := []
  entry : Option (L2Entry ι) := none
  tbe : Option (L2TBE ι) := none
  responseToL1 : ι → List (ResponseMsg ι) := fun _ => []
  /-- The ideal invalidations under way to each L1. -/
  idealInvQueue : ι → Nat := fun _ => 0
  l2ExpireTriggerQueue : List Nat := []
  /-- `MEMORY_READ`s under way between the L2 and the DRAM. -/
  memReads : Nat := 0
  /-- The block as the next fetch returns it: the DRAM queue serves a bank in order, so a fetch sees
  every write-back issued before it. -/
  memory : DataBlock ι := []
  /-- History: the stores and atomics whose L1 has been told that they are done. -/
  acked : List (MemFetch ι) := []
  nextUid : Nat := 0

namespace L2

variable {ι : Type} [DecidableEq ι]

/-- The settings the controller asks for: is the predictor the oracle, and does the benchmark
contain fences? The other predictors only choose the leases the loads ask for. -/
structure Mode where
  predOracle : Bool := false
  containsMembar : Bool := true
  deriving DecidableEq, Repr

/-! ### Helper functions of the controller -/

/-- `isLive`, of an entry. -/
def isLive (b : Block ι) (e : L2Entry ι) : Bool := b.now ≤ e.liveUntilTime

def getState (b : Block ι) : L2State :=
  match b.tbe, b.entry with
  | some t, _ => t.tbeState
  | none, some e =>
    if isLive b e = false ∧ (e.cacheState = .SS ∨ e.cacheState = .S) then .E else e.cacheState
  | none, none => .NP

def setState (s : L2State) (b : Block ι) : Block ι :=
  { b with
    tbe := b.tbe.map fun t => { t with tbeState := s }
    entry := b.entry.map fun e => { e with cacheState := s } }

/-- `L1Cache_request_type_to_event`: an upgrade matches when the block is allocated, not expired, and
its time is the one the L1 sends. -/
def l1CacheRequestTypeToEvent (b : Block ι) (inMsg : RequestMsg ι) : Except Fault L2Event :=
  match inMsg.type with
  | .GETS => .ok .l1GETS
  | .DATA => .ok .l1Write
  | .DATA_ATOMIC => .ok .l2Atomic
  | .DATA_UPGRADE =>
    match b.entry with
    | some e =>
      if isLive b e ∧ e.liveUntilTime = inMsg.liveUntilTime then .ok .l1UpgradeT
      else .ok .l1UpgradeNT
    | none => .ok .l1UpgradeNT
  | _ => .error (.error "Invalid L1 forwarded request type")

/-- The block's time after a read is serviced. -/
def globalTimeAfterRead (now requested currentLiveUntilTime : Nat) : Nat :=
  max (now + requested) currentLiveUntilTime

/-- The block's time after a write is serviced. -/
def globalTimeAfterWrite (now requested currentLiveUntilTime : Nat) : Nat :=
  max (now + requested) (currentLiveUntilTime + 1)

/-- `peek(L1RequestIntraChipL2Network_in, RequestMsg)`. -/
def peekRequest (b : Block ι) (k : RequestMsg ι → Except Fault (Block ι)) : Except Fault (Block ι) :=
  match b.l1RequestToL2Cache with
  | inMsg :: _ => k inMsg
  | [] => .error .assertion

def withEntry (b : Block ι) (k : L2Entry ι → Except Fault (Block ι)) : Except Fault (Block ι) :=
  match b.entry with
  | some e => k e
  | none => .error .assertion

def withTBE (b : Block ι) (k : L2TBE ι → Except Fault (Block ι)) : Except Fault (Block ι) :=
  match b.tbe with
  | some t => k t
  | none => .error .assertion

/-- Enqueue a response: the network hands it to each of its destinations. -/
def send (m : ResponseMsg ι) (b : Block ι) : Block ι :=
  { b with responseToL1 := fun i =>
      if i ∈ m.destination then b.responseToL1 i ++ [m] else b.responseToL1 i }

/-! ### Actions -/

def aIssueFetchToMemory : Action (Block ι) := fun b =>
  peekRequest b fun _ => .ok { b with memReads := b.memReads + 1 }

def aIssueFetchToMemoryForStore : Action (Block ι) := aIssueFetchToMemory

def cExclusiveReplacement : Action (Block ι) := fun b =>
  withEntry b fun e => .ok { b with memory := e.dataBlk }

def dsSendDataToRequestor : Action (Block ι) := fun b =>
  peekRequest b fun inMsg => withEntry b fun e =>
    require (b.now ≤ e.liveUntilTime) <| send
      { type := .DATA, destination := {inMsg.requestor}, dataBlk := e.dataBlk,
        liveUntilTime := e.liveUntilTime, mfset := [(inMsg.requestor, inMsg.memfetch)],
        performed := e.dataBlk } b

def dstSendDataToGetSRequestors : Action (Block ι) := fun b =>
  withTBE b fun t => withEntry b fun e =>
    require (0 < t.l1GetSIDs.card ∧ b.now ≤ e.liveUntilTime) <| send
      { type := .DATA, destination := t.l1GetSIDs, dataBlk := e.dataBlk,
        liveUntilTime := e.liveUntilTime, gwct := e.liveUntilTime, mfset := t.mfset,
        performed := e.dataBlk } b

def dsGSendDataGlobalToRequestor : Action (Block ι) := fun b =>
  peekRequest b fun inMsg => withEntry b fun e =>
    require (b.now ≤ e.liveUntilTime) <| send
      { type := .DATA_GLOBAL, destination := {inMsg.requestor}, dataBlk := e.dataBlk,
        liveUntilTime := globalTimeAfterWrite b.now inMsg.deltaRequested e.liveUntilTime,
        gwct := e.liveUntilTime, memfetch := some inMsg.memfetch,
        performed := inMsg.memfetch :: e.dataBlk } b

def dsSendAtomicDataGlobalToRequestor : Action (Block ι) := fun b =>
  peekRequest b fun inMsg => withEntry b fun e =>
    .ok <| send
      { type := .DATA_ATOMIC, destination := {inMsg.requestor}, dataBlk := e.dataBlk,
        liveUntilTime := e.liveUntilTime, gwct := e.liveUntilTime, memfetch := some inMsg.memfetch,
        performed := inMsg.memfetch :: e.dataBlk } b

def dstSendAtomicDataToGetSRequestors : Action (Block ι) := fun b =>
  withTBE b fun t => withEntry b fun e =>
    .ok <| send
      { type := .DATA_ATOMIC, destination := t.l1WBAckID.toFinset, dataBlk := e.dataBlk,
        liveUntilTime := e.liveUntilTime, gwct := e.liveUntilTime, memfetch := t.memfetch,
        performed := e.dataBlk } b

/-- An acknowledgement of the given type, with the block's time after the write and the one before
it as completion time. -/
def sendAck (type : CoherenceResponseType) : Action (Block ι) := fun b =>
  peekRequest b fun inMsg => withEntry b fun e =>
    .ok <| send
      { type := type, destination := {inMsg.requestor},
        liveUntilTime := globalTimeAfterWrite b.now inMsg.deltaRequested e.liveUntilTime,
        gwct := e.liveUntilTime, memfetch := some inMsg.memfetch,
        performed := inMsg.memfetch :: e.dataBlk } b

def waGSendAckGlobalToRequestor : Action (Block ι) := sendAck .ACK_GLOBAL

def waSendAckToRequestor : Action (Block ι) := sendAck .ACK

def wagtSendAckGlobalToRequestorFromTBE : Action (Block ι) := fun b =>
  withTBE b fun t => withEntry b fun e =>
    .ok <| send
      { type := .ACK_GLOBAL, destination := t.l1WBAckID.toFinset, liveUntilTime := e.liveUntilTime,
        gwct := e.liveUntilTime, memfetch := t.memfetch, performed := e.dataBlk } b

/-- Allocate TBE from the L1 request queue. -/
def iAllocateTBE : Action (Block ι) := fun b =>
  peekRequest b fun inMsg => withEntry b fun e =>
    match b.tbe with
    | some _ => .error .assertion
    | none => .ok { b with tbe := some {
        dataBlk := e.dataBlk, dirty := e.dirty, space := inMsg.space,
        deltaRequested := inMsg.deltaRequested, memfetch := some inMsg.memfetch } }

/-- Set the TBE that `MI` has allocated; its time stays. -/
def isSetTBE : Action (Block ι) := fun b =>
  peekRequest b fun inMsg => withEntry b fun e => withTBE b fun t =>
    .ok { b with tbe := some { t with
      l1GetSIDs := ∅, dataBlk := e.dataBlk, dirty := e.dirty, space := inMsg.space,
      deltaRequested := inMsg.deltaRequested, memfetch := some inMsg.memfetch } }

/-- Allocate TBE for a write; it asks for no lease. -/
def ilAllocateTBE : Action (Block ι) := fun b =>
  peekRequest b fun inMsg => withEntry b fun e =>
    match b.tbe with
    | some _ => .error .assertion
    | none => .ok { b with tbe := some {
        dataBlk := e.dataBlk, dirty := e.dirty, space := inMsg.space,
        memfetch := some inMsg.memfetch } }

/-- Set the TBE that `MI` has allocated for a write; its time stays. -/
def ilsSetTBE : Action (Block ι) := fun b =>
  peekRequest b fun inMsg => withEntry b fun e => withTBE b fun t =>
    .ok { b with tbe := some { t with
      l1GetSIDs := ∅, dataBlk := e.dataBlk, dirty := e.dirty, space := inMsg.space,
      deltaRequested := 0, memfetch := some inMsg.memfetch } }

/-- Allocate TBE for L2 replacement. -/
def irAllocateTBE : Action (Block ι) := fun b =>
  withEntry b fun e =>
    match b.tbe with
    | some _ => .error .assertion
    | none => .ok { b with tbe := some {
        dataBlk := e.dataBlk, dirty := e.dirty, liveUntilTime := e.liveUntilTime } }

/-- Insert the expire event; the expire time is `liveUntilTime + 1`. -/
def itInsertL2ExpireTriggerQueue : Action (Block ι) := fun b =>
  withEntry b fun e =>
    require (b.now < e.liveUntilTime + 1)
      { b with l2ExpireTriggerQueue := b.l2ExpireTriggerQueue ++ [e.liveUntilTime + 1] }

def sDeallocateTBE : Action (Block ι) := fun b => withTBE b fun _ => .ok { b with tbe := none }

def jjPopL1RequestQueue : Action (Block ι) := fun b =>
  peekRequest b fun inMsg =>
    match inMsg.type with
    | .GETS | .DATA | .DATA_UPGRADE | .DATA_ATOMIC =>
      .ok { b with l1RequestToL2Cache := b.l1RequestToL2Cache.tail }
    | _ => .error (.error "Invalid CacheResponseType")

def oPopIncomingResponseQueue : Action (Block ι) := fun b =>
  require (0 < b.memReads) { b with memReads := b.memReads - 1 }

/-- Pop the expire message at hand, the `k`-th. -/
def otPopL2ExpireTriggerQueue (k : Nat) : Action (Block ι) := fun b =>
  .ok { b with l2ExpireTriggerQueue := b.l2ExpireTriggerQueue.eraseIdx k }

/-- Write data from the memory response to the cache. -/
def mWriteDataToCache : Action (Block ι) := fun b =>
  withEntry b fun e => .ok { b with entry := some { e with dataBlk := b.memory, dirty := false } }

/-- Merge the store of the request into the block. -/
def mrWriteDataToCacheFromRequest : Action (Block ι) := fun b =>
  peekRequest b fun inMsg => withEntry b fun e =>
    require (inMsg.dirty = true)
      { b with entry := some { e with dataBlk := inMsg.memfetch :: e.dataBlk, dirty := inMsg.dirty } }

/-- Merge the store that waits in the TBE into the block. -/
def mtWriteDataToCacheFromTBE : Action (Block ι) := fun b =>
  withTBE b fun t => withEntry b fun e =>
    require (t.dirty = true)
      { b with entry := some { e with dataBlk := t.memfetch.toList ++ e.dataBlk, dirty := t.dirty } }

/-- Record the L1 of a merged load. -/
def ssRecordGetSL1ID : Action (Block ι) := fun b =>
  peekRequest b fun inMsg => withTBE b fun t =>
    require (t.space = inMsg.space)
      { b with tbe := some { t with
          l1GetSIDs := insert inMsg.requestor t.l1GetSIDs
          mfset := t.mfset ++ [(inMsg.requestor, inMsg.memfetch)] } }

def qqAllocateL2CacheBlock : Action (Block ι) := fun b =>
  match b.entry with
  | some _ => .ok b
  | none => .ok { b with entry := some {} }

def tUpdateL2TimeRead : Action (Block ι) := fun b =>
  peekRequest b fun inMsg => withEntry b fun e =>
    .ok { b with entry := some { e with
      liveUntilTime := globalTimeAfterRead b.now inMsg.deltaRequested e.liveUntilTime } }

/-- Extend the time by the request in the TBE, from the time the TBE has kept. -/
def ttUpdateL2TimeReadFromTBE : Action (Block ι) := fun b =>
  withTBE b fun t => withEntry b fun e =>
    .ok { b with entry := some { e with
      liveUntilTime := globalTimeAfterRead b.now t.deltaRequested t.liveUntilTime } }

def tiUpdateL2TimeWrite : Action (Block ι) := fun b =>
  peekRequest b fun inMsg => withEntry b fun e =>
    .ok { b with entry := some { e with
      liveUntilTime := globalTimeAfterWrite b.now inMsg.deltaRequested e.liveUntilTime } }

/-- Set the time after the one the TBE has kept, if there is one, else to now. -/
def tnExpireL2BlockTime : Action (Block ι) := fun b =>
  withTBE b fun t => withEntry b fun e =>
    .ok { b with entry := some { e with
      liveUntilTime := globalTimeAfterWrite b.now 0 t.liveUntilTime } }

def dMarkBlockDirty : Action (Block ι) := fun b =>
  withEntry b fun e => .ok { b with entry := some { e with dirty := true } }

def rrDeallocateL2CacheBlock : Action (Block ι) := fun b =>
  withEntry b fun _ => .ok { b with entry := none }

def xxRecordGetXL1ID : Action (Block ι) := fun b =>
  peekRequest b fun inMsg => withTBE b fun t =>
    .ok { b with tbe := some { t with l1WBAckID := some inMsg.requestor } }

/-! ### Actions of the predictors -/

/-- `ideal_inv_sharer_L1s`. -/
def idealInvSharerL1s (sharers : Finset ι) (b : Block ι) : Block ι :=
  { b with idealInvQueue := fun i =>
      if i ∈ sharers then b.idealInvQueue i + 1 else b.idealInvQueue i }

/-- What the oracle does with an unexpired block: the sharers are to reset their times, and the L2
resets its own. -/
def oracleReset : Action (Block ι) := fun b =>
  withEntry b fun e => .ok <|
    idealInvSharerL1s e.sharers { b with entry := some { e with liveUntilTime := b.now } }

def pdVL2evict (mode : Mode) : Action (Block ι) := fun b =>
  if mode.predOracle then oracleReset b else .ok b

def pdWUnexpiredWrite (mode : Mode) : Action (Block ι) := fun b =>
  if mode.predOracle ∧ mode.containsMembar then oracleReset b else .ok b

def pdAUnexpiredatomic (mode : Mode) : Action (Block ι) := fun b =>
  if mode.predOracle ∧ mode.containsMembar then oracleReset b else .ok b

def pcCPcClearAll : Action (Block ι) := fun b =>
  withEntry b fun e => .ok { b with entry := some { e with sharers := ∅ } }

def pcAPcAdd : Action (Block ι) := fun b =>
  peekRequest b fun inMsg => withEntry b fun e =>
    .ok { b with entry := some { e with sharers := insert inMsg.requestor e.sharers } }

/-- `pcX_pcExclusive`: its comment keeps the writer, `removeMatchingSecondElement` removes it. -/
def pcXPcExclusive : Action (Block ι) := fun b =>
  peekRequest b fun inMsg => withEntry b fun e =>
    .ok { b with entry := some { e with sharers := e.sharers.erase inMsg.requestor } }

/-! ### Transitions -/

/-- A read of a block in the cache. -/
def readActions : List (Action (Block ι)) :=
  [pcAPcAdd, tUpdateL2TimeRead, dsSendDataToRequestor, jjPopL1RequestQueue]

/-- What follows the answer to a write of a block in the cache. -/
def performActions : List (Action (Block ι)) :=
  [tiUpdateL2TimeWrite, mrWriteDataToCacheFromRequest, jjPopL1RequestQueue]

/-- The transition table of `cachelease3-L2cache.sm`; actions that only profile are left out. `k` is
the position of the expire message at hand. -/
def transitions (mode : Mode) (k : Nat) : L2State → L2Event → Option (Transition L2State (Block ι))
  -- Idle
  | .NP, .l1GETS => some <| .go .IS [qqAllocateL2CacheBlock, pcCPcClearAll, pcAPcAdd, iAllocateTBE,
      ssRecordGetSL1ID, aIssueFetchToMemory, jjPopL1RequestQueue]
  | .NP, .l1Write | .NP, .l1UpgradeNT => some <| .go .IM [qqAllocateL2CacheBlock, pcCPcClearAll,
      dMarkBlockDirty, ilAllocateTBE, xxRecordGetXL1ID, aIssueFetchToMemoryForStore,
      jjPopL1RequestQueue]
  | .NP, .l2Atomic => some <| .go .IMA [qqAllocateL2CacheBlock, pcCPcClearAll, dMarkBlockDirty,
      ilAllocateTBE, xxRecordGetXL1ID, aIssueFetchToMemoryForStore, jjPopL1RequestQueue]
  | .IS, .l2Replacement | .IM, .l2Replacement | .IMA, .l2Replacement
  | .IS, .l2ReplacementClean | .IM, .l2ReplacementClean | .IMA, .l2ReplacementClean => some .stall
  -- IS
  | .IS, .l1GETS => some <| .go .IS [pcAPcAdd, ssRecordGetSL1ID, jjPopL1RequestQueue]
  | .IS, .memData => some <| .go .S [mWriteDataToCache, ttUpdateL2TimeReadFromTBE,
      dstSendDataToGetSRequestors, sDeallocateTBE, oPopIncomingResponseQueue]
  | .IS, .memDataSS => some <| .go .SS [mWriteDataToCache, ttUpdateL2TimeReadFromTBE,
      dstSendDataToGetSRequestors, sDeallocateTBE, oPopIncomingResponseQueue]
  -- IM, IMA
  | .IM, .memData => some <| .go .S [mWriteDataToCache, tnExpireL2BlockTime,
      mtWriteDataToCacheFromTBE, wagtSendAckGlobalToRequestorFromTBE, sDeallocateTBE,
      oPopIncomingResponseQueue]
  | .IMA, .memData => some <| .go .S [mWriteDataToCache, tnExpireL2BlockTime,
      mtWriteDataToCacheFromTBE, dstSendAtomicDataToGetSRequestors, sDeallocateTBE,
      oPopIncomingResponseQueue]
  | .IM, .l1GETS | .IMA, .l1GETS => some .stall
  -- S
  | .S, .l1GETS => some <| .go .SS readActions
  | .S, .l1Write | .SS, .l1Write => some <| .go .S ([pdWUnexpiredWrite mode, pcXPcExclusive,
      dMarkBlockDirty, waGSendAckGlobalToRequestor] ++ performActions)
  | .E, .l1Write => some <| .go .S ([pcCPcClearAll, dMarkBlockDirty, waSendAckToRequestor] ++
      performActions)
  | .S, .l1UpgradeT => some <| .go .S ([dMarkBlockDirty, waSendAckToRequestor] ++ performActions)
  | .S, .l1UpgradeNT | .SS, .l1UpgradeNT => some <| .go .S ([pdWUnexpiredWrite mode, pcXPcExclusive,
      dMarkBlockDirty, dsGSendDataGlobalToRequestor] ++ performActions)
  | .S, .l2Atomic | .SS, .l2Atomic => some <| .go .S ([pdAUnexpiredatomic mode, pcCPcClearAll,
      dMarkBlockDirty, dsSendAtomicDataGlobalToRequestor] ++ performActions)
  | .S, .l2ReplacementClean | .SS, .l2ReplacementClean => some <| .go .MI [pdVL2evict mode,
      irAllocateTBE, itInsertL2ExpireTriggerQueue, rrDeallocateL2CacheBlock]
  | .S, .l2Replacement | .SS, .l2Replacement => some <| .go .MI [pdVL2evict mode, irAllocateTBE,
      itInsertL2ExpireTriggerQueue, cExclusiveReplacement, rrDeallocateL2CacheBlock]
  -- SS
  | .SS, .l1GETS => some <| .go .SS readActions
  | .SS, .l1UpgradeT => some <| .go .S ([pdWUnexpiredWrite mode, pcXPcExclusive, dMarkBlockDirty,
      waGSendAckGlobalToRequestor] ++ performActions)
  -- E
  | .E, .l1GETS => some <| .go .S readActions
  | .E, .l1UpgradeNT => some <| .go .S ([pcCPcClearAll, dMarkBlockDirty, waSendAckToRequestor] ++
      performActions)
  | .E, .l2Atomic => some <| .go .S ([pcCPcClearAll, dMarkBlockDirty,
      dsSendAtomicDataGlobalToRequestor] ++ performActions)
  | .E, .l2ReplacementClean => some <| .go .NP [rrDeallocateL2CacheBlock]
  | .E, .l2Replacement => some <| .go .NP [cExclusiveReplacement, rrDeallocateL2CacheBlock]
  -- MI
  | .MI, .l1GETS => some <| .go .IS [qqAllocateL2CacheBlock, pcCPcClearAll, pcAPcAdd, isSetTBE,
      ssRecordGetSL1ID, aIssueFetchToMemory, jjPopL1RequestQueue]
  | .MI, .l1Write | .MI, .l1UpgradeNT => some <| .go .IM [qqAllocateL2CacheBlock, pcCPcClearAll,
      dMarkBlockDirty, ilsSetTBE, xxRecordGetXL1ID, aIssueFetchToMemoryForStore,
      jjPopL1RequestQueue]
  | .MI, .l2Atomic => some <| .go .IMA [qqAllocateL2CacheBlock, pcCPcClearAll, dMarkBlockDirty,
      ilsSetTBE, xxRecordGetXL1ID, aIssueFetchToMemoryForStore, jjPopL1RequestQueue]
  | .MI, .l2Expire => some <| .go .NP [sDeallocateTBE, otPopL2ExpireTriggerQueue k]
  | .IS, .l1Write | .IM, .l1Write | .IMA, .l1Write
  | .IS, .l1UpgradeNT | .IM, .l1UpgradeNT | .IMA, .l1UpgradeNT
  | .IS, .l2Atomic | .IM, .l2Atomic | .IMA, .l2Atomic => some .stall
  | _, _ => none

/-- The L2 controller. -/
def controller (mode : Mode) (k : Nat) : Controller L2State L2Event (Block ι) where
  getState := getState
  setState := setState
  transitions := transitions mode k

/-! ### In ports -/

/-- `in_port(memQueue_in, …)`: with several readers waiting the block goes to `SS`. -/
def memoryEvent (t : L2TBE ι) : L2Event := if 1 < t.l1GetSIDs.card then .memDataSS else .memData

end L2

end GpgpuSimRuby.Ruby.Cachelease3
