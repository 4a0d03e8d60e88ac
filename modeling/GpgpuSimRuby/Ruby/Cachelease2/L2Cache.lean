import GpgpuSimRuby.Ruby.Cachelease2.L1Cache

/-!
# cachelease2: the L2 controller

`cachelease2-L2cache.sm` and its two variants, for one block. The L2 remembers one time per block,
the largest lease it has given out; a write waits until that time has passed, except that the only
reader of the block (`S`, equal times) may write at once.

* `L2.transitions` — cachelease2: a blocked request stalls the request queue; a block evicted with
  a live lease leaves a TBE in `MI` behind until an expire event.
* `L2.transitionsOo` — cachelease2oo: a blocked write is *recycled* to the back of the queue.
* `L2.transitionsUo` — cachelease2uo: no `SS`, no `MI`, no matching of times; a block with a live
  lease is neither written nor evicted.

The controller works on `Block`, which also holds the network around it. The request network is
ordered (`toL2 i`, then `L1RequestToL2Cache`); responses wait in `responseToL1 i`. Requests to other
blocks only delay those to this one, and which block is the victim of a replacement is up to them,
so a block evolves by itself; `System` puts the blocks together under one clock.
-/

namespace GpgpuSimRuby.Ruby.Cachelease2

open Library

inductive L2State where
  | NP | E | S | SS | IS | IM | IMA | MI
  deriving DecidableEq, Repr

inductive L2Event where
  | l1GETS | l1Write | l1UpgradeT | l1UpgradeNT | l2Atomic
  | l2Expire | l2Replacement | l2ReplacementClean | memData | memDataSS
  deriving DecidableEq, Repr

structure L2Entry (ι : Type) where
  cacheState : L2State := .NP
  dataBlk : DataBlock ι := []
  dirty : Bool := false
  liveUntilTime : Nat := 0
  deriving DecidableEq

structure L2TBE (ι : Type) where
  tbeState : L2State := .NP
  dataBlk : DataBlock ι := []
  dirty : Bool := false
  l1GetSIDs : Finset ι := ∅
  l1WBAckID : Option ι := none
  space : MemorySpaceType := .NULL
  deltaRequested : Nat := 0
  liveUntilTime : Nat := 0
  memfetch : Option (MemFetch ι) := none
  mfset : List (ι × MemFetch ι) := []
  deriving DecidableEq

/-- The L1's share of a block: its cache entry and TBE, and the read its MSHR waits for. -/
structure L1Line (ι : Type) where
  entry : Option (L1Entry ι) := none
  tbe : Option L1TBE := none
  readPending : Bool := false
  deriving DecidableEq

/-- One block throughout the system: every L1's line, the L2 bank's entry and TBE, the messages
under way, and the memory behind the L2. -/
structure Block (ι : Type) where
  now : Nat := startTime
  l1 : ι → L1Line ι := fun _ => {}
  toL2 : ι → List (RequestMsg ι) := fun _ => []
  l1RequestToL2Cache : List (RequestMsg ι) := []
  recycled : List (Nat × RequestMsg ι) := []
  entry : Option (L2Entry ι) := none
  tbe : Option (L2TBE ι) := none
  responseToL1 : ι → List (ResponseMsg ι) := fun _ => []
  l2ExpireTriggerQueue : List Nat := []
  /-- `MEMORY_READ`s under way between the L2 and the DRAM. -/
  memReads : Nat := 0
  /-- The block as the next fetch returns it: the DRAM queue serves a bank in order, so a fetch sees
  every write-back issued before it. -/
  memory : DataBlock ι := []
  /-- The stores and atomics the L1s have sent so far. -/
  sentWrites : ι → List (MemFetch ι) := fun _ => []
  nextUid : Nat := 0

namespace L2

variable {ι : Type} [DecidableEq ι]

/-! ### Helper functions of the controller -/

/-- `isLive`, of an entry. -/
def isLive (b : Block ι) (e : L2Entry ι) : Bool := b.now ≤ e.liveUntilTime

def getState (b : Block ι) : L2State :=
  match b.tbe, b.entry with
  | some t, _ => t.tbeState
  | none, some e =>
    if isLive b e = false ∧ (e.cacheState = .SS ∨ e.cacheState = .S) then .E else e.cacheState
  | none, none => .NP

def setState (s : L2State) (b : Block ι) : Block ι :=
  { b with
    tbe := b.tbe.map fun t => { t with tbeState := s }
    entry := b.entry.map fun e => { e with cacheState := s } }

/-- `L1Cache_request_type_to_event` of cachelease2 and cachelease2oo: an upgrade matches when the
block is allocated, not expired, and its time is the one the L1 sends. -/
def l1CacheRequestTypeToEvent (b : Block ι) (inMsg : RequestMsg ι) : Except Fault L2Event :=
  match inMsg.type with
  | .GETS => .ok .l1GETS
  | .DATA => .ok .l1Write
  | .DATA_ATOMIC => .ok .l2Atomic
  | .DATA_UPGRADE =>
    match b.entry with
    | some e =>
      if isLive b e ∧ e.liveUntilTime = inMsg.liveUntilTime then .ok .l1UpgradeT
      else .ok .l1UpgradeNT
    | none => .ok .l1UpgradeNT
  | _ => .error (.error "Invalid L1 forwarded request type")

/-- `L1Cache_request_type_to_event` of cachelease2uo, which never matches times. -/
def l1CacheRequestTypeToEventUo (_ : Block ι) (inMsg : RequestMsg ι) : Except Fault L2Event :=
  match inMsg.type with
  | .GETS => .ok .l1GETS
  | .DATA => .ok .l1Write
  | .DATA_ATOMIC => .ok .l2Atomic
  | .DATA_UPGRADE => .ok .l1UpgradeNT
  | _ => .error (.error "Invalid L1 forwarded request type")

/-- `peek(L1RequestIntraChipL2Network_in, RequestMsg)`. -/
def peekRequest (b : Block ι) (k : RequestMsg ι → Except Fault (Block ι)) : Except Fault (Block ι) :=
  match b.l1RequestToL2Cache with
  | inMsg :: _ => k inMsg
  | [] => .error .assertion

def withEntry (b : Block ι) (k : L2Entry ι → Except Fault (Block ι)) : Except Fault (Block ι) :=
  match b.entry with
  | some e => k e
  | none => .error .assertion

def withTBE (b : Block ι) (k : L2TBE ι → Except Fault (Block ι)) : Except Fault (Block ι) :=
  match b.tbe with
  | some t => k t
  | none => .error .assertion

/-- Enqueue a response: the network hands it to each of its destinations. -/
def send (m : ResponseMsg ι) (b : Block ι) : Block ι :=
  { b with responseToL1 := fun i =>
      if i ∈ m.destination then b.responseToL1 i ++ [m] else b.responseToL1 i }

/-! ### Actions -/

def aIssueFetchToMemory : Action (Block ι) := fun b =>
  peekRequest b fun _ => .ok { b with memReads := b.memReads + 1 }

def aIssueFetchToMemoryForStore : Action (Block ι) := aIssueFetchToMemory

def cExclusiveReplacement : Action (Block ι) := fun b =>
  withEntry b fun e => .ok { b with memory := e.dataBlk }

def dsSendDataToRequestor : Action (Block ι) := fun b =>
  peekRequest b fun inMsg => withEntry b fun e =>
    require (b.now ≤ e.liveUntilTime) <| send
      { type := .DATA, destination := {inMsg.requestor}, dataBlk := e.dataBlk,
        liveUntilTime := e.liveUntilTime, mfset := [(inMsg.requestor, inMsg.memfetch)] } b

def dstSendDataToGetSRequestors : Action (Block ι) := fun b =>
  withTBE b fun t => withEntry b fun e =>
    require (0 < t.l1GetSIDs.card ∧ b.now ≤ e.liveUntilTime) <| send
      { type := .DATA, destination := t.l1GetSIDs, dataBlk := e.dataBlk,
        liveUntilTime := e.liveUntilTime, mfset := t.mfset } b

def dsSendAtomicDataGlobalToRequestor : Action (Block ι) := fun b =>
  peekRequest b fun inMsg => withEntry b fun e =>
    .ok <| send
      { type := .DATA_ATOMIC, destination := {inMsg.requestor}, dataBlk := e.dataBlk,
        liveUntilTime := e.liveUntilTime, memfetch := some inMsg.memfetch } b

def dstSendAtomicDataToGetSRequestors : Action (Block ι) := fun b =>
  withTBE b fun t => withEntry b fun e =>
    .ok <| send
      { type := .DATA_ATOMIC, destination := t.l1WBAckID.toFinset, dataBlk := e.dataBlk,
        liveUntilTime := e.liveUntilTime, memfetch := t.memfetch } b

def waSendAckToRequestor : Action (Block ι) := fun b =>
  peekRequest b fun inMsg => withEntry b fun e =>
    .ok <| send
      { type := .ACK, destination := {inMsg.requestor}, liveUntilTime := e.liveUntilTime,
        memfetch := some inMsg.memfetch } b

def watSendAckToRequestorFromTBE : Action (Block ι) := fun b =>
  withTBE b fun t => withEntry b fun e =>
    .ok <| send
      { type := .ACK, destination := t.l1WBAckID.toFinset, liveUntilTime := e.liveUntilTime,
        memfetch := t.memfetch } b

/-- Allocate TBE from the L1 request queue. -/
def iAllocateTBE : Action (Block ι) := fun b =>
  peekRequest b fun inMsg => withEntry b fun e =>
    match b.tbe with
    | some _ => .error .assertion
    | none => .ok { b with tbe := some {
        dataBlk := e.dataBlk, dirty := e.dirty, space := inMsg.space,
        deltaRequested := inMsg.deltaRequested, memfetch := some inMsg.memfetch } }

/-- Allocate TBE for a write; it asks for no lease. -/
def ilAllocateTBE : Action (Block ι) := fun b =>
  peekRequest b fun inMsg => withEntry b fun e =>
    match b.tbe with
    | some _ => .error .assertion
    | none => .ok { b with tbe := some {
        dataBlk := e.dataBlk, dirty := e.dirty, space := inMsg.space,
        memfetch := some inMsg.memfetch } }

/-- Allocate TBE for L2 replacement. -/
def irAllocateTBE : Action (Block ι) := fun b =>
  withEntry b fun e =>
    match b.tbe with
    | some _ => .error .assertion
    | none => .ok { b with tbe := some {
        dataBlk := e.dataBlk, dirty := e.dirty, liveUntilTime := e.liveUntilTime } }

/-- Insert the expire event; the expire time is `liveUntilTime + 1`. -/
def itInsertL2ExpireTriggerQueue : Action (Block ι) := fun b =>
  withEntry b fun e =>
    require (b.now < e.liveUntilTime + 1)
      { b with l2ExpireTriggerQueue := b.l2ExpireTriggerQueue ++ [e.liveUntilTime + 1] }

def sDeallocateTBE : Action (Block ι) := fun b => withTBE b fun _ => .ok { b with tbe := none }

def jjPopL1RequestQueue : Action (Block ι) := fun b =>
  peekRequest b fun inMsg =>
    match inMsg.type with
    | .GETS | .DATA | .DATA_UPGRADE | .DATA_ATOMIC =>
      .ok { b with l1RequestToL2Cache := b.l1RequestToL2Cache.tail }
    | _ => .error (.error "Invalid CacheResponseType")

def oPopIncomingResponseQueue : Action (Block ι) := fun b =>
  require (0 < b.memReads) { b with memReads := b.memReads - 1 }

/-- The head of the expire queue, which the in port has checked, is at the front. -/
def oPopL2ExpireTriggerQueue : Action (Block ι) := fun b =>
  .ok { b with l2ExpireTriggerQueue := b.l2ExpireTriggerQueue.tail }

/-- Write data from the memory response to the cache. -/
def mWriteDataToCache : Action (Block ι) := fun b =>
  withEntry b fun e => .ok { b with entry := some { e with dataBlk := b.memory, dirty := false } }

/-- Merge the store of the request into the block. -/
def mrWriteDataToCacheFromRequest : Action (Block ι) := fun b =>
  peekRequest b fun inMsg => withEntry b fun e =>
    require (inMsg.dirty = true)
      { b with entry := some { e with dataBlk := inMsg.memfetch :: e.dataBlk, dirty := inMsg.dirty } }

/-- Merge the store that waits in the TBE into the block. -/
def mtWriteDataToCacheFromTBE : Action (Block ι) := fun b =>
  withTBE b fun t => withEntry b fun e =>
    require (t.dirty = true)
      { b with entry := some { e with dataBlk := t.memfetch.toList ++ e.dataBlk, dirty := t.dirty } }

/-- Record the L1 of a merged load. -/
def ssRecordGetSL1ID : Action (Block ι) := fun b =>
  peekRequest b fun inMsg => withTBE b fun t =>
    require (t.space = inMsg.space)
      { b with tbe := some { t with
          l1GetSIDs := insert inMsg.requestor t.l1GetSIDs
          mfset := t.mfset ++ [(inMsg.requestor, inMsg.memfetch)] } }

def qqAllocateL2CacheBlock : Action (Block ι) := fun b =>
  match b.entry with
  | some _ => .ok b
  | none => .ok { b with entry := some {} }

/-- Extend the time to now plus the requested lease, if that is later. -/
def tUpdateL2BlockTime : Action (Block ι) := fun b =>
  peekRequest b fun inMsg => withEntry b fun e =>
    .ok { b with entry := some { e with
      liveUntilTime := max (b.now + inMsg.deltaRequested) e.liveUntilTime } }

/-- Increment the time stamp (on writes). -/
def tiIncrementL2BlockTime : Action (Block ι) := fun b =>
  withEntry b fun e => .ok { b with entry := some { e with liveUntilTime := e.liveUntilTime + 1 } }

def ttUpdateL2BlockTimeFromTBE : Action (Block ι) := fun b =>
  withTBE b fun t => withEntry b fun e =>
    .ok { b with entry := some { e with
      liveUntilTime := max (b.now + t.deltaRequested) e.liveUntilTime } }

/-- Set the expire time to now. -/
def tnExpireL2BlockTime : Action (Block ι) := fun b =>
  withEntry b fun e => .ok { b with entry := some { e with liveUntilTime := b.now } }

def dMarkBlockDirty : Action (Block ι) := fun b =>
  withEntry b fun e => .ok { b with entry := some { e with dirty := true } }

def rrDeallocateL2CacheBlock : Action (Block ι) := fun b =>
  withEntry b fun _ => .ok { b with entry := none }

def xxRecordGetXL1ID : Action (Block ι) := fun b =>
  peekRequest b fun inMsg => withTBE b fun t =>
    .ok { b with tbe := some { t with l1WBAckID := some inMsg.requestor } }

/-- `MessageBuffer::recycle`: the head of the queue is due again `RECYCLE_LATENCY` cycles later,
behind everything that arrives until then. -/
def zzRecycleL1RequestQueue (recycleLatency : Nat) : Action (Block ι) := fun b =>
  peekRequest b fun inMsg =>
    .ok { b with l1RequestToL2Cache := b.l1RequestToL2Cache.tail
                 recycled := b.recycled ++ [(b.now + recycleLatency, inMsg)] }

/-! ### Transitions -/

/-- A write to an expired block: the next five actions and the pop are those of `E L1_Write`,
`E L1_Upgrade_NT` and `S L1_Upgrade_T`. -/
def writeActions : List (Action (Block ι)) :=
  [dMarkBlockDirty, tiIncrementL2BlockTime, waSendAckToRequestor, mrWriteDataToCacheFromRequest,
   jjPopL1RequestQueue]

/-- A read of a block in the cache. -/
def readActions : List (Action (Block ι)) :=
  [tUpdateL2BlockTime, dsSendDataToRequestor, jjPopL1RequestQueue]

/-- The transition table of `cachelease2-L2cache.sm`. -/
def transitions : L2State → L2Event → Option (Transition L2State (Block ι))
  -- Idle
  | .NP, .l1GETS => some <| .go .IS [qqAllocateL2CacheBlock, iAllocateTBE, ssRecordGetSL1ID,
      aIssueFetchToMemory, jjPopL1RequestQueue]
  | .NP, .l1Write | .NP, .l1UpgradeNT => some <| .go .IM [qqAllocateL2CacheBlock, dMarkBlockDirty,
      ilAllocateTBE, xxRecordGetXL1ID, aIssueFetchToMemoryForStore, jjPopL1RequestQueue]
  | .NP, .l2Atomic => some <| .go .IMA [qqAllocateL2CacheBlock, dMarkBlockDirty,
      ilAllocateTBE, xxRecordGetXL1ID, aIssueFetchToMemoryForStore, jjPopL1RequestQueue]
  | .IS, .l2Replacement | .IM, .l2Replacement | .IMA, .l2Replacement
  | .IS, .l2ReplacementClean | .IM, .l2ReplacementClean | .IMA, .l2ReplacementClean => some .stall
  -- IS
  | .IS, .l1GETS => some <| .go .IS [ssRecordGetSL1ID, jjPopL1RequestQueue]
  | .IS, .memData => some <| .go .S [mWriteDataToCache, ttUpdateL2BlockTimeFromTBE,
      dstSendDataToGetSRequestors, sDeallocateTBE, oPopIncomingResponseQueue]
  | .IS, .memDataSS => some <| .go .SS [mWriteDataToCache, ttUpdateL2BlockTimeFromTBE,
      dstSendDataToGetSRequestors, sDeallocateTBE, oPopIncomingResponseQueue]
  -- IM, IMA
  | .IM, .memData => some <| .go .E [mWriteDataToCache, tnExpireL2BlockTime,
      mtWriteDataToCacheFromTBE, watSendAckToRequestorFromTBE, sDeallocateTBE,
      oPopIncomingResponseQueue]
  | .IMA, .memData => some <| .go .E [mWriteDataToCache, tnExpireL2BlockTime,
      mtWriteDataToCacheFromTBE, dstSendAtomicDataToGetSRequestors, sDeallocateTBE,
      oPopIncomingResponseQueue]
  | .IM, .l1GETS | .IMA, .l1GETS | .MI, .l1GETS => some .stall
  -- S
  | .S, .l1GETS => some <| .go .SS readActions
  | .S, .l1Write | .SS, .l1Write => some .stall
  | .E, .l1Write => some <| .go .S writeActions
  | .S, .l1UpgradeT => some <| .go .S writeActions
  | .S, .l1UpgradeNT | .SS, .l1UpgradeNT => some .stall
  | .S, .l2Atomic | .SS, .l2Atomic => some .stall
  | .S, .l2ReplacementClean | .SS, .l2ReplacementClean => some <| .go .MI [irAllocateTBE,
      itInsertL2ExpireTriggerQueue, rrDeallocateL2CacheBlock]
  | .S, .l2Replacement | .SS, .l2Replacement => some <| .go .MI [irAllocateTBE,
      itInsertL2ExpireTriggerQueue, cExclusiveReplacement, rrDeallocateL2CacheBlock]
  -- SS
  | .SS, .l1GETS => some <| .go .SS readActions
  | .SS, .l1UpgradeT => some .stall
  -- E
  | .E, .l1GETS => some <| .go .S readActions
  | .E, .l1UpgradeNT => some <| .go .S writeActions
  | .E, .l2Atomic => some <| .go .S [dMarkBlockDirty, tiIncrementL2BlockTime,
      dsSendAtomicDataGlobalToRequestor, mrWriteDataToCacheFromRequest, jjPopL1RequestQueue]
  | .E, .l2ReplacementClean => some <| .go .NP [rrDeallocateL2CacheBlock]
  | .E, .l2Replacement => some <| .go .NP [cExclusiveReplacement, rrDeallocateL2CacheBlock]
  -- MI
  | .MI, .l2Expire => some <| .go .NP [sDeallocateTBE, oPopL2ExpireTriggerQueue]
  | .IS, .l1Write | .IM, .l1Write | .IMA, .l1Write | .MI, .l1Write
  | .IS, .l1UpgradeNT | .IM, .l1UpgradeNT | .IMA, .l1UpgradeNT | .MI, .l1UpgradeNT
  | .IS, .l2Atomic | .IM, .l2Atomic | .IMA, .l2Atomic | .MI, .l2Atomic => some .stall
  | _, _ => none

/-- The transition table of `cachelease2oo-L2cache.sm`: where cachelease2 stalls a write to an
unexpired block, the write is recycled. -/
def transitionsOo (recycleLatency : Nat) :
    L2State → L2Event → Option (Transition L2State (Block ι))
  | .S, .l1Write => some <| .go .S [zzRecycleL1RequestQueue recycleLatency]
  | .SS, .l1Write => some <| .go .SS [zzRecycleL1RequestQueue recycleLatency]
  | .S, .l1UpgradeNT => some <| .go .S [zzRecycleL1RequestQueue recycleLatency]
  | .SS, .l1UpgradeNT => some <| .go .SS [zzRecycleL1RequestQueue recycleLatency]
  | .S, .l2Atomic => some <| .go .S [zzRecycleL1RequestQueue recycleLatency]
  | .SS, .l2Atomic => some <| .go .SS [zzRecycleL1RequestQueue recycleLatency]
  | .SS, .l1UpgradeT => some <| .go .SS [zzRecycleL1RequestQueue recycleLatency]
  | state, event => transitions state event

/-- The transition table of `cachelease2uo-L2cache.sm`. -/
def transitionsUo : L2State → L2Event → Option (Transition L2State (Block ι))
  -- Idle
  | .NP, .l1GETS => some <| .go .IS [qqAllocateL2CacheBlock, iAllocateTBE, ssRecordGetSL1ID,
      aIssueFetchToMemory, jjPopL1RequestQueue]
  | .NP, .l1Write | .NP, .l1UpgradeNT => some <| .go .IM [qqAllocateL2CacheBlock, dMarkBlockDirty,
      ilAllocateTBE, xxRecordGetXL1ID, aIssueFetchToMemoryForStore, jjPopL1RequestQueue]
  | .NP, .l2Atomic => some <| .go .IMA [qqAllocateL2CacheBlock, dMarkBlockDirty,
      ilAllocateTBE, xxRecordGetXL1ID, aIssueFetchToMemoryForStore, jjPopL1RequestQueue]
  | .IS, .l2Replacement | .IM, .l2Replacement | .IMA, .l2Replacement
  | .IS, .l2ReplacementClean | .IM, .l2ReplacementClean | .IMA, .l2ReplacementClean => some .stall
  -- IS
  | .IS, .l1GETS => some <| .go .IS [ssRecordGetSL1ID, jjPopL1RequestQueue]
  | .IS, .memData => some <| .go .S [mWriteDataToCache, ttUpdateL2BlockTimeFromTBE,
      dstSendDataToGetSRequestors, sDeallocateTBE, oPopIncomingResponseQueue]
  -- IM, IMA
  | .IM, .memData => some <| .go .E [mWriteDataToCache, tnExpireL2BlockTime,
      mtWriteDataToCacheFromTBE, watSendAckToRequestorFromTBE, sDeallocateTBE,
      oPopIncomingResponseQueue]
  | .IMA, .memData => some <| .go .E [mWriteDataToCache, tnExpireL2BlockTime,
      mtWriteDataToCacheFromTBE, dstSendAtomicDataToGetSRequestors, sDeallocateTBE,
      oPopIncomingResponseQueue]
  | .IM, .l1GETS | .IMA, .l1GETS => some .stall
  -- S
  | .S, .l1GETS => some <| .go .S readActions
  | .S, .l1Write => some .stall
  | .E, .l1Write => some <| .go .S writeActions
  | .S, .l1UpgradeNT => some .stall
  | .S, .l2Atomic => some .stall
  | .S, .l2ReplacementClean => some .stall
  | .S, .l2Replacement => some .stall
  -- E
  | .E, .l1GETS => some <| .go .S readActions
  | .E, .l1UpgradeNT => some <| .go .S writeActions
  | .E, .l2Atomic => some <| .go .S [dMarkBlockDirty, tiIncrementL2BlockTime,
      dsSendAtomicDataGlobalToRequestor, mrWriteDataToCacheFromRequest, jjPopL1RequestQueue]
  | .E, .l2ReplacementClean => some <| .go .NP [rrDeallocateL2CacheBlock]
  | .E, .l2Replacement => some <| .go .NP [cExclusiveReplacement, rrDeallocateL2CacheBlock]
  | .IS, .l1Write | .IM, .l1Write | .IMA, .l1Write
  | .IS, .l1UpgradeNT | .IM, .l1UpgradeNT | .IMA, .l1UpgradeNT
  | .IS, .l2Atomic | .IM, .l2Atomic | .IMA, .l2Atomic => some .stall
  | _, _ => none

end L2

end GpgpuSimRuby.Ruby.Cachelease2
