import GpgpuSimRuby.Ruby.Basic

/-!
# cachelease3: messages and the L1 controller

`cachelease3-msg.sm` and `cachelease3-L1cache.sm`, for one block. TC-Weak performs a write at the L2
at once, although other L1s may still read older copies. The acknowledgement says until when: a
*global* one carries the time (`GWCT`) at which the last of these leases is over, the L1 notes it
for the warp, and a fence of the warp waits for it.

The controller works on `L1Ctx`: its cache entry and transaction buffer entry (TBE) for the block,
the message at the head of each queue it reads, the messages it enqueues, the completion times of
the warps (`GlobalWriteVector`), and the one read the MSHR of the GPU side has outstanding for the
block. Each action is the source's action of that name.

Two fields record history and are read by no action: `ResponseMsg.performed`, what the block
contained at the L2 when the response was sent, and `L1Entry.own`, the stores of this L1 that have
hit the copy and that its core sees in it from then on.

Left out: sizes and bandwidth counters, the access mode, prefetch bits and access permissions, which
no transition looks at, and `ExpiredInL1`, which only tunes a predictor. What the predictors answer
is up to the environment: a load asks for any lease.
-/

namespace GpgpuSimRuby.Ruby.Cachelease3

open Library

/-! ## Messages -/

inductive CoherenceRequestType where
  | GETS | GET_INSTR | DATA_UPGRADE | DATA | DATA_ATOMIC | MEMORY_DATA
  deriving DecidableEq, Repr

inductive CoherenceResponseType where
  | MEMORY_ACK | DATA | DATA_ATOMIC | DATA_GLOBAL | ACK | ACK_GLOBAL | MEMORY_DATA
  deriving DecidableEq, Repr

structure RequestMsg (ι : Type) where
  type : CoherenceRequestType
  requestor : ι
  dirty : Bool := false
  space : MemorySpaceType
  deltaRequested : Nat := 0
  liveUntilTime : Nat := 0
  memfetch : MemFetch ι
  deriving DecidableEq, Repr

structure ResponseMsg (ι : Type) where
  type : CoherenceResponseType
  destination : Finset ι
  dataBlk : DataBlock ι := []
  liveUntilTime : Nat := 0
  gwct : Nat := 0
  memfetch : Option (MemFetch ι) := none
  mfset : List (ι × MemFetch ι) := []
  /-- History: the stores the L2 has performed when it sends the response. -/
  performed : DataBlock ι := []
  deriving DecidableEq

inductive TriggerType where
  | FENCE
  deriving DecidableEq, Repr

structure FenceTriggerMsg where
  type : TriggerType
  threadID : Nat
  fenceCompleteTime : Nat
  deriving DecidableEq, Repr

/-! ## The L1 controller -/

inductive L1State where
  | I | S | I_S | I_I | SM
  deriving DecidableEq, Repr

inductive L1Event where
  | load | l1WThru | l1Atomic | fence | fenceAck | l1Replacement | l1ResetT
  | data | dataDone | dataG | dataGDone | ack | ackDone | ackG | ackGDone
  | dataAtomic | dataAtomicDone
  deriving DecidableEq, Repr

structure L1Entry (ι : Type) where
  cacheState : L1State := .I
  dataBlk : DataBlock ι := []
  liveUntilTime : Nat := 0
  /-- History: the stores of this L1 that have hit the copy since it was filled. -/
  own : List (MemFetch ι) := []
  deriving DecidableEq, Repr

structure L1TBE where
  tbeState : L1State := .I
  space : MemorySpaceType := .NULL
  threadID : Nat := 0
  liveUntilTime : Nat := 0
  pendingReads : Int := 0
  pendingWrites : Int := 0
  deriving DecidableEq, Repr

/-- What one L1 controller sees of a block while it handles a message. -/
structure L1Ctx (ι : Type) where
  now : Nat
  machineID : ι
  entry : Option (L1Entry ι) := none
  tbe : Option L1TBE := none
  mandatoryQueue : Option (CacheMsg ι) := none
  responseToL1Cache : Option (ResponseMsg ι) := none
  /-- The message at the head of `FenceTriggerQueue`. -/
  fenceTrigger : Option FenceTriggerMsg := none
  /-- Is there a message at the head of `idealInvQueue`? -/
  idealInv : Bool := false
  globalWrites : Nat → Nat
  requestFromL1Cache : List (RequestMsg ι) := []
  fenceTriggerOut : List FenceTriggerMsg := []
  readPending : Bool := false
  /-- The stores and atomics `sequencer.writeCallback` reports as done. -/
  writeCallback : List (MemFetch ι) := []
  /-- The warps whose fence `sequencer.memfenceCallback` reports as done. -/
  memfenceCallback : List Nat := []

namespace L1

variable {ι : Type} [DecidableEq ι]

/-! ### Helper functions of the controller -/

/-- `isLive`; the source's `error` for a block that is neither in the TBEs nor in the cache is out
of reach of its callers and answers `false` here. -/
def isLive (c : L1Ctx ι) : Bool :=
  match c.tbe, c.entry with
  | some t, _ => c.now ≤ t.liveUntilTime
  | none, some e => c.now ≤ e.liveUntilTime
  | none, none => false

def setLifetime (lifetime : Nat) (c : L1Ctx ι) : Except Fault (L1Ctx ι) :=
  match c.tbe, c.entry with
  | some t, _ => .ok { c with tbe := some { t with liveUntilTime := lifetime } }
  | none, some e => .ok { c with entry := some { e with liveUntilTime := lifetime } }
  | none, none => .error (.error "Invalid address passed to setLifetime() in L1")

def getState (c : L1Ctx ι) : L1State :=
  match c.tbe, c.entry with
  | some t, _ => if t.tbeState = .SM ∧ isLive c = false then .I_I else t.tbeState
  | none, some e => if isLive c = false then .I else e.cacheState
  | none, none => .I

def setState (s : L1State) (c : L1Ctx ι) : L1Ctx ι :=
  { c with
    tbe := c.tbe.map fun t => { t with tbeState := s }
    entry := c.entry.map fun e => { e with cacheState := s } }

/-- `mandatory_request_type_to_event`. -/
def mandatoryRequestTypeToEvent : CacheRequestType → L1Event
  | .LD => .load
  | .ST => .l1WThru
  | .ATOMIC => .l1Atomic
  | .MEM_FENCE => .fence

/-- `peek(mandatoryQueue_in, CacheMsg)`. -/
def peekMandatory (c : L1Ctx ι) (k : CacheMsg ι → Except Fault (L1Ctx ι)) : Except Fault (L1Ctx ι) :=
  match c.mandatoryQueue with
  | some inMsg => k inMsg
  | none => .error .assertion

/-- `peek(responseIntraChipL1Network_in, ResponseMsg)`. -/
def peekResponse (c : L1Ctx ι) (k : ResponseMsg ι → Except Fault (L1Ctx ι)) :
    Except Fault (L1Ctx ι) :=
  match c.responseToL1Cache with
  | some inMsg => k inMsg
  | none => .error .assertion

/-- `peek(FenceTriggerQueue_in, FenceTriggerMsg)`. -/
def peekFence (c : L1Ctx ι) (k : FenceTriggerMsg → Except Fault (L1Ctx ι)) :
    Except Fault (L1Ctx ι) :=
  match c.fenceTrigger with
  | some inMsg => k inMsg
  | none => .error .assertion

/-- `L1_TBEs[address]`, read and written in place; the lookup asserts that the TBE is there. -/
def updateTBE (f : L1TBE → L1TBE) (c : L1Ctx ι) : Except Fault (L1Ctx ι) :=
  match c.tbe with
  | some t => .ok { c with tbe := some (f t) }
  | none => .error .assertion

/-- `getL1CacheEntry(address)`, written in place. -/
def updateEntry (f : L1Entry ι → L1Entry ι) (c : L1Ctx ι) : Except Fault (L1Ctx ι) :=
  match c.entry with
  | some e => .ok { c with entry := some (f e) }
  | none => .error (.error "cannot get L1 entry, L1 block not present")

/-! ### Actions -/

/-- Issue GETS; `delta` is the answer of `getDelta_Access`. -/
def aIssueGETS (delta : Nat) : Action (L1Ctx ι) := fun c =>
  peekMandatory c fun inMsg =>
    .ok { c with requestFromL1Cache := c.requestFromL1Cache ++
      [{ type := .GETS, requestor := c.machineID, space := inMsg.space,
         deltaRequested := delta, memfetch := inMsg.memfetch }] }

/-- Send upgrade to the L2 cache, with the block's lifetime for matching at L2. The store has hit the
copy, which is what the history of the entry notes. -/
def uSendUpgradeToL2 : Action (L1Ctx ι) := fun c =>
  peekMandatory c fun inMsg =>
    match c.tbe with
    | some t =>
      .ok { c with
        requestFromL1Cache := c.requestFromL1Cache ++
          [{ type := .DATA_UPGRADE, requestor := c.machineID, space := inMsg.space, dirty := true,
             liveUntilTime := t.liveUntilTime, memfetch := inMsg.memfetch }]
        entry := c.entry.map fun e => { e with own := inMsg.memfetch :: e.own } }
    | none => .error .assertion

/-- Send data of the given request type to the L2; there is no time to send on a write miss. -/
def sendFromTBE (type : CoherenceRequestType) : Action (L1Ctx ι) := fun c =>
  peekMandatory c fun inMsg =>
    match c.tbe with
    | some _ =>
      .ok { c with requestFromL1Cache := c.requestFromL1Cache ++
        [{ type := type, requestor := c.machineID, space := inMsg.space, dirty := true,
           memfetch := inMsg.memfetch }] }
    | none => .error .assertion

def d2tSendDataToL2FromTBE : Action (L1Ctx ι) := sendFromTBE .DATA

def d2tSendAtomicDataToL2FromTBE : Action (L1Ctx ι) := sendFromTBE .DATA_ATOMIC

/-- Insert the fence completion into the trigger queue: the completion time of the warp's writes, or
the next cycle if that is later. -/
def itInsertFenceTriggerQueue : Action (L1Ctx ι) := fun c =>
  peekMandatory c fun inMsg =>
    let fenceCompleteTime := max (c.globalWrites inMsg.threadID) (c.now + 1)
    require (inMsg.type = .MEM_FENCE ∧ c.now < fenceCompleteTime)
      { c with fenceTriggerOut := c.fenceTriggerOut ++
        [{ type := .FENCE, threadID := inMsg.threadID, fenceCompleteTime := fenceCompleteTime }] }

def otPopTriggerQueue : Action (L1Ctx ι) := fun c => .ok { c with fenceTrigger := none }

/-- Notify the sequencer that the load completed: the MSHR's read is answered. -/
def hLoadHit : Action (L1Ctx ι) := fun c => .ok { c with readPending := false }

/-- Notify the sequencer that the store completed. -/
def hhStoreHit : Action (L1Ctx ι) := fun c =>
  peekResponse c fun inMsg =>
    .ok { c with writeCallback := c.writeCallback ++ inMsg.memfetch.toList }

/-- Notify the sequencer that the memory fence completed. -/
def hfFenceHit : Action (L1Ctx ι) := fun c =>
  peekFence c fun inMsg =>
    .ok { c with memfenceCallback := c.memfenceCallback ++ [inMsg.threadID] }

def iAllocateTBE : Action (L1Ctx ι) := fun c =>
  peekMandatory c fun inMsg =>
    match c.tbe with
    | some _ => .error .assertion
    | none => .ok { c with tbe := some { space := inMsg.space, threadID := inMsg.threadID } }

/-- Allocate TBE with the lifetime from the cache. -/
def iAllocateTBEwTime : Action (L1Ctx ι) := fun c =>
  peekMandatory c fun inMsg =>
    match c.tbe, c.entry with
    | none, some e =>
      .ok { c with tbe := some { space := inMsg.space, threadID := inMsg.threadID,
                                 liveUntilTime := e.liveUntilTime } }
    | _, _ => .error .assertion

def ktPopIdealInvQueue : Action (L1Ctx ι) := fun c => .ok { c with idealInv := false }

def kPopMandatoryQueue : Action (L1Ctx ι) := fun c => .ok { c with mandatoryQueue := none }

def oPopIncomingResponseQueue : Action (L1Ctx ι) := fun c =>
  peekResponse c fun inMsg =>
    match inMsg.type with
    | .DATA | .DATA_GLOBAL | .ACK | .ACK_GLOBAL | .DATA_ATOMIC =>
      .ok { c with responseToL1Cache := none }
    | _ => .error (.error "Invalid L1 response type")

def sDeallocateTBE : Action (L1Ctx ι) := fun c =>
  match c.tbe with
  | some t => require (t.pendingReads = 0 ∧ t.pendingWrites = 0) { c with tbe := none }
  | none => .error .assertion

/-- Update the block's lifetime from the response. -/
def tUpdateL1Lifetime : Action (L1Ctx ι) := fun c =>
  peekResponse c fun inMsg =>
    updateEntry (fun e => { e with liveUntilTime := inMsg.liveUntilTime }) c

/-- `globalWrites.set`: the time of the response replaces whatever is there, under the warp that
allocated the TBE. -/
def gtUpdateGlobalCompletiontime : Action (L1Ctx ι) := fun c =>
  peekResponse c fun inMsg =>
    match c.tbe with
    | some t => .ok { c with globalWrites := Function.update c.globalWrites t.threadID inMsg.gwct }
    | none => .error .assertion

/-- Write data to the cache; a copy filled by a load contains no store of its own yet. -/
def ddWriteDataToL1Cache : Action (L1Ctx ι) := fun c =>
  peekResponse c fun inMsg =>
    updateEntry (fun e => { e with dataBlk := inMsg.dataBlk
                                   own := if inMsg.type = .DATA then [] else e.own }) c

def ffDeallocateL1CacheBlock : Action (L1Ctx ι) := fun c =>
  match c.entry with
  | some _ => .ok { c with entry := none }
  | none => .error (.error "cannot deallocate, L1 block not present")

def ooAllocateL1DCacheBlock : Action (L1Ctx ι) := fun c =>
  match c.entry with
  | some _ => .ok c
  | none => .ok { c with entry := some {} }

/-- `pM_profileMiss` and `pH_profileHit` differ in what they count; both refuse a message twice. -/
def profile : Action (L1Ctx ι) := fun c =>
  peekMandatory c fun inMsg =>
    require (inMsg.profiled = false)
      { c with mandatoryQueue := some { inMsg with profiled := true } }

def pMProfileMiss : Action (L1Ctx ι) := profile

def pHProfileHit : Action (L1Ctx ι) := profile

def prIncPendingRead : Action (L1Ctx ι) :=
  updateTBE fun t => { t with pendingReads := t.pendingReads + 1 }

def pwIncPendingWrite : Action (L1Ctx ι) :=
  updateTBE fun t => { t with pendingWrites := t.pendingWrites + 1 }

def prDecPendingRead : Action (L1Ctx ι) := fun c =>
  match c.tbe with
  | some t => require (0 ≤ t.pendingReads - 1)
      { c with tbe := some { t with pendingReads := t.pendingReads - 1 } }
  | none => .error .assertion

def pwDecPendingWrite : Action (L1Ctx ι) := fun c =>
  match c.tbe with
  | some t => require (0 ≤ t.pendingWrites - 1)
      { c with tbe := some { t with pendingWrites := t.pendingWrites - 1 } }
  | none => .error .assertion

/-- Expire the block by ending its lifetime in the cycle before this one. -/
def orRResetTime : Action (L1Ctx ι) := fun c =>
  if isLive c = false then .error .assertion
  else match setLifetime (c.now - 1) c with
    | .ok d => require (isLive d = false) d
    | .error e => .error e

/-! ### Transitions -/

/-- The transition table of `cachelease3-L1cache.sm`. -/
def transitions (delta : Nat) : L1State → L1Event → Option (Transition L1State (L1Ctx ι))
  -- Idle
  | .I, .load => some <| .go .I_S [pMProfileMiss, ooAllocateL1DCacheBlock, iAllocateTBE,
      prIncPendingRead, aIssueGETS delta, kPopMandatoryQueue]
  | .I, .l1WThru => some <| .go .I_I [pMProfileMiss, iAllocateTBE, pwIncPendingWrite,
      d2tSendDataToL2FromTBE, kPopMandatoryQueue]
  | .I, .l1Atomic => some <| .go .I_I [pMProfileMiss, iAllocateTBE, pwIncPendingWrite,
      d2tSendAtomicDataToL2FromTBE, kPopMandatoryQueue]
  | .I, .fence => some <| .go .I [itInsertFenceTriggerQueue, kPopMandatoryQueue]
  | .I, .fenceAck => some <| .go .I [hfFenceHit, otPopTriggerQueue]
  | .I, .l1Replacement => some <| .go .I [ffDeallocateL1CacheBlock]
  | .I_I, .l1Replacement => some <| .go .I_I [ffDeallocateL1CacheBlock]
  -- Shared
  | .S, .load => some <| .go .S [pHProfileHit, hLoadHit, kPopMandatoryQueue]
  | .S, .l1WThru => some <| .go .SM [pHProfileHit, iAllocateTBEwTime, pwIncPendingWrite,
      uSendUpgradeToL2, kPopMandatoryQueue]
  | .S, .l1Atomic => some <| .go .I_I [pHProfileHit, iAllocateTBEwTime, pwIncPendingWrite,
      d2tSendAtomicDataToL2FromTBE, kPopMandatoryQueue]
  | .S, .l1Replacement => some <| .go .I [ffDeallocateL1CacheBlock]
  -- I_S
  | .I_S, .l1WThru => some <| .go .I_I [pMProfileMiss, pwIncPendingWrite,
      d2tSendDataToL2FromTBE, kPopMandatoryQueue]
  | .I_S, .l1Atomic => some <| .go .I_I [pMProfileMiss, pwIncPendingWrite,
      d2tSendAtomicDataToL2FromTBE, kPopMandatoryQueue]
  | .I_S, .dataDone => some <| .go .S [prDecPendingRead, ddWriteDataToL1Cache,
      tUpdateL1Lifetime, hLoadHit, sDeallocateTBE, oPopIncomingResponseQueue]
  | .I_S, .l1Replacement | .SM, .l1Replacement => some .stall
  -- I_I
  | .I_I, .load => some <| .go .I_I [pMProfileMiss, prIncPendingRead, aIssueGETS delta,
      kPopMandatoryQueue]
  | .I_I, .l1WThru => some <| .go .I_I [pMProfileMiss, pwIncPendingWrite,
      d2tSendDataToL2FromTBE, kPopMandatoryQueue]
  | .I_I, .l1Atomic => some <| .go .I_I [pMProfileMiss, pwIncPendingWrite,
      d2tSendAtomicDataToL2FromTBE, kPopMandatoryQueue]
  | .I_I, .data => some <| .go .I_I [prDecPendingRead, hLoadHit, oPopIncomingResponseQueue]
  | .I_I, .dataDone => some <| .go .I [prDecPendingRead, hLoadHit, sDeallocateTBE,
      oPopIncomingResponseQueue]
  | .I_I, .dataAtomic | .I_I, .ackG | .I_I, .dataG => some <| .go .I_I [pwDecPendingWrite,
      hhStoreHit, gtUpdateGlobalCompletiontime, oPopIncomingResponseQueue]
  | .I_I, .dataAtomicDone | .I_I, .ackGDone | .I_I, .dataGDone => some <| .go .I
      [pwDecPendingWrite, hhStoreHit, gtUpdateGlobalCompletiontime, sDeallocateTBE,
       oPopIncomingResponseQueue]
  | .I_I, .ack => some <| .go .I_I [pwDecPendingWrite, hhStoreHit, oPopIncomingResponseQueue]
  | .I_I, .ackDone => some <| .go .I [pwDecPendingWrite, hhStoreHit, sDeallocateTBE,
      oPopIncomingResponseQueue]
  -- SM
  | .SM, .load => some <| .go .SM [pHProfileHit, hLoadHit, kPopMandatoryQueue]
  | .SM, .l1WThru => some <| .go .SM [pHProfileHit, pwIncPendingWrite, uSendUpgradeToL2,
      kPopMandatoryQueue]
  | .SM, .l1Atomic => some <| .go .I_I [pHProfileHit, pwIncPendingWrite,
      d2tSendAtomicDataToL2FromTBE, kPopMandatoryQueue]
  | .SM, .dataG => some <| .go .SM [pwDecPendingWrite, hhStoreHit, ddWriteDataToL1Cache,
      tUpdateL1Lifetime, gtUpdateGlobalCompletiontime, oPopIncomingResponseQueue]
  | .SM, .dataGDone => some <| .go .S [pwDecPendingWrite, hhStoreHit, ddWriteDataToL1Cache,
      tUpdateL1Lifetime, gtUpdateGlobalCompletiontime, sDeallocateTBE, oPopIncomingResponseQueue]
  | .SM, .ack => some <| .go .SM [pwDecPendingWrite, hhStoreHit, tUpdateL1Lifetime,
      oPopIncomingResponseQueue]
  | .SM, .ackDone => some <| .go .S [pwDecPendingWrite, hhStoreHit, tUpdateL1Lifetime,
      sDeallocateTBE, oPopIncomingResponseQueue]
  | .SM, .ackG => some <| .go .SM [pwDecPendingWrite, hhStoreHit, tUpdateL1Lifetime,
      gtUpdateGlobalCompletiontime, oPopIncomingResponseQueue]
  | .SM, .ackGDone => some <| .go .S [pwDecPendingWrite, hhStoreHit, tUpdateL1Lifetime,
      gtUpdateGlobalCompletiontime, sDeallocateTBE, oPopIncomingResponseQueue]
  -- oracle predictor
  | .I, .l1ResetT => some <| .go .I [ktPopIdealInvQueue]
  | .I_I, .l1ResetT => some <| .go .I_I [ktPopIdealInvQueue]
  | .S, .l1ResetT => some <| .go .S [orRResetTime, ktPopIdealInvQueue]
  | .SM, .l1ResetT => some <| .go .SM [orRResetTime, ktPopIdealInvQueue]
  | .I_S, .l1ResetT => some <| .go .I_I [ktPopIdealInvQueue]
  | _, _ => none

/-- The L1 controller; a load it handles asks for `delta` cycles. -/
def controller (delta : Nat) : Controller L1State L1Event (L1Ctx ι) where
  getState := getState
  setState := setState
  transitions := transitions delta

/-! ### In ports -/

/-- `in_port(responseIntraChipL1Network_in, …)`: the event of a response, from the counters of the
TBE. A write is answered in four ways, which differ in the pair of events only. -/
def responseEvent (c : L1Ctx ι) (inMsg : ResponseMsg ι) : Except Fault L1Event :=
  match c.tbe with
  | none => .error .assertion
  | some t =>
    let onWrite (more done : L1Event) : Except Fault L1Event :=
      if ¬ 0 < t.pendingWrites then .error .assertion
      else if 0 < t.pendingReads ∨ 1 < t.pendingWrites then .ok more else .ok done
    if c.machineID ∉ inMsg.destination then .error .assertion
    else match inMsg.type with
    | .DATA =>
      if t.pendingReads ≠ 1 then .error .assertion
      else if 0 < t.pendingWrites then .ok .data else .ok .dataDone
    | .DATA_GLOBAL => onWrite .dataG .dataGDone
    | .DATA_ATOMIC => onWrite .dataAtomic .dataAtomicDone
    | .ACK => onWrite .ack .ackDone
    | .ACK_GLOBAL => onWrite .ackG .ackGDone
    | _ => .error (.error "Invalid L1 response type")

/-- The response port: find the event of the head message and trigger it. -/
def receive (inMsg : ResponseMsg ι) : Action (L1Ctx ι) := fun c =>
  match responseEvent c inMsg with
  | .ok event => (controller 0).doTransition event { c with responseToL1Cache := some inMsg }
  | .error e => .error e

/-- The mandatory port, once there is room for the block: trigger the event of the request. A read
is outstanding at the MSHR from here until `hLoadHit` answers it. -/
def request (delta : Nat) (inMsg : CacheMsg ι) : Action (L1Ctx ι) := fun c =>
  (controller delta).doTransition (mandatoryRequestTypeToEvent inMsg.type)
    { c with mandatoryQueue := some inMsg
             readPending := if inMsg.type = .LD then true else c.readPending }

/-- `in_port(FenceTriggerQueue_in, …)`: the head message is due. -/
def fenceTrigger (inMsg : FenceTriggerMsg) : Action (L1Ctx ι) := fun c =>
  match inMsg.type with
  | .FENCE =>
    if inMsg.fenceCompleteTime ≤ c.now then
      (controller 0).doTransition .fenceAck { c with fenceTrigger := some inMsg }
    else .error .assertion

/-- `in_port(idealInvQueue_in, …)`. -/
def idealInvalidate : Action (L1Ctx ι) := fun c =>
  (controller 0).doTransition .l1ResetT { c with idealInv := true }

end L1

end GpgpuSimRuby.Ruby.Cachelease3
