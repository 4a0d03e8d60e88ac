import GpgpuSimRuby.Ruby.Basic

/-!
# VI_wt: messages and the L1 controller

`VI_wt-msg.sm` and `VI_wt-L1cache.sm`, for one block, together with the three protocols that share
them. A copy in an L1 is valid until the L2 invalidates it; a write goes through to the L2, in `S_M`
if the L1 keeps its copy and in `I_I` if not.

* VI_wt and VI_wt_b (broadcast) have the same L1.
* VI_wt_ni (separate directory and data) profiles a private eviction before it drops a copy.
* VI_wt_ee (explicit evictions) tells the L2 when it drops one.

The controller works on `L1Ctx`: its cache entry and transaction buffer entry (TBE) for the block,
the message at the head of the three queues it reads, the messages it enqueues, and the one read the
MSHR of the GPU side has outstanding for the block. Each action is the source's action of that name.

Left out: the instruction cache, which the GPU side never asks, the `DataBlk` that Ruby copies along
without ever looking at it, sizes and bandwidth counters, the access mode, prefetch bits and access
permissions.
-/

namespace GpgpuSimRuby.Ruby.ViWt

open Library

/-! ## Messages -/

inductive CoherenceRequestType where
  | GETS | DATA | DATA_ATOMIC | MEMORY_DATA | INV | RECALL | L1_EVIC_INV
  deriving DecidableEq, Repr

inductive CoherenceResponseType where
  | MEMORY_ACK | DATA | DATA_ATOMIC | MEMORY_DATA | WB_ACK | INV_ACK | RECALL_ACK
  deriving DecidableEq, Repr

/-- A `RequestMsg` of an L1 to the L2. -/
structure RequestMsg (ι : Type) where
  type : CoherenceRequestType
  requestor : ι
  dirty : Bool := false
  space : MemorySpaceType := .NULL
  memfetch : Option (MemFetch ι) := none
  deriving DecidableEq, Repr

/-- A `RequestMsg` of the L2 to its L1s, an invalidation. -/
structure InvMsg (ι : Type) where
  type : CoherenceRequestType
  destination : Finset ι
  deriving DecidableEq

/-- A `ResponseMsg` of the L2 to its L1s. -/
structure ResponseMsg (ι : Type) where
  type : CoherenceResponseType
  destination : Finset ι
  memfetch : Option (MemFetch ι) := none
  mfset : List (ι × MemFetch ι) := []
  deriving DecidableEq

/-- A `ResponseMsg` of an L1 to the L2, an acknowledgement. -/
structure AckMsg (ι : Type) where
  type : CoherenceResponseType
  sender : ι
  ackCount : Int := 0
  deriving DecidableEq, Repr

/-! ## The L1 controller -/

inductive L1State where
  | I | S | I_S | S_M | I_I
  deriving DecidableEq, Repr

inductive L1Event where
  | load | l1WThru | l1Atomic | l1Replacement
  | inv | data | dataDone | wbOrAtomic | wbOrAtomicDone
  deriving DecidableEq, Repr

structure L1Entry where
  cacheState : L1State := .I
  deriving DecidableEq, Repr

structure L1TBE where
  tbeState : L1State := .I
  space : MemorySpaceType := .NULL
  pendingReads : Int := 0
  pendingWrites : Int := 0
  deriving DecidableEq, Repr

/-- The L1's share of a block: its cache entry and TBE, and the read its MSHR waits for. -/
structure L1Line where
  entry : Option L1Entry := none
  tbe : Option L1TBE := none
  readPending : Bool := false
  deriving DecidableEq

/-- What one L1 controller sees of the block while it handles a message. -/
structure L1Ctx (ι : Type) where
  machineID : ι
  entry : Option L1Entry
  tbe : Option L1TBE
  mandatoryQueue : Option (CacheMsg ι) := none
  responseToL1Cache : Option (ResponseMsg ι) := none
  requestToL1Cache : Option (InvMsg ι) := none
  requestFromL1Cache : List (RequestMsg ι) := []
  unblockFromL1Cache : List (AckMsg ι) := []
  readPending : Bool
  /-- `get_true_sharers`: the L1s with a tag for the block. -/
  trueSharers : Finset ι := ∅

namespace L1

variable {ι : Type} [DecidableEq ι]

/-! ### Helper functions of the controller -/

def getState (c : L1Ctx ι) : L1State :=
  match c.tbe, c.entry with
  | some t, _ => t.tbeState
  | none, some e => e.cacheState
  | none, none => .I

def setState (s : L1State) (c : L1Ctx ι) : L1Ctx ι :=
  { c with
    tbe := c.tbe.map fun t => { t with tbeState := s }
    entry := c.entry.map fun e => { e with cacheState := s } }

/-- `mandatory_request_type_to_event`. -/
def mandatoryRequestTypeToEvent : CacheRequestType → Except Fault L1Event
  | .LD => .ok .load
  | .ST => .ok .l1WThru
  | .ATOMIC => .ok .l1Atomic
  | .MEM_FENCE => .error (.error "Invalid CacheRequestType")

/-- `peek(mandatoryQueue_in, CacheMsg)`. -/
def peekMandatory (c : L1Ctx ι) (k : CacheMsg ι → Except Fault (L1Ctx ι)) : Except Fault (L1Ctx ι) :=
  match c.mandatoryQueue with
  | some inMsg => k inMsg
  | none => .error .assertion

/-- `peek(responseIntraChipL1Network_in, ResponseMsg)`. -/
def peekResponse (c : L1Ctx ι) (k : ResponseMsg ι → Except Fault (L1Ctx ι)) :
    Except Fault (L1Ctx ι) :=
  match c.responseToL1Cache with
  | some inMsg => k inMsg
  | none => .error .assertion

/-- `peek(requestIntraChipL1Network_in, RequestMsg)`. -/
def peekInv (c : L1Ctx ι) (k : InvMsg ι → Except Fault (L1Ctx ι)) : Except Fault (L1Ctx ι) :=
  match c.requestToL1Cache with
  | some inMsg => k inMsg
  | none => .error .assertion

/-- `L1_TBEs[address]`, read and written in place; the lookup asserts that the TBE is there. -/
def updateTBE (f : L1TBE → L1TBE) (c : L1Ctx ι) : Except Fault (L1Ctx ι) :=
  match c.tbe with
  | some t => .ok { c with tbe := some (f t) }
  | none => .error .assertion

/-! ### Actions -/

def aIssueGETS : Action (L1Ctx ι) := fun c =>
  peekMandatory c fun inMsg =>
    .ok { c with requestFromL1Cache := c.requestFromL1Cache ++
      [{ type := .GETS, requestor := c.machineID, space := inMsg.space,
         memfetch := some inMsg.memfetch }] }

/-- Send data of the given request type to the L2. -/
def sendToL2 (type : CoherenceRequestType) : Action (L1Ctx ι) := fun c =>
  peekMandatory c fun inMsg =>
    .ok { c with requestFromL1Cache := c.requestFromL1Cache ++
      [{ type := type, requestor := c.machineID, dirty := true, space := inMsg.space,
         memfetch := some inMsg.memfetch }] }

def fSendDataToL2 : Action (L1Ctx ι) := sendToL2 .DATA

def fSendAtomicDataToL2 : Action (L1Ctx ι) := sendToL2 .DATA_ATOMIC

/-- Notify the sequencer that the load completed: the MSHR's read is answered. -/
def hLoadHit : Action (L1Ctx ι) := fun c => .ok { c with readPending := false }

/-- Notify the sequencer that the store completed. -/
def hhStoreHit : Action (L1Ctx ι) := fun c => peekResponse c fun _ => .ok c

def iAllocateTBE : Action (L1Ctx ι) := fun c =>
  peekMandatory c fun inMsg =>
    match c.tbe with
    | some _ => .error .assertion
    | none => .ok { c with tbe := some { space := inMsg.space } }

def prIncPendingRead : Action (L1Ctx ι) :=
  updateTBE fun t => { t with pendingReads := t.pendingReads + 1 }

def pwIncPendingWrite : Action (L1Ctx ι) :=
  updateTBE fun t => { t with pendingWrites := t.pendingWrites + 1 }

def prDecPendingRead : Action (L1Ctx ι) := fun c =>
  match c.tbe with
  | some t => require (0 ≤ t.pendingReads - 1)
      { c with tbe := some { t with pendingReads := t.pendingReads - 1 } }
  | none => .error .assertion

def pwDecPendingWrite : Action (L1Ctx ι) := fun c =>
  match c.tbe with
  | some t => require (0 ≤ t.pendingWrites - 1)
      { c with tbe := some { t with pendingWrites := t.pendingWrites - 1 } }
  | none => .error .assertion

def kPopMandatoryQueue : Action (L1Ctx ι) := fun c => .ok { c with mandatoryQueue := none }

def oPopIncomingResponseQueue : Action (L1Ctx ι) := fun c =>
  peekResponse c fun inMsg =>
    match inMsg.type with
    | .DATA | .WB_ACK | .DATA_ATOMIC => .ok { c with responseToL1Cache := none }
    | _ => .error (.error "Invalid L1 response type")

def ouPopIncomingRequestQueue : Action (L1Ctx ι) := fun c =>
  peekInv c fun inMsg =>
    match inMsg.type with
    | .INV | .RECALL => .ok { c with requestToL1Cache := none }
    | _ => .error (.error "Invalid request received")

def sDeallocateTBE : Action (L1Ctx ι) := fun c =>
  match c.tbe with
  | some t => require (t.pendingReads = 0 ∧ t.pendingWrites = 0) { c with tbe := none }
  | none => .error .assertion

/-- Write data to the cache: the entry has to be there. -/
def uWriteDataToL1Cache : Action (L1Ctx ι) := fun c =>
  peekResponse c fun _ =>
    match c.entry with
    | some _ => .ok c
    | none => .error (.error "cannot get L1 entry, L1 block not present")

def jSendInvAck : Action (L1Ctx ι) := fun c =>
  peekInv c fun inMsg =>
    match inMsg.type with
    | .INV => .ok { c with unblockFromL1Cache := c.unblockFromL1Cache ++
        [{ type := .INV_ACK, sender := c.machineID, ackCount := 1 }] }
    | .RECALL => .ok { c with unblockFromL1Cache := c.unblockFromL1Cache ++
        [{ type := .RECALL_ACK, sender := c.machineID, ackCount := 1 }] }
    | _ => .error (.error "Invalid request received")

/-- Send an invalidation to the L2 due to an eviction; VI_wt_ee only. -/
def jeSendL1EvicInv : Action (L1Ctx ι) := fun c =>
  .ok { c with requestFromL1Cache := c.requestFromL1Cache ++
    [{ type := .L1_EVIC_INV, requestor := c.machineID }] }

def ffDeallocateL1CacheBlock : Action (L1Ctx ι) := fun c =>
  match c.entry with
  | some _ => .ok { c with entry := none }
  | none => .error (.error "cannot deallocate, L1 block not present")

def ooAllocateL1DCacheBlock : Action (L1Ctx ι) := fun c =>
  match c.entry with
  | some _ => .ok c
  | none => .ok { c with entry := some {} }

/-- `pM_profileMiss` and `pH_profileHit` differ in what they count; both refuse a message twice. -/
def profile : Action (L1Ctx ι) := fun c =>
  peekMandatory c fun inMsg =>
    require (inMsg.profiled = false)
      { c with mandatoryQueue := some { inMsg with profiled := true } }

def pMProfileMiss : Action (L1Ctx ι) := profile

def pHProfileHit : Action (L1Ctx ι) := profile

/-- Profile whether this is the eviction of truly private data; VI_wt_ni only. The one true sharer
has to be this L1. -/
def pPEProfilePrivateEviction : Action (L1Ctx ι) := fun c =>
  if c.trueSharers.card = 1 then require (c.machineID ∈ c.trueSharers) c else .ok c

/-! ### Transitions -/

/-- The four protocols over `VI_wt-msg.sm`. -/
inductive Protocol where
  | VI_wt | VI_wt_b | VI_wt_ni | VI_wt_ee
  deriving DecidableEq, Repr

/-- The actions of `transition(S, L1_Replacement, I)`, the one in which the protocols differ. -/
def replaceActions : Protocol → List (Action (L1Ctx ι))
  | .VI_wt | .VI_wt_b => [ffDeallocateL1CacheBlock]
  | .VI_wt_ni => [pPEProfilePrivateEviction, ffDeallocateL1CacheBlock]
  | .VI_wt_ee => [jeSendL1EvicInv, ffDeallocateL1CacheBlock]

/-- The transition table of the L1. -/
def transitions (p : Protocol) : L1State → L1Event → Option (Transition L1State (L1Ctx ι))
  -- Idle
  | .I, .load => some <| .go .I_S [ooAllocateL1DCacheBlock, iAllocateTBE, prIncPendingRead,
      aIssueGETS, pMProfileMiss, kPopMandatoryQueue]
  | .I, .l1WThru => some <| .go .I_I [iAllocateTBE, pwIncPendingWrite, fSendDataToL2,
      pMProfileMiss, kPopMandatoryQueue]
  | .I, .l1Atomic => some <| .go .I_I [iAllocateTBE, pwIncPendingWrite, fSendAtomicDataToL2,
      pMProfileMiss, kPopMandatoryQueue]
  | .I, .inv => some <| .go .I [jSendInvAck, ouPopIncomingRequestQueue]
  -- Shared
  | .S, .load => some <| .go .S [hLoadHit, pHProfileHit, kPopMandatoryQueue]
  | .S, .l1WThru => some <| .go .S_M [iAllocateTBE, pwIncPendingWrite, fSendDataToL2, pHProfileHit,
      kPopMandatoryQueue]
  | .S, .l1Atomic => some <| .go .I_I [iAllocateTBE, pwIncPendingWrite, fSendAtomicDataToL2,
      pHProfileHit, kPopMandatoryQueue]
  | .S, .inv => some <| .go .I [jSendInvAck, ouPopIncomingRequestQueue]
  | .I, .l1Replacement => some <| .go .I [ffDeallocateL1CacheBlock]
  | .I_I, .l1Replacement => some <| .go .I_I [ffDeallocateL1CacheBlock]
  | .S, .l1Replacement => some <| .go .I (replaceActions p)
  -- Pending requests
  | .I_S, .l1WThru => some <| .go .I_I [pwIncPendingWrite, fSendDataToL2, pHProfileHit,
      kPopMandatoryQueue]
  | .I_S, .l1Atomic | .S_M, .l1Atomic => some <| .go .I_I [pwIncPendingWrite, fSendAtomicDataToL2,
      pHProfileHit, kPopMandatoryQueue]
  | .I_S, .inv | .S_M, .inv => some <| .go .I_I [jSendInvAck, ouPopIncomingRequestQueue]
  | .S_M, .l1Replacement | .I_S, .l1Replacement => some .stall
  | .I_S, .dataDone => some <| .go .S [prDecPendingRead, uWriteDataToL1Cache, hLoadHit,
      sDeallocateTBE, oPopIncomingResponseQueue]
  | .S_M, .load => some <| .go .S_M [prIncPendingRead, aIssueGETS, pMProfileMiss,
      kPopMandatoryQueue]
  | .I_I, .load => some <| .go .I_I [prIncPendingRead, aIssueGETS, pMProfileMiss,
      kPopMandatoryQueue]
  | .S_M, .l1WThru => some <| .go .S_M [pwIncPendingWrite, fSendDataToL2, pHProfileHit,
      kPopMandatoryQueue]
  | .I_I, .l1WThru => some <| .go .I_I [pwIncPendingWrite, fSendDataToL2, pHProfileHit,
      kPopMandatoryQueue]
  | .S_M, .wbOrAtomicDone => some <| .go .S [pwDecPendingWrite, hhStoreHit, sDeallocateTBE,
      oPopIncomingResponseQueue]
  | .S_M, .dataDone => some <| .go .S [prDecPendingRead, hLoadHit, sDeallocateTBE,
      oPopIncomingResponseQueue]
  | .S_M, .data => some <| .go .S_M [prDecPendingRead, hLoadHit, oPopIncomingResponseQueue]
  | .I_I, .data => some <| .go .I_I [prDecPendingRead, hLoadHit, oPopIncomingResponseQueue]
  | .S_M, .wbOrAtomic => some <| .go .S_M [pwDecPendingWrite, hhStoreHit,
      oPopIncomingResponseQueue]
  | .I_I, .wbOrAtomic => some <| .go .I_I [pwDecPendingWrite, hhStoreHit,
      oPopIncomingResponseQueue]
  | .I_I, .l1Atomic => some <| .go .I_I [pwIncPendingWrite, fSendAtomicDataToL2, pHProfileHit,
      kPopMandatoryQueue]
  | .I_I, .dataDone => some <| .go .I [prDecPendingRead, hLoadHit, sDeallocateTBE,
      oPopIncomingResponseQueue]
  | .I_I, .wbOrAtomicDone => some <| .go .I [pwDecPendingWrite, hhStoreHit, sDeallocateTBE,
      oPopIncomingResponseQueue]
  | .I_I, .inv => some <| .go .I_I [jSendInvAck, ouPopIncomingRequestQueue]
  | _, _ => none

def controller (p : Protocol) : Controller L1State L1Event (L1Ctx ι) where
  getState := getState
  setState := setState
  transitions := transitions p

/-! ### In ports -/

/-- `in_port(responseIntraChipL1Network_in, …)`: the event of a response, from the counters of the
TBE. -/
def responseEvent (c : L1Ctx ι) (inMsg : ResponseMsg ι) : Except Fault L1Event :=
  if c.machineID ∉ inMsg.destination then .error .assertion
  else match inMsg.type, c.tbe with
  | .DATA, some t =>
    if t.pendingReads ≠ 1 then .error .assertion
    else if 0 < t.pendingWrites then .ok .data else .ok .dataDone
  | .DATA_ATOMIC, some t | .WB_ACK, some t =>
    if ¬ 0 < t.pendingWrites then .error .assertion
    else if 0 < t.pendingReads ∨ 1 < t.pendingWrites then .ok .wbOrAtomic else .ok .wbOrAtomicDone
  | .DATA, none | .DATA_ATOMIC, none | .WB_ACK, none => .error .assertion
  | _, _ => .error (.error "Invalid L1 response type")

/-- The response port: find the event of the message and trigger it. -/
def receive (p : Protocol) (inMsg : ResponseMsg ι) : Action (L1Ctx ι) := fun c =>
  match responseEvent c inMsg with
  | .ok event => (controller p).doTransition event { c with responseToL1Cache := some inMsg }
  | .error e => .error e

/-- The request port, `in_port(requestIntraChipL1Network_in, …)`. -/
def invalidate (p : Protocol) (inMsg : InvMsg ι) : Action (L1Ctx ι) := fun c =>
  if c.machineID ∉ inMsg.destination then .error .assertion
  else match inMsg.type with
  | .INV | .RECALL => (controller p).doTransition .inv { c with requestToL1Cache := some inMsg }
  | _ => .error (.error "Invalid requestToL1 type")

/-- The mandatory port, once there is room for the block: trigger the event of the request. A read
is outstanding at the MSHR from here until `hLoadHit` answers it. -/
def request (p : Protocol) (inMsg : CacheMsg ι) : Action (L1Ctx ι) := fun c =>
  match mandatoryRequestTypeToEvent inMsg.type with
  | .ok event => (controller p).doTransition event
      { c with mandatoryQueue := some inMsg
               readPending := if inMsg.type = .LD then true else c.readPending }
  | .error e => .error e

end L1

end GpgpuSimRuby.Ruby.ViWt
