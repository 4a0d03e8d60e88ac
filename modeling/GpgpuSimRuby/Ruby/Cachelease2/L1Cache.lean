import GpgpuSimRuby.Ruby.Basic

/-!
# cachelease2: messages and the L1 controller

`cachelease2-msg.sm` and `cachelease2-L1cache.sm`, for one block. The L1 of TC-Strong keeps a copy
as long as its *lease* (`liveUntilTime`) has not run out; nobody ever invalidates it. A write hit in
`S` sends an upgrade and waits in `SM`, every other write goes through `I_I`.

The controller works on `L1Ctx`: its cache entry and transaction buffer entry (TBE) for the block,
the message at the head of the two queues it reads, the requests it enqueues, and the one read the
MSHR of the GPU side has outstanding for the block. Each action is the source's action of that name.

Left out: sizes and bandwidth counters, the access mode, prefetch bits and access permissions,
which no transition looks at.
-/

namespace GpgpuSimRuby.Ruby.Cachelease2

open Library

/-! ## Messages -/

inductive CoherenceRequestType where
  | GETS | GET_INSTR | DATA_UPGRADE | DATA | DATA_ATOMIC | MEMORY_DATA
  deriving DecidableEq, Repr

inductive CoherenceResponseType where
  | MEMORY_ACK | DATA | DATA_ATOMIC | ACK | MEMORY_DATA
  deriving DecidableEq, Repr

structure RequestMsg (ι : Type) where
  type : CoherenceRequestType
  requestor : ι
  dirty : Bool := false
  space : MemorySpaceType
  deltaRequested : Nat := 0
  liveUntilTime : Nat := 0
  memfetch : MemFetch ι
  deriving DecidableEq, Repr

structure ResponseMsg (ι : Type) where
  type : CoherenceResponseType
  destination : Finset ι
  dataBlk : DataBlock ι := []
  liveUntilTime : Nat := 0
  memfetch : Option (MemFetch ι) := none
  mfset : List (ι × MemFetch ι) := []
  deriving DecidableEq

/-! ## The L1 controller -/

inductive L1State where
  | I | S | I_S | I_I | SM
  deriving DecidableEq, Repr

inductive L1Event where
  | load | l1WThru | l1Atomic | l1Replacement
  | data | dataDone | ack | ackDone | dataAtomic | dataAtomicDone
  deriving DecidableEq, Repr

structure L1Entry (ι : Type) where
  cacheState : L1State := .I
  dataBlk : DataBlock ι := []
  liveUntilTime : Nat := 0
  /-- History: the load whose answer filled the entry. -/
  filledFor : Option (MemFetch ι) := none
  deriving DecidableEq, Repr

structure L1TBE where
  tbeState : L1State := .I
  space : MemorySpaceType := .NULL
  threadID : Nat := 0
  liveUntilTime : Nat := 0
  pendingReads : Int := 0
  pendingWrites : Int := 0
  deriving DecidableEq, Repr

/-- What one L1 controller sees of the block while it handles a message. -/
structure L1Ctx (ι : Type) where
  now : Nat
  machineID : ι
  entry : Option (L1Entry ι)
  tbe : Option L1TBE
  mandatoryQueue : Option (CacheMsg ι) := none
  responseToL1Cache : Option (ResponseMsg ι) := none
  requestFromL1Cache : List (RequestMsg ι) := []
  readPending : Bool

namespace L1

variable {ι : Type} [DecidableEq ι]

/-! ### Helper functions of the controller -/

/-- `isLive`; the source's `error` for a block that is neither in the TBEs nor in the cache is out
of reach of its two callers and answers `false` here. -/
def isLive (c : L1Ctx ι) : Bool :=
  match c.tbe, c.entry with
  | some t, _ => c.now ≤ t.liveUntilTime
  | none, some e => c.now ≤ e.liveUntilTime
  | none, none => false

def getState (c : L1Ctx ι) : L1State :=
  match c.tbe, c.entry with
  | some t, _ => if t.tbeState = .SM ∧ isLive c = false then .I_I else t.tbeState
  | none, some e => if isLive c = false then .I else e.cacheState
  | none, none => .I

def setState (s : L1State) (c : L1Ctx ι) : L1Ctx ι :=
  { c with
    tbe := c.tbe.map fun t => { t with tbeState := s }
    entry := c.entry.map fun e => { e with cacheState := s } }

/-- `mandatory_request_type_to_event`. -/
def mandatoryRequestTypeToEvent : CacheRequestType → Except Fault L1Event
  | .LD => .ok .load
  | .ST => .ok .l1WThru
  | .ATOMIC => .ok .l1Atomic
  | .MEM_FENCE => .error (.error "Invalid CacheRequestType")

/-- `peek(mandatoryQueue_in, CacheMsg)`. -/
def peekMandatory (c : L1Ctx ι) (k : CacheMsg ι → Except Fault (L1Ctx ι)) : Except Fault (L1Ctx ι) :=
  match c.mandatoryQueue with
  | some inMsg => k inMsg
  | none => .error .assertion

/-- `peek(responseIntraChipL1Network_in, ResponseMsg)`. -/
def peekResponse (c : L1Ctx ι) (k : ResponseMsg ι → Except Fault (L1Ctx ι)) :
    Except Fault (L1Ctx ι) :=
  match c.responseToL1Cache with
  | some inMsg => k inMsg
  | none => .error .assertion

/-- `L1_TBEs[address]`, read and written in place; the lookup asserts that the TBE is there. -/
def updateTBE (f : L1TBE → L1TBE) (c : L1Ctx ι) : Except Fault (L1Ctx ι) :=
  match c.tbe with
  | some t => .ok { c with tbe := some (f t) }
  | none => .error .assertion

/-- `getL1CacheEntry(address)`, written in place. -/
def updateEntry (f : L1Entry ι → L1Entry ι) (c : L1Ctx ι) : Except Fault (L1Ctx ι) :=
  match c.entry with
  | some e => .ok { c with entry := some (f e) }
  | none => .error (.error "cannot get L1 entry, L1 block not present")

/-! ### Actions -/

/-- Issue GETS; `getDelta_Access` is `get_lease_fixed`. -/
def aIssueGETS (fixedLease : Nat) : Action (L1Ctx ι) := fun c =>
  peekMandatory c fun inMsg =>
    .ok { c with requestFromL1Cache := c.requestFromL1Cache ++
      [{ type := .GETS, requestor := c.machineID, space := inMsg.space,
         deltaRequested := fixedLease, memfetch := inMsg.memfetch }] }

/-- Send upgrade to the L2 cache, with the block's lifetime for matching at L2. -/
def uSendUpgradeToL2 : Action (L1Ctx ι) := fun c =>
  peekMandatory c fun inMsg =>
    match c.tbe with
    | some t =>
      .ok { c with requestFromL1Cache := c.requestFromL1Cache ++
        [{ type := .DATA_UPGRADE, requestor := c.machineID, space := inMsg.space, dirty := true,
           liveUntilTime := t.liveUntilTime, memfetch := inMsg.memfetch }] }
    | none => .error .assertion

/-- Send data of the given request type to the L2; there is no time to send on a write miss. -/
def sendFromTBE (type : CoherenceRequestType) : Action (L1Ctx ι) := fun c =>
  peekMandatory c fun inMsg =>
    match c.tbe with
    | some _ =>
      .ok { c with requestFromL1Cache := c.requestFromL1Cache ++
        [{ type := type, requestor := c.machineID, space := inMsg.space, dirty := true,
           memfetch := inMsg.memfetch }] }
    | none => .error .assertion

def d2tSendDataToL2FromTBE : Action (L1Ctx ι) := sendFromTBE .DATA

def d2tSendAtomicDataToL2FromTBE : Action (L1Ctx ι) := sendFromTBE .DATA_ATOMIC

/-- Notify the sequencer that the load completed: the MSHR's read is answered. -/
def hLoadHit : Action (L1Ctx ι) := fun c => .ok { c with readPending := false }

/-- Notify the sequencer that the store completed. -/
def hhStoreHit : Action (L1Ctx ι) := fun c => peekResponse c fun _ => .ok c

def iAllocateTBE : Action (L1Ctx ι) := fun c =>
  peekMandatory c fun inMsg =>
    match c.tbe with
    | some _ => .error .assertion
    | none => .ok { c with tbe := some { space := inMsg.space, threadID := inMsg.threadID } }

/-- Allocate TBE with the lifetime from the cache. -/
def iAllocateTBEwTime : Action (L1Ctx ι) := fun c =>
  peekMandatory c fun inMsg =>
    match c.tbe, c.entry with
    | none, some e =>
      .ok { c with tbe := some { space := inMsg.space, threadID := inMsg.threadID,
                                 liveUntilTime := e.liveUntilTime } }
    | _, _ => .error .assertion

def kPopMandatoryQueue : Action (L1Ctx ι) := fun c => .ok { c with mandatoryQueue := none }

def oPopIncomingResponseQueue : Action (L1Ctx ι) := fun c =>
  peekResponse c fun inMsg =>
    match inMsg.type with
    | .DATA | .ACK | .DATA_ATOMIC => .ok { c with responseToL1Cache := none }
    | _ => .error (.error "Invalid L1 response type")

def sDeallocateTBE : Action (L1Ctx ι) := fun c =>
  match c.tbe with
  | some t => require (t.pendingReads = 0 ∧ t.pendingWrites = 0) { c with tbe := none }
  | none => .error .assertion

def tUpdateL1Lifetime : Action (L1Ctx ι) := fun c =>
  peekResponse c fun inMsg =>
    updateEntry (fun e => { e with liveUntilTime := inMsg.liveUntilTime }) c

/-- The load of this L1 that a response answers. -/
def answered (inMsg : ResponseMsg ι) (i : ι) : Option (MemFetch ι) :=
  (inMsg.mfset.find? fun p => p.1 = i).map (·.2)

def ddWriteDataToL1Cache : Action (L1Ctx ι) := fun c =>
  peekResponse c fun inMsg =>
    updateEntry (fun e => { e with dataBlk := inMsg.dataBlk
                                   filledFor := answered inMsg c.machineID }) c

def ffDeallocateL1CacheBlock : Action (L1Ctx ι) := fun c =>
  match c.entry with
  | some _ => .ok { c with entry := none }
  | none => .error (.error "cannot deallocate, L1 block not present")

def ooAllocateL1DCacheBlock : Action (L1Ctx ι) := fun c =>
  match c.entry with
  | some _ => .ok c
  | none => .ok { c with entry := some {} }

/-- `pM_profileMiss` and `pH_profileHit` differ in what they count; both refuse a message twice. -/
def profile : Action (L1Ctx ι) := fun c =>
  peekMandatory c fun inMsg =>
    require (inMsg.profiled = false)
      { c with mandatoryQueue := some { inMsg with profiled := true } }

def pMProfileMiss : Action (L1Ctx ι) := profile

def pHProfileHit : Action (L1Ctx ι) := profile

def prIncPendingRead : Action (L1Ctx ι) :=
  updateTBE fun t => { t with pendingReads := t.pendingReads + 1 }

def pwIncPendingWrite : Action (L1Ctx ι) :=
  updateTBE fun t => { t with pendingWrites := t.pendingWrites + 1 }

def prDecPendingRead : Action (L1Ctx ι) := fun c =>
  match c.tbe with
  | some t => require (0 ≤ t.pendingReads - 1)
      { c with tbe := some { t with pendingReads := t.pendingReads - 1 } }
  | none => .error .assertion

def pwDecPendingWrite : Action (L1Ctx ι) := fun c =>
  match c.tbe with
  | some t => require (0 ≤ t.pendingWrites - 1)
      { c with tbe := some { t with pendingWrites := t.pendingWrites - 1 } }
  | none => .error .assertion

/-! ### Transitions -/

/-- The transition table of `cachelease2-L1cache.sm` (and of `cachelease2oo-L1cache.sm`, which has
the same one). `wthruNext` is where a write hit in `S` goes; it is the one place in which
`cachelease2uo-L1cache.sm` differs. -/
def transitionsWith (wthruNext : L1State) (fixedLease : Nat) :
    L1State → L1Event → Option (Transition L1State (L1Ctx ι))
  -- Idle
  | .I, .load => some <| .go .I_S [pMProfileMiss, ooAllocateL1DCacheBlock, iAllocateTBE,
      prIncPendingRead, aIssueGETS fixedLease, kPopMandatoryQueue]
  | .I, .l1WThru => some <| .go .I_I [pMProfileMiss, iAllocateTBE, pwIncPendingWrite,
      d2tSendDataToL2FromTBE, kPopMandatoryQueue]
  | .I, .l1Atomic => some <| .go .I_I [pMProfileMiss, iAllocateTBE, pwIncPendingWrite,
      d2tSendAtomicDataToL2FromTBE, kPopMandatoryQueue]
  | .I, .l1Replacement => some <| .go .I [ffDeallocateL1CacheBlock]
  -- Shared
  | .S, .load => some <| .go .S [pHProfileHit, hLoadHit, kPopMandatoryQueue]
  | .S, .l1WThru => some <| .go wthruNext [pHProfileHit, iAllocateTBEwTime, pwIncPendingWrite,
      uSendUpgradeToL2, kPopMandatoryQueue]
  | .S, .l1Atomic => some <| .go .I_I [pHProfileHit, iAllocateTBEwTime, pwIncPendingWrite,
      d2tSendAtomicDataToL2FromTBE, kPopMandatoryQueue]
  | .S, .l1Replacement => some <| .go .I [ffDeallocateL1CacheBlock]
  -- I_S
  | .I_S, .l1WThru => some <| .go .I_I [pMProfileMiss, pwIncPendingWrite,
      d2tSendDataToL2FromTBE, kPopMandatoryQueue]
  | .I_S, .l1Atomic => some <| .go .I_I [pMProfileMiss, pwIncPendingWrite,
      d2tSendAtomicDataToL2FromTBE, kPopMandatoryQueue]
  | .I_S, .dataDone | .SM, .dataDone => some <| .go .S [prDecPendingRead, ddWriteDataToL1Cache,
      tUpdateL1Lifetime, hLoadHit, sDeallocateTBE, oPopIncomingResponseQueue]
  | .I_S, .l1Replacement | .I_I, .l1Replacement | .SM, .l1Replacement => some .stall
  -- I_I
  | .I_I, .load => some <| .go .I_I [pMProfileMiss, prIncPendingRead, aIssueGETS fixedLease,
      kPopMandatoryQueue]
  | .SM, .load => some <| .go .SM [pMProfileMiss, prIncPendingRead, aIssueGETS fixedLease,
      kPopMandatoryQueue]
  | .I_I, .l1WThru => some <| .go .I_I [pMProfileMiss, pwIncPendingWrite,
      d2tSendDataToL2FromTBE, kPopMandatoryQueue]
  | .I_I, .l1Atomic => some <| .go .I_I [pMProfileMiss, pwIncPendingWrite,
      d2tSendAtomicDataToL2FromTBE, kPopMandatoryQueue]
  | .I_I, .data => some <| .go .I_I [prDecPendingRead, hLoadHit, oPopIncomingResponseQueue]
  | .SM, .data => some <| .go .SM [prDecPendingRead, hLoadHit, oPopIncomingResponseQueue]
  | .I_I, .dataDone => some <| .go .I [prDecPendingRead, hLoadHit, sDeallocateTBE,
      oPopIncomingResponseQueue]
  | .I_I, .dataAtomic => some <| .go .I_I [pwDecPendingWrite, hhStoreHit,
      oPopIncomingResponseQueue]
  | .I_I, .dataAtomicDone => some <| .go .I [pwDecPendingWrite, hhStoreHit, sDeallocateTBE,
      oPopIncomingResponseQueue]
  | .I_I, .ack => some <| .go .I_I [pwDecPendingWrite, hhStoreHit, oPopIncomingResponseQueue]
  | .I_I, .ackDone => some <| .go .I [pwDecPendingWrite, hhStoreHit, sDeallocateTBE,
      oPopIncomingResponseQueue]
  -- SM
  | .SM, .l1WThru => some <| .go .SM [pHProfileHit, pwIncPendingWrite, uSendUpgradeToL2,
      kPopMandatoryQueue]
  | .SM, .l1Atomic => some <| .go .I_I [pHProfileHit, pwIncPendingWrite,
      d2tSendAtomicDataToL2FromTBE, kPopMandatoryQueue]
  | .SM, .ack => some <| .go .SM [pwDecPendingWrite, hhStoreHit, tUpdateL1Lifetime,
      oPopIncomingResponseQueue]
  | .SM, .ackDone => some <| .go .S [pwDecPendingWrite, hhStoreHit, tUpdateL1Lifetime,
      sDeallocateTBE, oPopIncomingResponseQueue]
  | _, _ => none

/-- The L1 controller with the given next state of a write hit. -/
def controllerWith (wthruNext : L1State) (fixedLease : Nat) :
    Controller L1State L1Event (L1Ctx ι) where
  getState := getState
  setState := setState
  transitions := transitionsWith wthruNext fixedLease

/-! ### In ports -/

/-- `in_port(responseIntraChipL1Network_in, …)`: the event of a response, from the counters of the
TBE. -/
def responseEvent (c : L1Ctx ι) (inMsg : ResponseMsg ι) : Except Fault L1Event :=
  match c.tbe with
  | none => .error .assertion
  | some t =>
    if c.machineID ∉ inMsg.destination then .error .assertion
    else match inMsg.type with
    | .DATA =>
      if t.pendingReads ≠ 1 then .error .assertion
      else if 0 < t.pendingWrites then .ok .data else .ok .dataDone
    | .DATA_ATOMIC =>
      if ¬ 0 < t.pendingWrites then .error .assertion
      else if 0 < t.pendingReads ∨ 1 < t.pendingWrites then .ok .dataAtomic else .ok .dataAtomicDone
    | .ACK =>
      if ¬ 0 < t.pendingWrites then .error .assertion
      else if 0 < t.pendingReads ∨ 1 < t.pendingWrites then .ok .ack else .ok .ackDone
    | _ => .error (.error "Invalid L1 response type")

/-- The response port: find the event of the head message and trigger it. -/
def receive (C : Controller L1State L1Event (L1Ctx ι)) (inMsg : ResponseMsg ι) :
    Action (L1Ctx ι) := fun c =>
  match responseEvent c inMsg with
  | .ok event => C.doTransition event { c with responseToL1Cache := some inMsg }
  | .error e => .error e

/-- The mandatory port, once there is room for the block: trigger the event of the request. A read
is outstanding at the MSHR from here until `hLoadHit` answers it. -/
def request (C : Controller L1State L1Event (L1Ctx ι)) (inMsg : CacheMsg ι) :
    Action (L1Ctx ι) := fun c =>
  match mandatoryRequestTypeToEvent inMsg.type with
  | .ok event => C.doTransition event
      { c with mandatoryQueue := some inMsg
               readPending := if inMsg.type = .LD then true else c.readPending }
  | .error e => .error e

end L1

end GpgpuSimRuby.Ruby.Cachelease2
