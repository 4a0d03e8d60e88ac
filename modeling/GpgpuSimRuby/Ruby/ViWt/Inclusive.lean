import GpgpuSimRuby.Ruby.ViWt.Network

/-!
# VI_wt and VI_wt_ee: the L2 controller

`VI_wt-L2cache.sm` and `VI_wt_ee-L2cache.sm`, for one block. The L2 is inclusive and keeps a sharer
list with every entry; a write to a block with other sharers invalidates them first, a write of the
only sharer does not. An evicted block with sharers leaves a TBE in `MI` or `II` behind until all of
them have acknowledged its recall.

VI_wt_ee differs in the eviction notices of the L1s, which take their sender off the list in `SS` and
are dropped in every other state; the two tables are one here, with those rows added for VI_wt_ee.

Left out, next to what `L1Cache` leaves out: profiling and the order of replacement. A write-back
(`c_exclusiveReplacement`) only checks that there is something to write back.
-/

namespace GpgpuSimRuby.Ruby.ViWt.Inclusive

open Library

inductive L2State where
  | NP | S | SS | ISS | IM | IMA | SM | SMA | MI | II
  deriving DecidableEq, Repr

inductive L2Event where
  | l1GETS | wbData | wbDataPriv | l2Atomic | l2AtomicPriv
  | invAck | invAckAll | l1EvicInv | l1EvicInvAll
  | l2Replacement | l2ReplacementClean | memData
  deriving DecidableEq, Repr

structure L2Entry (ι : Type) where
  cacheState : L2State := .NP
  sharers : Finset ι := ∅
  dirty : Bool := false
  deriving DecidableEq

/-- What the bank keeps of a block. -/
abbrev L2Bank (ι : Type) := Bank L2State (Option (L2Entry ι)) ι

abbrev L2Action (ι : Type) := Action (Block ι (L2Bank ι))

namespace L2

open Ruby.ViWt.L2

variable {ι : Type} [DecidableEq ι]

/-! ### Helper functions of the controller -/

omit [DecidableEq ι] in
def getState (b : Block ι (L2Bank ι)) : L2State :=
  match b.bank.tbe, b.bank.entry with
  | some t, _ => t.tbeState
  | none, some e => e.cacheState
  | none, none => .NP

omit [DecidableEq ι] in
def setState (s : L2State) (b : Block ι (L2Bank ι)) : Block ι (L2Bank ι) :=
  { b with bank := { b.bank with
      tbe := b.bank.tbe.map fun t => { t with tbeState := s }
      entry := b.bank.entry.map fun e => { e with cacheState := s } } }

/-- `L2cacheMemory[addr]`. -/
@[simp] def withEntry (b : Block ι (L2Bank ι))
    (k : L2Entry ι → Except Fault (Block ι (L2Bank ι))) : Except Fault (Block ι (L2Bank ι)) :=
  match b.bank.entry with
  | some e => k e
  | none => .error .assertion

/-- `isSharer` and `isOneSharerLeft`: the requestor is the only sharer. -/
def isPrivate (b : Block ι (L2Bank ι)) (requestor : ι) : Bool :=
  match b.bank.entry with
  | some e => requestor ∈ e.sharers ∧ e.sharers.card = 1
  | none => false

/-- `isLastSharer`, of VI_wt_ee, where there is a tag. -/
def isLastSharer (b : Block ι (L2Bank ι)) (requestor : ι) : Bool :=
  match b.bank.entry with
  | some e => e.sharers.card = 1 ∧ requestor ∈ e.sharers
  | none => false

/-- `L1Cache_request_type_to_event`. -/
def l1CacheRequestTypeToEvent (b : Block ι (L2Bank ι)) (inMsg : RequestMsg ι) :
    Except Fault L2Event :=
  match inMsg.type with
  | .GETS => .ok .l1GETS
  | .DATA => if isPrivate b inMsg.requestor then .ok .wbDataPriv else .ok .wbData
  | .DATA_ATOMIC => if isPrivate b inMsg.requestor then .ok .l2AtomicPriv else .ok .l2Atomic
  | _ => .error (.error "Invalid L1 forwarded request type")

/-! ### Actions -/

def cExclusiveReplacement : L2Action ι := fun b => withEntry b fun _ => .ok b

def cExclusiveReplacementTBE : L2Action ι := fun b => withTBE b fun _ => .ok b

def dsSendDataToRequestor : L2Action ι := fun b =>
  peekRequest b fun inMsg => withEntry b fun _ => .ok <| send
    { type := .DATA, destination := {inMsg.requestor}
      mfset := (inMsg.memfetch.map fun g => (inMsg.requestor, g)).toList } b

def eSendDataToGetSRequestors : L2Action ι := fun b =>
  withTBE b fun t => withEntry b fun _ => require (0 < t.l1GetSIDs.card) <| send
    { type := .DATA, destination := t.l1GetSIDs, mfset := t.mfset } b

def fSendInvToSharersMinusRequestor : L2Action ι := fun b =>
  peekRequest b fun inMsg => withEntry b fun e => require (0 < e.sharers.card) <| sendInv
    { type := .INV, destination := e.sharers.erase inMsg.requestor } b

def faSendRecallToAllSharers : L2Action ι := fun b =>
  withEntry b fun e => require (0 < e.sharers.card) <| sendInv
    { type := .RECALL, destination := e.sharers } b

def nnAddSharer : L2Action ι := fun b =>
  peekRequest b fun inMsg => withEntry b fun e =>
    .ok (setEntry (some { e with sharers := insert inMsg.requestor e.sharers }) b)

def nxAddGetXSharer : L2Action ι := fun b =>
  withTBE b fun t => withEntry b fun e =>
    .ok (setEntry (some { e with sharers := t.l1WBAckID.toFinset ∪ e.sharers }) b)

/-- Remove L1 sharer from list; VI_wt_ee only. -/
def nrRemoveSharer : L2Action ι := fun b =>
  peekRequest b fun inMsg => withEntry b fun e =>
    .ok (setEntry (some { e with sharers := e.sharers.erase inMsg.requestor }) b)

/-- Allocate TBE from L1 request queue; an invalidation is not sent to the requestor. -/
def iAllocateTBE : L2Action ι := fun b =>
  peekRequest b fun inMsg => withEntry b fun e => allocateTBE
    { tbeState := .NP, dirty := e.dirty, space := inMsg.space, memfetch := inMsg.memfetch
      pendingAcks := if inMsg.requestor ∈ e.sharers then (e.sharers.card : Int) - 1
        else e.sharers.card } b

/-- Allocate TBE for L2 replacement. -/
def irAllocateTBE : L2Action ι := fun b =>
  withEntry b fun e => allocateTBE
    { tbeState := .NP, dirty := e.dirty, pendingAcks := e.sharers.card } b

def mWriteDataToCache : L2Action ι := fun b =>
  withEntry b fun e => .ok (setEntry (some { e with dirty := false }) b)

def mrWriteDataToCacheFromRequest : L2Action ι := fun b =>
  peekRequest b fun inMsg => withEntry b fun e =>
    require (inMsg.dirty = true) (setEntry (some { e with dirty := inMsg.dirty }) b)

def mtWriteDataToCacheFromTBE : L2Action ι := fun b =>
  withTBE b fun t => withEntry b fun e =>
    require (t.dirty = true) (setEntry (some { e with dirty := t.dirty }) b)

def qqAllocateL2CacheBlock : L2Action ι := fun b =>
  match b.bank.entry with
  | some _ => .ok b
  | none => .ok (setEntry (some {}) b)

def dMarkBlockDirty : L2Action ι := fun b =>
  withEntry b fun e => .ok (setEntry (some { e with dirty := true }) b)

def rrDeallocateL2CacheBlock : L2Action ι := fun b =>
  withEntry b fun _ => .ok (setEntry none b)

def llClearSharers : L2Action ι := fun b =>
  withEntry b fun e => .ok (setEntry (some { e with sharers := ∅ }) b)

/-! ### Transitions -/

/-- A write to a block with other sharers. -/
def invalidateActions : List (L2Action ι) :=
  [dMarkBlockDirty, iAllocateTBE, xxRecordGetXL1ID, fSendInvToSharersMinusRequestor,
   jjPopL1RequestQueue]

/-- A write to a block that is not in the cache. -/
def fetchForStoreActions : List (L2Action ι) :=
  [qqAllocateL2CacheBlock, dMarkBlockDirty, iAllocateTBE, xxRecordGetXL1ID,
   aIssueFetchToMemoryForStore, jjPopL1RequestQueue]

/-- The transition table of `VI_wt-L2cache.sm`; `n` is the acknowledgement at hand, if there is
one. -/
def transitions (n : Nat) : L2State → L2Event → Option (Transition L2State (Block ι (L2Bank ι)))
  -- Idle
  | .NP, .l1GETS => some <| .go .ISS [qqAllocateL2CacheBlock, iAllocateTBE, ssRecordGetSL1ID,
      nnAddSharer, aIssueFetchToMemory, jjPopL1RequestQueue]
  | .NP, .wbData => some <| .go .IM fetchForStoreActions
  | .NP, .l2Atomic => some <| .go .IMA fetchForStoreActions
  | .ISS, .l1GETS => some <| .go .ISS [ssRecordGetSL1ID, nnAddSharer, jjPopL1RequestQueue]
  | .ISS, .memData => some <| .go .SS [mWriteDataToCache, eSendDataToGetSRequestors,
      sDeallocateTBE, oPopIncomingResponseQueue]
  | .ISS, .wbData | .ISS, .l2Atomic => some .stall
  -- IM, IMA
  | .IM, .memData => some <| .go .S [mWriteDataToCache, mtWriteDataToCacheFromTBE,
      eeSendAckToGetXRequestor, sDeallocateTBE, oPopIncomingResponseQueue]
  | .IMA, .memData => some <| .go .S [mWriteDataToCache, mtWriteDataToCacheFromTBE,
      eSendAtomicDataToGetXRequestor, sDeallocateTBE, oPopIncomingResponseQueue]
  | .ISS, .l2Replacement | .IM, .l2Replacement | .IMA, .l2Replacement | .SM, .l2Replacement
  | .SMA, .l2Replacement | .MI, .l2Replacement | .II, .l2Replacement
  | .ISS, .l2ReplacementClean | .IM, .l2ReplacementClean | .IMA, .l2ReplacementClean
  | .SM, .l2ReplacementClean | .SMA, .l2ReplacementClean | .MI, .l2ReplacementClean
  | .II, .l2ReplacementClean => some .stall
  | .IM, .l1GETS | .IMA, .l1GETS | .SM, .l1GETS | .SMA, .l1GETS | .MI, .l1GETS | .II, .l1GETS
  | .IM, .wbData | .IMA, .wbData | .SM, .wbData | .SMA, .wbData | .MI, .wbData | .II, .wbData
  | .IM, .l2Atomic | .IMA, .l2Atomic | .SM, .l2Atomic | .SMA, .l2Atomic | .MI, .l2Atomic
  | .II, .l2Atomic => some .stall
  -- S
  | .S, .l1GETS => some <| .go .SS [dsSendDataToRequestor, nnAddSharer, jjPopL1RequestQueue]
  | .S, .wbData => some <| .go .S [dMarkBlockDirty, deSendAckToRequestor,
      mrWriteDataToCacheFromRequest, jjPopL1RequestQueue]
  | .S, .l2Atomic => some <| .go .S [dMarkBlockDirty, dsSendAtomicDataToRequestor,
      mrWriteDataToCacheFromRequest, jjPopL1RequestQueue]
  -- SS
  | .SS, .l1GETS => some <| .go .SS [dsSendDataToRequestor, nnAddSharer, jjPopL1RequestQueue]
  | .SS, .wbData => some <| .go .SM invalidateActions
  | .SS, .wbDataPriv => some <| .go .SS [dMarkBlockDirty, deSendAckToRequestor,
      mrWriteDataToCacheFromRequest, jjPopL1RequestQueue]
  | .SS, .l2Atomic => some <| .go .SMA invalidateActions
  | .SS, .l2AtomicPriv => some <| .go .S [dMarkBlockDirty, dsSendAtomicDataToRequestor,
      mrWriteDataToCacheFromRequest, llClearSharers, jjPopL1RequestQueue]
  -- Invalidation acks
  | .SM, .invAck => some <| .go .SM [qUpdateAck n, ouPopUnblockQueue n]
  | .SMA, .invAck => some <| .go .SMA [qUpdateAck n, ouPopUnblockQueue n]
  | .SM, .invAckAll => some <| .go .SS [eeSendAckToGetXRequestor, mtWriteDataToCacheFromTBE,
      llClearSharers, nxAddGetXSharer, sDeallocateTBE, ouPopUnblockQueue n]
  | .SMA, .invAckAll => some <| .go .S [eSendAtomicDataToGetXRequestor, mtWriteDataToCacheFromTBE,
      llClearSharers, sDeallocateTBE, ouPopUnblockQueue n]
  -- Replacements
  | .S, .l2ReplacementClean => some <| .go .NP [rrDeallocateL2CacheBlock]
  | .S, .l2Replacement => some <| .go .NP [cExclusiveReplacement, rrDeallocateL2CacheBlock]
  | .SS, .l2ReplacementClean => some <| .go .II [irAllocateTBE, faSendRecallToAllSharers,
      llClearSharers, rrDeallocateL2CacheBlock]
  | .SS, .l2Replacement => some <| .go .MI [irAllocateTBE, faSendRecallToAllSharers,
      llClearSharers, rrDeallocateL2CacheBlock]
  | .MI, .invAckAll => some <| .go .NP [cExclusiveReplacementTBE, sDeallocateTBE,
      ouPopUnblockQueue n]
  | .II, .invAckAll => some <| .go .NP [sDeallocateTBE, ouPopUnblockQueue n]
  | .MI, .invAck => some <| .go .MI [qUpdateAck n, ouPopUnblockQueue n]
  | .II, .invAck => some <| .go .II [qUpdateAck n, ouPopUnblockQueue n]
  -- A private write in a transient state
  | .ISS, .wbDataPriv | .SM, .wbDataPriv | .SMA, .wbDataPriv | .MI, .wbDataPriv | .II, .wbDataPriv
  | .ISS, .l2AtomicPriv | .SM, .l2AtomicPriv | .SMA, .l2AtomicPriv | .MI, .l2AtomicPriv
  | .II, .l2AtomicPriv => some .stall
  | _, _ => none

/-- The transition table of `VI_wt_ee-L2cache.sm`, which has the notices in addition. -/
def transitionsEe (n : Nat) : L2State → L2Event → Option (Transition L2State (Block ι (L2Bank ι)))
  | .SS, .l1EvicInv => some <| .go .SS [nrRemoveSharer, jjPopL1RequestQueue]
  | .SS, .l1EvicInvAll => some <| .go .S [nrRemoveSharer, jjPopL1RequestQueue]
  | state, .l1EvicInv | state, .l1EvicInvAll => some <| .go state [jjPopL1RequestQueue]
  | state, event => transitions n state event

/-- The controller of VI_wt or, if `ee`, of VI_wt_ee. -/
def controller (ee : Bool) (n : Nat) : Controller L2State L2Event (Block ι (L2Bank ι)) where
  getState := getState
  setState := setState
  transitions := if ee then transitionsEe n else transitions n

/-! ### In ports -/

/-- The event of a request; VI_wt_ee tells the notices apart first. -/
def requestEvent (ee : Bool) (b : Block ι (L2Bank ι)) (inMsg : RequestMsg ι) :
    Except Fault L2Event :=
  if ee = true ∧ inMsg.type = .L1_EVIC_INV then
    if isLastSharer b inMsg.requestor then .ok .l1EvicInvAll else .ok .l1EvicInv
  else l1CacheRequestTypeToEvent b inMsg

/-- `in_port(L1RequestIntraChipL2Network_in, …)`, once there is room for the block. -/
def stepRequest (ee : Bool) (b : Block ι (L2Bank ι)) : Option (Except Fault (Block ι (L2Bank ι))) :=
  match b.l1RequestToL2Cache with
  | [] => none
  | inMsg :: _ => some <|
    match requestEvent ee b inMsg with
    | .ok event => (controller ee 0).doTransition event b
    | .error e => .error e

/-- `in_port(L1unblockNetwork_in, …)`. -/
def unblockEvent (b : Block ι (L2Bank ι)) (inMsg : AckMsg ι) : Except Fault L2Event :=
  if inMsg.type = .INV_ACK ∨ inMsg.type = .RECALL_ACK then
    match b.bank.tbe with
    | some t => if t.pendingAcks - inMsg.ackCount = 0 then .ok .invAckAll else .ok .invAck
    | none => .error .assertion
  else .error (.error "unknown unblock message")

def stepUnblock (ee : Bool) (b : Block ι (L2Bank ι)) (n : Nat) :
    Option (Except Fault (Block ι (L2Bank ι))) :=
  match b.unblockToL2Cache[n]? with
  | none => none
  | some inMsg => some <|
    match unblockEvent b inMsg with
    | .ok event => (controller ee n).doTransition event b
    | .error e => .error e

/-- Another request needs the place of the block. -/
def stepReplace (ee : Bool) (b : Block ι (L2Bank ι)) : Option (Except Fault (Block ι (L2Bank ι))) :=
  match b.bank.entry with
  | none => none
  | some e => some <| (controller ee 0).doTransition
      (if e.dirty then .l2Replacement else .l2ReplacementClean) b

/-- `in_port(memQueue_in, …)`. -/
def stepMemory (ee : Bool) (b : Block ι (L2Bank ι)) : Option (Except Fault (Block ι (L2Bank ι))) :=
  if b.bank.memReads = 0 then none else some <| (controller ee 0).doTransition .memData b

/-- The bank of VI_wt or, if `ee`, of VI_wt_ee. -/
def bank (ee : Bool) : BankController ι (L2Bank ι) where
  init := { entry := none }
  step
    | .request, b => stepRequest ee b
    | .unblock n, b => stepUnblock ee b n
    | .replace, b => stepReplace ee b
    | .dirReplace, _ => none
    | .memory, b => stepMemory ee b

end L2

end GpgpuSimRuby.Ruby.ViWt.Inclusive
