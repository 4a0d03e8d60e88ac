import GpgpuSimRuby.Ruby.ViWt.Network

/-!
# VI_wt_b: the L2 controller

`VI_wt_b-L2cache.sm`, for one block. The L2 is not inclusive and keeps no sharer list: a write
broadcasts its invalidation to every L1, on a miss in parallel with the fetch, and everything else
waits for the block meanwhile. The letters of the transient states say what is still to come, `i` for
the acknowledgements and `d` for the data.

Left out is what `Inclusive` leaves out.
-/

namespace GpgpuSimRuby.Ruby.ViWt.Broadcast

open Library

inductive L2State where
  | NP | S | ISS | IM_id | IMA_id | IM_i | IMA_i | IM_d | IMA_d | SM | SMA
  deriving DecidableEq, Repr

inductive L2Event where
  | l1GETS | wbData | l2Atomic | invAck | invAckAll | l2Replacement | l2ReplacementClean | memData
  deriving DecidableEq, Repr

structure L2Entry where
  cacheState : L2State := .NP
  dirty : Bool := false
  deriving DecidableEq, Repr

/-- What the bank keeps of a block. -/
abbrev L2Bank (ι : Type) := Bank L2State (Option L2Entry) ι

abbrev L2Action (ι : Type) := Action (Block ι (L2Bank ι))

namespace L2

open Ruby.ViWt.L2

variable {ι : Type} [DecidableEq ι]

/-! ### Helper functions of the controller -/

omit [DecidableEq ι] in
def getState (b : Block ι (L2Bank ι)) : L2State :=
  match b.bank.tbe, b.bank.entry with
  | some t, _ => t.tbeState
  | none, some e => e.cacheState
  | none, none => .NP

omit [DecidableEq ι] in
def setState (s : L2State) (b : Block ι (L2Bank ι)) : Block ι (L2Bank ι) :=
  { b with bank := { b.bank with
      tbe := b.bank.tbe.map fun t => { t with tbeState := s }
      entry := b.bank.entry.map fun e => { e with cacheState := s } } }

/-- `L2cacheMemory[addr]`. -/
@[simp] def withEntry (b : Block ι (L2Bank ι))
    (k : L2Entry → Except Fault (Block ι (L2Bank ι))) : Except Fault (Block ι (L2Bank ι)) :=
  match b.bank.entry with
  | some e => k e
  | none => .error .assertion

/-- `L1Cache_request_type_to_event`. -/
def l1CacheRequestTypeToEvent (inMsg : RequestMsg ι) : Except Fault L2Event :=
  match inMsg.type with
  | .GETS => .ok .l1GETS
  | .DATA => .ok .wbData
  | .DATA_ATOMIC => .ok .l2Atomic
  | _ => .error (.error "Invalid L1 forwarded request type")

/-! ### Actions -/

def cExclusiveReplacement : L2Action ι := fun b => withEntry b fun _ => .ok b

def dsSendDataToRequestor : L2Action ι := fun b =>
  peekRequest b fun inMsg => withEntry b fun _ => .ok <| send
    { type := .DATA, destination := {inMsg.requestor}
      mfset := (inMsg.memfetch.map fun g => (inMsg.requestor, g)).toList } b

def eSendDataToGetSRequestors : L2Action ι := fun b =>
  withTBE b fun t => withEntry b fun _ => require (0 < t.l1GetSIDs.card) <| send
    { type := .DATA, destination := t.l1GetSIDs, mfset := t.mfset } b

/-- Broadcast an invalidation to all L1s. -/
def fbBroadcastInv [Fintype ι] : L2Action ι := fun b =>
  withTBE b fun t => .ok <| setTBE (some { t with pendingAcks := Fintype.card ι }) <|
    sendInv { type := .INV, destination := Finset.univ } b

/-- Allocate TBE from L1 request queue. -/
def iAllocateTBE : L2Action ι := fun b =>
  peekRequest b fun inMsg => withEntry b fun e => allocateTBE
    { tbeState := .NP, dirty := e.dirty, space := inMsg.space, memfetch := inMsg.memfetch } b

def mWriteDataToCache : L2Action ι := fun b =>
  withEntry b fun e => .ok (setEntry (some { e with dirty := false }) b)

def mtWriteDataToCacheFromTBE : L2Action ι := fun b =>
  withTBE b fun t => withEntry b fun e =>
    require (t.dirty = true) (setEntry (some { e with dirty := t.dirty }) b)

def qqAllocateL2CacheBlock : L2Action ι := fun b =>
  match b.bank.entry with
  | some _ => .ok b
  | none => .ok (setEntry (some {}) b)

def dMarkBlockDirty : L2Action ι := fun b =>
  withEntry b fun e => .ok (setEntry (some { e with dirty := true }) b)

def rrDeallocateL2CacheBlock : L2Action ι := fun b =>
  withEntry b fun _ => .ok (setEntry none b)

/-! ### Transitions -/

variable [Fintype ι]

/-- A write to a block that is not in the cache. -/
def fetchForStoreActions : List (L2Action ι) :=
  [qqAllocateL2CacheBlock, dMarkBlockDirty, iAllocateTBE, xxRecordGetXL1ID,
   aIssueFetchToMemoryForStore, fbBroadcastInv, jjPopL1RequestQueue]

/-- A write to a block in the cache. -/
def invalidateActions : List (L2Action ι) :=
  [dMarkBlockDirty, iAllocateTBE, xxRecordGetXL1ID, fbBroadcastInv, jjPopL1RequestQueue]

/-- The transition table; `n` is the acknowledgement at hand, if there is one. -/
def transitions (n : Nat) : L2State → L2Event → Option (Transition L2State (Block ι (L2Bank ι)))
  -- Idle
  | .NP, .l1GETS => some <| .go .ISS [qqAllocateL2CacheBlock, iAllocateTBE, ssRecordGetSL1ID,
      aIssueFetchToMemory, jjPopL1RequestQueue]
  | .NP, .wbData => some <| .go .IM_id fetchForStoreActions
  | .NP, .l2Atomic => some <| .go .IMA_id fetchForStoreActions
  | .ISS, .l1GETS => some <| .go .ISS [ssRecordGetSL1ID, jjPopL1RequestQueue]
  | .ISS, .memData => some <| .go .S [mWriteDataToCache, eSendDataToGetSRequestors,
      sDeallocateTBE, oPopIncomingResponseQueue]
  | .ISS, .wbData | .ISS, .l2Atomic => some .stall
  -- IM, IMA: the data and the acknowledgements come in either order
  | .IM_id, .memData => some <| .go .IM_i [mWriteDataToCache, mtWriteDataToCacheFromTBE,
      oPopIncomingResponseQueue]
  | .IMA_id, .memData => some <| .go .IM_i [mWriteDataToCache, mtWriteDataToCacheFromTBE,
      oPopIncomingResponseQueue]
  | .IM_d, .memData => some <| .go .S [mWriteDataToCache, mtWriteDataToCacheFromTBE,
      eeSendAckToGetXRequestor, sDeallocateTBE, oPopIncomingResponseQueue]
  | .IMA_d, .memData => some <| .go .S [mWriteDataToCache, mtWriteDataToCacheFromTBE,
      eSendAtomicDataToGetXRequestor, sDeallocateTBE, oPopIncomingResponseQueue]
  | .IM_id, .invAck => some <| .go .IM_id [qUpdateAck n, ouPopUnblockQueue n]
  | .IMA_id, .invAck => some <| .go .IMA_id [qUpdateAck n, ouPopUnblockQueue n]
  | .IM_i, .invAck => some <| .go .IM_i [qUpdateAck n, ouPopUnblockQueue n]
  | .IMA_i, .invAck => some <| .go .IMA_i [qUpdateAck n, ouPopUnblockQueue n]
  | .IM_id, .invAckAll => some <| .go .IM_d [ouPopUnblockQueue n]
  | .IMA_id, .invAckAll => some <| .go .IMA_d [ouPopUnblockQueue n]
  | .IM_i, .invAckAll => some <| .go .S [eeSendAckToGetXRequestor, sDeallocateTBE,
      ouPopUnblockQueue n]
  | .IMA_i, .invAckAll => some <| .go .S [eSendAtomicDataToGetXRequestor, sDeallocateTBE,
      ouPopUnblockQueue n]
  -- Everything else waits
  | .ISS, .l2Replacement | .IM_id, .l2Replacement | .IMA_id, .l2Replacement | .IM_i, .l2Replacement
  | .IMA_i, .l2Replacement | .IM_d, .l2Replacement | .IMA_d, .l2Replacement | .SM, .l2Replacement
  | .SMA, .l2Replacement
  | .ISS, .l2ReplacementClean | .IM_id, .l2ReplacementClean | .IMA_id, .l2ReplacementClean
  | .IM_i, .l2ReplacementClean | .IMA_i, .l2ReplacementClean | .IM_d, .l2ReplacementClean
  | .IMA_d, .l2ReplacementClean | .SM, .l2ReplacementClean | .SMA, .l2ReplacementClean => some .stall
  | .IM_id, .l1GETS | .IMA_id, .l1GETS | .IM_i, .l1GETS | .IMA_i, .l1GETS | .IM_d, .l1GETS
  | .IMA_d, .l1GETS | .SM, .l1GETS | .SMA, .l1GETS
  | .IM_id, .wbData | .IMA_id, .wbData | .IM_i, .wbData | .IMA_i, .wbData | .IM_d, .wbData
  | .IMA_d, .wbData | .SM, .wbData | .SMA, .wbData
  | .IM_id, .l2Atomic | .IMA_id, .l2Atomic | .IM_i, .l2Atomic | .IMA_i, .l2Atomic
  | .IM_d, .l2Atomic | .IMA_d, .l2Atomic | .SM, .l2Atomic | .SMA, .l2Atomic => some .stall
  -- S
  | .S, .l1GETS => some <| .go .S [dsSendDataToRequestor, jjPopL1RequestQueue]
  | .S, .wbData => some <| .go .SM invalidateActions
  | .S, .l2Atomic => some <| .go .SMA invalidateActions
  -- SM and SMA
  | .SM, .invAck => some <| .go .SM [qUpdateAck n, ouPopUnblockQueue n]
  | .SMA, .invAck => some <| .go .SMA [qUpdateAck n, ouPopUnblockQueue n]
  | .SM, .invAckAll => some <| .go .S [eeSendAckToGetXRequestor, mtWriteDataToCacheFromTBE,
      sDeallocateTBE, ouPopUnblockQueue n]
  | .SMA, .invAckAll => some <| .go .S [eSendAtomicDataToGetXRequestor, mtWriteDataToCacheFromTBE,
      sDeallocateTBE, ouPopUnblockQueue n]
  -- Replacements
  | .S, .l2ReplacementClean => some <| .go .NP [rrDeallocateL2CacheBlock]
  | .S, .l2Replacement => some <| .go .NP [cExclusiveReplacement, rrDeallocateL2CacheBlock]
  | _, _ => none

def controller (n : Nat) : Controller L2State L2Event (Block ι (L2Bank ι)) where
  getState := getState
  setState := setState
  transitions := transitions n

/-! ### In ports -/

/-- `in_port(L1RequestIntraChipL2Network_in, …)`, once there is room for the block. -/
def stepRequest (b : Block ι (L2Bank ι)) : Option (Except Fault (Block ι (L2Bank ι))) :=
  match b.l1RequestToL2Cache with
  | [] => none
  | inMsg :: _ => some <|
    match l1CacheRequestTypeToEvent inMsg with
    | .ok event => (controller 0).doTransition event b
    | .error e => .error e

omit [DecidableEq ι] [Fintype ι] in
/-- `in_port(L1unblockNetwork_in, …)`. -/
def unblockEvent (b : Block ι (L2Bank ι)) (inMsg : AckMsg ι) : Except Fault L2Event :=
  if inMsg.type = .INV_ACK ∨ inMsg.type = .RECALL_ACK then
    match b.bank.tbe with
    | some t => if t.pendingAcks - inMsg.ackCount = 0 then .ok .invAckAll else .ok .invAck
    | none => .error .assertion
  else .error (.error "unknown unblock message")

def stepUnblock (b : Block ι (L2Bank ι)) (n : Nat) :
    Option (Except Fault (Block ι (L2Bank ι))) :=
  match b.unblockToL2Cache[n]? with
  | none => none
  | some inMsg => some <|
    match unblockEvent b inMsg with
    | .ok event => (controller n).doTransition event b
    | .error e => .error e

/-- Another request needs the place of the block. -/
def stepReplace (b : Block ι (L2Bank ι)) : Option (Except Fault (Block ι (L2Bank ι))) :=
  match b.bank.entry with
  | none => none
  | some e => some <| (controller 0).doTransition
      (if e.dirty then .l2Replacement else .l2ReplacementClean) b

/-- `in_port(memQueue_in, …)`. -/
def stepMemory (b : Block ι (L2Bank ι)) : Option (Except Fault (Block ι (L2Bank ι))) :=
  if b.bank.memReads = 0 then none else some <| (controller 0).doTransition .memData b

/-- The bank of VI_wt_b. -/
def bank : BankController ι (L2Bank ι) where
  init := { entry := none }
  step
    | .request, b => stepRequest b
    | .unblock n, b => stepUnblock b n
    | .replace, b => stepReplace b
    | .dirReplace, _ => none
    | .memory, b => stepMemory b

end L2

end GpgpuSimRuby.Ruby.ViWt.Broadcast
