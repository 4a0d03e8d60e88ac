import GpgpuSimRuby.Ruby.ViWt.Network

/-!
# VI_wt_ni: the L2 controller

`VI_wt_ni-L2cache.sm`, for one block. The directory is apart from the data: a directory entry with
its sharers may outlive the data of the block, in `S_D` and `SS_D`, and both structures evict on their
own. A write to a block without data fetches it and invalidates the sharers in parallel.

Left out is what `Inclusive` leaves out.
-/

namespace GpgpuSimRuby.Ruby.ViWt.NonInclusive

open Library

inductive L2State where
  | NP | S | SS | S_D | SS_D | ISS | IM | IDM | IMA | SM | SMA | SDM | SDMA | MI | II
  deriving DecidableEq, Repr

inductive L2Event where
  | l1GETS | wbData | wbDataPriv | l2Atomic | l2AtomicPriv | invAck | invAckAll
  | dirReplacement | dirReplacementClean | dirReplacementNodata
  | l2Replacement | l2ReplacementClean | memData
  deriving DecidableEq, Repr

/-- A directory entry. -/
structure Entry (ι : Type) where
  cacheState : L2State := .NP
  sharers : Finset ι := ∅
  deriving DecidableEq

structure CacheEntry where
  dirty : Bool := false
  deriving DecidableEq, Repr

/-- What `L2DirectoryMemory` and `L2cacheMemory` have of a block. -/
structure Entries (ι : Type) where
  dir : Option (Entry ι) := none
  cache : Option CacheEntry := none
  deriving DecidableEq

/-- What the bank keeps of a block. -/
abbrev L2Bank (ι : Type) := Bank L2State (Entries ι) ι

abbrev L2Action (ι : Type) := Action (Block ι (L2Bank ι))

namespace L2

open Ruby.ViWt.L2

variable {ι : Type} [DecidableEq ι]

/-! ### Helper functions of the controller -/

omit [DecidableEq ι] in
/-- `getState`, after its assertion. -/
def getState (b : Block ι (L2Bank ι)) : L2State :=
  match b.bank.tbe, b.bank.entry.dir with
  | some t, _ => t.tbeState
  | none, some e => e.cacheState
  | none, none => .NP

omit [DecidableEq ι] in
/-- The assertion of `getState`: a block that is not in the directory is not in the cache. -/
def getStateAsserts (b : Block ι (L2Bank ι)) : Prop :=
  b.bank.tbe.isSome ∨ b.bank.entry.dir.isSome ∨ b.bank.entry.cache = none

omit [DecidableEq ι] in
instance (b : Block ι (L2Bank ι)) : Decidable (getStateAsserts b) :=
  inferInstanceAs (Decidable (_ ∨ _ ∨ _))

omit [DecidableEq ι] in
def setState (s : L2State) (b : Block ι (L2Bank ι)) : Block ι (L2Bank ι) :=
  { b with bank := { b.bank with
      tbe := b.bank.tbe.map fun t => { t with tbeState := s }
      entry := { b.bank.entry with dir := b.bank.entry.dir.map fun e => { e with cacheState := s } } } }

/-- `L2DirectoryMemory[addr]`. -/
@[simp] def withDir (b : Block ι (L2Bank ι))
    (k : Entry ι → Except Fault (Block ι (L2Bank ι))) : Except Fault (Block ι (L2Bank ι)) :=
  match b.bank.entry.dir with
  | some e => k e
  | none => .error .assertion

/-- `L2cacheMemory[addr]`. -/
@[simp] def withCache (b : Block ι (L2Bank ι))
    (k : CacheEntry → Except Fault (Block ι (L2Bank ι))) : Except Fault (Block ι (L2Bank ι)) :=
  match b.bank.entry.cache with
  | some e => k e
  | none => .error .assertion

@[simp] def setDir (e : Option (Entry ι)) (b : Block ι (L2Bank ι)) : Block ι (L2Bank ι) :=
  setEntry { b.bank.entry with dir := e } b

@[simp] def setCache (e : Option CacheEntry) (b : Block ι (L2Bank ι)) : Block ι (L2Bank ι) :=
  setEntry { b.bank.entry with cache := e } b

/-- `isDirectoryTagPresent`, `isSharer` and `isOneSharerLeft`: the requestor is the only sharer. -/
def isPrivate (b : Block ι (L2Bank ι)) (requestor : ι) : Bool :=
  match b.bank.entry.dir with
  | some e => requestor ∈ e.sharers ∧ e.sharers.card = 1
  | none => false

/-- `L1Cache_request_type_to_event`. -/
def l1CacheRequestTypeToEvent (b : Block ι (L2Bank ι)) (inMsg : RequestMsg ι) :
    Except Fault L2Event :=
  match inMsg.type with
  | .GETS => .ok .l1GETS
  | .DATA => if isPrivate b inMsg.requestor then .ok .wbDataPriv else .ok .wbData
  | .DATA_ATOMIC => if isPrivate b inMsg.requestor then .ok .l2AtomicPriv else .ok .l2Atomic
  | _ => .error (.error "Invalid L1 forwarded request type")

/-! ### Actions -/

def cExclusiveReplacement : L2Action ι := fun b => withCache b fun _ => .ok b

def cExclusiveReplacementTBE : L2Action ι := fun b => withTBE b fun _ => .ok b

def dsSendDataToRequestor : L2Action ι := fun b =>
  peekRequest b fun inMsg => withCache b fun _ => .ok <| send
    { type := .DATA, destination := {inMsg.requestor}
      mfset := (inMsg.memfetch.map fun g => (inMsg.requestor, g)).toList } b

def eSendDataToGetSRequestors : L2Action ι := fun b =>
  withTBE b fun t => withCache b fun _ => require (0 < t.l1GetSIDs.card) <| send
    { type := .DATA, destination := t.l1GetSIDs, mfset := t.mfset } b

def fSendInvToSharersMinusRequestor : L2Action ι := fun b =>
  peekRequest b fun inMsg => withDir b fun e => require (0 < e.sharers.card) <| sendInv
    { type := .INV, destination := e.sharers.erase inMsg.requestor } b

def faSendRecallToAllSharers : L2Action ι := fun b =>
  withDir b fun e => require (0 < e.sharers.card) <| sendInv
    { type := .RECALL, destination := e.sharers } b

def nnAddSharer : L2Action ι := fun b =>
  peekRequest b fun inMsg => withDir b fun e =>
    .ok (setDir (some { e with sharers := insert inMsg.requestor e.sharers }) b)

def nxAddGetXSharer : L2Action ι := fun b =>
  withTBE b fun t => withDir b fun e =>
    .ok (setDir (some { e with sharers := t.l1WBAckID.toFinset ∪ e.sharers }) b)

/-- Allocate TBE from L1 request queue; an invalidation is not sent to the requestor. -/
def iAllocateTBE : L2Action ι := fun b =>
  peekRequest b fun inMsg => withCache b fun c => withDir b fun e => allocateTBE
    { tbeState := .NP, dirty := c.dirty, space := inMsg.space, memfetch := inMsg.memfetch
      pendingAcks := if inMsg.requestor ∈ e.sharers then (e.sharers.card : Int) - 1
        else e.sharers.card } b

/-- Allocate TBE for directory and L2 replacement. -/
def irAllocateTBE : L2Action ι := fun b =>
  withCache b fun c => withDir b fun e => allocateTBE
    { tbeState := .NP, dirty := c.dirty, pendingAcks := e.sharers.card } b

/-- Allocate TBE for directory only replacement (no L2 data). -/
def irlAllocateTBE : L2Action ι := fun b =>
  withDir b fun e => allocateTBE { tbeState := .NP, pendingAcks := e.sharers.card } b

def mWriteDataToCache : L2Action ι := fun b =>
  withCache b fun c => .ok (setCache (some { c with dirty := false }) b)

def mrWriteDataToCacheFromRequest : L2Action ι := fun b =>
  peekRequest b fun inMsg => withCache b fun c =>
    require (inMsg.dirty = true) (setCache (some { c with dirty := inMsg.dirty }) b)

def mtWriteDataToCacheFromTBE : L2Action ι := fun b =>
  withTBE b fun t => withCache b fun c =>
    require (t.dirty = true) (setCache (some { c with dirty := t.dirty }) b)

/-- Set the MRU entry for both directory and cache; the data has to be there. -/
def setSetMRU : L2Action ι := fun b => withCache b fun _ => .ok b

def qqAllocateDirectoryCacheBlock : L2Action ι := fun b =>
  match b.bank.entry.dir with
  | some _ => .ok b
  | none => .ok (setDir (some {}) b)

def qlAllocateL2CacheBlock : L2Action ι := fun b =>
  match b.bank.entry.cache with
  | some _ => .ok b
  | none => .ok (setCache (some {}) b)

def dMarkBlockDirty : L2Action ι := fun b =>
  withCache b fun c => .ok (setCache (some { c with dirty := true }) b)

def rrDeallocateDirectoryCacheBlock : L2Action ι := fun b =>
  withDir b fun _ => .ok (setDir none b)

def rlDeallocateL2CacheBlock : L2Action ι := fun b =>
  withCache b fun _ => .ok (setCache none b)

def llClearSharers : L2Action ι := fun b =>
  withDir b fun e => .ok (setDir (some { e with sharers := ∅ }) b)

/-! ### Transitions -/

/-- A write to a block without data. -/
def fetchForStoreActions : List (L2Action ι) :=
  [qlAllocateL2CacheBlock, dMarkBlockDirty, setSetMRU, iAllocateTBE, xxRecordGetXL1ID,
   aIssueFetchToMemoryForStore]

/-- A write to a block in the cache that is answered at once. -/
def hitActions (answer : L2Action ι) : List (L2Action ι) :=
  [dMarkBlockDirty, setSetMRU, answer, mrWriteDataToCacheFromRequest]

/-- A write to a block in the cache with other sharers. -/
def invalidateActions : List (L2Action ι) :=
  [dMarkBlockDirty, setSetMRU, iAllocateTBE, xxRecordGetXL1ID, fSendInvToSharersMinusRequestor,
   jjPopL1RequestQueue]

/-- Recall the block from its sharers. -/
def recallActions (allocate : L2Action ι) : List (L2Action ι) :=
  [allocate, faSendRecallToAllSharers, llClearSharers]

/-- The transition table; `n` is the acknowledgement at hand, if there is one. -/
def transitions (n : Nat) : L2State → L2Event → Option (Transition L2State (Block ι (L2Bank ι)))
  -- Idle
  | .NP, .l1GETS => some <| .go .ISS [qqAllocateDirectoryCacheBlock, qlAllocateL2CacheBlock,
      iAllocateTBE, ssRecordGetSL1ID, nnAddSharer, aIssueFetchToMemory, jjPopL1RequestQueue]
  | .NP, .wbData => some <| .go .IM [qqAllocateDirectoryCacheBlock, qlAllocateL2CacheBlock,
      dMarkBlockDirty, iAllocateTBE, xxRecordGetXL1ID, aIssueFetchToMemoryForStore,
      jjPopL1RequestQueue]
  | .NP, .l2Atomic => some <| .go .IMA [qqAllocateDirectoryCacheBlock, qlAllocateL2CacheBlock,
      dMarkBlockDirty, iAllocateTBE, xxRecordGetXL1ID, aIssueFetchToMemoryForStore,
      jjPopL1RequestQueue]
  -- A directory entry without data
  | .S_D, .l1GETS | .SS_D, .l1GETS => some <| .go .ISS [qlAllocateL2CacheBlock, iAllocateTBE,
      ssRecordGetSL1ID, setSetMRU, nnAddSharer, aIssueFetchToMemory, jjPopL1RequestQueue]
  | .S_D, .wbData => some <| .go .IM (fetchForStoreActions ++ [jjPopL1RequestQueue])
  | .S_D, .l2Atomic => some <| .go .IMA (fetchForStoreActions ++ [jjPopL1RequestQueue])
  | .SS_D, .wbDataPriv => some <| .go .IDM (fetchForStoreActions ++ [jjPopL1RequestQueue])
  | .SS_D, .l2AtomicPriv => some <| .go .IMA
      (fetchForStoreActions ++ [llClearSharers, jjPopL1RequestQueue])
  | .SS_D, .wbData => some <| .go .SDM
      (fetchForStoreActions ++ [fSendInvToSharersMinusRequestor, jjPopL1RequestQueue])
  | .SS_D, .l2Atomic => some <| .go .SDMA
      (fetchForStoreActions ++ [fSendInvToSharersMinusRequestor, jjPopL1RequestQueue])
  | .ISS, .l1GETS => some <| .go .ISS [ssRecordGetSL1ID, nnAddSharer, jjPopL1RequestQueue]
  | .ISS, .memData => some <| .go .SS [mWriteDataToCache, eSendDataToGetSRequestors,
      sDeallocateTBE, oPopIncomingResponseQueue]
  | .ISS, .wbData | .ISS, .l2Atomic => some .stall
  -- IM, IDM and IMA
  | .IM, .memData => some <| .go .S [mWriteDataToCache, mtWriteDataToCacheFromTBE,
      eeSendAckToGetXRequestor, sDeallocateTBE, oPopIncomingResponseQueue]
  | .IDM, .memData => some <| .go .SS [mWriteDataToCache, mtWriteDataToCacheFromTBE,
      eeSendAckToGetXRequestor, sDeallocateTBE, oPopIncomingResponseQueue]
  | .IMA, .memData => some <| .go .S [mWriteDataToCache, mtWriteDataToCacheFromTBE,
      eSendAtomicDataToGetXRequestor, sDeallocateTBE, oPopIncomingResponseQueue]
  -- Everything else waits
  | .ISS, .dirReplacement | .IM, .dirReplacement | .IDM, .dirReplacement | .IMA, .dirReplacement
  | .SM, .dirReplacement | .SMA, .dirReplacement | .SDM, .dirReplacement | .SDMA, .dirReplacement
  | .MI, .dirReplacement | .II, .dirReplacement
  | .ISS, .dirReplacementClean | .IM, .dirReplacementClean | .IDM, .dirReplacementClean
  | .IMA, .dirReplacementClean | .SM, .dirReplacementClean | .SMA, .dirReplacementClean
  | .SDM, .dirReplacementClean | .SDMA, .dirReplacementClean | .MI, .dirReplacementClean
  | .II, .dirReplacementClean
  | .ISS, .l2Replacement | .IM, .l2Replacement | .IDM, .l2Replacement | .IMA, .l2Replacement
  | .SM, .l2Replacement | .SMA, .l2Replacement | .SDM, .l2Replacement | .SDMA, .l2Replacement
  | .MI, .l2Replacement | .II, .l2Replacement
  | .ISS, .l2ReplacementClean | .IM, .l2ReplacementClean | .IDM, .l2ReplacementClean
  | .IMA, .l2ReplacementClean | .SM, .l2ReplacementClean | .SMA, .l2ReplacementClean
  | .SDM, .l2ReplacementClean | .SDMA, .l2ReplacementClean | .MI, .l2ReplacementClean
  | .II, .l2ReplacementClean => some .stall
  | .IM, .l1GETS | .IDM, .l1GETS | .IMA, .l1GETS | .SM, .l1GETS | .SMA, .l1GETS | .SDM, .l1GETS
  | .SDMA, .l1GETS | .MI, .l1GETS | .II, .l1GETS
  | .IM, .wbData | .IDM, .wbData | .IMA, .wbData | .SM, .wbData | .SMA, .wbData | .SDM, .wbData
  | .SDMA, .wbData | .MI, .wbData | .II, .wbData
  | .IM, .l2Atomic | .IDM, .l2Atomic | .IMA, .l2Atomic | .SM, .l2Atomic | .SMA, .l2Atomic
  | .SDM, .l2Atomic | .SDMA, .l2Atomic | .MI, .l2Atomic | .II, .l2Atomic => some .stall
  -- S
  | .S, .l1GETS => some <| .go .SS [dsSendDataToRequestor, setSetMRU, nnAddSharer,
      jjPopL1RequestQueue]
  | .S, .wbData => some <| .go .S (hitActions deSendAckToRequestor ++ [jjPopL1RequestQueue])
  | .S, .l2Atomic => some <| .go .S (hitActions dsSendAtomicDataToRequestor ++ [jjPopL1RequestQueue])
  -- SS
  | .SS, .l1GETS => some <| .go .SS [dsSendDataToRequestor, setSetMRU, nnAddSharer,
      jjPopL1RequestQueue]
  | .SS, .wbData => some <| .go .SM invalidateActions
  | .SS, .wbDataPriv => some <| .go .SS (hitActions deSendAckToRequestor ++ [jjPopL1RequestQueue])
  | .SS, .l2Atomic => some <| .go .SMA invalidateActions
  | .SS, .l2AtomicPriv => some <| .go .S
      (hitActions dsSendAtomicDataToRequestor ++ [llClearSharers, jjPopL1RequestQueue])
  -- Invalidation acks
  | .SM, .invAck => some <| .go .SM [qUpdateAck n, ouPopUnblockQueue n]
  | .SMA, .invAck => some <| .go .SMA [qUpdateAck n, ouPopUnblockQueue n]
  | .SDM, .invAck => some <| .go .SDM [qUpdateAck n, ouPopUnblockQueue n]
  | .SDMA, .invAck => some <| .go .SDMA [qUpdateAck n, ouPopUnblockQueue n]
  | .SM, .invAckAll => some <| .go .SS [eeSendAckToGetXRequestor, mtWriteDataToCacheFromTBE,
      llClearSharers, nxAddGetXSharer, sDeallocateTBE, ouPopUnblockQueue n]
  | .SMA, .invAckAll => some <| .go .S [eSendAtomicDataToGetXRequestor, mtWriteDataToCacheFromTBE,
      llClearSharers, sDeallocateTBE, ouPopUnblockQueue n]
  | .SDM, .invAckAll => some <| .go .IDM [llClearSharers, nxAddGetXSharer, ouPopUnblockQueue n]
  | .SDMA, .invAckAll => some <| .go .IMA [llClearSharers, ouPopUnblockQueue n]
  | .SDM, .memData => some <| .go .SM [mWriteDataToCache, mtWriteDataToCacheFromTBE,
      oPopIncomingResponseQueue]
  | .SDMA, .memData => some <| .go .SMA [mWriteDataToCache, mtWriteDataToCacheFromTBE,
      oPopIncomingResponseQueue]
  -- Replacements in the directory
  | .S, .dirReplacementClean => some <| .go .NP [rlDeallocateL2CacheBlock,
      rrDeallocateDirectoryCacheBlock]
  | .S_D, .dirReplacementNodata => some <| .go .NP [rrDeallocateDirectoryCacheBlock]
  | .S, .dirReplacement => some <| .go .NP [cExclusiveReplacement, rlDeallocateL2CacheBlock,
      rrDeallocateDirectoryCacheBlock]
  | .SS, .dirReplacementClean => some <| .go .II
      (recallActions irAllocateTBE ++ [rlDeallocateL2CacheBlock, rrDeallocateDirectoryCacheBlock])
  | .SS_D, .dirReplacementNodata => some <| .go .II
      (recallActions irlAllocateTBE ++ [rrDeallocateDirectoryCacheBlock])
  | .SS, .dirReplacement => some <| .go .MI
      (recallActions irAllocateTBE ++ [rlDeallocateL2CacheBlock, rrDeallocateDirectoryCacheBlock])
  -- Replacements of the data
  | .S, .l2Replacement => some <| .go .S_D [cExclusiveReplacement, rlDeallocateL2CacheBlock]
  | .SS, .l2Replacement => some <| .go .SS_D [cExclusiveReplacement, rlDeallocateL2CacheBlock]
  | .S, .l2ReplacementClean => some <| .go .S_D [rlDeallocateL2CacheBlock]
  | .SS, .l2ReplacementClean => some <| .go .SS_D [rlDeallocateL2CacheBlock]
  | .MI, .invAckAll => some <| .go .NP [cExclusiveReplacementTBE, sDeallocateTBE,
      ouPopUnblockQueue n]
  | .II, .invAckAll => some <| .go .NP [sDeallocateTBE, ouPopUnblockQueue n]
  | .MI, .invAck => some <| .go .MI [qUpdateAck n, ouPopUnblockQueue n]
  | .II, .invAck => some <| .go .II [qUpdateAck n, ouPopUnblockQueue n]
  -- A private write in a transient state
  | .ISS, .wbDataPriv | .SM, .wbDataPriv | .SMA, .wbDataPriv | .SDM, .wbDataPriv
  | .SDMA, .wbDataPriv | .IDM, .wbDataPriv | .MI, .wbDataPriv | .II, .wbDataPriv
  | .ISS, .l2AtomicPriv | .SM, .l2AtomicPriv | .SMA, .l2AtomicPriv | .SDM, .l2AtomicPriv
  | .SDMA, .l2AtomicPriv | .IDM, .l2AtomicPriv | .MI, .l2AtomicPriv | .II, .l2AtomicPriv => some .stall
  | _, _ => none

def controller (n : Nat) : Controller L2State L2Event (Block ι (L2Bank ι)) where
  getState := getState
  setState := setState
  transitions := transitions n

/-- Trigger an event of the block: its state is looked up first. -/
def trigger (n : Nat) (event : L2Event) (b : Block ι (L2Bank ι)) :
    Except Fault (Block ι (L2Bank ι)) :=
  if getStateAsserts b then (controller n).doTransition event b else .error .assertion

/-! ### In ports -/

/-- `in_port(L1RequestIntraChipL2Network_in, …)`, once there is room for the block in both. -/
def stepRequest (b : Block ι (L2Bank ι)) : Option (Except Fault (Block ι (L2Bank ι))) :=
  match b.l1RequestToL2Cache with
  | [] => none
  | inMsg :: _ => some <|
    match l1CacheRequestTypeToEvent b inMsg with
    | .ok event => trigger 0 event b
    | .error e => .error e

/-- `in_port(L1unblockNetwork_in, …)`. -/
def unblockEvent (b : Block ι (L2Bank ι)) (inMsg : AckMsg ι) : Except Fault L2Event :=
  if inMsg.type = .INV_ACK ∨ inMsg.type = .RECALL_ACK then
    match b.bank.tbe with
    | some t => if t.pendingAcks - inMsg.ackCount = 0 then .ok .invAckAll else .ok .invAck
    | none => .error .assertion
  else .error (.error "unknown unblock message")

def stepUnblock (b : Block ι (L2Bank ι)) (n : Nat) :
    Option (Except Fault (Block ι (L2Bank ι))) :=
  match b.unblockToL2Cache[n]? with
  | none => none
  | some inMsg => some <|
    match unblockEvent b inMsg with
    | .ok event => trigger n event b
    | .error e => .error e

/-- Another request needs the place of the data; what is in the cache has to be in the directory. -/
def stepReplace (b : Block ι (L2Bank ι)) : Option (Except Fault (Block ι (L2Bank ι))) :=
  match b.bank.entry.cache with
  | none => none
  | some c => some <|
    if b.bank.entry.dir.isSome then
      trigger 0 (if c.dirty then .l2Replacement else .l2ReplacementClean) b
    else .error .assertion

/-- Another request needs the place of the directory entry. -/
def stepDirReplace (b : Block ι (L2Bank ι)) : Option (Except Fault (Block ι (L2Bank ι))) :=
  match b.bank.entry.dir with
  | none => none
  | some _ => some <|
    match b.bank.entry.cache with
    | some c => trigger 0 (if c.dirty then .dirReplacement else .dirReplacementClean) b
    | none => trigger 0 .dirReplacementNodata b

/-- `in_port(memQueue_in, …)`. -/
def stepMemory (b : Block ι (L2Bank ι)) : Option (Except Fault (Block ι (L2Bank ι))) :=
  if b.bank.memReads = 0 then none else some <| trigger 0 .memData b

/-- The bank of VI_wt_ni. -/
def bank : BankController ι (L2Bank ι) where
  init := { entry := {} }
  step
    | .request, b => stepRequest b
    | .unblock n, b => stepUnblock b n
    | .replace, b => stepReplace b
    | .dirReplace, b => stepDirReplace b
    | .memory, b => stepMemory b

end L2

end GpgpuSimRuby.Ruby.ViWt.NonInclusive
