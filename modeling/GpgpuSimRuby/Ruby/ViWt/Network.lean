import GpgpuSimRuby.Ruby.ViWt.L1Cache

/-!
# VI_wt: one block throughout the system

The L1s, the networks and the place of the L2 bank, for one block. The bank is a parameter: the four
protocols share everything in this module and bring a `BankController` of their own.

* `Block` — every L1's line, the messages under way, and what the bank keeps of the block.
* `L2.…` — the actions of the L2 that only touch the queues and the TBE; they read the same in the
  four `L2cache.sm`.
* `Block.step` — what can happen next to a block. Which of the things does is the business of the
  environment (the cores, the replacement policies, the latencies of the networks), so a property of
  all runs is a property of all interleavings. Requests of one L1 stay in order; responses,
  invalidations and acknowledgements may be handled in any order.
* `system` — all blocks. Requests to other blocks only delay those to this one.

The MSHR of the GPU side is part of the environment: it keeps a second load of the same block back
while the L1 still waits for the first.
-/

namespace GpgpuSimRuby.Ruby.ViWt

open Library Function

/-- What the bank's share of a block goes through next. -/
inductive BankAct where
  /-- The L2 handles the head of its request queue. -/
  | request
  /-- The L2 handles the `k`-th acknowledgement under way to it. -/
  | unblock (k : Nat)
  /-- The L2 picks the block as a victim (in VI_wt_ni, its data). -/
  | replace
  /-- The directory picks the block as a victim; VI_wt_ni only. -/
  | dirReplace
  /-- The L2 handles the data of a fetch. -/
  | memory
  deriving DecidableEq

/-- What can happen next to a block. -/
inductive BlockAct (ι : Type) where
  /-- The core of `i` issues an access of the warp `wid`. -/
  | core (i : ι) (type : CacheRequestType) (wid : Nat)
  /-- The L1 of `i` picks the block as a victim. -/
  | l1Replace (i : ι)
  /-- The L1 of `i` handles the `k`-th response under way to it. -/
  | l1Response (i : ι) (k : Nat)
  /-- The L1 of `i` handles the `k`-th invalidation under way to it. -/
  | l1Inv (i : ι) (k : Nat)
  /-- The request network delivers the oldest request of `i`. -/
  | arrive (i : ι)
  | l2 (act : BankAct)
  deriving DecidableEq

/-- One block throughout the system; `β` is what the bank keeps of it. -/
structure Block (ι β : Type) where
  l1 : ι → L1Line := fun _ => {}
  toL2 : ι → List (RequestMsg ι) := fun _ => []
  l1RequestToL2Cache : List (RequestMsg ι) := []
  bank : β
  responseToL1 : ι → List (ResponseMsg ι) := fun _ => []
  requestToL1 : ι → List (InvMsg ι) := fun _ => []
  unblockToL2Cache : List (AckMsg ι) := []
  nextUid : Nat := 0
  /-- History: the requests the L1s have sent. -/
  issued : List (RequestMsg ι) := []
  /-- History: the responses the L2 has sent. -/
  answers : List (ResponseMsg ι) := []
  /-- History: the L1s whose acknowledgement the L2 has taken in since it last invalidated. -/
  ackedBy : Finset ι := ∅

/-- A TBE of the L2, whose states are `σ`. -/
structure L2TBE (σ ι : Type) where
  tbeState : σ
  dirty : Bool := false
  l1GetSIDs : Finset ι := ∅
  l1WBAckID : Option ι := none
  space : MemorySpaceType := .NULL
  memfetch : Option (MemFetch ι) := none
  mfset : List (ι × MemFetch ι) := []
  pendingAcks : Int := 0
  deriving DecidableEq

/-- What a bank with the states `σ` keeps of a block: its cache and directory entries `ε`, its TBE,
and the number of its fetches from the DRAM under way. -/
structure Bank (σ ε ι : Type) where
  entry : ε
  tbe : Option (L2TBE σ ι) := none
  memReads : Nat := 0
  deriving DecidableEq

theorem mem_insert_sid {ι : Type} [DecidableEq ι] {ids : Finset ι} {mfset : List (ι × MemFetch ι)}
    (h : ∀ i, i ∈ ids ↔ ∃ x ∈ mfset, x.2.sid = i) (g : MemFetch ι) (i : ι) :
    i ∈ insert g.sid ids ↔ ∃ x ∈ mfset ++ [(g.sid, g)], x.2.sid = i := by
  simp only [Finset.mem_insert, h, List.mem_append, List.mem_singleton, or_and_right, exists_or,
    exists_eq_left]
  rw [or_comm, eq_comm]

/-! ## Common actions of the L2 -/

namespace L2

variable {ι β σ ε : Type} [DecidableEq ι]

/-- Enqueue a response: the network hands it to each of its destinations. -/
def send (m : ResponseMsg ι) (b : Block ι β) : Block ι β :=
  { b with
    responseToL1 := fun i =>
      if i ∈ m.destination then b.responseToL1 i ++ [m] else b.responseToL1 i
    answers := b.answers ++ [m] }

/-- Enqueue an invalidation. -/
def sendInv (m : InvMsg ι) (b : Block ι β) : Block ι β :=
  { b with
    requestToL1 := fun i =>
      if i ∈ m.destination then b.requestToL1 i ++ [m] else b.requestToL1 i
    ackedBy := ∅ }

/-- `peek(L1RequestIntraChipL2Network_in, RequestMsg)`. -/
@[simp] def peekRequest (b : Block ι β) (k : RequestMsg ι → Except Fault (Block ι β)) :
    Except Fault (Block ι β) :=
  match b.l1RequestToL2Cache with
  | inMsg :: _ => k inMsg
  | [] => .error .assertion

/-- `peek(L1unblockNetwork_in, ResponseMsg)`, for the `n`-th message. -/
@[simp] def peekUnblock (n : Nat) (b : Block ι β) (k : AckMsg ι → Except Fault (Block ι β)) :
    Except Fault (Block ι β) :=
  match b.unblockToL2Cache[n]? with
  | some inMsg => k inMsg
  | none => .error .assertion

/-- `L2_TBEs[address]`. -/
@[simp] def withTBE (b : Block ι (Bank σ ε ι)) (k : L2TBE σ ι → Except Fault (Block ι (Bank σ ε ι))) :
    Except Fault (Block ι (Bank σ ε ι)) :=
  match b.bank.tbe with
  | some t => k t
  | none => .error .assertion

@[simp] def setTBE (t : Option (L2TBE σ ι)) (b : Block ι (Bank σ ε ι)) : Block ι (Bank σ ε ι) :=
  { b with bank := { b.bank with tbe := t } }

@[simp] def setEntry (e : ε) (b : Block ι (Bank σ ε ι)) : Block ι (Bank σ ε ι) :=
  { b with bank := { b.bank with entry := e } }

/-- `check_allocate` and `L2_TBEs.allocate`. -/
@[simp] def allocateTBE (t : L2TBE σ ι) (b : Block ι (Bank σ ε ι)) : Except Fault (Block ι (Bank σ ε ι)) :=
  match b.bank.tbe with
  | some _ => .error .assertion
  | none => .ok (setTBE (some t) b)

def aIssueFetchToMemory : Action (Block ι (Bank σ ε ι)) := fun b =>
  peekRequest b fun _ => .ok { b with bank := { b.bank with memReads := b.bank.memReads + 1 } }

def aIssueFetchToMemoryForStore : Action (Block ι (Bank σ ε ι)) := aIssueFetchToMemory

/-- Send WB Ack from cache to requestor. -/
def deSendAckToRequestor : Action (Block ι β) := fun b =>
  peekRequest b fun inMsg => .ok <| send
    { type := .WB_ACK, destination := {inMsg.requestor}, memfetch := inMsg.memfetch } b

/-- Send Atomic data from cache to requestor. -/
def dsSendAtomicDataToRequestor : Action (Block ι β) := fun b =>
  peekRequest b fun inMsg => .ok <| send
    { type := .DATA_ATOMIC, destination := {inMsg.requestor}, memfetch := inMsg.memfetch } b

/-- Send ack from cache to GetX ID. -/
def eeSendAckToGetXRequestor : Action (Block ι (Bank σ ε ι)) := fun b =>
  withTBE b fun t => .ok <| send
    { type := .WB_ACK, destination := t.l1WBAckID.toFinset, memfetch := t.memfetch } b

/-- Send atomic data from cache to GetX ID. -/
def eSendAtomicDataToGetXRequestor : Action (Block ι (Bank σ ε ι)) := fun b =>
  withTBE b fun t => .ok <| send
    { type := .DATA_ATOMIC, destination := t.l1WBAckID.toFinset, memfetch := t.memfetch } b

def sDeallocateTBE : Action (Block ι (Bank σ ε ι)) := fun b =>
  withTBE b fun _ => .ok (setTBE none b)

def jjPopL1RequestQueue : Action (Block ι β) := fun b =>
  peekRequest b fun inMsg =>
    match inMsg.type with
    | .GETS | .DATA | .DATA_ATOMIC | .L1_EVIC_INV =>
      .ok { b with l1RequestToL2Cache := b.l1RequestToL2Cache.tail }
    | _ => .error (.error "Invalid CacheResponseType")

def qUpdateAck (n : Nat) : Action (Block ι (Bank σ ε ι)) := fun b =>
  peekUnblock n b fun inMsg => withTBE b fun t =>
    .ok (setTBE (some { t with pendingAcks := t.pendingAcks - inMsg.ackCount }) b)

def ouPopUnblockQueue (n : Nat) : Action (Block ι β) := fun b =>
  peekUnblock n b fun inMsg =>
    match inMsg.type with
    | .INV_ACK | .RECALL_ACK =>
      .ok { b with unblockToL2Cache := b.unblockToL2Cache.eraseIdx n
                   ackedBy := insert inMsg.sender b.ackedBy }
    | _ => .error (.error "Invalid response received")

def oPopIncomingResponseQueue : Action (Block ι (Bank σ ε ι)) := fun b =>
  require (0 < b.bank.memReads) { b with bank := { b.bank with memReads := b.bank.memReads - 1 } }

/-- Record the L1 of a merged load. -/
def ssRecordGetSL1ID : Action (Block ι (Bank σ ε ι)) := fun b =>
  peekRequest b fun inMsg => withTBE b fun t =>
    require (t.space = inMsg.space) <| setTBE (some { t with
      l1GetSIDs := insert inMsg.requestor t.l1GetSIDs
      mfset := t.mfset ++ (inMsg.memfetch.map fun g => (inMsg.requestor, g)).toList }) b

def xxRecordGetXL1ID : Action (Block ι (Bank σ ε ι)) := fun b =>
  peekRequest b fun inMsg => withTBE b fun t =>
    .ok (setTBE (some { t with l1WBAckID := some inMsg.requestor }) b)

end L2

/-! ## One block -/

variable {ι β : Type} [DecidableEq ι]

/-- What the L1 of `i` sees of its line. -/
def L1Line.ctx (ℓ : L1Line) (i : ι) (sharers : Finset ι) : L1Ctx ι where
  machineID := i
  entry := ℓ.entry
  tbe := ℓ.tbe
  readPending := ℓ.readPending
  trueSharers := sharers

/-- The L2 of a protocol: what it keeps of a block at first, and its controller. -/
structure BankController (ι β : Type) where
  init : β
  step : BankAct → Block ι β → Option (Except Fault (Block ι β))

namespace Block

variable [Fintype ι]

/-- `get_true_sharers`, by probing the L1s. -/
def getTrueSharers (b : Block ι β) : Finset ι := {i | (b.l1 i).entry.isSome}

/-- The block as the L1 of `i` sees it. -/
def l1Ctx (b : Block ι β) (i : ι) : L1Ctx ι := (b.l1 i).ctx i b.getTrueSharers

omit [Fintype ι] in
/-- Store what the L1 of `i` has done, and send its messages. -/
def putL1 (b : Block ι β) (i : ι) (c : L1Ctx ι) : Block ι β :=
  { b with
    l1 := update b.l1 i { entry := c.entry, tbe := c.tbe, readPending := c.readPending }
    toL2 := update b.toL2 i (b.toL2 i ++ c.requestFromL1Cache)
    unblockToL2Cache := b.unblockToL2Cache ++ c.unblockFromL1Cache
    issued := b.issued ++ c.requestFromL1Cache.filter fun m => m.type ≠ .L1_EVIC_INV }

/-- The core issues an access; a load waits at the MSHR while another one is outstanding. -/
def stepCore (p : L1.Protocol) (space : MemorySpaceType) (b : Block ι β) (i : ι)
    (type : CacheRequestType) (wid : Nat) : Option (Except Fault (Block ι β)) :=
  if type = .MEM_FENCE ∨ type = .LD ∧ (b.l1 i).readPending = true then none
  else some <|
    (L1.request p
      { type := type, space := space, threadID := wid,
        memfetch := { uid := b.nextUid, sid := i, wid := wid } } (b.l1Ctx i)).map
      fun c => { b.putL1 i c with nextUid := b.nextUid + 1 }

def stepL1Replace (p : L1.Protocol) (b : Block ι β) (i : ι) : Option (Except Fault (Block ι β)) :=
  match (b.l1 i).entry with
  | none => none
  | some _ => some <| ((L1.controller p).doTransition .l1Replacement (b.l1Ctx i)).map (b.putL1 i)

/-- The L1 handles a response, which leaves the network when the controller pops it. -/
def stepL1Response (p : L1.Protocol) (b : Block ι β) (i : ι) (k : Nat) :
    Option (Except Fault (Block ι β)) :=
  match (b.responseToL1 i)[k]? with
  | none => none
  | some m => some <| (L1.receive p m (b.l1Ctx i)).map fun c =>
      { b.putL1 i c with
        responseToL1 := update b.responseToL1 i <|
          if c.responseToL1Cache = none then (b.responseToL1 i).eraseIdx k else b.responseToL1 i }

def stepL1Inv (p : L1.Protocol) (b : Block ι β) (i : ι) (k : Nat) :
    Option (Except Fault (Block ι β)) :=
  match (b.requestToL1 i)[k]? with
  | none => none
  | some m => some <| (L1.invalidate p m (b.l1Ctx i)).map fun c =>
      { b.putL1 i c with
        requestToL1 := update b.requestToL1 i <|
          if c.requestToL1Cache = none then (b.requestToL1 i).eraseIdx k else b.requestToL1 i }

omit [Fintype ι] in
def stepArrive (b : Block ι β) (i : ι) : Option (Except Fault (Block ι β)) :=
  match b.toL2 i with
  | [] => none
  | m :: rest => some <| .ok
      { b with toL2 := update b.toL2 i rest
               l1RequestToL2Cache := b.l1RequestToL2Cache ++ [m] }

def step (p : L1.Protocol) (C : BankController ι β) (space : MemorySpaceType) (b : Block ι β) :
    BlockAct ι → Option (Except Fault (Block ι β))
  | .core i type wid => b.stepCore p space i type wid
  | .l1Replace i => b.stepL1Replace p i
  | .l1Response i k => b.stepL1Response p i k
  | .l1Inv i k => b.stepL1Inv p i k
  | .arrive i => b.stepArrive i
  | .l2 act => C.step act b

end Block

/-! ## All blocks -/

variable {α : Type} [DecidableEq α] [Fintype ι]

/-- The block of the address space `space`, as a component of the system. -/
def blockComponent (p : L1.Protocol) (C : BankController ι β) (space : MemorySpaceType) :
    Component (Block ι β) (BlockAct ι) Fault where
  init := { bank := C.init }
  tick := id
  step := Block.step p C space

/-- The blocks of the addresses `α`. An address belongs to one memory space: local memory is mapped
to addresses of its own. -/
def system (p : L1.Protocol) (C : BankController ι β) (space : α → MemorySpaceType) :
    Machine (α → Block ι β) (FamilyAct α (BlockAct ι)) Fault :=
  Component.family fun a => blockComponent p C (space a)

end GpgpuSimRuby.Ruby.ViWt
