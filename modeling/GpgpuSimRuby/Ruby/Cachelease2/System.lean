import GpgpuSimRuby.Ruby.Cachelease2.L2Cache

/-!
# cachelease2: the system

The L1s, the L2 bank, the two networks and the memory, put together. A `BlockAct` is one of the
things that can happen next to a block; which one does is the business of the environment (the
cores, the replacement policy, the latencies of the networks), so a property of all runs is a
property of all interleavings.

* `Block.step` — the step function of one block in one of the three protocols (`Config`).
* `system` — all blocks under one clock.

The MSHR of the GPU side is part of the environment: it keeps a second load of the same block back
while the L1 still waits for the first.
-/

namespace GpgpuSimRuby.Ruby.Cachelease2

open Library Function

/-- The three protocols that share `cachelease2-msg.sm`. -/
inductive Variant where
  | cachelease2 | cachelease2oo | cachelease2uo
  deriving DecidableEq, Repr

/-- The protocol and its parameters: the lease every load asks for, and `RECYCLE_LATENCY`. -/
structure Config where
  variant : Variant
  fixedLease : Nat
  recycleLatency : Nat := 10

/-- What can happen next to a block. -/
inductive BlockAct (ι : Type) where
  /-- The core of `i` issues an access of the warp `wid`. -/
  | core (i : ι) (type : CacheRequestType) (wid : Nat)
  /-- The L1 of `i` picks the block as a victim. -/
  | l1Replace (i : ι)
  /-- The L1 of `i` handles the `k`-th response under way to it. -/
  | l1Response (i : ι) (k : Nat)
  /-- The request network delivers the oldest request of `i`. -/
  | arrive (i : ι)
  /-- The L2 handles the head of its request queue. -/
  | l2Request
  /-- The L2 picks the block as a victim. -/
  | l2Replace
  /-- The L2 handles the head of the expire queue. -/
  | l2Expire
  /-- The L2 handles the data of a fetch. -/
  | l2Memory
  /-- A recycled request is due again. -/
  | requeue (k : Nat)
  deriving DecidableEq

variable {ι : Type} [DecidableEq ι]

/-! ## The controllers of a variant -/

namespace Config

/-- Where a write hit in `S` goes: `SM`, except in cachelease2uo. -/
def wthruNext (cfg : Config) : L1State :=
  match cfg.variant with
  | .cachelease2 | .cachelease2oo => .SM
  | .cachelease2uo => .I_I

def l1Controller (cfg : Config) : Controller L1State L1Event (L1Ctx ι) :=
  L1.controllerWith cfg.wthruNext cfg.fixedLease

def l2Transitions (cfg : Config) : L2State → L2Event → Option (Transition L2State (Block ι)) :=
  match cfg.variant with
  | .cachelease2 => L2.transitions
  | .cachelease2oo => L2.transitionsOo cfg.recycleLatency
  | .cachelease2uo => L2.transitionsUo

def l2Controller (cfg : Config) : Controller L2State L2Event (Block ι) where
  getState := L2.getState
  setState := L2.setState
  transitions := cfg.l2Transitions

def requestEvent (cfg : Config) (b : Block ι) (inMsg : RequestMsg ι) : Except Fault L2Event :=
  match cfg.variant with
  | .cachelease2 | .cachelease2oo => L2.l1CacheRequestTypeToEvent b inMsg
  | .cachelease2uo => L2.l1CacheRequestTypeToEventUo b inMsg

/-- `in_port(memQueue_in, …)`: with several readers waiting the block goes to `SS`, except in
cachelease2uo, which has no `SS`. -/
def memoryEvent (cfg : Config) (t : L2TBE ι) : L2Event :=
  match cfg.variant with
  | .cachelease2 | .cachelease2oo => if 1 < t.l1GetSIDs.card then .memDataSS else .memData
  | .cachelease2uo => .memData

end Config

/-! ## One block -/

/-- What the L1 of `i` sees of its line. -/
def L1Line.ctx (ℓ : L1Line ι) (now : Nat) (i : ι) : L1Ctx ι where
  now := now
  machineID := i
  entry := ℓ.entry
  tbe := ℓ.tbe
  readPending := ℓ.readPending

namespace Block

/-- The block as the L1 of `i` sees it. -/
def l1Ctx (b : Block ι) (i : ι) : L1Ctx ι := (b.l1 i).ctx b.now i

/-- Does the request carry a store or an atomic? -/
def isWrite (m : RequestMsg ι) : Bool := m.type ≠ .GETS

/-- Store what the L1 of `i` has done, and send its requests. -/
def putL1 (b : Block ι) (i : ι) (c : L1Ctx ι) : Block ι :=
  { b with
    l1 := update b.l1 i { entry := c.entry, tbe := c.tbe, readPending := c.readPending }
    toL2 := update b.toL2 i (b.toL2 i ++ c.requestFromL1Cache)
    sentWrites := update b.sentWrites i
      (b.sentWrites i ++ (c.requestFromL1Cache.filter isWrite).map (·.memfetch)) }

/-- The core issues an access; a load waits at the MSHR while another one is outstanding. -/
def stepCore (cfg : Config) (space : MemorySpaceType) (b : Block ι) (i : ι)
    (type : CacheRequestType) (wid : Nat) : Option (Except Fault (Block ι)) :=
  if type = .LD ∧ (b.l1 i).readPending = true then none
  else some <|
    (L1.request cfg.l1Controller
      { type := type, space := space, threadID := wid,
        memfetch := { uid := b.nextUid, sid := i, wid := wid } } (b.l1Ctx i)).map
      fun c => { b.putL1 i c with nextUid := b.nextUid + 1 }

def stepL1Replace (cfg : Config) (b : Block ι) (i : ι) : Option (Except Fault (Block ι)) :=
  match (b.l1 i).entry with
  | none => none
  | some _ => some <| (cfg.l1Controller.doTransition .l1Replacement (b.l1Ctx i)).map (b.putL1 i)

/-- The L1 handles a response, which leaves the network when the controller pops it. -/
def stepL1Response (cfg : Config) (b : Block ι) (i : ι) (k : Nat) :
    Option (Except Fault (Block ι)) :=
  match (b.responseToL1 i)[k]? with
  | none => none
  | some m => some <| (L1.receive cfg.l1Controller m (b.l1Ctx i)).map fun c =>
      { b.putL1 i c with
        responseToL1 := update b.responseToL1 i <|
          if c.responseToL1Cache = none then (b.responseToL1 i).eraseIdx k else b.responseToL1 i }

def stepArrive (b : Block ι) (i : ι) : Option (Except Fault (Block ι)) :=
  match b.toL2 i with
  | [] => none
  | m :: rest => some <| .ok
      { b with toL2 := update b.toL2 i rest
               l1RequestToL2Cache := b.l1RequestToL2Cache ++ [m] }

def stepL2Request (cfg : Config) (b : Block ι) : Option (Except Fault (Block ι)) :=
  match b.l1RequestToL2Cache with
  | [] => none
  | m :: _ => some <|
    match cfg.requestEvent b m with
    | .ok event => cfg.l2Controller.doTransition event b
    | .error e => .error e

def stepL2Replace (cfg : Config) (b : Block ι) : Option (Except Fault (Block ι)) :=
  match b.entry with
  | none => none
  | some e => some <| cfg.l2Controller.doTransition
      (if e.dirty then .l2Replacement else .l2ReplacementClean) b

def stepL2Expire (cfg : Config) (b : Block ι) : Option (Except Fault (Block ι)) :=
  match b.l2ExpireTriggerQueue with
  | [] => none
  | t :: _ =>
    if t ≤ b.now then some <|
      if b.tbe = none then .error .assertion else cfg.l2Controller.doTransition .l2Expire b
    else none

def stepL2Memory (cfg : Config) (b : Block ι) : Option (Except Fault (Block ι)) :=
  if b.memReads = 0 then none
  else some <|
    match b.tbe with
    | none => .error .assertion
    | some t => cfg.l2Controller.doTransition (cfg.memoryEvent t) b

def stepRequeue (b : Block ι) (k : Nat) : Option (Except Fault (Block ι)) :=
  match b.recycled[k]? with
  | none => none
  | some (due, m) =>
    if due ≤ b.now then some <| .ok
      { b with recycled := b.recycled.eraseIdx k
               l1RequestToL2Cache := b.l1RequestToL2Cache ++ [m] }
    else none

def step (cfg : Config) (space : MemorySpaceType) (b : Block ι) :
    BlockAct ι → Option (Except Fault (Block ι))
  | .core i type wid => b.stepCore cfg space i type wid
  | .l1Replace i => b.stepL1Replace cfg i
  | .l1Response i k => b.stepL1Response cfg i k
  | .arrive i => b.stepArrive i
  | .l2Request => b.stepL2Request cfg
  | .l2Replace => b.stepL2Replace cfg
  | .l2Expire => b.stepL2Expire cfg
  | .l2Memory => b.stepL2Memory cfg
  | .requeue k => b.stepRequeue k

def tick (b : Block ι) : Block ι := { b with now := b.now + 1 }

end Block

/-! ## All blocks -/

variable {α : Type} [DecidableEq α]

/-- The block of the address space `space`, as a component of the system. -/
def blockComponent (ι : Type) [DecidableEq ι] (cfg : Config) (space : MemorySpaceType) :
    Component (Block ι) (BlockAct ι) Fault where
  init := {}
  tick := Block.tick
  step := Block.step cfg space

/-- The blocks of the addresses `α`. An address belongs to one memory space: local memory is mapped
to addresses of its own. -/
def system (ι : Type) [DecidableEq ι] (cfg : Config) (space : α → MemorySpaceType) :
    Machine (α → Block ι) (FamilyAct α (BlockAct ι)) Fault :=
  Component.family fun a => blockComponent ι cfg (space a)

end GpgpuSimRuby.Ruby.Cachelease2
