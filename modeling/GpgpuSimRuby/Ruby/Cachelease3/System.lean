import GpgpuSimRuby.Ruby.Cachelease3.L2Cache

/-!
# cachelease3: the system

The L1s, the L2 bank, the two networks and the memory, put together.

* `Block.step` — what can happen next to one block. Which of the things does is the business of the
  environment (the cores, the predictors, the replacement policy, the latencies of the networks), so
  a property of all runs is a property of all interleavings.
* `system` — all blocks under one clock, together with what an L1 keeps for its warps and not for a
  block: the completion times of their writes and the fences that wait for them.

A fence is an event of a dummy block, which no access ever touches (the interface to the GPU side
asserts that): neither the cache nor the TBEs of the L1 know it.

The MSHR of the GPU side is part of the environment: it keeps a second load of the same block back
while the L1 still waits for the first.
-/

namespace GpgpuSimRuby.Ruby.Cachelease3

open Library Function

variable {ι : Type} [DecidableEq ι]

/-- What can happen next to a block. -/
inductive BlockAct (ι : Type) where
  /-- The core of `i` issues an access of the warp `wid`; a load asks for `delta` cycles. -/
  | core (i : ι) (type : CacheRequestType) (wid delta : Nat)
  /-- The L1 of `i` picks the block as a victim. -/
  | l1Replace (i : ι)
  /-- The L1 of `i` handles the `k`-th response under way to it. -/
  | l1Response (i : ι) (k : Nat)
  /-- The L1 of `i` handles an ideal invalidation. -/
  | l1Reset (i : ι)
  /-- The request network delivers the oldest request of `i`. -/
  | arrive (i : ι)
  /-- The L2 handles the head of its request queue. -/
  | l2Request
  /-- The L2 picks the block as a victim. -/
  | l2Replace
  /-- The L2 handles the `k`-th message of the expire queue. -/
  | l2Expire (k : Nat)
  /-- The L2 handles the data of a fetch. -/
  | l2Memory
  deriving DecidableEq

/-! ## One block -/

/-- What the L1 of `i` sees of its line. -/
def L1Line.ctx (ℓ : L1Line ι) (now : Nat) (i : ι) (gw : Nat → Nat) : L1Ctx ι where
  now := now
  machineID := i
  entry := ℓ.entry
  tbe := ℓ.tbe
  readPending := ℓ.readPending
  globalWrites := gw

/-- The completion times of the writes, of each L1 and warp. -/
abbrev GlobalWrites (ι : Type) := ι → Nat → Nat

/-- The outcome of a step: it is not enabled, it faults, or it leaves a block and the completion
times behind. -/
abbrev StepResult (ι : Type) := Option (Except Fault (Block ι × GlobalWrites ι))

namespace Block

/-- The block as the L1 of `i` sees it. -/
def l1Ctx (b : Block ι) (gw : GlobalWrites ι) (i : ι) : L1Ctx ι := (b.l1 i).ctx b.now i (gw i)

/-- Store what the L1 of `i` has done, and send its requests. -/
def putL1 (b : Block ι) (i : ι) (c : L1Ctx ι) : Block ι :=
  { b with
    l1 := update b.l1 i { entry := c.entry, tbe := c.tbe, readPending := c.readPending }
    toL2 := update b.toL2 i (b.toL2 i ++ c.requestFromL1Cache)
    acked := b.acked ++ c.writeCallback }

/-- The core issues an access; a load waits at the MSHR while another one is outstanding. -/
def stepCore (space : MemorySpaceType) (gw : GlobalWrites ι) (b : Block ι) (i : ι)
    (type : CacheRequestType) (wid delta : Nat) : StepResult ι :=
  if type = .MEM_FENCE ∨ type = .LD ∧ (b.l1 i).readPending = true then none
  else some <|
    (L1.request delta
      { type := type, space := space, threadID := wid,
        memfetch := { uid := b.nextUid, sid := i, wid := wid } } (b.l1Ctx gw i)).map
      fun c => ({ b.putL1 i c with nextUid := b.nextUid + 1 },
        update gw i c.globalWrites)

def stepL1Replace (gw : GlobalWrites ι) (b : Block ι) (i : ι) : StepResult ι :=
  match (b.l1 i).entry with
  | none => none
  | some _ => some <| ((L1.controller 0).doTransition .l1Replacement (b.l1Ctx gw i)).map
      fun c => (b.putL1 i c, update gw i c.globalWrites)

/-- The L1 handles a response, which leaves the network when the controller pops it. -/
def stepL1Response (gw : GlobalWrites ι) (b : Block ι) (i : ι) (k : Nat) : StepResult ι :=
  match (b.responseToL1 i)[k]? with
  | none => none
  | some m => some <| (L1.receive m (b.l1Ctx gw i)).map fun c =>
      ({ b.putL1 i c with
         responseToL1 := update b.responseToL1 i <|
           if c.responseToL1Cache = none then (b.responseToL1 i).eraseIdx k
           else b.responseToL1 i },
       update gw i c.globalWrites)

def stepL1Reset (gw : GlobalWrites ι) (b : Block ι) (i : ι) : StepResult ι :=
  if b.idealInvQueue i = 0 then none
  else some <| (L1.idealInvalidate (b.l1Ctx gw i)).map fun c =>
      ({ b.putL1 i c with
         idealInvQueue := update b.idealInvQueue i <|
           if c.idealInv then b.idealInvQueue i else b.idealInvQueue i - 1 },
       update gw i c.globalWrites)

def stepArrive (b : Block ι) (i : ι) : Option (Except Fault (Block ι)) :=
  match b.toL2 i with
  | [] => none
  | m :: rest => some <| .ok
      { b with toL2 := update b.toL2 i rest
               l1RequestToL2Cache := b.l1RequestToL2Cache ++ [m] }

def stepL2Request (mode : L2.Mode) (b : Block ι) : Option (Except Fault (Block ι)) :=
  match b.l1RequestToL2Cache with
  | [] => none
  | m :: _ => some <|
    match L2.l1CacheRequestTypeToEvent b m with
    | .ok event => (L2.controller mode 0).doTransition event b
    | .error e => .error e

def stepL2Replace (mode : L2.Mode) (b : Block ι) : Option (Except Fault (Block ι)) :=
  match b.entry with
  | none => none
  | some e => some <| (L2.controller mode 0).doTransition
      (if e.dirty then .l2Replacement else .l2ReplacementClean) b

/-- `in_port(L2ExpireTriggerQueue_in, …)`: an expire message that no longer fits the TBE is dropped. -/
def stepL2Expire (mode : L2.Mode) (b : Block ι) (k : Nat) : Option (Except Fault (Block ι)) :=
  match b.l2ExpireTriggerQueue[k]? with
  | none => none
  | some expireTime =>
    if expireTime ≤ b.now then some <|
      if L2.getState b = .MI ∧ ∀ t ∈ b.tbe, t.liveUntilTime < expireTime then
        (L2.controller mode k).doTransition .l2Expire b
      else .ok { b with l2ExpireTriggerQueue := b.l2ExpireTriggerQueue.eraseIdx k }
    else none

def stepL2Memory (mode : L2.Mode) (b : Block ι) : Option (Except Fault (Block ι)) :=
  if b.memReads = 0 then none
  else some <|
    match b.tbe with
    | none => .error .assertion
    | some t => (L2.controller mode 0).doTransition (L2.memoryEvent t) b

/-- A step that leaves the completion times alone. -/
def withGlobalWrites (gw : GlobalWrites ι) (r : Option (Except Fault (Block ι))) : StepResult ι :=
  r.map fun x => x.map fun b => (b, gw)

def step (mode : L2.Mode) (space : MemorySpaceType) (gw : GlobalWrites ι) (b : Block ι) :
    BlockAct ι → StepResult ι
  | .core i type wid delta => b.stepCore space gw i type wid delta
  | .l1Replace i => b.stepL1Replace gw i
  | .l1Response i k => b.stepL1Response gw i k
  | .l1Reset i => b.stepL1Reset gw i
  | .arrive i => withGlobalWrites gw (b.stepArrive i)
  | .l2Request => withGlobalWrites gw (b.stepL2Request mode)
  | .l2Replace => withGlobalWrites gw (b.stepL2Replace mode)
  | .l2Expire k => withGlobalWrites gw (b.stepL2Expire mode k)
  | .l2Memory => withGlobalWrites gw (b.stepL2Memory mode)

def tick (b : Block ι) : Block ι := { b with now := b.now + 1 }

end Block

/-! ## All blocks -/

variable {α : Type} [DecidableEq α]

/-- History: a fence, with the writes of its warp that had been acknowledged when it was issued. -/
structure Fence (α ι : Type) where
  sid : ι
  wid : Nat
  completeTime : Nat
  before : α → List (MemFetch ι)

/-- The system: the blocks of the addresses `α`, and the warps' share of every L1. -/
structure Sys (α ι : Type) where
  now : Nat := startTime
  block : α → Block ι := fun _ => {}
  globalWrites : GlobalWrites ι := fun _ _ => 0
  fenceTriggerQueue : ι → List FenceTriggerMsg := fun _ => []
  /-- History: the fences issued so far. -/
  fences : List (Fence α ι) := []

/-- What can happen next. -/
inductive SysAct (α ι : Type) where
  | tick
  | block (a : α) (act : BlockAct ι)
  /-- The core of `i` issues a fence of the warp `wid`. -/
  | fence (i : ι) (wid : Nat)
  /-- The L1 of `i` handles the `k`-th message of its trigger queue. -/
  | fenceAck (i : ι) (k : Nat)

namespace Sys

/-- The dummy block, as the L1 of `i` sees it. -/
def dummyCtx (s : Sys α ι) (i : ι) : L1Ctx ι :=
  { now := s.now, machineID := i, globalWrites := s.globalWrites i }

/-- The acknowledged writes of the warp `wid` of `i`. -/
def ackedBy (s : Sys α ι) (i : ι) (wid : Nat) (a : α) : List (MemFetch ι) :=
  (s.block a).acked.filter fun w => w.sid = i ∧ w.wid = wid

def stepFence (s : Sys α ι) (i : ι) (wid : Nat) : Option (Except Fault (Sys α ι)) :=
  some <| (L1.request 0
    { type := .MEM_FENCE, space := .NULL, threadID := wid, memfetch := ⟨0, i, wid⟩ }
    (s.dummyCtx i)).map fun c =>
      { s with
        fenceTriggerQueue := update s.fenceTriggerQueue i
          (s.fenceTriggerQueue i ++ c.fenceTriggerOut)
        fences := s.fences ++ c.fenceTriggerOut.map fun m =>
          { sid := i, wid := m.threadID, completeTime := m.fenceCompleteTime,
            before := s.ackedBy i wid } }

def stepFenceAck (s : Sys α ι) (i : ι) (k : Nat) : Option (Except Fault (Sys α ι)) :=
  match (s.fenceTriggerQueue i)[k]? with
  | none => none
  | some m =>
    if m.fenceCompleteTime ≤ s.now then some <|
      (L1.fenceTrigger m (s.dummyCtx i)).map fun c =>
        { s with
          fenceTriggerQueue := update s.fenceTriggerQueue i <|
            if c.fenceTrigger = none then (s.fenceTriggerQueue i).eraseIdx k
            else s.fenceTriggerQueue i }
    else none

def step (mode : L2.Mode) (space : α → MemorySpaceType) (s : Sys α ι) :
    SysAct α ι → Option (Except Fault (Sys α ι))
  | .tick => some <| .ok { s with now := s.now + 1, block := fun a => (s.block a).tick }
  | .block a act => ((s.block a).step mode (space a) s.globalWrites act).map fun r => r.map fun p =>
      { s with block := update s.block a p.1, globalWrites := p.2 }
  | .fence i wid => s.stepFence i wid
  | .fenceAck i k => s.stepFenceAck i k

end Sys

/-- The blocks of the addresses `α`. An address belongs to one memory space: local memory is mapped
to addresses of its own. -/
def system (ι : Type) [DecidableEq ι] (mode : L2.Mode) (space : α → MemorySpaceType) :
    Machine (Sys α ι) (SysAct α ι) Fault where
  init := {}
  step := Sys.step mode space

end GpgpuSimRuby.Ruby.Cachelease3
