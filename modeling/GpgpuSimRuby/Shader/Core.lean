import GpgpuSimRuby.Library.Machine
import GpgpuSimRuby.Shader.Instruction

/-!
# The memory pipeline of a shader core

`issue_warp`, the `ldst_unit` and what they share with the rest of `shader_core_ctx`: the
scoreboard, the memory barriers, the outstanding stores and the atomics of each warp. The operand
collector and the memory system are bags that give back what they hold in any order, and the answers
of the caches, the interconnect and the Ruby wrapper are part of the action.

The parts of `ldst_unit::cycle` are actions of their own. `issued`, `executed`, `completed` and
`released` record what has happened; the code does not read them.
-/

open Function (update)

namespace GpgpuSimRuby.Shader

open Library Ptx

inductive Scheduler where
  | looseRoundRobin | twoLevel
  deriving DecidableEq, Repr

structure Config where
  scheduler : Scheduler
  smid : Addr
  useRuby : Bool
  /-- is there an L1D? -/
  hasL1D : Bool
  gmemSkipL1D : Bool
  sendMemfenceToProtocol : Bool
  perfectMem : Bool

/-- A warp instruction in a pipeline register, with its `m_accessq`; the head is the back. -/
structure PipelineReg where
  inst : WarpInst
  accessq : List (Finset Nat)
  deriving DecidableEq

/-- A `mem_fetch`, with the instruction it copied and the lanes of its access. It is `replied` once it
has left the memory partition. -/
structure MemFetch where
  inst : WarpInst
  mask : Finset Nat
  replied : Bool
  deriving DecidableEq

/-- `m_pending_writes` of a warp. -/
abbrev PendingWrites := Nat → Option Nat

structure Core where
  nextUid : Nat
  threads : Nat → Nat → Thread
  membar : Nat → Bool
  storesOutstanding : Nat → Nat
  nAtomic : Nat → Nat
  regTable : Nat → Finset Nat
  /-- between `issue_warp` and the `ldst_unit` -/
  collector : List PipelineReg
  /-- in the other function units -/
  units : List WarpInst
  dispatchReg : Option PipelineReg
  /-- `m_pipeline_reg` of the `ldst_unit`, the oldest first -/
  pipelineReg : List WarpInst
  nextWb : Option WarpInst
  pendingWrites : Nat → PendingWrites
  /-- in the caches, the interconnect and the memory, Ruby's or not -/
  fetches : List MemFetch
  /-- the warps of the fences in Ruby -/
  memfences : List Nat
  issued : List WarpInst
  executed : Multiset Callback
  completed : List Nat
  released : List (Nat × Nat)

namespace PendingWrites

/-- `m_pending_writes[warp_id][reg_id] += n_accesses` for the registers of `out`. -/
def raise (n : Nat) (out : List Nat) (p : PendingWrites) : PendingWrites :=
  out.foldl (fun p r => update p r (some ((p r).getD 0 + n))) p

/-- `m_pending_writes[warp_id][reg_id]--` for the registers of `out`. -/
def lower : List Nat → PendingWrites → Except Fault PendingWrites
  | [], p => .ok p
  | r :: rs, p =>
    match p r with
    | some (n + 1) => lower rs (update p r (some n))
    | _ => .error .noPendingWrite

/-- The loop at the retirement of a load from the dispatch register: is a register still pending? The
entries that have come down to zero before the first that has not are erased. -/
def pendingRequests : List Nat → PendingWrites → Bool × PendingWrites
  | [], p => (false, p)
  | r :: rs, p =>
    match p r with
    | some (_ + 1) => (true, p)
    | some 0 => pendingRequests rs (update p r none)
    | none => pendingRequests rs p

end PendingWrites

namespace Core

def init : Core where
  nextUid := 0
  threads := fun _ _ => ⟨.undefined, none⟩
  membar := fun _ => false
  storesOutstanding := fun _ => 0
  nAtomic := fun _ => 0
  regTable := fun _ => ∅
  collector := []
  units := []
  dispatchReg := none
  pipelineReg := []
  nextWb := none
  pendingWrites := fun _ _ => none
  fetches := []
  memfences := []
  issued := []
  executed := 0
  completed := []
  released := []

variable (cfg : Config) (c : Core)

/-! ## The scoreboard -/

def checkCollision (warp : Nat) (i : Inst) : Prop := ∃ r ∈ i.out ++ i.uses, r ∈ c.regTable warp

instance (warp : Nat) (i : Inst) : Decidable (c.checkCollision warp i) :=
  inferInstanceAs (Decidable (∃ r ∈ _, _))

/-- `pendingWrites` of the scoreboard. -/
def hasPendingWrites (warp : Nat) : Prop := c.regTable warp ≠ ∅

instance (warp : Nat) : Decidable (c.hasPendingWrites warp) :=
  inferInstanceAs (Decidable (_ ≠ _))

def reserveRegister (warp r : Nat) : Except Fault Core := do
  assert (r ∉ c.regTable warp) .alreadyReserved
  .ok { c with regTable := update c.regTable warp (insert r (c.regTable warp)) }

def reserveRegisters (w : WarpInst) : Except Fault Core :=
  w.out.foldlM (fun c r => c.reserveRegister w.warp r) c

def releaseRegister (w : WarpInst) (r : Nat) : Core :=
  { c with
    regTable := update c.regTable w.warp ((c.regTable w.warp).erase r)
    released := (w.uid, r) :: c.released }

def releaseRegisters (w : WarpInst) : Core :=
  w.out.foldl (fun c r => c.releaseRegister w r) c

/-! ## The state of a warp -/

def warpMemBarrierWaitingForWrites (warp : Nat) (i : Inst) : Prop :=
  i.op = .memoryBarrier ∧ c.hasPendingWrites warp

instance (warp : Nat) (i : Inst) : Decidable (c.warpMemBarrierWaitingForWrites warp i) :=
  inferInstanceAs (Decidable (_ ∧ _))

/-- `waiting`: at a memory barrier, or for atomics. -/
def waiting (warp : Nat) : Prop := c.membar warp = true ∨ 0 < c.nAtomic warp

instance (warp : Nat) : Decidable (c.waiting warp) := inferInstanceAs (Decidable (_ ∨ _))

def setMembar (warp : Nat) : Core := { c with membar := update c.membar warp true }

def warpClearMemBarrier (warp : Nat) : Except Fault Core := do
  assert (c.membar warp = true) .noMembar
  .ok { c with membar := update c.membar warp false }

def incStoreReq (warp : Nat) : Core :=
  { c with storesOutstanding := update c.storesOutstanding warp (c.storesOutstanding warp + 1) }

def decStoreReq (warp : Nat) : Except Fault Core := do
  assert (0 < c.storesOutstanding warp) .noStore
  .ok { c with
    storesOutstanding := update c.storesOutstanding warp (c.storesOutstanding warp - 1) }

def decrementAtomicCount (warp n : Nat) : Except Fault Core := do
  assert (n ≤ c.nAtomic warp) .atomicUnderflow
  .ok { c with nAtomic := update c.nAtomic warp (c.nAtomic warp - n) }

def warpInstComplete (w : WarpInst) : Core := { c with completed := w.uid :: c.completed }

/-- The callbacks of the lanes of an access mask, if the instruction is an atomic. -/
def doAtomic (w : WarpInst) (mask : Finset Nat) : Except Fault Core :=
  if w.isatomic then do
    let executed ← w.doAtomic mask
    .ok { c with executed := c.executed + executed }
  else .ok c

/-! ## Issue -/

/-- What the scheduler asks of the next instruction of a warp. Only the loose round robin one keeps a
barrier waiting for the warp's pending writes. -/
def canIssue (warp : Nat) (i : Inst) : Prop :=
  ¬ c.waiting warp ∧
    match cfg.scheduler with
    | .looseRoundRobin => ¬ c.checkCollision warp i ∧ ¬ c.warpMemBarrierWaitingForWrites warp i
    | .twoLevel => ¬ c.checkCollision warp i

instance (warp : Nat) (i : Inst) : Decidable (c.canIssue cfg warp i) := by
  unfold canIssue
  cases cfg.scheduler <;> infer_instance

/-- `func_exec_inst`, up to the accesses. -/
def funcExecInst (warp : Nat) (i : Inst) (lanes : List Lane) : Except Fault Exec := do
  let x ← Exec.executeWarpInst cfg.smid i lanes
    ⟨.issue i warp (c.nextUid + 1) (lanes.map (·.id)).toFinset, c.threads warp, c.nAtomic warp⟩
  assert (x.inst.GeneratesAccesses → x.inst.space ∈ .shared :: MemorySpaces) .accessSpace
  .ok x

/-- The rest of `issue_warp`: the instruction goes to the function unit of its class. -/
def issueWarp (warp : Nat) (x : Exec) (accessq : List (Finset Nat)) : Except Fault Core := do
  let c := { c with
    nextUid := c.nextUid + 1
    threads := update c.threads warp x.threads
    nAtomic := update c.nAtomic warp x.nAtomic
    issued := x.inst :: c.issued }
  let c := if x.inst.op = .memoryBarrier then c.setMembar warp else c
  let c ← c.reserveRegisters x.inst
  .ok (if x.inst.op = .alu then { c with units := x.inst :: c.units }
    else { c with collector := ⟨x.inst, accessq⟩ :: c.collector })

/-- A scheduler issues an instruction, for an access queue that its addresses may give. -/
def issue (warp : Nat) (i : Inst) (lanes : List Lane) (accessq : List (Finset Nat)) :
    Option (Except Fault Core) :=
  if c.canIssue cfg warp i ∧ (lanes.map (·.id)).Pairwise (· < ·) then
    match c.funcExecInst cfg warp i lanes with
    | .error e => some (.error e)
    | .ok x => if x.inst.MemAccesses accessq then some (c.issueWarp warp x accessq) else none
  else none

/-- `shader_core_ctx::writeback` of an instruction that did not go to the `ldst_unit`. -/
def unitWriteback (n : Nat) : Option (Except Fault Core) :=
  c.units[n]?.map fun w =>
    .ok ({ c with units := c.units.eraseIdx n }.releaseRegisters w |>.warpInstComplete w)

/-! ## The load-store unit -/

/-- `ldst_unit::issue`. -/
def ldstIssue (n : Nat) : Option (Except Fault Core) :=
  if c.dispatchReg = none then
    c.collector[n]?.map fun p =>
      .ok { c with
        collector := c.collector.eraseIdx n
        dispatchReg := some p
        pendingWrites :=
          if p.inst.isLoad ∧ p.inst.space ≠ .shared then
            update c.pendingWrites p.inst.warp
              ((c.pendingWrites p.inst.warp).raise p.accessq.length p.inst.out)
          else c.pendingWrites }
  else none

/-- What a cache says to an access. Only stores are written through, and every store that misses is. -/
inductive CacheStatus where
  | hit (writeThrough : Bool)
  | miss
  | reservationFail
  deriving DecidableEq, Repr

/-- The stages of `ldst_unit::cycle` on the dispatch register: is the instruction done with them? -/
structure Stages where
  core : Core
  reg : PipelineReg
  done : Bool

namespace Stages

variable (x : Stages)

/-- The access at the back of the queue is sent, or merged with one that was. -/
def fetch (mask : Finset Nat) (replied : Bool) : Core :=
  { x.core with fetches := ⟨x.reg.inst, mask, replied⟩ :: x.core.fetches }

def sharedCycle (busy : Bool) : Except Fault Stages :=
  if x.reg.inst.space ≠ .shared then .ok x
  else .ok { x with done := x.done && !busy }

def processMemoryAccessQueue (status : CacheStatus) : Except Fault Stages :=
  match x.reg.accessq with
  | [] => .ok x
  | mask :: accessq =>
    let w := x.reg.inst
    let reg := { x.reg with accessq }
    match status with
    | .hit writeThrough =>
      let core := if w.isStore && writeThrough then (x.fetch mask false).incStoreReq w.warp else x.core
      if w.isLoad then do
        let p ← (core.pendingWrites w.warp).lower w.out
        .ok { x with reg, core := { core with pendingWrites := update core.pendingWrites w.warp p } }
      else .ok { x with reg, core }
    | .miss =>
      let core := x.fetch mask false
      .ok { x with reg, core := if w.isStore then core.incStoreReq w.warp else core }
    | .reservationFail => .ok x

/-- `constant_cycle` and `texture_cycle`, for the spaces of the cache. -/
def cacheCycle (spaces : List MemorySpace) (status : CacheStatus) : Except Fault Stages :=
  if x.reg.inst.space ∉ spaces ∨ x.reg.inst.active = ∅ then .ok x
  else do
    let x ← x.processMemoryAccessQueue status
    .ok { x with done := x.done && x.reg.accessq.isEmpty }

def constantCycle (status : CacheStatus) : Except Fault Stages :=
  x.cacheCycle [.const, .paramKernel] status

def textureCycle (status : CacheStatus) : Except Fault Stages := x.cacheCycle [.tex] status

end Stages

/-- Does an access to global or local memory go past the L1D? -/
def bypassL1D (w : WarpInst) : Bool :=
  w.cacheOp = .global || !cfg.hasL1D || cfg.useRuby || (w.space = .global && cfg.gmemSkipL1D)

namespace Stages

variable (x : Stages)

/-- `m_icnt->push` of an access. A perfect memory executes an atomic on the spot. -/
def push (mask : Finset Nat) : Except Fault Core :=
  if cfg.perfectMem ∧ cfg.useRuby = false then (x.fetch mask true).doAtomic x.reg.inst mask
  else .ok (x.fetch mask false)

/-- The accesses that `memory_cycle` sends past the L1D, to the interconnect or to Ruby. -/
def bypass (busy : Bool) : Except Fault Stages :=
  match x.reg.accessq with
  | [] => .error .emptyAccessq
  | mask :: accessq =>
    let w := x.reg.inst
    if busy then .ok x
    else do
      let core ← x.push cfg mask
      if w.isLoad then do
        assert (∀ r ∈ w.out, 0 < (core.pendingWrites w.warp r).getD 0) .noPendingWrite
        .ok { x with reg := { x.reg with accessq }, core }
      else .ok { x with
        reg := { x.reg with accessq }
        core := if w.isStore then core.incStoreReq w.warp else core }

def memoryCycle (busy : Bool) (status : CacheStatus) : Except Fault Stages :=
  let w := x.reg.inst
  if w.space ∉ [MemorySpace.global, .local, .paramLocal] ∨ w.active = ∅ then .ok x
  else do
    assert (x.reg.accessq ≠ []) .emptyAccessq
    assert (bypassL1D cfg w = true ∨ w.cacheOp ≠ .undefined) .undefinedCacheOp
    let x ← (if bypassL1D cfg w then x.bypass cfg busy else x.processMemoryAccessQueue status)
    .ok { x with done := x.done && x.reg.accessq.isEmpty }

def membarCycle (busy : Bool) : Except Fault Stages :=
  let w := x.reg.inst
  if w.isMembar = false then .ok x
  else if cfg.useRuby && cfg.sendMemfenceToProtocol then
    if busy then .ok { x with done := false }
    else .ok { x with core := { x.core with memfences := w.warp :: x.core.memfences } }
  else do
    let core ← x.core.warpClearMemBarrier w.warp
    .ok { x with core }

end Stages

/-- The instruction in the dispatch register is through with the stages. -/
def retire (p : PipelineReg) : Core :=
  let w := p.inst
  if w.isLoad then
    if w.space = .shared then
      { c with pipelineReg := c.pipelineReg ++ [w], dispatchReg := none }
    else
      let (pendingRequests, pending) := (c.pendingWrites w.warp).pendingRequests w.out
      let c := { c with pendingWrites := update c.pendingWrites w.warp pending }
      let c := if pendingRequests then c else (c.warpInstComplete w).releaseRegisters w
      { c with dispatchReg := none }
  else
    -- stores exit pipeline here
    { c.warpInstComplete w with dispatchReg := none }

/-- The part of `ldst_unit::cycle` that serves the dispatch register. The interconnect, the Ruby wrapper
or the shared memory may be busy. -/
def cycle (busy : Bool) (status : CacheStatus) : Option (Except Fault Core) :=
  c.dispatchReg.map fun p => do
    let x ← Stages.sharedCycle ⟨c, p, true⟩ busy
    let x ← x.constantCycle status
    let x ← x.textureCycle status
    let x ← x.memoryCycle cfg busy status
    let x ← x.membarCycle cfg busy
    .ok (if x.done then x.core.retire x.reg else { x.core with dispatchReg := some x.reg })

/-! ## Writeback -/

/-- A register of `m_next_wb`: has the instruction completed with it or one before it? -/
def writebackRegister (w : WarpInst) (x : Core × Bool) (r : Nat) : Except Fault (Core × Bool) :=
  if w.space ≠ .shared then
    match x.1.pendingWrites w.warp r with
    | some (stillPending + 1) =>
      let pending := x.1.pendingWrites w.warp
      if stillPending = 0 then
        .ok ({ x.1 with
          pendingWrites := update x.1.pendingWrites w.warp (update pending r none)
          }.releaseRegister w r, true)
      else
        .ok ({ x.1 with
          pendingWrites := update x.1.pendingWrites w.warp
            (update pending r (some stillPending)) }, x.2)
    | _ => .error .noPendingWrite
  else .ok (x.1.releaseRegister w r, true)

/-- The first part of `ldst_unit::writeback`: the instruction in `m_next_wb` is written back. -/
def writeback : Option (Except Fault Core) :=
  c.nextWb.map fun w => do
    let x ← w.out.foldlM (writebackRegister w) ({ c with nextWb := none }, false)
    .ok (if x.2 then x.1.warpInstComplete w else x.1)

/-- The writeback client of the shared memory. -/
def serviceShared : Option (Except Fault Core) :=
  match c.nextWb, c.pipelineReg with
  | none, w :: rest => some do
    let c ← c.doAtomic w w.active
    let c ← (if w.isatomic then c.decrementAtomicCount w.warp w.active.card else .ok c)
    .ok { c with nextWb := some w, pipelineReg := rest }
  | _, _ => none

/-- A writeback client of Ruby takes a reply. -/
def serviceRuby (f : MemFetch) : Except Fault Core := do
  let c ← (if f.inst.isStore then c.decStoreReq f.inst.warp else .ok c)
  let c ← c.doAtomic f.inst f.mask
  let c ← (if f.inst.isatomic then c.decrementAtomicCount f.inst.warp f.mask.card else .ok c)
  .ok { c with nextWb := some f.inst }

/-- The writeback clients of the texture, constant and L1D caches, of uncached accesses and of Ruby. -/
def serviceFetch (n : Nat) : Option (Except Fault Core) :=
  match c.nextWb, c.fetches[n]? with
  | none, some f =>
    let w := f.inst
    let c := { c with fetches := c.fetches.eraseIdx n }
    if w.space ∈ [MemorySpace.const, .paramKernel, .tex] then some (.ok { c with nextWb := some w })
    else if cfg.useRuby then some (c.serviceRuby f)
    else if w.isStore then none
    else if bypassL1D cfg w then
      if f.replied then some do
        let c ← (if w.isatomic then c.decrementAtomicCount w.warp f.mask.card else .ok c)
        .ok { c with nextWb := some w }
      else none
    else some (.ok { c with nextWb := some w })
  | _, _ => none

/-- The writeback client of the memory fences. -/
def serviceMemfence (n : Nat) : Option (Except Fault Core) :=
  if c.nextWb = none then
    c.memfences[n]?.map fun warp => { c with memfences := c.memfences.eraseIdx n }.warpClearMemBarrier warp
  else none

/-- `memory_partition_unit::pop`: an access leaves the memory partition, where atomics are executed. -/
def reply (n : Nat) : Option (Except Fault Core) :=
  match cfg.useRuby, c.fetches[n]? with
  | false, some f =>
    if f.replied then none
    else some ({ c with fetches := c.fetches.set n { f with replied := true } }.doAtomic f.inst f.mask)
  | _, _ => none

/-- The acknowledgement of a store reaches the response queue. -/
def storeAck (n : Nat) : Option (Except Fault Core) :=
  match cfg.useRuby, c.fetches[n]? with
  | false, some f =>
    if f.inst.isStore then
      some ({ c with fetches := c.fetches.eraseIdx n }.decStoreReq f.inst.warp)
    else none
  | _, _ => none

end Core

inductive Act where
  | issue (warp : Nat) (i : Inst) (lanes : List Lane) (accessq : List (Finset Nat))
  | unitWriteback (n : Nat)
  | ldstIssue (n : Nat)
  | cycle (busy : Bool) (status : Core.CacheStatus)
  | writeback
  | serviceShared
  | serviceFetch (n : Nat)
  | serviceMemfence (n : Nat)
  | reply (n : Nat)
  | storeAck (n : Nat)

/-- The memory pipeline of a core. -/
def core (cfg : Config) : Machine Core Act Fault where
  init := .init
  step c
    | .issue warp i lanes accessq => c.issue cfg warp i lanes accessq
    | .unitWriteback n => c.unitWriteback n
    | .ldstIssue n => c.ldstIssue n
    | .cycle busy status => c.cycle cfg busy status
    | .writeback => c.writeback
    | .serviceShared => c.serviceShared
    | .serviceFetch n => c.serviceFetch cfg n
    | .serviceMemfence n => c.serviceMemfence n
    | .reply n => c.reply cfg n
    | .storeAck n => c.storeAck cfg n

end GpgpuSimRuby.Shader
