import GpgpuSimRuby.Library.Runs
import GpgpuSimRuby.Shader.Arbiter
import GpgpuSimRuby.Shader.RegisterSet

/-!
# The operand collector

`opndcoll_rfu_t` takes instructions from its input ports into collector units, reads their source
registers from the banks, one register a bank and cycle, and moves an instruction on when it has
them all.

The register sets of the ports belong to the pipeline, which moves instructions in and out between
the calls. A history keeps what has been moved where.
-/

namespace GpgpuSimRuby.Shader.OperandCollector

open Library Function

variable {d : Dims}

/-! ## Data -/

/-- What the collector reads of a `warp_inst_t`, with the registers of `arch_reg`. -/
structure WarpInst where
  uid : Nat
  warpId : Nat
  src : Fin maxRegOperands → Int
  dst : Fin maxRegOperands → Int
  deriving DecidableEq

/-- The register of a source operand, if the instruction has it. -/
def WarpInst.sourceReg (w : WarpInst) (i : OperandIdx) : Option Nat :=
  if h : i.val < maxRegOperands then
    if 0 ≤ w.src ⟨i.val, h⟩ then some (w.src ⟨i.val, h⟩).toNat else none
  else none

/-- `get_regs_written`. -/
def WarpInst.regsWritten (w : WarpInst) : List Nat :=
  (List.finRange maxRegOperands).filterMap fun op =>
    if 0 ≤ w.dst op then some (w.dst op).toNat else none

/-- `register_bank`. -/
def registerBank (d : Dims) (bankWarpShift regnum wid : Nat) : Fin d.numBanks :=
  ⟨(if bankWarpShift ≠ 0 then regnum + wid else regnum) % d.numBanks, Nat.mod_lt _ d.numBanks_pos⟩

/-- `input_port_t`, with the register sets of `m_in` and `m_out` side by side. -/
structure Port where
  regs : List (Nat × Nat)
  cuSets : List Nat

/-- What the calls of `add_cu_set` and `add_port` have set up: the collector units of each set, the
set of each dispatch unit, and the ports. -/
structure Config (d : Dims) where
  bankWarpShift : Nat
  cus : Nat → List (Fin d.numCollectors)
  dispatchUnits : List Nat
  ports : List Port

/-- `collector_unit_t`. -/
structure CollectorUnit (d : Dims) where
  free : Bool
  warpId : Nat
  warp : Option WarpInst
  output : Option Nat
  srcOp : OperandIdx → Option (Op d)
  notReady : OperandIdx → Bool

/-- Instructions on their way. -/
inductive Event (d : Dims) where
  /-- the pipeline moves the instruction in to a register set, or out of it -/
  | arrived (r : Nat) (w : WarpInst)
  | left (r : Nat) (w : WarpInst)
  /-- a collector unit takes the instruction, or moves it on -/
  | taken (c : Fin d.numCollectors) (w : WarpInst) (input output : Nat)
  | moved (c : Fin d.numCollectors) (w : WarpInst) (output : Nat)
  deriving DecidableEq

/-- `opndcoll_rfu_t`, with the register sets, `m_last_cu` of each dispatch unit, and the history. -/
structure Rfu (d : Dims) where
  arbiter : Arbiter d
  cu : Fin d.numCollectors → CollectorUnit d
  lastCu : Nat → Nat
  stages : Nat → RegisterSet WarpInst
  log : List (Event d)

/-! ## The arbiter's banks -/

namespace Arbiter

/-- `allocate_bank_for_write`. -/
def allocateBankForWrite (a : Arbiter d) (bank : Fin d.numBanks) : Except Fault (Arbiter d) := do
  assert ((a.allocatedBank bank).isFree = true) .bankNotFree
  .ok { a with allocatedBank := update a.allocatedBank bank .writeAlloc }

/-- `allocate_for_read`. -/
def allocateForRead (a : Arbiter d) (bank : Fin d.numBanks) : Except Fault (Arbiter d) := do
  assert ((a.allocatedBank bank).isFree = true) .bankNotFree
  .ok { a with allocatedBank := update a.allocatedBank bank .readAlloc }

/-- `reset_alloction`. -/
def resetAlloction (a : Arbiter d) : Arbiter d := { a with allocatedBank := fun _ => .noAlloc }

/-- A round of the loop of `add_read_requests`. -/
def addReadRequest (src : OperandIdx → Option (Op d)) (a : Arbiter d) (i : OperandIdx) : Arbiter d :=
  match src i with
  | none => a
  | some op => { a with queue := update a.queue op.bank (a.queue op.bank ++ [op]) }

/-- `add_read_requests`. -/
def addReadRequests (a : Arbiter d) (src : OperandIdx → Option (Op d)) : Arbiter d :=
  (List.finRange _).foldl (addReadRequest src) a

/-- The loop of `writeback` over the registers, which stops at a bank that is not idle. -/
def claimBanks (bankWarpShift wid : Nat) : List Nat → Arbiter d → Except Fault (Bool × Arbiter d)
  | [], a => .ok (true, a)
  | reg :: regs, a =>
    if (a.allocatedBank (registerBank d bankWarpShift reg wid)).isFree then do
      let a ← a.allocateBankForWrite (registerBank d bankWarpShift reg wid)
      claimBanks bankWarpShift wid regs a
    else .ok (false, a)

/-- `opndcoll_rfu_t::writeback`. -/
def writeback (bankWarpShift : Nat) (a : Arbiter d) (inst : WarpInst) : Except Fault (Bool × Arbiter d) :=
  a.claimBanks bankWarpShift inst.warpId inst.regsWritten

end Arbiter

/-! ## The collector units -/

/-- `collector_unit_t::ready`. -/
def CollectorUnit.ready (u : CollectorUnit d) (stages : Nat → RegisterSet WarpInst) : Bool :=
  !u.free && decide (∀ i, u.notReady i = false) && u.output.any fun r => (stages r).hasFree

namespace Rfu

variable (cfg : Config d) (s : Rfu d)

/-- A unit has moved its instruction to the register set `r`, which has become `regs`. -/
def dispatched (c : Fin d.numCollectors) (w : WarpInst) (r : Nat) (regs : RegisterSet WarpInst) : Rfu d :=
  { s with
    cu := update s.cu c
      { s.cu c with free := true, warp := none, output := none, srcOp := fun _ => none }
    stages := update s.stages r regs
    log := s.log ++ [.moved c w r] }

/-- `collector_unit_t::dispatch`. -/
def dispatch (c : Fin d.numCollectors) : Except Fault (Rfu d) := do
  assert (∀ i, (s.cu c).notReady i = false) .notReady
  match (s.cu c).output, (s.cu c).warp with
  | some r, some w => do
    let regs ← (s.stages r).moveIn .noFreeRegister w
    .ok (s.dispatched c w r regs)
  | _, _ => .error .noInst

/-- `dispatch_unit_t::find_ready`: the next unit of the set and its place in the set. -/
def findReady (p set : Nat) : Option (Nat × Fin d.numCollectors) :=
  (List.range (cfg.cus set).length).findSome? fun n =>
    let k := (s.lastCu p + n + 1) % (cfg.cus set).length
    (cfg.cus set)[k]?.bind fun c => if (s.cu c).ready s.stages then some (k, c) else none

/-- A round of the loop of `dispatch_ready_cu`, for the dispatch unit `p` of a set. -/
def dispatchReady (p set : Nat) : Except Fault (Rfu d) :=
  match s.findReady cfg p set with
  | none => .ok s
  | some (k, c) => { s with lastCu := update s.lastCu p k }.dispatch c

/-- `dispatch_ready_cu`. -/
def dispatchReadyCu : Except Fault (Rfu d) :=
  cfg.dispatchUnits.zipIdx.foldlM (fun s e => s.dispatchReady cfg e.2 e.1) s

/-- A unit with the instruction `w`, whose operands are still to be read. -/
def loaded (c : Fin d.numCollectors) (w : WarpInst) (output : Nat) : CollectorUnit d where
  free := false
  warpId := w.warpId
  warp := some w
  output := some output
  srcOp i :=
    if i.val < maxRegOperands then
      (w.sourceReg i).map fun reg =>
        { ocId := c, operand := i, register := reg,
          bank := registerBank d cfg.bankWarpShift reg w.warpId }
    else (s.cu c).srcOp i
  notReady i := (s.cu c).notReady i || (w.sourceReg i).isSome

/-- A unit has taken the instruction `w` in the register `i` of the set `input`. -/
def taken (c : Fin d.numCollectors) (w : WarpInst) (i input output : Nat) : Rfu d :=
  { s with
    cu := update s.cu c (s.loaded cfg c w output)
    stages := update s.stages input ((s.stages input).clear i)
    log := s.log ++ [.taken c w input output] }

/-- `collector_unit_t::allocate`, and whether it has taken an instruction. -/
def allocate (c : Fin d.numCollectors) (input output : Nat) : Except Fault (Bool × Rfu d) := do
  assert ((s.cu c).free = true) .unitNotFree
  assert (∀ i, (s.cu c).notReady i = false) .notReady
  match (s.stages input).getReady WarpInst.uid with
  | none => .ok (false,
      { s with cu := update s.cu c { s.cu c with free := false, output := some output } })
  | some (i, w) => do
    assert ((s.cu c).warp = none) .moveWarp
    .ok (true, s.taken cfg c w i input output)

/-- The loop of `allocate_cu` over the sets of the port: the first free unit of a set takes the
instruction. -/
def allocateIn (input output : Nat) : List Nat → Rfu d → Except Fault (Rfu d)
  | [], s => .ok s
  | set :: sets, s =>
    match (cfg.cus set).find? fun c => (s.cu c).free with
    | none => allocateIn input output sets s
    | some c => do
      let p ← s.allocate cfg c input output
      let s := { p.2 with arbiter := p.2.arbiter.addReadRequests (p.2.cu c).srcOp }
      if p.1 then .ok s else allocateIn input output sets s

/-- `allocate_cu`, which serves the first input of the port that has an instruction. -/
def allocateCu (port : Port) : Except Fault (Rfu d) :=
  match port.regs.find? fun p => (s.stages p.1).hasReady with
  | none => .ok s
  | some p => allocateIn cfg p.1 p.2 port.cuSets s

/-- A granted operand reserves its bank, which is computed once more, and is noted in `read_ops`. -/
def reserveRead (st : Arbiter d × (Fin d.numBanks → Option (Op d))) (op : Op d) :
    Except Fault (Arbiter d × (Fin d.numBanks → Option (Op d))) := do
  let bank := registerBank d cfg.bankWarpShift op.register (s.cu op.ocId).warpId
  let a ← st.1.allocateForRead bank
  .ok (a, update st.2 bank (some op))

/-- `collect_operand`. -/
def collectOperand (cu : Fin d.numCollectors → CollectorUnit d) (op : Op d) :
    Fin d.numCollectors → CollectorUnit d :=
  update cu op.ocId
    { cu op.ocId with notReady := update (cu op.ocId).notReady op.operand false }

/-- `opndcoll_rfu_t::allocate_reads`. -/
def allocateReads : Except Fault (Rfu d) := do
  let allocated ← s.arbiter.allocateReads
  let reads ← allocated.1.foldlM (s.reserveRead cfg) (allocated.2, fun _ => none)
  .ok { s with
    arbiter := reads.1
    cu := ((List.finRange d.numBanks).filterMap reads.2).foldl collectOperand s.cu }

/-- `process_banks`. -/
def processBanks : Rfu d := { s with arbiter := s.arbiter.resetAlloction }

/-- `opndcoll_rfu_t::step`. -/
def step : Except Fault (Rfu d) := do
  let s ← s.dispatchReadyCu cfg
  let s ← s.allocateReads cfg
  let s ← cfg.ports.foldlM (allocateCu cfg) s
  .ok s.processBanks

end Rfu

/-! ## Runs -/

/-- A collector unit after `init`. -/
def CollectorUnit.init : CollectorUnit d where
  free := true
  warpId := 2 ^ 32 - 1
  warp := none
  output := none
  srcOp _ := none
  notReady _ := false

/-- The calls of the collector, and the moves of the pipeline, which fills free registers only. -/
inductive Call where
  | step
  | writeback (inst : WarpInst)
  | arrive (r : Nat) (w : WarpInst)
  | leave (r : Nat)

namespace Rfu

variable (cfg : Config d)

def call (s : Rfu d) : Call → Except Fault (Rfu d)
  | .step => s.step cfg
  | .writeback inst => (s.arbiter.writeback cfg.bankWarpShift inst).map fun p => { s with arbiter := p.2 }
  | .arrive r w =>
    if (s.stages r).hasFree then do
      let regs ← (s.stages r).moveIn .noFreeRegister w
      .ok { s with stages := update s.stages r regs, log := s.log ++ [.arrived r w] }
    else .ok s
  | .leave r =>
    match (s.stages r).getReady WarpInst.uid with
    | none => .ok s
    | some (i, w) =>
      .ok { s with
        stages := update s.stages r ((s.stages r).clear i)
        log := s.log ++ [.left r w] }

/-- The collector after `init`, with `size r` registers in the set `r`. -/
def init (d : Dims) (size : Nat → Nat) : Rfu d where
  arbiter := .init d
  cu _ := .init
  lastCu _ := 0
  stages r := List.replicate (size r) none
  log := []

end Rfu

end GpgpuSimRuby.Shader.OperandCollector
