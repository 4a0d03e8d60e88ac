import GpgpuSimRuby.Library.Runs
import GpgpuSimRuby.Shader.RegisterSet

/-!
# The arithmetic pipelines

`execute` of the shader core advances the SP and SFU units and issues to them. An instruction waits
in the dispatch register for its initiation interval, enters the pipeline so far from its end that
it leaves after its latency, and goes to the register set `EX_WB`. Two kinds of reservation are made
at issue: a bit in the unit's `occupied`, and one on a result bus.

The load-store unit uses neither `EX_WB` nor a result bus. It is left out, and so is the operand
collector, from which instructions arrive between the cycles.
-/

namespace GpgpuSimRuby.Shader.Execute

open Library Function

inductive Fault where
  /-- `assert( dst->empty() )` of `move_warp` -/
  | moveWarp
  /-- `get_free` of a register set that is full -/
  | noFreeRegister
  /-- an index of `m_pipeline_reg` out of its bounds -/
  | stage
  /-- a `bitset` tested or set past its end -/
  | bitset
  /-- `assert( (*ready_reg)->latency < MAX_ALU_LATENCY )` -/
  | latency
  deriving DecidableEq, Repr

/-- `MAX_ALU_LATENCY`. -/
abbrev maxAluLatency : Nat := 512

/-- `uarch_op_t`. -/
inductive Op where
  | noOp | alu | sfu | aluSfu | load | store | branch | barrier | memoryBarrier | call | ret
  deriving DecidableEq, Repr

/-- What the units read of a `warp_inst_t`. -/
structure WarpInst where
  uid : Nat
  op : Op
  latency : Nat
  initiationInterval : Nat
  deriving DecidableEq, Repr

/-- The units of `m_fu`, and the register set `OC_EX` that each kind issues from. -/
inductive Fu where
  | sp | sfu
  deriving DecidableEq, Repr

/-- The operations that `can_issue` lets through. -/
def Fu.accepts : Fu → Op → Bool
  | .sfu, .sfu | .sfu, .aluSfu => true
  | .sfu, _ => false
  | .sp, .sfu | .sp, .load | .sp, .store | .sp, .memoryBarrier => false
  | .sp, _ => true

/-- The units, the result buses, as many as `EX_WB` is wide, and `max_sp_latency` and
`max_sfu_latency`. -/
structure Config where
  units : List Fu
  numResultBus : Nat
  depth : Fu → Nat
  depth_pos : ∀ k, 0 < depth k

/-- The instructions that the unit is made for. -/
structure WarpInst.Fits (cfg : Config) (k : Fu) (w : WarpInst) : Prop where
  interval_pos : 1 ≤ w.initiationInterval
  interval_le : w.initiationInterval ≤ w.latency
  latency_le : w.latency ≤ cfg.depth k
  latency_lt : w.latency < maxAluLatency

/-! ## Bit sets -/

abbrev Bits := BitVec maxAluLatency

/-- `bitset::test`. -/
def test (bits : Bits) (i : Nat) : Except Fault Bool := do
  assert (i < maxAluLatency) .bitset
  .ok (bits.getLsbD i)

/-- `bitset::set`. -/
def set (bits : Bits) (i : Nat) : Bits := bits ||| BitVec.twoPow maxAluLatency i

/-! ## `pipelined_simd_unit` -/

/-- A unit, with the dispatched instruction and its `cycles`, which `warp_inst_t::issue` has set to the
initiation interval. The history has the cycles at which instructions were issued and came out. -/
structure PipelinedUnit where
  kind : Fu
  dispatchReg : Option (WarpInst × Nat)
  pipelineReg : Nat → Option WarpInst
  occupied : Bits
  issued : List (Nat × WarpInst)
  results : List (Nat × WarpInst)

/-- `move_warp` between two stages. -/
def moveWarp (regs : Nat → Option WarpInst) (dst src : Nat) : Except Fault (Nat → Option WarpInst) := do
  assert (regs dst = none) .moveWarp
  .ok (update (update regs dst (regs src)) src none)

namespace PipelinedUnit

variable (u : PipelinedUnit)

/-- The last stage moves its instruction to the result port. -/
def deliver (now : Nat) (resultPort : RegisterSet WarpInst) :
    Except Fault (RegisterSet WarpInst × PipelinedUnit) :=
  match u.pipelineReg 0 with
  | none => .ok (resultPort, u)
  | some w => do
    let resultPort ← resultPort.moveIn .noFreeRegister w
    .ok (resultPort, { u with
      pipelineReg := update u.pipelineReg 0 none
      results := u.results ++ [(now, w)] })

/-- The dispatched instruction enters the pipeline after `dispatch_delay`. -/
def dispatch (depth : Nat) : Except Fault PipelinedUnit :=
  match u.dispatchReg with
  | none => .ok u
  | some (w, cycles) =>
    if 0 < cycles - 1 then .ok { u with dispatchReg := some (w, cycles - 1) }
    else do
      let startStage := w.latency - w.initiationInterval
      assert (w.initiationInterval ≤ w.latency ∧ startStage < depth) .stage
      assert (u.pipelineReg startStage = none) .moveWarp
      .ok { u with
        dispatchReg := none
        pipelineReg := update u.pipelineReg startStage (some w) }

/-- `cycle`. -/
def cycle (depth now : Nat) (resultPort : RegisterSet WarpInst) :
    Except Fault (RegisterSet WarpInst × PipelinedUnit) := do
  let p ← u.deliver now resultPort
  let regs ← (List.range (depth - 1)).foldlM (fun regs stage => moveWarp regs stage (stage + 1))
    p.2.pipelineReg
  let u ← { p.2 with pipelineReg := regs }.dispatch depth
  .ok (p.1, { u with occupied := u.occupied >>> 1 })

/-- `can_issue`. -/
def canIssue (w : WarpInst) : Except Fault Bool :=
  if u.kind.accepts w.op && u.dispatchReg.isNone then (test u.occupied w.latency).map (! ·)
  else .ok false

/-- `issue` of an instruction that has been moved out of its register set. -/
def issue (now : Nat) (w : WarpInst) : Except Fault PipelinedUnit := do
  assert (u.dispatchReg = none) .moveWarp
  assert (w.latency < maxAluLatency) .bitset
  .ok { u with
    dispatchReg := some (w, w.initiationInterval)
    occupied := set u.occupied w.latency
    issued := u.issued ++ [(now, w)] }

/-- A unit after its construction. -/
def init (k : Fu) : PipelinedUnit where
  kind := k
  dispatchReg := none
  pipelineReg _ := none
  occupied := 0
  issued := []
  results := []

end PipelinedUnit

/-! ## `shader_core_ctx` -/

/-- What the units share, and the number of the cycle. -/
structure Shared where
  now : Nat
  resultBus : List Bits
  exWb : RegisterSet WarpInst
  issuePort : Fu → RegisterSet WarpInst

structure Core where
  units : List PipelinedUnit
  shared : Shared

/-- `test_res_bus`. -/
def testResBus (resultBus : List Bits) (latency : Nat) : Except Fault (Option Nat) := do
  assert (latency < maxAluLatency) .bitset
  .ok (resultBus.findIdx? fun bus => !bus.getLsbD latency)

/-- The issue of the oldest instruction of the unit's port, if the unit and a result bus are free
for it. -/
def issueUnit (s : Shared) (u : PipelinedUnit) : Except Fault (PipelinedUnit × Shared) :=
  match (s.issuePort u.kind).getReady WarpInst.uid with
  | none => .ok (u, s)
  | some (i, w) => do
    let can ← u.canIssue w
    let resbus ← if can then testResBus s.resultBus w.latency else .ok none
    match resbus with
    | none => .ok (u, s)
    | some b => do
      assert (w.latency < maxAluLatency) .latency
      let u' ← u.issue s.now w
      .ok (u', { s with
        resultBus := s.resultBus.modify b fun bus => set bus w.latency
        issuePort := update s.issuePort u.kind ((s.issuePort u.kind).clear i) })

/-- A round of the loop of `execute`. -/
def executeUnit (cfg : Config) (s : Shared) (u : PipelinedUnit) : Except Fault (PipelinedUnit × Shared) := do
  let p ← u.cycle (cfg.depth u.kind) s.now s.exWb
  issueUnit { s with exWb := p.1 } p.2

/-- The loop of `execute` over the units. -/
def executeUnits (cfg : Config) : List PipelinedUnit → Shared → Except Fault (List PipelinedUnit × Shared)
  | [], s => .ok ([], s)
  | u :: us, s => do
    let p ← executeUnit cfg s u
    let q ← executeUnits cfg us p.2
    .ok (p.1 :: q.1, q.2)

/-- `execute`, after which the result buses have moved on by one cycle. -/
def execute (cfg : Config) (c : Core) : Except Fault Core := do
  let p ← executeUnits cfg c.units
    { c.shared with resultBus := c.shared.resultBus.map fun bus : Bits => bus >>> 1 }
  .ok { units := p.1, shared := p.2 }

/-- `writeback`, which takes instructions from `EX_WB` until there are none. -/
def drain : Nat → RegisterSet WarpInst → RegisterSet WarpInst
  | 0, regs => regs
  | n + 1, regs =>
    match regs.getReady WarpInst.uid with
    | none => regs
    | some (i, _) => drain n (regs.clear i)

/-- `shader_core_ctx::cycle`, as far as the units go. -/
def cycle (cfg : Config) (c : Core) : Except Fault Core :=
  execute cfg { c with shared := { c.shared with
    now := c.shared.now + 1
    exWb := drain c.shared.exWb.length c.shared.exWb } }

/-! ## Runs -/

/-- A cycle, or the arrival of an instruction from the operand collector. -/
inductive Call (cfg : Config) where
  | cycle
  | arrive (k : Fu) (w : WarpInst) (fits : w.Fits cfg k)

/-- The operand collector moves an instruction only to a register set with a free register. -/
def call (cfg : Config) (c : Core) : Call cfg → Except Fault Core
  | .cycle => cycle cfg c
  | .arrive k w _ =>
    if (c.shared.issuePort k).hasFree then do
      let regs ← (c.shared.issuePort k).moveIn .noFreeRegister w
      .ok { c with shared := { c.shared with issuePort := update c.shared.issuePort k regs } }
    else .ok c

/-- The core after its construction, with `width k` registers in each `OC_EX`. -/
def init (cfg : Config) (width : Fu → Nat) : Core where
  units := cfg.units.map .init
  shared :=
    { now := 0
      resultBus := List.replicate cfg.numResultBus 0
      exWb := List.replicate cfg.numResultBus none
      issuePort := fun k => List.replicate (width k) none }

end GpgpuSimRuby.Shader.Execute
