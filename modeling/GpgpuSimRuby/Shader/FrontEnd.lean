import GpgpuSimRuby.Library.Loops
import GpgpuSimRuby.Shader.Core

/-!
# The front end of a shader core

`shd_warp_t` with its instruction buffer, the fetch and decode stages, the look that a scheduler
takes at a warp, and `issue_warp`, in front of the pipeline of `Core`. The answers of the
instruction cache, the top of the warp's SIMT stack and the lanes whose threads end are part of the
action. The CTAs are left out: a warp may start anew whenever its own assertions allow it, and does
not wait at a barrier of its CTA.

`left` records what has left the pipeline; the code does not read it.
-/

open Function (update)

namespace GpgpuSimRuby.Shader.FrontEnd

open Library Ptx

structure Config extends Shader.Config where
  warpSize : Nat
  /-- `ptx_fetch_inst`: the instruction at a pc, if there is one -/
  ptxFetchInst : Nat → Option Inst
  isize : Inst → Nat

inductive Fault where
  /-- of the pipeline behind the front end -/
  | core (e : Shader.Fault)
  /-- `dec_inst_in_pipeline` at zero -/
  | noInst
  /-- `reset` of a warp with stores or instructions under way -/
  | underway
  /-- `init` with more lanes than have completed -/
  | notCompleted
  /-- `set_completed` of a lane that is not active -/
  | notActive
  /-- `assert(valid)` of an entry with an instruction -/
  | invalidEntry
  /-- `assert( warp(warp_id).inst_in_pipeline() )` at issue -/
  | nothingToIssue
  /-- `assert(!mf->get_is_write())` of a cache that is only read -/
  | readOnly
  deriving DecidableEq, Repr

/-! ## Warps -/

abbrev ibufferSize : Nat := 2

theorem ibufferSize_pos : 0 < ibufferSize := Nat.two_pos

theorem one_lt_ibufferSize : 1 < ibufferSize := Nat.one_lt_two

/-- The slots that `decode` fills. -/
def slot0 : Fin ibufferSize := ⟨0, ibufferSize_pos⟩

def slot1 : Fin ibufferSize := ⟨1, one_lt_ibufferSize⟩

/-- An entry of the instruction buffer. A valid one has no instruction where the pc is past the
program. -/
structure IbufferEntry where
  inst : Option Inst
  valid : Bool

/-- A `shd_warp_t`. Its outstanding stores, its atomics and its memory barrier are those of the
`Core`. -/
structure ShdWarp where
  nextPc : Nat
  nCompleted : Nat
  activeThreads : Finset Nat
  imissPending : Bool
  ibuffer : Fin ibufferSize → IbufferEntry
  next : Fin ibufferSize
  doneExit : Bool
  instInPipeline : Nat

namespace ShdWarp

/-- The constructor. -/
def new (warpSize : Nat) : ShdWarp where
  nextPc := 0
  nCompleted := warpSize
  activeThreads := ∅
  imissPending := false
  ibuffer := fun _ => ⟨none, false⟩
  next := slot0
  doneExit := true
  instInPipeline := 0

variable (v : ShdWarp)

def reset (warpSize storesOutstanding : Nat) : Except Fault ShdWarp := do
  assert (storesOutstanding = 0) .underway
  assert (v.instInPipeline = 0) .underway
  .ok { v with imissPending := false, nCompleted := warpSize, doneExit := true, next := slot0 }

def init (warpSize startPc : Nat) (active : Finset Nat) : Except Fault ShdWarp := do
  assert (active.card ≤ v.nCompleted) .notCompleted
  assert (v.nCompleted ≤ warpSize) .notCompleted
  .ok { v with
    nextPc := startPc
    nCompleted := v.nCompleted - active.card
    activeThreads := active
    doneExit := false }

def functionalDone (warpSize : Nat) : Prop := v.nCompleted = warpSize

instance (warpSize : Nat) : Decidable (v.functionalDone warpSize) := inferInstanceAs (Decidable (_ = _))

def setCompleted (lane : Nat) : Except Fault ShdWarp := do
  assert (lane ∈ v.activeThreads) .notActive
  .ok { v with activeThreads := v.activeThreads.erase lane, nCompleted := v.nCompleted + 1 }

def incInstInPipeline : ShdWarp := { v with instInPipeline := v.instInPipeline + 1 }

def decInstInPipeline : Except Fault ShdWarp := do
  assert (0 < v.instInPipeline) .noInst
  .ok { v with instInPipeline := v.instInPipeline - 1 }

def setNextPc (pc : Nat) : ShdWarp := { v with nextPc := pc }

def setEntry (slot : Fin ibufferSize) (e : IbufferEntry) : ShdWarp :=
  { v with ibuffer := update v.ibuffer slot e }

def ibufferFill (slot : Fin ibufferSize) (pI : Option Inst) : ShdWarp :=
  { v with next := slot0 }.setEntry slot ⟨pI, true⟩

def ibufferEmpty : Prop := ∀ slot, (v.ibuffer slot).valid = false

instance : Decidable v.ibufferEmpty := inferInstanceAs (Decidable (∀ _, _))

/-- The loop of `ibuffer_flush` for a slot. -/
def flushEntry (slot : Fin ibufferSize) : Except Fault ShdWarp := do
  let v ← (if (v.ibuffer slot).valid then v.decInstInPipeline else .ok v)
  .ok (v.setEntry slot ⟨none, false⟩)

def ibufferFlush : Except Fault ShdWarp := (List.finRange ibufferSize).foldlM flushEntry v

def ibufferNextInst : Option Inst := (v.ibuffer v.next).inst

def ibufferNextValid : Bool := (v.ibuffer v.next).valid

def ibufferFree : ShdWarp := v.setEntry v.next ⟨none, false⟩

def ibufferStep : ShdWarp :=
  { v with next := ⟨(v.next + 1) % ibufferSize, Nat.mod_lt _ ibufferSize_pos⟩ }

/-- `checkExecutionStatusAndUpdate` of a lane whose thread is done. -/
def threadDone (lane : Nat) : Except Fault ShdWarp := do
  let v ← v.setCompleted lane
  v.ibufferFlush

/-- What `decode` does to the warp of the fetch buffer: one or two instructions are placed. -/
def decode (cfg : Config) (pc : Nat) : ShdWarp :=
  let pI1 := cfg.ptxFetchInst pc
  let v := (v.ibufferFill slot0 pI1).incInstInPipeline
  match pI1.bind fun i => cfg.ptxFetchInst (pc + cfg.isize i) with
  | some i => (v.ibufferFill slot1 (some i)).incInstInPipeline
  | none => v

end ShdWarp

/-! ## The core -/

structure IfetchBuffer where
  pc : Nat
  warpId : Nat
  deriving DecidableEq, Repr

structure ShaderCoreCtx where
  warps : Nat → ShdWarp
  instFetchBuffer : Option IfetchBuffer
  core : Core
  left : List WarpInst

/-- The answer of the instruction cache. -/
inductive FetchStatus where
  | hit | miss | reservationFail
  deriving DecidableEq, Repr

/-- The spaces whose caches are only read. -/
def readOnlySpaces : List MemorySpace := [.const, .paramKernel, .tex]

/-- Is the next access of the dispatch register a write to a cache that is only read? The L1C
asserts that it is not. The L1T does not assert it, but PTX has no store to texture memory. -/
def writesReadOnly (c : Core) : Bool :=
  c.dispatchReg.any fun p =>
    p.inst.isStore && decide (p.inst.space ∈ readOnlySpaces ∧ p.inst.active ≠ ∅ ∧ p.accessq ≠ [])

/-- The instruction that calls `dec_inst_in_pipeline` in an action from `c` to `c'`. -/
def leaving (c : Core) (a : Act) (c' : Core) : Option WarpInst :=
  match a with
  | .unitWriteback n => c.units[n]?
  | .cycle _ _ =>
    -- a load from shared memory goes on to its own pipeline
    if c'.dispatchReg = none then
      (c.dispatchReg.map (·.inst)).filter fun w => !(w.isLoad && decide (w.space = .shared))
    else none
  | .serviceShared => c.pipelineReg.head?
  | _ => none

namespace ShaderCoreCtx

def init (cfg : Config) : ShaderCoreCtx where
  warps := fun _ => .new cfg.warpSize
  instFetchBuffer := none
  core := .init
  left := []

variable (cfg : Config) (s : ShaderCoreCtx)

def setWarp (warp : Nat) (v : ShdWarp) : ShaderCoreCtx := { s with warps := update s.warps warp v }

def hardwareDone (warp : Nat) : Prop :=
  (s.warps warp).functionalDone cfg.warpSize ∧ s.core.storesOutstanding warp = 0 ∧
    ¬ 0 < (s.warps warp).instInPipeline

instance (warp : Nat) : Decidable (s.hardwareDone cfg warp) := inferInstanceAs (Decidable (_ ∧ _ ∧ _))

/-- `reinit` of a warp. -/
def reset (warp : Nat) : Except Fault ShaderCoreCtx := do
  let v ← (s.warps warp).reset cfg.warpSize (s.core.storesOutstanding warp)
  let core := { s.core with
    nAtomic := update s.core.nAtomic warp 0
    membar := update s.core.membar warp false }
  .ok ({ s with core := core }.setWarp warp v)

/-- `init_warps` of a warp. -/
def initWarp (warp startPc : Nat) (active : Finset Nat) : Except Fault ShaderCoreCtx := do
  let v ← (s.warps warp).init cfg.warpSize startPc active
  .ok (s.setWarp warp v)

/-- The first part of `fetch`: is the warp finished, so that its threads can leave the core? -/
def reclaim (warp : Nat) : Option (Except Fault ShaderCoreCtx) :=
  if s.hardwareDone cfg warp ∧ ¬ s.core.hasPendingWrites warp ∧ (s.warps warp).doneExit = false then
    some (.ok (s.setWarp warp { s.warps warp with doneExit := true }))
  else none

/-- The second part of `fetch`. -/
def fetch (warp : Nat) (status : FetchStatus) : Option (Except Fault ShaderCoreCtx) :=
  let v := s.warps warp
  if s.instFetchBuffer = none ∧ ¬ v.functionalDone cfg.warpSize ∧ v.imissPending = false ∧ v.ibufferEmpty then
    match status with
    | .hit => some (.ok { s with instFetchBuffer := some ⟨v.nextPc, warp⟩ })
    | .miss => some (.ok (s.setWarp warp { v with imissPending := true }))
    | .reservationFail => some (.ok s)
  else none

/-- The instruction cache has the block of a warp. -/
def accessReady (warp : Nat) : ShaderCoreCtx :=
  s.setWarp warp { s.warps warp with imissPending := false }

def decode : Option (Except Fault ShaderCoreCtx) :=
  s.instFetchBuffer.map fun b =>
    .ok ({ s with instFetchBuffer := none }.setWarp b.warpId ((s.warps b.warpId).decode cfg b.pc))

/-- A control hazard, or an entry past the program. -/
def flush (warp pc : Nat) : Except Fault ShaderCoreCtx := do
  let v ← ((s.warps warp).setNextPc pc).ibufferFlush
  .ok (s.setWarp warp v)

/-- `issue_warp`. The threads of the lanes in `exits` end. -/
def issueWarp (warp : Nat) (i : Inst) (lanes : List Lane) (accessq : List (Finset Nat)) (exits : List Nat) :
    Option (Except Fault ShaderCoreCtx) :=
  if exits.Sublist (lanes.map (·.id)) then
    (s.core.issue cfg.toConfig warp i lanes accessq).map fun r => do
      assert (0 < (s.warps warp).instInPipeline) .nothingToIssue
      let core ← r.mapError .core
      let v ← exits.foldlM ShdWarp.threadDone (s.warps warp).ibufferFree
      .ok ({ s with core := core }.setWarp warp (v.setNextPc (i.pc + cfg.isize i)).ibufferStep)
  else none

/-- A scheduler looks at a warp with `pc` on top of its SIMT stack. -/
def schedule (warp pc : Nat) (lanes : List Lane) (accessq : List (Finset Nat)) (exits : List Nat) :
    Option (Except Fault ShaderCoreCtx) :=
  let v := s.warps warp
  if v.functionalDone cfg.warpSize ∨ s.core.waiting warp ∨ v.ibufferEmpty then none
  else
    match v.ibufferNextInst with
    | some i =>
      if v.ibufferNextValid = false then some (.error .invalidEntry)
      else if pc ≠ i.pc then some (s.flush warp pc)
      else s.issueWarp cfg warp i lanes accessq exits
    | none => if v.ibufferNextValid then some (s.flush warp pc) else none

def countOff (core : Core) : Option WarpInst → Except Fault ShaderCoreCtx
  | none => .ok { s with core := core }
  | some w => do
    let v ← (s.warps w.warp).decInstInPipeline
    .ok ({ s with core := core, left := w :: s.left }.setWarp w.warp v)

/-- The pipeline takes an action and the instruction that leaves it, if there is one, is counted off. -/
def coreStep (a : Act) : Option (Except Fault ShaderCoreCtx) :=
  ((Shader.core cfg.toConfig).step s.core a).map fun r => do
    let core ← r.mapError .core
    s.countOff core (leaving s.core a core)

end ShaderCoreCtx

inductive FrontAct where
  | reset (warp : Nat)
  | init (warp startPc : Nat) (active : Finset Nat)
  | reclaim (warp : Nat)
  | fetch (warp : Nat) (status : FetchStatus)
  | accessReady (warp : Nat)
  | decode
  | schedule (warp pc : Nat) (lanes : List Lane) (accessq : List (Finset Nat)) (exits : List Nat)
  | core (a : Act)

/-- A shader core. -/
def shaderCore (cfg : Config) : Machine ShaderCoreCtx FrontAct Fault where
  init := .init cfg
  step s
    | .reset warp => some (s.reset cfg warp)
    | .init warp startPc active => some (s.initWarp cfg warp startPc active)
    | .reclaim warp => s.reclaim cfg warp
    | .fetch warp status => s.fetch cfg warp status
    | .accessReady warp => some (.ok (s.accessReady warp))
    | .decode => s.decode cfg
    | .schedule warp pc lanes accessq exits => s.schedule cfg warp pc lanes accessq exits
    -- instructions get into the pipeline by `schedule` only
    | .core (.issue ..) => none
    | .core (.cycle busy status) =>
      if writesReadOnly s.core then some (.error .readOnly) else s.coreStep cfg (.cycle busy status)
    | .core a => s.coreStep cfg a

end GpgpuSimRuby.Shader.FrontEnd
