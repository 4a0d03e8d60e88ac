import GpgpuSimRuby.Library.Fault

/-!
# Kernels and the kernel slots of the GPU

`kernel_info_t` of abstract_hardware_model.h and the part of `gpgpu_sim` that starts and retires
kernels. Kernels live in a heap: a kernel pointer is the number of kernels that were made before it.
-/

namespace GpgpuSimRuby.Gpu

open Library

/-- `unsigned` arithmetic is modulo this. -/
abbrev wordSize : Nat := 2 ^ 32

structure Dim3 where
  x : Nat
  y : Nat
  z : Nat
  deriving DecidableEq, Repr

namespace Dim3

def zero : Dim3 := ⟨0, 0, 0⟩

/-- `x` runs fastest and `z` stops at the bound. -/
def incrementXThenYThenZ (i bound : Dim3) : Dim3 :=
  if i.x + 1 ≥ bound.x then
    if i.y + 1 ≥ bound.y then
      ⟨0, 0, if i.z < bound.z then i.z + 1 else i.z⟩
    else ⟨0, i.y + 1, i.z⟩
  else ⟨i.x + 1, i.y, i.z⟩

/-- The product of the sides, as `unsigned`. -/
def size (d : Dim3) : Nat := d.x * d.y * d.z % wordSize

end Dim3

abbrev KernelPtr := Nat

/-- `kernel_info_t`, as far as the kernel slots depend on it. -/
structure KernelInfo where
  uid : Nat
  gridDim : Dim3
  blockDim : Dim3
  nextCta : Dim3 := .zero
  numCoresRunning : Nat := 0
  deriving DecidableEq, Repr

/-- The assertions and aborts of the code below. -/
inductive Fault where
  | ctaTooLarge | noKernelSlot | noCoreRunning | kernelNotRunning
  deriving DecidableEq, Repr

namespace KernelInfo

variable (k : KernelInfo)

def incRunning : KernelInfo := { k with numCoresRunning := k.numCoresRunning + 1 }

def decRunning : Except Fault KernelInfo := do
  assert (k.numCoresRunning > 0) .noCoreRunning
  return { k with numCoresRunning := k.numCoresRunning - 1 }

def running : Bool := k.numCoresRunning > 0

def noMoreCtasToRun : Bool :=
  k.nextCta.x ≥ k.gridDim.x || k.nextCta.y ≥ k.gridDim.y || k.nextCta.z ≥ k.gridDim.z

def done : Bool := k.noMoreCtasToRun && !k.running

def threadsPerCta : Nat := k.blockDim.size

def incrementCtaId : KernelInfo :=
  { k with nextCta := k.nextCta.incrementXThenYThenZ k.gridDim }

end KernelInfo

/-- The options that limit the kernels. -/
structure GpuConfig where
  maxConcurrentKernel : Nat
  nThreadPerShader : Nat

/-- The kernel part of `gpgpu_sim`; `nextUid` is the static counter of `kernel_info_t`. -/
structure GpgpuSim where
  kernels : KernelPtr → KernelInfo := fun _ => ⟨0, .zero, .zero, .zero, 0⟩
  numKernels : Nat := 0
  nextUid : Nat := 1
  runningKernels : List (Option KernelPtr)
  finishedKernel : List Nat := []

namespace GpgpuSim

variable (cfg : GpuConfig) (g : GpgpuSim)

def init : GpgpuSim where
  runningKernels := List.replicate cfg.maxConcurrentKernel none

def setKernel (k : KernelPtr) (info : KernelInfo) : GpgpuSim :=
  { g with kernels := Function.update g.kernels k info }

/-- The constructor of `kernel_info_t`. -/
def newKernel (gridDim blockDim : Dim3) : GpgpuSim :=
  { g with
    kernels := Function.update g.kernels g.numKernels
      { uid := g.nextUid, gridDim, blockDim }
    numKernels := g.numKernels + 1
    nextUid := (g.nextUid + 1) % wordSize }

/-- A slot that holds no kernel, or one that is done. -/
def slotFree : Option KernelPtr → Bool
  | none => true
  | some k => (g.kernels k).done

def canStartKernel : Bool := g.runningKernels.any g.slotFree

def launch (k : KernelPtr) : Except Fault GpgpuSim := do
  assert ((g.kernels k).threadsPerCta ≤ cfg.nThreadPerShader) .ctaTooLarge
  match g.runningKernels.findIdx? g.slotFree with
  | some n => return { g with runningKernels := g.runningKernels.set n (some k) }
  | none => .error .noKernelSlot

/-- The uid of a finished kernel, zero if there is none. -/
def popFinishedKernel : GpgpuSim × Nat :=
  match g.finishedKernel with
  | [] => (g, 0)
  | uid :: rest => ({ g with finishedKernel := rest }, uid)

def setKernelDone (k : KernelPtr) : Except Fault GpgpuSim :=
  match g.runningKernels.findIdx? (· = some k) with
  | some n =>
    return { g with
      finishedKernel := g.finishedKernel ++ [(g.kernels k).uid]
      runningKernels := g.runningKernels.set n none }
  | none => .error .kernelNotRunning

/-- The end of `register_cta_thread_exit` when the last CTA of a core is done: the core releases its
kernel. -/
def releaseKernel (k : KernelPtr) : Except Fault GpgpuSim := do
  let info ← (g.kernels k).decRunning
  let g := g.setKernel k info
  if info.noMoreCtasToRun && !info.running then g.setKernelDone k else return g

end GpgpuSim

end GpgpuSimRuby.Gpu
