import GpgpuSimRuby.Library.Machine
import GpgpuSimRuby.Library.SerialQueue
import GpgpuSimRuby.Gpu.Kernel

/-!
# Streams

`stream_manager.cc` in performance-simulation mode: host threads push operations to streams, the
simulation thread takes one operation at a time from the front of a stream, and kernels finish on the
GPU. The steps are the sections under the lock of the manager, and the reads without it. `trace` records
what has happened to the operations, the latest event first.
-/

namespace GpgpuSimRuby.Streams

open Library Gpu Function

/-! ## Operations and streams -/

/-- `m_stream_zero`, or one of the `n` streams that the hosts have created. -/
inductive StreamId (n : Nat) where
  | zero
  | created (i : Fin n)
  deriving DecidableEq

inductive StreamOperationType where
  | noOp
  | memcpyHostToDevice
  | memcpyDeviceToHost
  | memcpyDeviceToDevice
  | memcpyToSymbol
  | memcpyFromSymbol
  | kernelLaunch (kernel : KernelPtr)
  | event
  deriving DecidableEq

/-- `serial` tells operations apart: the number of operations that were pushed before this one. -/
structure StreamOperation (n : Nat) where
  type : StreamOperationType
  stream : Option (StreamId n)
  done : Bool
  serial : Nat := 0
  deriving DecidableEq

namespace StreamOperation

variable {n : Nat} (op : StreamOperation n)

/-- The default constructor. -/
def none : StreamOperation n where
  type := .noOp
  stream := Option.none
  done := true

def isNoop : Bool := op.type = .noOp

def kernel : Option KernelPtr :=
  match op.type with
  | .kernelLaunch k => some k
  | _ => Option.none

end StreamOperation

/-- `pending`: the front operation has started but not yet completed. -/
structure CuStream (n : Nat) where
  operations : List (StreamOperation n) := []
  pending : Bool := false

/-- The assertions of the code, and the uses of a pointer or a front element that is not there. -/
inductive Fault where
  | notPending | noFront | noStream | noKernel | wrongKernel | doneOperation
  | gpu (e : Gpu.Fault)
  deriving DecidableEq

namespace CuStream

variable {n : Nat} (s : CuStream n)

def empty : Bool := s.operations.isEmpty

def busy : Bool := s.pending

def push (op : StreamOperation n) : CuStream n :=
  { s with operations := s.operations ++ [op] }

def recordNextDone : Except Fault (CuStream n) := do
  assert (s.pending = true) .notPending
  return ⟨s.operations.tail, false⟩

end CuStream

/-! ## The manager, the hosts and the GPU -/

/-- Where a host thread stands in `stream_manager::push`; `draining` is the loop over `empty()`, which
looks at one stream after the other. -/
inductive Host (n : Nat) where
  | idle
  | blocked (op : StreamOperation n)
  | ready (op : StreamOperation n)
  | draining (next : Nat) (result : Bool)

structure Config where
  gpu : GpuConfig
  cudaLaunchBlocking : Bool

/-- A GPU that runs one kernel at a time. -/
def oneSlot : Config := ⟨⟨1, 1024⟩, false⟩

structure Manager (n : Nat) where
  stream : StreamId n → CuStream n
  serviceStreamZero : Bool
  gridIdToStream : Nat → Option (StreamId n)
  gpu : GpgpuSim
  host : Nat → Host n
  numPushed : Nat
  trace : List (StreamId n × QueueEvent (StreamOperation n))

namespace Manager

variable {n : Nat} (cfg : Config) (m : Manager n)

def init : Manager n where
  stream := fun _ => {}
  serviceStreamZero := false
  gridIdToStream := fun _ => none
  gpu := .init cfg.gpu
  host := fun _ => .idle
  numPushed := 0
  trace := []

def setStream (i : StreamId n) (s : CuStream n) : Manager n :=
  { m with stream := update m.stream i s }

def setHost (h : Nat) (x : Host n) : Manager n := { m with host := update m.host h x }

def log (i : StreamId n) (e : QueueEvent (StreamOperation n)) : Manager n :=
  { m with trace := (i, e) :: m.trace }

def concurrentStreamsEmpty : Bool :=
  (List.finRange n).all fun i => (m.stream (.created i)).empty

/-! ### The simulation thread -/

/-- `record_next_done` of a stream. -/
def recordNextDone (i : StreamId n) : Except Fault (Manager n) := do
  let s ← (m.stream i).recordNextDone
  match (m.stream i).operations with
  | [] => .error .noFront
  | op :: _ => return (m.setStream i s).log i (.completed op)

def registerFinishedKernel (gridUid : Nat) : Except Fault (Manager n) :=
  if gridUid > 0 then
    match m.gridIdToStream gridUid with
    | none => .error .noStream
    | some i =>
      match (m.stream i).operations with
      | [] => .error .noFront
      | op :: _ =>
        match op.kernel with
        | none => .error .noKernel
        | some k => do
          assert (gridUid = (m.gpu.kernels k).uid) .wrongKernel
          let m ← m.recordNextDone i
          return { m with gridIdToStream := update m.gridIdToStream gridUid none }
  else return m

def checkFinishedKernel : Except Fault (Manager n) :=
  { m with gpu := m.gpu.popFinishedKernel.1 }.registerFinishedKernel m.gpu.popFinishedKernel.2

/-- `next()` of a stream, and the grid id of a kernel. `front` asks `empty()` first. -/
def next (i : StreamId n) : Manager n × StreamOperation n :=
  match (m.stream i).operations with
  | [] => (m, .none)
  | op :: rest =>
    let m := (m.setStream i ⟨op :: rest, true⟩).log i (.taken op)
    match op.kernel with
    | some k =>
      ({ m with gridIdToStream := update m.gridIdToStream (m.gpu.kernels k).uid (some i) }, op)
    | none => (m, op)

def front : Manager n × StreamOperation n :=
  let m := if m.concurrentStreamsEmpty then { m with serviceStreamZero := true } else m
  if m.serviceStreamZero then
    if !(m.stream .zero).empty then
      if !(m.stream .zero).busy then m.next .zero else (m, .none)
    else ({ m with serviceStreamZero := false }, .none)
  else
    match (List.finRange n).find? fun i =>
        !(m.stream (.created i)).busy && !(m.stream (.created i)).empty with
    | some i => m.next (.created i)
    | none => (m, .none)

/-- Copies and events are over at once; a kernel is launched if the GPU has room for it. -/
def doOperation (op : StreamOperation n) : Except Fault (Manager n) :=
  if op.isNoop then return m
  else
    match op.stream with
    | none => .error .doneOperation
    | some i => do
      assert (op.done = false) .doneOperation
      match op.kernel with
      | some k =>
        if m.gpu.canStartKernel then do
          let gpu ← (m.gpu.launch cfg.gpu k).mapError .gpu
          return { m with gpu }.log i (.performed op)
        else return m
      | none => (m.log i (.performed op)).recordNextDone i

def operation : Except Fault (Manager n) := do
  let m ← m.checkFinishedKernel
  m.front.1.doOperation cfg m.front.2

/-! ### The host threads -/

/-- What a host asks for. -/
inductive Request where
  | memcpyHostToDevice
  | memcpyDeviceToHost
  | memcpyDeviceToDevice
  | memcpyToSymbol
  | memcpyFromSymbol
  | kernelLaunch (gridDim blockDim : Dim3)
  | event

/-- The operation of a request; a launch makes its kernel. -/
def construct (stream : Option (StreamId n)) : Request → Manager n × StreamOperation n
  | .memcpyHostToDevice => (m, ⟨.memcpyHostToDevice, stream, false, 0⟩)
  | .memcpyDeviceToHost => (m, ⟨.memcpyDeviceToHost, stream, false, 0⟩)
  | .memcpyDeviceToDevice => (m, ⟨.memcpyDeviceToDevice, stream, false, 0⟩)
  | .memcpyToSymbol => (m, ⟨.memcpyToSymbol, stream, false, 0⟩)
  | .memcpyFromSymbol => (m, ⟨.memcpyFromSymbol, stream, false, 0⟩)
  | .kernelLaunch gridDim blockDim =>
    ({ m with gpu := m.gpu.newKernel gridDim blockDim },
      ⟨.kernelLaunch m.gpu.numKernels, stream, false, 0⟩)
  | .event => (m, ⟨.event, stream, false, 0⟩)

/-- A host calls `push`: it has to wait for the other streams if it pushes to stream zero. -/
def call (h : Nat) (stream : Option (Fin n)) (req : Request) : Manager n :=
  let (m, op) := m.construct (stream.map .created) req
  m.setHost h (if stream.isNone || cfg.cudaLaunchBlocking then .blocked op else .ready op)

/-- The first locked section, once round its loop. -/
def test (h : Nat) (op : StreamOperation n) : Manager n :=
  m.setHost h (if m.concurrentStreamsEmpty then .ready op else .blocked op)

/-- The stream in whose queue an operation is put. -/
def target (op : StreamOperation n) : StreamId n :=
  match op.stream with
  | some i => if cfg.cudaLaunchBlocking then .zero else i
  | none => .zero

/-- The second locked section. -/
def enqueue (h : Nat) (op : StreamOperation n) : Manager n :=
  let i := target cfg op
  let op := { op with stream := some i, serial := m.numPushed }
  let m := { m with numPushed := m.numPushed + 1 }
  ((m.setStream i ((m.stream i).push op)).log i (.pushed op)).setHost h
    (if i = .zero then .draining 0 true else .idle)

/-- One look of `empty()`. -/
def drain (h next : Nat) (result : Bool) : Manager n :=
  m.setHost h <|
    if hn : next < n then
      .draining (next + 1) (result && (m.stream (.created ⟨next, hn⟩)).empty)
    else if result && (m.stream .zero).empty then .idle
    else .draining 0 true

end Manager

/-! ## The steps -/

/-- A host thread takes its next step, the simulation thread calls `operation`, or a kernel goes on on
the GPU: a core takes it, issues a CTA of it, or releases it. -/
inductive Act (n : Nat) where
  | call (h : Nat) (stream : Option (Fin n)) (req : Manager.Request)
  | host (h : Nat)
  | operation
  | bind (k : KernelPtr)
  | issue (k : KernelPtr)
  | release (k : KernelPtr)

def hostStep {n : Nat} (cfg : Config) (m : Manager n) (h : Nat) : Option (Manager n) :=
  match m.host h with
  | .idle => none
  | .blocked op => some (m.test h op)
  | .ready op => some (m.enqueue cfg h op)
  | .draining next result => some (m.drain h next result)

/-- The kernel takes a step on the GPU. -/
def kernelStep {n : Nat} (m : Manager n) (k : KernelPtr) (f : KernelInfo → KernelInfo) : Manager n :=
  { m with gpu := m.gpu.setKernel k (f (m.gpu.kernels k)) }

def machine (n : Nat) (cfg : Config) : Machine (Manager n) (Act n) Fault where
  init := .init cfg
  step m
    | .call h stream req =>
      match m.host h with
      | .idle => some (.ok (m.call cfg h stream req))
      | _ => none
    | .host h => (hostStep cfg m h).map .ok
    | .operation => some (m.operation cfg)
    | .bind k =>
      if some k ∈ m.gpu.runningKernels ∧ (m.gpu.kernels k).noMoreCtasToRun = false then
        some (.ok (kernelStep m k KernelInfo.incRunning))
      else none
    | .issue k =>
      if (m.gpu.kernels k).numCoresRunning > 0 ∧ (m.gpu.kernels k).noMoreCtasToRun = false then
        some (.ok (kernelStep m k KernelInfo.incrementCtaId))
      else none
    | .release k =>
      if (m.gpu.kernels k).numCoresRunning > 0 then
        some (((m.gpu.releaseKernel k).mapError Fault.gpu).map fun gpu => { m with gpu })
      else none

end GpgpuSimRuby.Streams
