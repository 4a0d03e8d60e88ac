import GpgpuSimRuby.RubyWrapper.Sequencer

/-!
# The Ruby wrapper of one core

`is_ready`, `send_request` and `advance_time` of `ruby_wrapper.cc`, with the parts of `shader.cc`
that drive them and of `GpusimInterface.C` that answers. Every core has an MSHR table, a sequencer
and callback queues of its own, and the loops over the cores only visit them one by one; what
follows is the slice of one core.

A step of the machine is an attempt of the `ldst_unit` to issue an access, a callback of Ruby for
an outstanding request of its choice, the callback part of `advance_time`, or one of the three
writeback clients that serve Ruby.
-/

namespace GpgpuSimRuby.RubyWrapper

open Ruby Library

/-- The wrapper's state of one core. The fences under way in Ruby are `memfences`. -/
structure Core where
  mshr : MshrTable
  sequencer : Sequencer
  callbackQueue : List RubyAddr
  skipL1CallbackQueue : List MemFetch
  memfences : List Nat
  memfenceCallbackQueue : List Nat
  nextUid : Nat

/-- How `send_request` deals with an access. -/
inductive Handling where
  /-- a memory fence -/
  | fence
  /-- 1. skips MSHRs and L1 -/
  | bypass
  /-- 2. a store or atomic that skips the MSHRs, which are told about it -/
  | skipWrite
  /-- 3. queued in an MSHR and sent to Ruby -/
  | request
  /-- 3. merged with what the MSHR holds -/
  | merge
  deriving DecidableEq, Repr

/-- Does the access skip MSHRs and L1? -/
def MemFetch.Bypasses (cfg : Config) (mf : MemFetch) : Prop :=
  cfg.gmemSkipL1D ∧ mf.space = .global

instance (cfg : Config) (mf : MemFetch) : Decidable (mf.Bypasses cfg) :=
  inferInstanceAs (Decidable (_ ∧ _))

namespace Core

variable (cfg : Config) (c : Core)

def init : Core where
  mshr := .init
  sequencer := .init
  callbackQueue := []
  skipL1CallbackQueue := []
  memfences := []
  memfenceCallbackQueue := []
  nextUid := 1

/-- `ruby_wrapper::is_ready`. -/
def isReady (mf : MemFetch) : Except Assertion Bool :=
  if mf.isMembar then c.sequencer.isReady cfg mf.request
  else do
    assert (mf.dataSize ≤ rubyBlockSize.toNat) .dataSize
    if mf.Bypasses cfg then c.sequencer.isReady cfg mf.request
    else if c.mshr.probe mf.blockAddr then do
      -- MSHR hit: check for tracking space
      let isMSHRReady := !c.mshr.full cfg mf.blockAddr
      let (isAccessAllowed, stallReason) ←
        c.mshr.accessAllowed cfg mf.blockAddr mf.modifies mf.wid
      let isReady := isMSHRReady && isAccessAllowed
      assert (isReady ∨ isMSHRReady = false ∨
        isAccessAllowed = false ∧ stallReason ≠ .rubyNoStall) .stallReason
      .ok isReady
    else do
      -- MSHR miss: check for downstream back pressure from Ruby
      let isRubyReady ← c.sequencer.isReady cfg mf.request
      .ok (isRubyReady && !c.mshr.full cfg mf.blockAddr)

/-- Make the request of an access. -/
def makeRequest (mf : MemFetch) : Except Assertion Core := do
  let sequencer ← c.sequencer.makeRequest cfg mf.request
  .ok { c with sequencer }

/-- Tell the MSHR table about an access. -/
def addToMshr (mf : MemFetch) : Except Assertion Core := do
  let mshr ← c.mshr.add cfg mf.blockAddr mf.modifies mf
  .ok { c with mshr }

/-- `ruby_wrapper::send_request`. -/
def sendRequest (mf : MemFetch) : Except Assertion (Core × Handling) := do
  assert (mf.dataSize ≤ rubyBlockSize.toNat) .dataSize
  if mf.isMembar then do
    assert (mf.blockAddr = 0) .memfenceAddress
    .ok ({ c with memfences := c.memfences ++ [mf.wid] }, .fence)
  else if mf.Bypasses cfg then do
    let c ← c.makeRequest cfg mf
    .ok (c, .bypass)
  else if mf.modifies ∧ cfg.writesStallAtMshr = false then do
    let c ← c.makeRequest cfg mf
    let c ← c.addToMshr cfg mf
    .ok (c, .skipWrite)
  else if ← c.mshr.doAccess cfg mf.blockAddr mf.modifies then do
    let c ← c.makeRequest cfg mf
    let c ← c.addToMshr cfg mf
    .ok (c, .request)
  else do
    let c ← c.addToMshr cfg mf
    .ok (c, .merge)

/-- `GpusimInterface::hitCallback`. -/
def hitCallback (r : Request) : Core :=
  if r.SkipsL1 cfg then { c with skipL1CallbackQueue := c.skipL1CallbackQueue ++ [r.memfetch] }
  else { c with callbackQueue := c.callbackQueue ++ [r.address] }

/-- A request of the normal tables is answered. -/
def callback (r : Request) : Except Assertion Core := do
  let sequencer ← c.sequencer.removeRequest r
  .ok ({ c with sequencer }.hitCallback cfg r)

/-- A request of the skip-L1 table is answered. -/
def skipL1Callback (r : Request) : Except Assertion Core := do
  let sequencer ← c.sequencer.removeSkipL1Request r
  .ok ({ c with sequencer }.hitCallback cfg r)

/-- The part of `advance_time` after Ruby has moved on: at most one callback for each core. -/
def advanceTime : Except Assertion Core :=
  match c.callbackQueue with
  | [] => .ok c
  | addr :: callbackQueue => do
    let mshr ← c.mshr.markReady addr
    .ok { c with mshr, callbackQueue }

/-- The writeback client of the responses that skipped the L1 or the MSHRs. -/
def writebackSkipL1 (mf : MemFetch) (skipL1CallbackQueue : List MemFetch) :
    Except Assertion Core := do
  let c := { c with skipL1CallbackQueue }
  if mf.Bypasses cfg then .ok c
  else if cfg.writesStallAtMshr = false then do
    assert mf.modifies .skippedRead
    let mshr ← c.mshr.markSkippedWriteDone cfg mf.blockAddr mf.wid
    .ok { c with mshr }
  else .ok c

end Core

/-- What a step shows to the outside. -/
inductive Event where
  /-- `send_request` has taken an access -/
  | accepted (mf : MemFetch) (how : Handling)
  /-- `next_access` has returned an access -/
  | returned (mf : MemFetch)
  /-- a response that skipped the MSHRs has been written back -/
  | skippedDone (mf : MemFetch)
  deriving DecidableEq, Repr

/-- The core and the events of the run so far, the latest first. -/
structure World where
  core : Core
  trace : List Event

inductive Act where
  /-- the `ldst_unit` tries to issue an access -/
  | issue (access : Access)
  /-- Ruby answers the oldest read request of an address -/
  | readCallback (addr : RubyAddr)
  /-- Ruby answers the oldest write request of an address -/
  | writeCallback (addr : RubyAddr)
  /-- Ruby answers a request that skips the L1 -/
  | skipL1Callback (mf : MemFetch)
  /-- Ruby answers the fence of a warp -/
  | memfenceCallback (wid : Nat)
  | advanceTime
  /-- writeback from the MSHRs -/
  | writebackMshr
  /-- writeback from the skip-L1 interface -/
  | writebackSkipL1
  /-- writeback from the memory fence interface -/
  | writebackMemfence
  deriving DecidableEq, Repr

namespace World

variable (cfg : Config) (w : World)

def init : World := ⟨.init, []⟩

/-- Issue an access: a `mem_fetch` is allocated, and sent if the wrapper is ready for it. -/
def issue (access : Access) : Except Assertion World := do
  let mf : MemFetch := { access with uid := w.core.nextUid }
  let c := { w.core with nextUid := w.core.nextUid + 1 }
  if ← c.isReady cfg mf then do
    let (c, how) ← c.sendRequest cfg mf
    .ok ⟨c, .accepted mf how :: w.trace⟩
  else .ok ⟨c, w.trace⟩

def step : Act → Option (Except Assertion World)
  | .issue access => some (w.issue cfg access)
  | .readCallback addr => (w.core.sequencer.oldestRead addr).map fun r => do
    .ok { w with core := ← w.core.callback cfg r }
  | .writeCallback addr => (w.core.sequencer.oldestWrite addr).map fun r => do
    .ok { w with core := ← w.core.callback cfg r }
  | .skipL1Callback mf => (w.core.sequencer.skipL1Request mf).map fun r => do
    .ok { w with core := ← w.core.skipL1Callback cfg r }
  | .memfenceCallback wid =>
    if wid ∈ w.core.memfences then
      some (.ok { w with core := { w.core with
        memfences := w.core.memfences.erase wid
        memfenceCallbackQueue := w.core.memfenceCallbackQueue ++ [wid] } })
    else none
  | .advanceTime => some do .ok { w with core := ← w.core.advanceTime }
  | .writebackMshr =>
    if w.core.mshr.accessReady then some do
      let (mf, mshr) ← w.core.mshr.nextAccess cfg
      .ok ⟨{ w.core with mshr }, .returned mf :: w.trace⟩
    else none
  | .writebackSkipL1 =>
    match w.core.skipL1CallbackQueue with
    | [] => none
    | mf :: skipL1CallbackQueue => some do
      let core ← w.core.writebackSkipL1 cfg mf skipL1CallbackQueue
      .ok ⟨core, .skippedDone mf :: w.trace⟩
  | .writebackMemfence =>
    match w.core.memfenceCallbackQueue with
    | [] => none
    | _ :: memfenceCallbackQueue =>
      some (.ok { w with core := { w.core with memfenceCallbackQueue } })

end World

/-- The wrapper of a core with the rest of the simulator around it. -/
def machine (cfg : Config) : Machine World Act Assertion where
  init := .init
  step := World.step cfg

end GpgpuSimRuby.RubyWrapper
