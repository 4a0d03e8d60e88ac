import GpgpuSimRuby.Library.Fault
import GpgpuSimRuby.Library.Machine

/-!
# The memory controller

`dram_t`: the requests wait in `mrqq`, a scheduler hands them to the banks, and each cycle at most
one bank issues a command. The data of the column commands pass through `rwq` to `returnq`. The
counters of a cycle are those of the source; `now` and `commands` record when each command was
issued.
-/

namespace GpgpuSimRuby.Memory

open Library Function

/-! ## Configuration -/

inductive SchedulerType where
  | fifo | frfcfs
  deriving DecidableEq, Repr

/-- The options of `memory_config` that the controller reads. -/
structure MemoryConfig where
  schedulerType : SchedulerType
  schedQueueSize : Nat
  nbk : Nat
  nbkgrp : Nat
  tCCD : BitVec 32
  tRRD : BitVec 32
  tRCD : BitVec 32
  tRAS : BitVec 32
  tRP : BitVec 32
  tRC : BitVec 32
  CL : BitVec 32
  WL : BitVec 32
  tCDLR : BitVec 32
  tWR : BitVec 32
  tCCDL : BitVec 32
  tRTPL : BitVec 32
  BL : BitVec 32
  dataCommandFreqRatio : BitVec 32
  dramAtomSize : Nat

namespace MemoryConfig

variable (cfg : MemoryConfig)

/-! The timing that `init` derives, in unsigned arithmetic. -/

def burst : BitVec 32 := cfg.BL / cfg.dataCommandFreqRatio
def tRCDWR : BitVec 32 := cfg.tRCD - (cfg.WL + 1)
def tRTW : BitVec 32 := cfg.CL + cfg.burst + 2 - cfg.WL
def tWTR : BitVec 32 := cfg.WL + cfg.burst + cfg.tCDLR
def tWTP : BitVec 32 := cfg.WL + cfg.burst + cfg.tWR

end MemoryConfig

/-- The loop that shifts until nothing is left; an `int` has 31 bits besides its sign. -/
def tagLengthLoop : Nat → Int → Nat → Nat
  | 0, _, i => i
  | fuel + 1, nbkt, i => if 0 < nbkt then tagLengthLoop fuel (nbkt >>> (1 : Nat)) (i + 1) else i

/-- The number of banks of a group is an `int` when it is shifted. -/
def MemoryConfig.bkTagLength (cfg : MemoryConfig) : Nat :=
  tagLengthLoop 32 (BitVec.ofNat 32 (cfg.nbk / cfg.nbkgrp)).toInt 0

/-! ## Queues -/

inductive Fault where
  /-- `push` on a `fifo_pipeline` that is full -/
  | fifoFull
  /-- `set_min_length` of an empty `fifo_pipeline` -/
  | fifoEmpty
  deriving DecidableEq, Repr

/-- `fifo_pipeline`, the head first. Empty places keep it at its minimal length. -/
structure FifoPipeline (α : Type) where
  minLen : Nat
  maxLen : Nat
  nodes : List (Option α)

namespace FifoPipeline

variable {α : Type} (q : FifoPipeline α)

def new (minLen maxLen : Nat) : FifoPipeline α := ⟨minLen, maxLen, List.replicate minLen none⟩

def full : Bool := q.maxLen ≠ 0 && q.maxLen ≤ q.nodes.length

/-- An empty place at the tail is filled, unless the queue is below its minimal length. -/
def push (x : Option α) : Except Fault (FifoPipeline α) := do
  assert (q.nodes.length < q.maxLen) .fifoFull
  match q.nodes.getLast? with
  | some none =>
    if q.nodes.length < q.minLen then .ok { q with nodes := q.nodes ++ [x] }
    else .ok { q with nodes := q.nodes.dropLast ++ [x] }
  | _ => .ok { q with nodes := q.nodes ++ [x] }

def pop : Except Fault (Option α × FifoPipeline α) :=
  match q.nodes with
  | [] => .ok (none, q)
  | x :: nodes => do
    let q := { q with nodes }
    let q ← (if q.minLen ≠ 0 ∧ q.nodes.length < q.minLen then q.push none else .ok q)
    .ok (x, q)

/-- The loop that fills up with `n` empty places. -/
def pushNulls : Nat → FifoPipeline α → Except Fault (FifoPipeline α)
  | 0, q => .ok q
  | n + 1, q => do
    let q ← q.push none
    pushNulls n q

/-- The loop that drops `n` places from the tail, while they are empty. -/
def dropNulls : Nat → List (Option α) → List (Option α)
  | 0, nodes => nodes
  | n + 1, nodes =>
    match nodes.getLast? with
    | some none => dropNulls n nodes.dropLast
    | _ => nodes

def setMinLength (newMinLen : Nat) : Except Fault (FifoPipeline α) :=
  if newMinLen = q.minLen then .ok q
  else if q.minLen < newMinLen then
    pushNulls (newMinLen - q.nodes.length) { q with minLen := newMinLen }
  else do
    assert (q.nodes.isEmpty = false) .fifoEmpty
    .ok { q with minLen := newMinLen, nodes := dropNulls (q.nodes.length - newMinLen) q.nodes }

end FifoPipeline

/-! ## Banks -/

/-- `dram_req_t`. The bank that serves it counts `txbytes` up. -/
structure DramReq where
  uid : Nat
  bk : Nat
  row : Nat
  nbytes : Nat
  txbytes : Nat
  isWrite : Bool
  /-- an L1 or L2 write-back, which nobody waits for -/
  isWriteback : Bool
  deriving DecidableEq, Repr

inductive BankState where
  | idle | active
  deriving DecidableEq, Repr

structure Bank where
  RCDc : Nat
  RCDWRc : Nat
  RASc : Nat
  RPc : Nat
  RCc : Nat
  WTPc : Nat
  RTPc : Nat
  state : BankState
  currRow : Nat
  mrq : Option DramReq

structure BankGroup where
  CCDLc : Nat
  RTPLc : Nat

inductive Command where
  | rd (bk row : Nat)
  | wr (bk row : Nat)
  | act (bk row : Nat)
  | pre (bk : Nat)
  deriving DecidableEq, Repr

/-- `dram_t` with its scheduler, in which the newest request of a bank comes first. -/
structure Dram where
  bk : Nat → Bank
  bkgrp : Nat → BankGroup
  prio : Nat
  RRDc : Nat
  CCDc : Nat
  RTWc : Nat
  WTRc : Nat
  /-- was the last column command a write? -/
  rw : Bool
  rwq : FifoPipeline DramReq
  mrqq : List DramReq
  returnq : List Nat
  queue : Nat → List DramReq
  lastRow : Nat → Option Nat
  dqbytes : Nat → Nat
  now : Nat
  commands : List (Nat × Command)

namespace Dram

variable (cfg : MemoryConfig) (d : Dram)

def init (cfg : MemoryConfig) : Dram where
  bk := fun _ => ⟨0, 0, 0, 0, 0, 0, 0, .idle, 0, none⟩
  bkgrp := fun _ => ⟨0, 0⟩
  prio := 0
  RRDc := 0
  CCDc := 0
  RTWc := 0
  WTRc := 0
  rw := false
  rwq := .new cfg.CL.toNat (cfg.CL.toNat + 1)
  mrqq := []
  returnq := []
  queue := fun _ => []
  lastRow := fun _ => none
  dqbytes := fun _ => 0
  now := 0
  commands := []

def setBank (j : Nat) (b : Bank) : Dram := { d with bk := update d.bk j b }

def setBankGroup (g : Nat) (b : BankGroup) : Dram := { d with bkgrp := update d.bkgrp g b }

/-! ## Scheduling -/

/-- `scheduler_fifo`. -/
def schedulerFifo : Dram :=
  match d.mrqq with
  | [] => d
  | head :: rest =>
    if (d.bk head.bk).mrq = none then
      { d.setBank head.bk { d.bk head.bk with mrq := some head } with mrqq := rest }
    else d

/-- `num_pending` of the scheduler. -/
def numPending : Nat := ((List.range cfg.nbk).map fun b => (d.queue b).length).sum

def addReq (req : DramReq) : Dram :=
  { d with queue := update d.queue req.bk (req :: d.queue req.bk) }

/-- The loop that moves requests from `mrqq` to the scheduler while it has room. -/
def takeReqs : List DramReq → Dram → Dram
  | [], d => { d with mrqq := [] }
  | req :: rest, d =>
    if cfg.schedQueueSize = 0 ∨ d.numPending cfg < cfg.schedQueueSize then takeReqs rest (d.addReq req)
    else { d with mrqq := req :: rest }

/-- The row that `schedule` serves next: that of the last request while it has some left, else the open
one if a request is for it, else that of the oldest request. -/
def nextRow (bank : Nat) : Option Nat :=
  match d.lastRow bank with
  | some row => some row
  | none =>
    if ∃ req ∈ d.queue bank, req.row = (d.bk bank).currRow then some (d.bk bank).currRow
    else (d.queue bank).getLast?.map (·.row)

/-- `frfcfs_scheduler::schedule`: the oldest request for the row. -/
def schedule (bank : Nat) : Option (DramReq × Dram) :=
  match d.nextRow bank with
  | none => none
  | some row =>
    ((d.queue bank).reverse.find? fun req => req.row = row).map fun req =>
      let queue := (d.queue bank).reverse.erase req |>.reverse
      (req, { d with
        queue := update d.queue bank queue
        lastRow := update d.lastRow bank
          (if ∃ req ∈ queue, req.row = row then some row else none) })

/-- `scheduler_frfcfs`: one bank without a request gets one. -/
def schedulerFrfcfs : Dram :=
  let d := d.takeReqs cfg d.mrqq
  let found := (List.range cfg.nbk).findSome? fun i =>
    let b := (i + d.prio) % cfg.nbk
    if (d.bk b).mrq = none then (d.schedule b).map fun x => (b, x.1, x.2) else none
  match found with
  | none => d
  | some (b, req, d') =>
    { d'.setBank b { d'.bk b with mrq := some req } with prio := (d'.prio + 1) % cfg.nbk }

def scheduler : Dram :=
  match cfg.schedulerType with
  | .fifo => d.schedulerFifo
  | .frfcfs => d.schedulerFrfcfs cfg

/-! ## Commands -/

/-- The data of a column command on their way out. -/
def dataOut : Except Fault Dram :=
  if d.returnq.length ≥ cfg.schedQueueSize ∧ cfg.schedQueueSize ≠ 0 then .ok d
  else do
    let (cmd, rwq) ← d.rwq.pop
    let d := { d with rwq }
    match cmd with
    | none => .ok d
    | some req =>
      let dqbytes := d.dqbytes req.uid + cfg.dramAtomSize
      let d := { d with dqbytes := update d.dqbytes req.uid dqbytes }
      if dqbytes < req.nbytes ∨ req.isWriteback then .ok d
      else do
        assert (d.returnq.length < cfg.schedQueueSize) .fifoFull
        .ok { d with returnq := d.returnq ++ [req.uid] }

/-- The direction of the data bus turns around. -/
def turn (isWrite : Bool) : Except Fault Dram :=
  if d.rw = isWrite then .ok d
  else do
    let rwq ← d.rwq.setMinLength (if isWrite then cfg.WL.toNat else cfg.CL.toNat)
    .ok { d with rw := isWrite, rwq }

/-- The request of a bank after a burst. -/
def sentBurst (mrq : DramReq) : Option DramReq :=
  if mrq.txbytes + cfg.dramAtomSize < mrq.nbytes then
    some { mrq with txbytes := mrq.txbytes + cfg.dramAtomSize }
  else none

def read (j grp : Nat) (mrq : DramReq) : Except Fault Dram := do
  let d ← d.turn cfg false
  let rwq ← d.rwq.push (some mrq)
  let d := { d with rwq, CCDc := cfg.tCCD.toNat, RTWc := cfg.tRTW.toNat }
  let d := d.setBankGroup grp ⟨cfg.tCCDL.toNat, cfg.tRTPL.toNat⟩
  .ok (d.setBank j { d.bk j with RTPc := cfg.burst.toNat, mrq := sentBurst cfg mrq })

def write (j grp : Nat) (mrq : DramReq) : Except Fault Dram := do
  let d ← d.turn cfg true
  let rwq ← d.rwq.push (some mrq)
  let d := { d with rwq, CCDc := cfg.tCCD.toNat, WTRc := cfg.tWTR.toNat }
  let d := d.setBankGroup grp { d.bkgrp grp with CCDLc := cfg.tCCDL.toNat }
  .ok (d.setBank j { d.bk j with WTPc := cfg.tWTP.toNat, mrq := sentBurst cfg mrq })

def activate (j : Nat) (mrq : DramReq) : Dram :=
  { d.setBank j { d.bk j with
      currRow := mrq.row
      state := .active
      RCDc := cfg.tRCD.toNat
      RCDWRc := cfg.tRCDWR.toNat
      RASc := cfg.tRAS.toNat
      RCc := cfg.tRC.toNat } with
    RRDc := cfg.tRRD.toNat
    prio := (j + 1) % cfg.nbk }

def precharge (j : Nat) : Dram :=
  { d.setBank j { d.bk j with state := .idle, RPc := cfg.tRP.toNat } with prio := (j + 1) % cfg.nbk }

/-- The bank loop for one bank, which looks for a command unless one was issued. -/
def issueBank (x : Dram × Option Command) (i : Nat) : Except Fault (Dram × Option Command) :=
  let d := x.1
  let j := (i + d.prio) % cfg.nbk
  let grp := j >>> cfg.bkTagLength
  let b := d.bk j
  match b.mrq, x.2 with
  | some mrq, none =>
    if d.CCDc = 0 ∧ b.RCDc = 0 ∧ (d.bkgrp grp).CCDLc = 0 ∧ b.currRow = mrq.row ∧ mrq.isWrite = false ∧
        d.WTRc = 0 ∧ b.state = .active ∧ d.rwq.full = false then do
      let d ← d.read cfg j grp mrq
      .ok (d, some (.rd j mrq.row))
    else if d.CCDc = 0 ∧ b.RCDWRc = 0 ∧ (d.bkgrp grp).CCDLc = 0 ∧ b.currRow = mrq.row ∧ mrq.isWrite = true ∧
        d.RTWc = 0 ∧ b.state = .active ∧ d.rwq.full = false then do
      let d ← d.write cfg j grp mrq
      .ok (d, some (.wr j mrq.row))
    else if d.RRDc = 0 ∧ b.state = .idle ∧ b.RPc = 0 ∧ b.RCc = 0 then
      .ok (d.activate cfg j mrq, some (.act j mrq.row))
    else if b.currRow ≠ mrq.row ∧ b.state = .active ∧ b.RASc = 0 ∧ b.WTPc = 0 ∧ b.RTPc = 0 ∧
        (d.bkgrp grp).RTPLc = 0 then
      .ok (d.precharge cfg j, some (.pre j))
    else .ok x
  | _, _ => .ok x

def Bank.tick (b : Bank) : Bank :=
  { b with
    RCDc := b.RCDc - 1
    RASc := b.RASc - 1
    RCc := b.RCc - 1
    RPc := b.RPc - 1
    RCDWRc := b.RCDWRc - 1
    WTPc := b.WTPc - 1
    RTPc := b.RTPc - 1 }

def BankGroup.tick (g : BankGroup) : BankGroup := { g with CCDLc := g.CCDLc - 1, RTPLc := g.RTPLc - 1 }

/-- `DEC2ZERO` of the counters. -/
def tick : Dram :=
  { d with
    RRDc := d.RRDc - 1
    CCDc := d.CCDc - 1
    RTWc := d.RTWc - 1
    WTRc := d.WTRc - 1
    bk := fun j => if j < cfg.nbk then Bank.tick (d.bk j) else d.bk j
    bkgrp := fun j => if j < cfg.nbkgrp then BankGroup.tick (d.bkgrp j) else d.bkgrp j }

def record (command : Option Command) : Dram :=
  { d with
    now := d.now + 1
    commands := match command with
      | some c => (d.now, c) :: d.commands
      | none => d.commands }

/-- `dram_t::cycle`. -/
def cycle : Except Fault Dram := do
  let d ← d.dataOut cfg
  let (d, command) ← (List.range cfg.nbk).foldlM (issueBank cfg) (d.scheduler cfg, none)
  .ok ((d.tick cfg).record command)

/-- `dram_t::push`, of a request for one of the banks. -/
def push (req : DramReq) : Option (Except Fault Dram) :=
  if req.bk < cfg.nbk then some do
    assert (d.mrqq.length < 2) .fifoFull
    .ok { d with mrqq := d.mrqq ++ [req] }
  else none

/-- The memory partition takes from `returnq`. -/
def popReturn : Dram := { d with returnq := d.returnq.tail }

end Dram

inductive Act where
  | push (req : DramReq)
  | cycle
  | pop

def dram (cfg : MemoryConfig) : Machine Dram Act Fault where
  init := .init cfg
  step d
    | .push req => d.push cfg req
    | .cycle => some (d.cycle cfg)
    | .pop => some (.ok d.popReturn)

end GpgpuSimRuby.Memory
