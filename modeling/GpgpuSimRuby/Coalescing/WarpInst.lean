import GpgpuSimRuby.Cache.Mshr
import GpgpuSimRuby.Library.Loops
import GpgpuSimRuby.Library.SortedMap
import GpgpuSimRuby.Shader.Instruction

/-!
# The accesses of a warp instruction

`warp_inst_t::generate_mem_accesses`. Shared memory is not accessed through the queue; conflicts
between its banks make the instruction take more cycles. Constant and texture accesses are split by
cache block, global and local ones by segment, for one subwarp after the other, and then made as
small as the 32-byte chunks that are used allow. The threads of an atomic that access the same bytes
go to different transactions.
-/

namespace GpgpuSimRuby.Coalescing

open Library
open Cache (MemAccessType)
open Ptx (MemorySpace)
open Shader (OpType)

/-! ## Data -/

def MAX_WARP_SIZE : Nat := 32
def MAX_MEMORY_ACCESS_SIZE : Nat := 128
def MAX_ACCESSES_PER_INSN_PER_THREAD : Nat := 8
def WORD_SIZE : Nat := 4

structure CoreConfig where
  warpSize : Nat
  warpSize_le : warpSize ≤ MAX_WARP_SIZE
  coalesceArch : Nat
  shmemLimitedBroadcast : Bool
  numShmemBank : Nat
  memWarpParts : Nat
  texl1Linesize : Nat
  constl1Linesize : Nat
  texl1Linesize_lt : texl1Linesize < 2 ^ 32
  constl1Linesize_lt : constl1Linesize < 2 ^ 32

theorem linesize_lt : 64 < 2 ^ 32 := by decide

/-- The assertions, with `abort`, divisions by zero and positions that a `bitset` does not have. -/
inductive Fault where
  | divisionByZero | outOfRange | operation | noAddresses | space | coalesceArch | accessesPerInsn | segment
  | conflict | unaligned | noChunk | halves | broadcast | cycles | queue
  deriving DecidableEq, Repr

/-- The masks are sets of lanes and of bytes. -/
structure MemAccess where
  accessType : MemAccessType
  addr : Nat
  reqSize : Nat
  write : Bool
  warpMask : Finset Nat
  byteMask : Finset Nat
  deriving DecidableEq

inductive MemoryOp where
  | noMemoryOp | memoryLoad | memoryStore
  deriving DecidableEq, Repr

structure WarpInst (cfg : CoreConfig) where
  isEmpty : Bool
  op : OpType
  memoryOp : MemoryOp
  space : MemorySpace
  dataSize : Nat
  active : Finset Nat
  active_lt : ∀ t ∈ active, t < cfg.warpSize
  isAtomic : Bool
  perScalarThreadValid : Bool
  memreqaddr : Nat → Nat → Nat
  memreqaddr_lt : ∀ t i, memreqaddr t i < 2 ^ 64
  memAccessesCreated : Bool
  cycles : Nat
  accessq : List MemAccess

/-- The result is a 32-bit address. -/
def lineSizeBasedTagFunc (address lineSize : Nat) : Nat :=
  (address &&& (2 ^ 64 - 1 - (lineSize + (2 ^ 64 - 1)) % 2 ^ 64)) % 2 ^ 32

/-- The address of a block, in 64 bits. -/
def blockOf (size address : Nat) : Nat := address &&& (2 ^ 64 - 1 - (size + (2 ^ 64 - 1)) % 2 ^ 64)

theorem lineSizeBasedTagFunc_eq (size address : Nat) :
    lineSizeBasedTagFunc address size = blockOf size address % 2 ^ 32 := rfl

theorem blockOf_le (size address : Nat) : blockOf size address ≤ address := Nat.and_le_left

theorem lineSizeBasedTagFunc_of_lt {size address : Nat} (h : address < 2 ^ 32) :
    lineSizeBasedTagFunc address size = blockOf size address := by
  rw [lineSizeBasedTagFunc_eq]
  exact Nat.mod_eq_of_lt (Nat.lt_of_le_of_lt (blockOf_le size address) h)

theorem blockOf_ge {size address : Nat} (hsize : 0 < size) (hlt : size < 2 ^ 32) (h : 2 ^ 32 ≤ address)
    (h' : address < 2 ^ 64) : 2 ^ 32 ≤ blockOf size address := by
  have hmask : (2 ^ 64 - 1 - (size + (2 ^ 64 - 1)) % 2 ^ 64) >>> 32 = 2 ^ 32 - 1 := by
    rw [Nat.shiftRight_eq_div_pow]
    omega
  have hupper : blockOf size address >>> 32 = address >>> 32 := by
    unfold blockOf
    rw [Nat.shiftRight_and_distrib, hmask, Nat.and_two_pow_sub_one_eq_mod, Nat.shiftRight_eq_div_pow]
    omega
  rw [Nat.shiftRight_eq_div_pow, Nat.shiftRight_eq_div_pow] at hupper
  omega

/-- `n` bits from `idx` on. -/
def setBytes (bytes : Finset Nat) (idx n : Nat) : Except Fault (Finset Nat) := do
  assert (n = 0 ∨ idx + n ≤ MAX_MEMORY_ACCESS_SIZE) .outOfRange
  .ok (bytes ∪ Finset.Ico idx (idx + n))

theorem setBytes_eq_ok {bytes bytes' : Finset Nat} {idx n : Nat} : setBytes bytes idx n = .ok bytes' ↔
    (n = 0 ∨ idx + n ≤ MAX_MEMORY_ACCESS_SIZE) ∧ bytes ∪ Finset.Ico idx (idx + n) = bytes' := by
  unfold setBytes
  rw [bind_eq_ok]
  simp

namespace WarpInst

variable {cfg : CoreConfig} (inst : WarpInst cfg)

def isLoad : Bool := inst.op = .load || inst.memoryOp = .memoryLoad
def isStore : Bool := inst.op = .store || inst.memoryOp = .memoryStore

/-- The address of a thread that makes one access. -/
def address (t : Nat) : Nat := inst.memreqaddr t 0

/-- The active ones of `n` threads from `first` on. -/
def threads (first n : Nat) : List Nat := (List.range' first n).filter (· ∈ inst.active)

theorem mem_threads {inst : WarpInst cfg} {first n t : Nat} :
    t ∈ inst.threads first n ↔ t ∈ inst.active ∧ first ≤ t ∧ t < first + n := by
  unfold threads
  rw [List.mem_filter, List.mem_range'_1, decide_eq_true_iff]
  tauto

/-! ## Shared memory -/

def shmemBankFunc (cfg : CoreConfig) (addr : Nat) : Nat := addr % 2 ^ 32 / WORD_SIZE % cfg.numShmemBank

/-- Bank, word address, access count. -/
abbrev BankAccs := SortedMap Nat (SortedMap Nat Nat)

def bankAccs (threads : List Nat) : BankAccs :=
  SortedMap.gather (fun t => shmemBankFunc cfg (inst.memreqaddr t 0)) .empty
    (fun t words => words.alter (lineSizeBasedTagFunc (inst.memreqaddr t 0) WORD_SIZE) 0 (· + 1))
    threads .empty

/-- The first word, with its bank, that is accessed more than once. -/
def broadcastWord (accs : BankAccs) : Option (Nat × Nat) :=
  accs.entries.findSome? fun b => (b.2.entries.find? fun w => 1 < w.2).map fun w => (b.1, w.1)

/-- The accesses of a bank that have to be made one by one. -/
def bankAccesses (word : Option (Nat × Nat)) (b : Nat × SortedMap Nat Nat) : Except Fault Nat :=
  let accesses := (b.2.entries.map Prod.snd).sum
  match word with
  | some (bank, w) =>
    match b.2.find? w with
    | some n =>
      if bank = b.1 then do
        assert (1 < n) .broadcast
        assert (n - 1 ≤ accesses) .broadcast
        .ok (accesses - (n - 1))
      else .ok accesses
    | none => .ok accesses
  | none => .ok accesses

def maxBankAccesses (limited : Bool) (accs : BankAccs) : Except Fault Nat := do
  if limited then
    let counts ← accs.entries.mapM (bankAccesses (broadcastWord accs))
    .ok (counts.foldl max 0)
  else .ok ((accs.entries.map fun b => b.2.entries.length).foldl max 0)

def sharedCycles : Except Fault Nat := do
  assert (cfg.memWarpParts ≠ 0) .divisionByZero
  let subwarpSize := cfg.warpSize / cfg.memWarpParts
  let counts ← (List.range cfg.memWarpParts).mapM fun subwarp => do
    let threads := inst.threads (subwarp * subwarpSize) subwarpSize
    assert (threads = [] ∨ cfg.numShmemBank ≠ 0) .divisionByZero
    maxBankAccesses cfg.shmemLimitedBroadcast (inst.bankAccs threads)
  let totalAccesses := counts.sum
  assert (0 < totalAccesses ∧ totalAccesses ≤ cfg.warpSize) .cycles
  .ok totalAccesses

/-! ## Constant and texture accesses -/

/-- What a thread adds: itself under its block, and its bytes to the one byte mask. -/
def addToBlock (blockSize : Nat) (acc : SortedMap Nat (Finset Nat) × Finset Nat) (thread : Nat) :
    Except Fault (SortedMap Nat (Finset Nat) × Finset Nat) := do
  let addr := inst.memreqaddr thread 0
  let blockAddress := lineSizeBasedTagFunc addr blockSize
  let idx := (addr - blockAddress) % 2 ^ 32
  let byteMask ← setBytes acc.2 idx inst.dataSize
  .ok (acc.1.alter blockAddress ∅ (insert thread), byteMask)

def cacheBlockAccesses (blockSize : Nat) (accessType : MemAccessType) : Except Fault (List MemAccess) := do
  let (accesses, byteMask) ← (inst.threads 0 cfg.warpSize).foldlM (inst.addToBlock blockSize) (.empty, ∅)
  .ok (accesses.entries.map fun a => ⟨accessType, a.1, blockSize, inst.isStore, a.2, byteMask⟩)

/-! ## Coalescing -/

/-- `chunks` are the 32-byte chunks that are accessed, of the four in 128 bytes, and `bytes` those
of the 128 bytes. -/
structure TransactionInfo where
  chunks : Finset Nat := ∅
  bytes : Finset Nat := ∅
  active : Finset Nat := ∅
  deriving DecidableEq

def segmentSize : Nat :=
  match inst.dataSize with
  | 1 => 32
  | 2 => 64
  | 4 | 8 | 16 => 128
  | _ => 0

/-- The size of the used part of 64 bytes, with its address. -/
def reduceHalves (addr : Nat) (lowerHalfUsed upperHalfUsed : Bool) : Except Fault (Nat × Nat) :=
  if lowerHalfUsed ∧ ¬ upperHalfUsed then .ok (addr, 32)
  else if ¬ lowerHalfUsed ∧ upperHalfUsed then .ok (addr + 32, 32)
  else do
    assert (lowerHalfUsed ∧ upperHalfUsed) .halves
    .ok (addr, 64)

def reduce (q : Finset Nat) (addr segmentSize : Nat) : Except Fault (Nat × Nat) :=
  if segmentSize = 128 then
    let lowerHalfUsed : Bool := 0 ∈ q ∨ 1 ∈ q
    let upperHalfUsed : Bool := 2 ∈ q ∨ 3 ∈ q
    if lowerHalfUsed ∧ ¬ upperHalfUsed then reduceHalves addr (0 ∈ q) (1 ∈ q)
    else if ¬ lowerHalfUsed ∧ upperHalfUsed then reduceHalves (addr + 64) (2 ∈ q) (3 ∈ q)
    else do
      assert (lowerHalfUsed ∧ upperHalfUsed) .halves
      .ok (addr, 128)
  else if segmentSize = 64 then
    if addr % 128 = 0 then reduceHalves addr (0 ∈ q) (1 ∈ q)
    else do
      assert (addr % 128 = 64) .halves
      reduceHalves addr (2 ∈ q) (3 ∈ q)
  else .ok (addr, segmentSize)

def memoryCoalescingArch13ReduceAndSend (accessType : MemAccessType) (segmentSize : Nat)
    (t : Nat × TransactionInfo) : Except Fault MemAccess := do
  assert (t.1 &&& (segmentSize + (2 ^ 32 - 1)) % 2 ^ 32 = 0) .unaligned
  assert (1 ≤ t.2.chunks.card) .noChunk
  let (addr, size) ← reduce t.2.chunks t.1 segmentSize
  .ok ⟨accessType, addr % 2 ^ 32, size, inst.isStore, t.2.active, t.2.bytes⟩

/-- A local access of 4 bytes or more was split. -/
def isSplit : Bool := (inst.space = .local ∨ inst.space = .paramLocal) ∧ 4 ≤ inst.dataSize

def dataSizeCoales : Nat := if inst.isSplit then 4 else inst.dataSize
def numAccesses : Nat := if inst.isSplit then inst.dataSize / 4 else 1

/-- What the access `i` of a thread adds to the transactions. -/
def addAccess (subwarpTransactions : SortedMap Nat TransactionInfo) (x : Nat × Nat) :
    Except Fault (SortedMap Nat TransactionInfo) := do
  let (thread, addr) := x
  let blockAddress := lineSizeBasedTagFunc addr inst.segmentSize
  let last := (addr + inst.dataSizeCoales + (2 ^ 64 - 1)) % 2 ^ 64
  assert (blockAddress = lineSizeBasedTagFunc last inst.segmentSize) .segment
  let idx := addr % 128
  assert (inst.dataSizeCoales = 0 ∨ idx + inst.dataSizeCoales ≤ MAX_MEMORY_ACCESS_SIZE) .outOfRange
  .ok (subwarpTransactions.alter blockAddress {} fun info => {
    chunks := insert (addr % 128 / 32) info.chunks
    bytes := info.bytes ∪ Finset.Ico idx (idx + inst.dataSizeCoales)
    active := insert thread info.active })

def addThread (subwarpTransactions : SortedMap Nat TransactionInfo) (thread : Nat) :
    Except Fault (SortedMap Nat TransactionInfo) := do
  assert (inst.numAccesses ≤ MAX_ACCESSES_PER_INSN_PER_THREAD) .accessesPerInsn
  ((List.range inst.numAccesses).map fun access => (thread, inst.memreqaddr thread access)).foldlM
    inst.addAccess subwarpTransactions

def memoryCoalescingArch13 (accessType : MemAccessType) : Except Fault (List MemAccess) := do
  assert (cfg.memWarpParts ≠ 0) .divisionByZero
  let subwarpSize := cfg.warpSize / cfg.memWarpParts
  let queues ← (List.range cfg.memWarpParts).mapM fun subwarp => do
    let subwarpTransactions ←
      (inst.threads (subwarp * subwarpSize) subwarpSize).foldlM inst.addThread .empty
    subwarpTransactions.entries.mapM
      (inst.memoryCoalescingArch13ReduceAndSend accessType inst.segmentSize)
  .ok queues.flatten

/-! ## Coalescing of atomics -/

namespace TransactionInfo

/-- `endBit` is included; a set bit is found before one that does not exist is looked for. -/
def testBytes (info : TransactionInfo) (startBit endBit : Nat) : Except Fault Bool :=
  if ∃ i ∈ info.bytes, startBit ≤ i ∧ i ≤ endBit then .ok true
  else do
    assert (endBit < startBit ∨ endBit < MAX_MEMORY_ACCESS_SIZE) .outOfRange
    .ok false

/-- The thread has its bytes in the transaction, where no other has them. -/
def addThread (info : TransactionInfo) (thread idx n : Nat) : Except Fault TransactionInfo := do
  assert (Disjoint info.bytes (Finset.Ico idx (idx + n))) .conflict
  let bytes ← setBytes info.bytes idx n
  .ok { chunks := insert (idx / 32) info.chunks, bytes, active := insert thread info.active }

end TransactionInfo

/-- The thread goes to the first transaction that it does not conflict with, or to a new one. -/
def addToFirst (thread idx n : Nat) : List TransactionInfo → Except Fault (List TransactionInfo)
  | [] => do
    let info ← TransactionInfo.addThread {} thread idx n
    .ok [info]
  | info :: rest => do
    let conflict ← info.testBytes idx ((idx + n + (2 ^ 32 - 1)) % 2 ^ 32)
    if conflict then do
      let rest ← addToFirst thread idx n rest
      .ok (info :: rest)
    else do
      let info ← info.addThread thread idx n
      .ok (info :: rest)

def addAtomic (subwarpTransactions : SortedMap Nat (List TransactionInfo)) (thread : Nat) :
    Except Fault (SortedMap Nat (List TransactionInfo)) := do
  let addr := inst.memreqaddr thread 0
  let blockAddress := lineSizeBasedTagFunc addr inst.segmentSize
  let last := (addr + inst.dataSize + (2 ^ 64 - 1)) % 2 ^ 64
  assert (blockAddress = lineSizeBasedTagFunc last inst.segmentSize) .segment
  let transactions ← addToFirst thread (addr % 128) inst.dataSize
    ((subwarpTransactions.find? blockAddress).getD [])
  .ok (subwarpTransactions.alter blockAddress [] fun _ => transactions)

def memoryCoalescingArch13Atomic (accessType : MemAccessType) : Except Fault (List MemAccess) := do
  assert (inst.space = .global) .space
  let warpParts := 2
  let subwarpSize := cfg.warpSize / warpParts
  let queues ← (List.range warpParts).mapM fun subwarp => do
    let subwarpTransactions ←
      (inst.threads (subwarp * subwarpSize) subwarpSize).foldlM inst.addAtomic .empty
    let sent ← subwarpTransactions.entries.mapM fun t =>
      t.2.mapM fun info =>
        inst.memoryCoalescingArch13ReduceAndSend accessType inst.segmentSize (t.1, info)
    .ok sent.flatten
  .ok queues.flatten

/-! ## All accesses -/

/-- Shared memory is not accessed through the queue. -/
def accessType : Except Fault (Option MemAccessType) :=
  match inst.space with
  | .const | .paramKernel => .ok (some .constAccR)
  | .tex => .ok (some .textureAccR)
  | .global => .ok (some (if inst.isStore then .globalAccW else .globalAccR))
  | .local | .paramLocal => .ok (some (if inst.isStore then .localAccW else .localAccR))
  | .shared => .ok none
  | _ => .error .space

/-- The size of the cache blocks that constant and texture accesses are split by. -/
def cacheBlockSize : Nat :=
  match inst.space with
  | .const | .paramKernel => cfg.constl1Linesize
  | .tex => cfg.texl1Linesize
  | _ => 0

/-- What is put into the queue. -/
def newAccesses (accessType : MemAccessType) : Except Fault (List MemAccess) :=
  if inst.space = .global ∨ inst.space = .local ∨ inst.space = .paramLocal then do
    assert (cfg.coalesceArch = 13) .coalesceArch
    if inst.isAtomic then inst.memoryCoalescingArch13Atomic accessType
    else inst.memoryCoalescingArch13 accessType
  else if inst.cacheBlockSize ≠ 0 then do
    assert (inst.accessq = []) .queue
    inst.cacheBlockAccesses inst.cacheBlockSize accessType
  else .ok []

def generateMemAccesses : Except Fault (WarpInst cfg) :=
  if inst.isEmpty ∨ inst.op = .memoryBarrier ∨ inst.memAccessesCreated then .ok inst
  else if ¬ (inst.op = .load ∨ inst.op = .store) then .ok inst
  else if inst.active = ∅ then .ok inst
  else do
    assert (inst.isLoad ∨ inst.isStore) .operation
    assert inst.perScalarThreadValid .noAddresses
    match ← inst.accessType with
    | none => do
      let cycles ← inst.sharedCycles
      .ok { inst with cycles, memAccessesCreated := true }
    | some accessType => do
      let accesses ← inst.newAccesses accessType
      .ok { inst with accessq := inst.accessq ++ accesses, memAccessesCreated := true }

/-! ## Instructions whose accesses are due -/

structure IsDue : Prop where
  isEmpty : inst.isEmpty = false
  created : inst.memAccessesCreated = false
  op : inst.op = .load ∨ inst.op = .store
  valid : inst.perScalarThreadValid = true

section Due

variable {inst}

theorem IsDue.generate_of_empty (h : inst.IsDue) (hactive : inst.active = ∅) :
    inst.generateMemAccesses = .ok inst := by
  unfold generateMemAccesses
  have hop : ¬ ¬ (inst.op = .load ∨ inst.op = .store) := not_not.mpr h.op
  rw [if_neg hop, if_pos hactive]
  exact ite_self _

theorem IsDue.generate (h : inst.IsDue) (hactive : inst.active.Nonempty) :
    inst.generateMemAccesses = inst.accessType >>= fun accessType =>
      match accessType with
      | none => inst.sharedCycles >>= fun cycles => .ok { inst with cycles, memAccessesCreated := true }
      | some accessType => inst.newAccesses accessType >>= fun accesses =>
        .ok { inst with accessq := inst.accessq ++ accesses, memAccessesCreated := true } := by
  have hbarrier : inst.op ≠ .memoryBarrier := by
    rcases h.op with hop | hop <;> rw [hop] <;> decide
  have hop : ¬ ¬ (inst.op = .load ∨ inst.op = .store) := not_not.mpr h.op
  have hload : inst.isLoad ∨ inst.isStore := by
    unfold isLoad isStore
    rcases h.op with hop | hop
    · exact .inl (by rw [hop]; rfl)
    · exact .inr (by rw [hop]; rfl)
  unfold generateMemAccesses
  rw [if_neg (by simp [h.isEmpty, h.created, hbarrier]), if_neg hop, if_neg hactive.ne_empty,
    assert_pos hload, ok_bind, assert_pos h.valid, ok_bind]

end Due

end WarpInst

end GpgpuSimRuby.Coalescing
