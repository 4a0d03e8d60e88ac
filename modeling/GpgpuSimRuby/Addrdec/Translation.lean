import GpgpuSimRuby.Cache.AddressSplit

/-!
# Linear to raw addresses

`linear_to_raw_address_translation`. Masks say which bits of an address the bank, the row, the
column and the burst are made of. The bits of the chip have a mask of their own, given by letters or
put in at a position (then the other masks make room for them); if the number of chips is no power
of two, the part of the address above the position is divided by it instead.
-/

namespace GpgpuSimRuby.Addrdec

open Library

/-- The assertions, `abort` in the sweep, and divisions by zero. -/
inductive Fault where
  | dramid | length | notPowerOfTwo | divisionByZero | aliased | chip | partition
  deriving DecidableEq, Repr

inductive Field where
  | chip | bk | row | col | burst
  deriving DecidableEq, Repr

/-- `addrdec_t`. -/
structure Tlx where
  chip : BitVec 32
  bk : BitVec 32
  row : BitVec 32
  col : BitVec 32
  burst : BitVec 32
  deriving DecidableEq

/-- The shift takes its count modulo the width, as the processor does. C++ says nothing about counts
that are negative or not less than the width. -/
def shl {w : Nat} (x : BitVec w) (count : Nat) : BitVec w := x <<< (count % w)

structure Translation where
  addrChipS : BitVec 32
  addrdecMklow : Field → Nat
  addrdecMkhigh : Field → Nat
  addrdecMask : Field → BitVec 64
  gap : BitVec 32
  nchips : BitVec 32

/-! ## Bits -/

/-- `x` to the `y`. -/
def powli (x : Int) (y : Nat) : Int := (List.range y).foldl (fun r _ => r * x) 1

/-- The same code as `LOGB2` of the caches. -/
def logb2_32 (v : BitVec 32) : Nat := Cache.logb2 v.toNat

/-- The position in the result, and the result so far. -/
def packStep (mask val : BitVec 64) (p : Nat × BitVec 64) (i : Nat) : Nat × BitVec 64 :=
  if mask &&& 1#64 <<< i ≠ 0 then (p.1 + 1, p.2 ||| ((val &&& 1#64 <<< i) >>> i) <<< p.1) else p

def addrdecPackbits (mask val : BitVec 64) (high low : Nat) : BitVec 64 :=
  ((List.range' low (high - low)).foldl (packStep mask val) (0, 0)).2

/-- `high` and `low`, and if a bit was found. -/
def limitStep (mask : BitVec 64) (p : (Nat × Nat) × Bool) (i : Nat) : (Nat × Nat) × Bool :=
  if mask &&& 1#64 <<< i ≠ 0 then
    if p.2 then ((i + 1, p.1.2), true) else ((i + 1, i), true)
  else p

def addrdecGetmasklimit (mask : BitVec 64) : Nat × Nat :=
  ((List.range 64).foldl (limitStep mask) ((64, 0), false)).1

namespace Translation

variable (t : Translation)

/-! ## Addresses -/

/-- `Nchips` is an `int` and becomes an `unsigned long long` in the divisions. -/
def divisor : BitVec 64 := t.nchips.signExtend 64

/-- `addr >> ADDR_CHIP_S`. -/
def msbs (addr : BitVec 64) : BitVec 64 := addr >>> (t.addrChipS.toNat % 64)

/-- The quotient and the lower bits. The mask of the lower bits is an `int`. -/
def restOfAddr (addr : BitVec 64) : BitVec 64 :=
  shl (t.msbs addr / t.divisor) t.addrChipS.toNat |||
    addr &&& (shl 1#32 t.addrChipS.toNat - 1#32).signExtend 64

def partitionAddress (addr : BitVec 64) : Except Fault (BitVec 64) :=
  if t.gap = 0 then .ok (addrdecPackbits (~~~ t.addrdecMask .chip) addr 64 0)
  else do
    assert (t.divisor ≠ 0) .divisionByZero
    .ok (t.restOfAddr addr)

/-- The bits of a field, of which an `unsigned` keeps 32. -/
def field (f : Field) (addr : BitVec 64) : BitVec 32 :=
  (addrdecPackbits (t.addrdecMask f) addr (t.addrdecMkhigh f) (t.addrdecMklow f)).setWidth 32

def addrdecTlx (addr : BitVec 64) : Except Fault Tlx :=
  if t.gap = 0 then
    .ok ⟨t.field .chip addr, t.field .bk addr, t.field .row addr, t.field .col addr, t.field .burst addr⟩
  else do
    assert (t.divisor ≠ 0) .divisionByZero
    let addrForChip := t.msbs addr % t.divisor
    let rest := t.restOfAddr addr
    .ok ⟨addrForChip.setWidth 32, t.field .bk rest, t.field .row rest, t.field .col rest, t.field .burst rest⟩

/-! ## Initialisation -/

/-- As the constructor leaves it; `gap` and `Nchips` have no value yet. -/
def new (gap nchips : BitVec 32) : Translation where
  addrChipS := 10
  addrdecMklow _ := 0
  addrdecMkhigh _ := 64
  addrdecMask
    | .chip => 0x1C00
    | .bk => 0x300
    | .row => 0xFFF0000
    | .col => 0xE0FF
    | .burst => 0xF
  gap := gap
  nchips := nchips

/-- The address mappings that have a number: `ADDR_CHIP_S` and the masks of bank, row and column. -/
def preset : Int → Option (BitVec 32 × BitVec 64 × BitVec 64 × BitVec 64)
  | 0 => some (10, 0x300, 0x7FFE000, 0x1CFF)
  | 1 => some (13, 0x1800, 0x7FFE000, 0x7FF)
  | 2 => some (11, 0x1800, 0x7FFE000, 0x7FF)
  | 3 => some (11, 0x1800, 0xFFFE000, 0x7FF)
  | 14 => some (14, 0x1800, 0x7FFE000, 0x7FF)
  | 15 => some (15, 0x1800, 0x7FFE000, 0x7FF)
  | 16 => some (16, 0x1800, 0x7FFE000, 0x7FF)
  | 6 => some (6, 0x1800, 0x7FFE000, 0x7FF)
  | 5 => some (5, 0x1800, 0x7FFE000, 0x7FF)
  | 100 => some (1, 0x3, 0x7FFE000, 0x1FFC)
  | 103 => some (3, 0x3, 0x7FFE000, 0x1FFC)
  | 106 => some (6, 0x1800, 0x7FFE000, 0x7FF)
  | 160 => some (6, 0x300, 0x7FFE000, 0x1CFF)
  | _ => none

def setPreset (gpgpuMemAddressMask : Int) : Translation :=
  match preset gpgpuMemAddressMask with
  | some (addrChipS, bk, row, col) => { t with
    addrChipS
    addrdecMask
      | .chip => 0
      | .bk => bk
      | .row => row
      | .col => col
      | .burst => t.addrdecMask .burst }
  | none => t

/-! ### The option -/

/-- `sscanf(option, "dramid@%d", …)`, if it returns 1. -/
def dramidStart (option : List Char) : Option (BitVec 32) :=
  match List.dropPrefix? option ['d', 'r', 'a', 'm', 'i', 'd', '@'] with
  | some rest => Scanf.signed rest
  | none => none

/-- What is after the first semicolon, or everything. -/
def cmapping (option : List Char) : List Char :=
  match option.dropWhile (· ≠ ';') with
  | [] => option
  | _ :: rest => rest

/-- A bit at `ofs`. -/
def addBit (f : Field) (ofs : Int) (mask : Field → BitVec 64) : Field → BitVec 64 :=
  Function.update mask f (mask f ||| 1#64 <<< (ofs % 64).toNat)

/-- Characters that say nothing are skipped, also those that are reported as invalid. -/
def parseChar (dramidParsed : Bool) (s : (Field → BitVec 64) × Int) (c : Char) :
    Except Fault ((Field → BitVec 64) × Int) :=
  match c with
  | 'D' | 'd' => do
    assert (dramidParsed = false) .dramid
    .ok (addBit .chip s.2 s.1, s.2 - 1)
  | 'B' | 'b' => .ok (addBit .bk s.2 s.1, s.2 - 1)
  | 'R' | 'r' => .ok (addBit .row s.2 s.1, s.2 - 1)
  | 'C' | 'c' => .ok (addBit .col s.2 s.1, s.2 - 1)
  | 'S' | 's' => .ok (addBit .col s.2 (addBit .burst s.2 s.1), s.2 - 1)
  | '0' => .ok (s.1, s.2 - 1)
  | _ => .ok s

def addrdecParseoption (option : List Char) : Except Fault Translation := do
  let start := dramidStart option
  let (mask, ofs) ← (cmapping option).foldlM (parseChar start.isSome) (fun _ => 0, 63)
  assert (ofs = -1) .length
  .ok { t with addrChipS := start.getD (-1), addrdecMask := mask }

def readOption (addrdecOption : Option (List Char)) : Except Fault Translation :=
  match addrdecOption with
  | some option => t.addrdecParseoption option
  | none => .ok t

/-! ### The bits of the chip -/

/-- A mask with room for `n` bits at `ADDR_CHIP_S`. -/
def insertBits (addrChipS : BitVec 32) (n : Nat) (m : BitVec 64) : BitVec 64 :=
  let mask := shl 1#64 addrChipS.toNat - 1#64
  shl (m &&& ~~~ mask) n ||| m &&& mask

/-- The positions from `ADDR_CHIP_S` on, as an `unsigned` counts them. -/
def chipPositions (addrChipS : BitVec 32) (n : Nat) : List Nat :=
  List.range' addrChipS.toNat ((addrChipS + .ofNat 32 n).toNat - addrChipS.toNat)

def insertChip (n : Nat) : Translation := { t with
  addrdecMask
    | .chip => (chipPositions t.addrChipS n).foldl (fun m i => m ||| shl 1#64 i) (t.addrdecMask .chip)
    | .bk => insertBits t.addrChipS n (t.addrdecMask .bk)
    | .row => insertBits t.addrChipS n (t.addrdecMask .row)
    | .col => insertBits t.addrChipS n (t.addrdecMask .col)
    | .burst => t.addrdecMask .burst }

def setLimits : Translation := { t with
  addrdecMkhigh f := (addrdecGetmasklimit (t.addrdecMask f)).1
  addrdecMklow f := (addrdecGetmasklimit (t.addrdecMask f)).2 }

/-! ### The sweep -/

/-- An address from which on `partition_address` takes something out. -/
def sweepStart : BitVec 64 :=
  if t.addrChipS ≠ -1 then shl 1#64 t.addrChipS.toNat else 1#64 <<< t.addrdecMklow .chip

def sweepStep (history : Tlx → Option (BitVec 64)) (rawAddr : BitVec 64) :
    Except Fault (Tlx → Option (BitVec 64)) := do
  let tlx ← t.addrdecTlx rawAddr
  assert (history tlx = none) .aliased
  assert (tlx.chip.toInt < t.nchips.toInt) .chip
  let partitionAddr ← t.partitionAddress rawAddr
  assert (t.sweepStart ≤ rawAddr → rawAddr ≠ partitionAddr) .partition
  .ok (Function.update history tlx (some rawAddr))

/-- The addresses below 16 M that are multiples of 4. -/
def sweepTest : Except Fault Unit := do
  let _ ← ((List.range' 4 (16 * 1024 * 1024 / 4 - 1) 4).map (BitVec.ofNat 64)).foldlM
    t.sweepStep fun _ => none
  .ok ()

def runSweep (runTest : Bool) : Except Fault Unit := if runTest then t.sweepTest else .ok ()

/-! ### `init` -/

def insertChipBits (nchips : BitVec 32) (nchipbits : Nat) : Except Fault Translation :=
  if t.addrChipS ≠ -1 then
    if t.gap = 0 then .ok (t.insertChip nchipbits) else .ok t
  else do
    assert (nchips &&& (nchips - 1) = 0) .notPowerOfTwo
    .ok t

def init (addrdecOption : Option (List Char)) (gpgpuMemAddressMask : Int) (runTest : Bool)
    (nchips : BitVec 32) : Except Fault Translation := do
  let nchipbits := logb2_32 nchips
  let gap := BitVec.ofInt 32 (nchips.toNat - powli 2 nchipbits)
  let nchipbits := if gap = 0 then nchipbits else nchipbits + 1
  let t := (new gap nchips).setPreset gpgpuMemAddressMask
  let t ← t.readOption addrdecOption
  let t ← t.insertChipBits nchips nchipbits
  let t := t.setLimits
  let _ ← t.runSweep runTest
  .ok t

end Translation

end GpgpuSimRuby.Addrdec
