import Mathlib

/-!
# Integer instructions

The `_impl` functions of `instructions.cc` on integer and bit-size types. The value of a register is a
`ptx_reg_t`: 64 bits, of which its members `u8`, `s16`, `u32` and so on read or write the lowest. A new
one is zero.

* The operands are registers, without the modifiers of PTXPlus.
* What an `assert(0)` stops is a fault. So are a division that traps, a shift by more than there are
  bits, and an access outside of `g_cvt_fn`.
* The conversions from integers to floating-point numbers are given.
-/

namespace GpgpuSimRuby.Ptx

/-- The integer and bit-size types, `S8_TYPE` to `B64_TYPE`. -/
inductive ScalarType where
  | S8 | S16 | S32 | S64
  | U8 | U16 | U32 | U64
  | B8 | B16 | B32 | B64
  deriving DecidableEq, Repr

/-- `size` of `type_decode`. -/
def ScalarType.width : ScalarType → Nat
  | .S8 | .U8 | .B8 => 8
  | .S16 | .U16 | .B16 => 16
  | .S32 | .U32 | .B32 => 32
  | .S64 | .U64 | .B64 => 64

/-- What `type_decode` returns. -/
def ScalarType.fmt : ScalarType → Nat
  | .S8 => 0 | .S16 => 1 | .S32 => 2 | .S64 => 3
  | .U8 => 4 | .U16 => 5 | .U32 => 6 | .U64 => 7
  | .B8 => 12 | .B16 => 13 | .B32 => 14 | .B64 => 15

/-- The comparison options. -/
inductive Cmp where
  | EQ | NE | LT | LE | GT | GE | LO | LS | HI | HS
  | EQU | NEU | LTU | LEU | GTU | GEU | NUM | NAN
  deriving DecidableEq, Repr

/-- `is_wide`, `is_hi` and `is_lo`, of which at most one holds. -/
inductive MulMode where
  | wide | hi | lo | none
  deriving DecidableEq, Repr

/-- `RN_OPTION` to `RP_OPTION`, or another rounding mode. -/
inductive Rounding where
  | RN | RZ | RM | RP | other
  deriving DecidableEq, Repr

inductive ExecFault where
  | typeMismatch
  | divide
  | shift
  | cvtTable
  deriving DecidableEq, Repr

abbrev Value := BitVec 64

/-- The result of an instruction. -/
abbrev Result := Except ExecFault Value

/-! ## The members of a register -/

namespace Value

variable (x : Value)

abbrev u8 : BitVec 8 := x.setWidth 8
abbrev u16 : BitVec 16 := x.setWidth 16
abbrev u32 : BitVec 32 := x.setWidth 32

/-- A new register of which a member has been written. -/
abbrev ofMember {n : Nat} (y : BitVec n) : Value := y.setWidth 64

/-- A new register in which a signed value has been written to `s64`. -/
abbrev ofSigned {n : Nat} (y : BitVec n) : Value := y.signExtend 64

/-- A member of 32 bits is written. -/
def setU32 (y : BitVec 32) : Value := (x &&& 0xFFFFFFFF00000000) ||| y.setWidth 64

end Value

open Value

/-! ## Arithmetic -/

section Arithmetic

variable (ty : ScalarType) (a b c : Value)

/-- `add_impl`. -/
def addImpl : Result :=
  match ty with
  | .S8 | .U8 => .ok ((a &&& 0xFF) + (b &&& 0xFF))
  | .S16 | .U16 => .ok ((a &&& 0xFFFF) + (b &&& 0xFFFF))
  | .S32 | .U32 => .ok ((a &&& 0xFFFFFFFF) + (b &&& 0xFFFFFFFF))
  | .S64 | .U64 => .ok (a + b)
  | .B8 | .B16 | .B32 | .B64 => .error .typeMismatch

/-- `sub_impl`. The constant above the type's width is for the carry bit. -/
def subImpl : Result :=
  match ty with
  | .S8 | .B8 | .U8 => .ok ((a &&& 0xFF) - (b &&& 0xFF) + 0x100)
  | .S16 | .B16 | .U16 => .ok ((a &&& 0xFFFF) - (b &&& 0xFFFF) + 0x10000)
  | .S32 | .B32 | .U32 => .ok ((a &&& 0xFFFFFFFF) - (b &&& 0xFFFFFFFF) + 0x100000000)
  | .S64 | .B64 | .U64 => .ok (a - b)

/-- The choice between `wide`, `hi` and `lo`. -/
def selectMode (mode : MulMode) (wide hi lo : Result) : Result :=
  match mode with
  | .wide => wide
  | .hi => hi
  | .lo => lo
  | .none => .error .typeMismatch

/-- `mul_impl`. -/
def mulImpl (mode : MulMode) : Result :=
  match ty with
  | .S16 =>
    let t := a.u16.signExtend 32 * b.u16.signExtend 32
    selectMode mode (.ok (ofMember t)) (.ok (ofMember ((t.sshiftRight 16).setWidth 16)))
      (.ok (ofMember (t.setWidth 16)))
  | .S32 =>
    let t := a.u32.signExtend 64 * b.u32.signExtend 64
    selectMode mode (.ok t) (.ok (ofMember ((t.sshiftRight 32).setWidth 32)))
      (.ok (ofMember (t.setWidth 32)))
  | .U16 =>
    let t := a.u16.setWidth 32 * b.u16.setWidth 32
    selectMode mode (.ok (ofMember t)) (.ok (ofMember ((t >>> 16).setWidth 16)))
      (.ok (ofMember (t.setWidth 16)))
  | .U32 =>
    let t := a.u32.setWidth 64 * b.u32.setWidth 64
    selectMode mode (.ok t) (.ok (ofMember ((t >>> 32).setWidth 32)))
      (.ok (ofMember (t.setWidth 32)))
  | .S64 | .U64 => selectMode mode (.error .typeMismatch) (.error .typeMismatch) (.ok (a * b))
  | .S8 | .U8 | .B8 | .B16 | .B32 | .B64 => .error .typeMismatch

/-- `mad_impl`: `mad_def` without a carry. The product of two 32-bit members is one of 32 bits. -/
def madImpl (mode : MulMode) : Result :=
  match ty with
  | .S16 =>
    let t := a.u16.signExtend 32 * b.u16.signExtend 32
    selectMode mode (.ok (ofMember (t + c.u32)))
      (.ok (ofMember ((t.sshiftRight 16).setWidth 16 + c.u16)))
      (.ok (ofMember (t.setWidth 16 + c.u16)))
  | .S32 =>
    let t := (a.u32 * b.u32).signExtend 64
    selectMode mode (.ok (t + c)) (.ok (ofMember ((t.sshiftRight 32).setWidth 32 + c.u32)))
      (.ok (ofMember (t.setWidth 32 + c.u32)))
  | .U16 =>
    let t := a.u16.setWidth 32 * b.u16.setWidth 32
    selectMode mode (.ok (ofMember (t + c.u32)))
      (.ok (ofMember (((t + c.u16.setWidth 32) >>> 16).setWidth 16)))
      (.ok (ofMember (t.setWidth 16 + c.u16)))
  | .U32 =>
    let t := (a.u32 * b.u32).setWidth 64
    selectMode mode (.ok (t + c)) (.ok (ofMember (((t + c.u32.setWidth 64) >>> 32).setWidth 32)))
      (.ok (ofMember (t.setWidth 32 + c.u32)))
  | .S64 | .U64 => selectMode mode (.error .typeMismatch) (.error .typeMismatch) (.ok (a * b + c))
  | .S8 | .U8 | .B8 | .B16 | .B32 | .B64 => .error .typeMismatch

/-- A signed division of values that are promoted to `int`. -/
def divSmall {n : Nat} (x y : BitVec n) : Result :=
  if y = 0 then .error .divide else .ok (ofMember (x.sdiv y))

/-- A signed division of an `int` or a `long long`, whose overflow traps. -/
def divSigned {n : Nat} (x y : BitVec n) : Result :=
  if y = 0 ∨ (x = BitVec.intMin n ∧ y = -1) then .error .divide else .ok (ofMember (x.sdiv y))

def divUnsigned {n : Nat} (x y : BitVec n) : Result :=
  if y = 0 then .error .divide else .ok (ofMember (x / y))

/-- `div_impl`. -/
def divImpl : Result :=
  match ty with
  | .S8 => divSmall a.u8 b.u8
  | .S16 => divSmall a.u16 b.u16
  | .S32 => divSigned a.u32 b.u32
  | .S64 => divSigned a b
  | .U8 | .B8 => divUnsigned a.u8 b.u8
  | .U16 | .B16 => divUnsigned a.u16 b.u16
  | .U32 | .B32 => divUnsigned a.u32 b.u32
  | .U64 | .B64 => divUnsigned a b

/-- `rem_impl`, which is `u64` for every type. -/
def remImpl : Result := if b = 0 then .error .divide else .ok (a % b)

/-- `max_impl`. -/
def maxImpl : Result :=
  match ty with
  | .U16 => .ok (ofMember (if b.u16 < a.u16 then a.u16 else b.u16))
  | .U32 => .ok (ofMember (if b.u32 < a.u32 then a.u32 else b.u32))
  | .U64 => .ok (if b < a then a else b)
  | .S16 => .ok (ofMember (if b.u16.slt a.u16 then a.u16 else b.u16))
  | .S32 => .ok (ofMember (if b.u32.slt a.u32 then a.u32 else b.u32))
  | .S64 => .ok (if b.slt a then a else b)
  | .S8 | .U8 | .B8 | .B16 | .B32 | .B64 => .error .typeMismatch

/-- `min_impl`. -/
def minImpl : Result :=
  match ty with
  | .U16 => .ok (ofMember (if a.u16 < b.u16 then a.u16 else b.u16))
  | .U32 => .ok (ofMember (if a.u32 < b.u32 then a.u32 else b.u32))
  | .U64 => .ok (if a < b then a else b)
  | .S16 => .ok (ofMember (if a.u16.slt b.u16 then a.u16 else b.u16))
  | .S32 => .ok (ofMember (if a.u32.slt b.u32 then a.u32 else b.u32))
  | .S64 => .ok (if a.slt b then a else b)
  | .S8 | .U8 | .B8 | .B16 | .B32 | .B64 => .error .typeMismatch

end Arithmetic

/-! ## Bits -/

section Bits

variable (ty : ScalarType) (a b : Value)

/-- `and_impl`. -/
def andImpl : Result := .ok (a &&& b)

/-- `or_impl`. -/
def orImpl : Result := .ok (a ||| b)

/-- `xor_impl`. -/
def xorImpl : Result := .ok (a ^^^ b)

/-- `not_impl`. -/
def notImpl : Result :=
  match ty with
  | .B16 => .ok (ofMember (~~~a.u16))
  | .B32 => .ok (ofMember (~~~a.u32))
  | .B64 => .ok (~~~a)
  | .S8 | .S16 | .S32 | .S64 | .U8 | .U16 | .U32 | .U64 | .B8 => .error .typeMismatch

/-- `shl_impl`. -/
def shlImpl : Result :=
  match ty with
  | .B16 | .U16 => .ok (if 16 ≤ b.u16 then 0 else ofMember (a.u16 <<< b.u16.toNat))
  | .B32 | .U32 => .ok (if 32 ≤ b.u32 then 0 else ofMember (a.u32 <<< b.u32.toNat))
  | .B64 | .U64 =>
    if 64 ≤ b.u32 then .ok 0
    else if 64 ≤ b then .error .shift
    else .ok (a <<< b.toNat)
  | .S8 | .S16 | .S32 | .S64 | .U8 | .B8 => .error .typeMismatch

/-- `shr_impl`. -/
def shrImpl : Result :=
  match ty with
  | .U16 | .B16 => .ok (if b.u16 < 16 then ofMember (a.u16 >>> b.u16.toNat) else 0)
  | .U32 | .B32 => .ok (if b.u32 < 32 then ofMember (a.u32 >>> b.u32.toNat) else 0)
  | .U64 | .B64 =>
    if b.u32 < 64 then
      if 64 ≤ b then .error .shift else .ok (a >>> b.toNat)
    else .ok 0
  | .S16 =>
    .ok (if b.u16 < 16 then ofSigned (a.u16.sshiftRight b.u16.toNat)
      else if a.u16.msb then -1 else 0)
  | .S32 =>
    .ok (if b.u32 < 32 then ofSigned (a.u32.sshiftRight b.u32.toNat)
      else if a.u32.msb then -1 else 0)
  | .S64 =>
    .ok (if b < 64 then a.sshiftRight b.toNat
      else if a.msb then (if b.u32.msb then (-1 : Value).setU32 0 else -1) else 0)
  | .S8 | .U8 | .B8 => .error .typeMismatch

end Bits

/-! ## Comparison and selection -/

section Comparison

/-- The comparisons of bit-size types. -/
def cmpBits {n : Nat} (cmp : Cmp) (x y : BitVec n) : Except ExecFault Bool :=
  match cmp with
  | .EQ => .ok (x == y)
  | .NE => .ok (x != y)
  | _ => .error .typeMismatch

def cmpSigned {n : Nat} (cmp : Cmp) (x y : BitVec n) : Except ExecFault Bool :=
  match cmp with
  | .EQ => .ok (x == y)
  | .NE => .ok (x != y)
  | .LT => .ok (x.slt y)
  | .LE => .ok (x.sle y)
  | .GT => .ok (y.slt x)
  | .GE => .ok (y.sle x)
  | _ => .error .typeMismatch

def cmpUnsigned {n : Nat} (cmp : Cmp) (x y : BitVec n) : Except ExecFault Bool :=
  match cmp with
  | .EQ => .ok (x == y)
  | .NE => .ok (x != y)
  | .LT | .LO => .ok (x.ult y)
  | .LE | .LS => .ok (x.ule y)
  | .GT | .HI => .ok (y.ult x)
  | .GE | .HS => .ok (y.ule x)
  | _ => .error .typeMismatch

variable (ty : ScalarType) (a b c : Value)

/-- `CmpOp`. The cases `B16_TYPE` and `B32_TYPE` have no `break` and go on into the next one, which
overwrites their result. The 8-bit types are compared as those of 16 bits. -/
def cmpOp (cmp : Cmp) : Except ExecFault Bool :=
  match ty with
  | .B16 => do
    let _ ← cmpBits cmp a.u16 b.u16
    let _ ← cmpBits cmp a.u32 b.u32
    cmpBits cmp a b
  | .B32 => do
    let _ ← cmpBits cmp a.u32 b.u32
    cmpBits cmp a b
  | .B64 => cmpBits cmp a b
  | .S8 | .S16 => cmpSigned cmp a.u16 b.u16
  | .S32 => cmpSigned cmp a.u32 b.u32
  | .S64 => cmpSigned cmp a b
  | .U8 | .U16 => cmpUnsigned cmp a.u16 b.u16
  | .U32 => cmpUnsigned cmp a.u32 b.u32
  | .U64 => cmpUnsigned cmp a b
  | .B8 => .error .typeMismatch

/-- `setp_impl`. A set predicate bit stands for false. -/
def setpImpl (cmp : Cmp) : Result := do
  let t ← cmpOp ty a b cmp
  .ok (if t then 0 else 1)

/-- `my_abs` on the first operand of a `set`. Unsigned values are never negative. -/
def setAbs : Result :=
  match ty with
  | .S16 => .ok ((a &&& 0xFFFFFFFFFFFF0000) ||| (if a.u16.msb then -a.u16 else a.u16).setWidth 64)
  | .S32 => .ok (a.setU32 (if a.u32.msb then -a.u32 else a.u32))
  | .S64 => .ok (if a.msb then -a else a)
  | .U16 | .U32 | .U64 => .ok a
  | .S8 | .U8 | .B8 | .B16 | .B32 | .B64 => .error .typeMismatch

/-- The types that a `set` can give its result. -/
inductive SetType where
  | S32 | U32 | F32
  deriving DecidableEq, Repr

/-- What a `set` writes. -/
def setResult (result : SetType) (t : Bool) : Value :=
  match result with
  | .F32 => if t then 0x3F800000 else 0
  | .S32 | .U32 => if t then 0xFFFFFFFF else 0

/-- `set_impl`. -/
def setImpl (cmp : Cmp) (abs : Bool) (result : SetType) : Result := do
  let a ← if abs then setAbs ty a else .ok a
  let t ← cmpOp ty a b cmp
  .ok (setResult result t)

/-- `selp_impl`. -/
def selpImpl : Result := .ok (if c &&& 1 = 0 then a else b)

/-- The types of the third operand of a `slct`. -/
inductive SlctType where
  | S32 | F32
  deriving DecidableEq, Repr

/-- The third operand is at least zero; as a floating-point number, if it is not negative and not a
NaN, or is negative zero. -/
def atLeastZero (cType : SlctType) : Bool :=
  match cType with
  | .S32 => !c.u32.msb
  | .F32 => c.u32 == 0x80000000 || (!c.u32.msb && c.u32 ≤ 0x7F800000)

/-- `slct_impl`. -/
def slctImpl (cType : SlctType) : Result :=
  let t := atLeastZero c cType
  match ty with
  | .B16 | .U16 => .ok (ofMember (if t then a.u16 else b.u16))
  | .B32 | .U32 => .ok (ofMember (if t then a.u32 else b.u32))
  | .B64 | .U64 => .ok (if t then a else b)
  | .S8 | .S16 | .S32 | .S64 | .U8 | .B8 => .error .typeMismatch

end Comparison

/-! ## Conversion -/

/-- The types that a `cvt` can give its result. -/
inductive CvtType where
  | int (ty : ScalarType)
  | F32
  | F64
  deriving DecidableEq, Repr

namespace CvtType

def width : CvtType → Nat
  | int ty => ty.width
  | F32 => 32
  | F64 => 64

def fmt : CvtType → Nat
  | int ty => ty.fmt
  | F32 => 9
  | F64 => 10

end CvtType

/-- The conversions of integers to floating-point numbers. -/
structure FloatConversions where
  int2float : Rounding → BitVec 32 → BitVec 32
  uint2float : Rounding → BitVec 32 → BitVec 32
  ll2float : Rounding → BitVec 64 → BitVec 32
  ull2float : BitVec 64 → BitVec 32
  int2double : BitVec 32 → BitVec 64
  uint2double : BitVec 32 → BitVec 64
  ll2double : BitVec 64 → BitVec 64
  ull2double : BitVec 64 → BitVec 64

/-- The entries of `g_cvt_fn`. -/
inductive CvtFn where
  | NULL | chop | sext | sexd | zext | s2f | u2f
  deriving DecidableEq, Repr

open CvtFn in
/-- `g_cvt_fn`, the rows of the integers. -/
def gCvtFn : List (List CvtFn) := [
  [NULL, sext, sext, sext, NULL, sext, sext, sext, s2f, s2f, s2f],
  [chop, NULL, sext, sext, chop, NULL, sext, sext, s2f, s2f, s2f],
  [chop, sexd, NULL, sext, chop, chop, NULL, sext, s2f, s2f, s2f],
  [chop, chop, chop, NULL, chop, chop, chop, NULL, s2f, s2f, s2f],
  [NULL, zext, zext, zext, NULL, zext, zext, zext, u2f, u2f, u2f],
  [chop, NULL, zext, zext, chop, NULL, zext, zext, u2f, u2f, u2f],
  [chop, chop, NULL, zext, chop, chop, NULL, zext, u2f, u2f, u2f],
  [chop, chop, chop, NULL, chop, chop, chop, NULL, u2f, u2f, u2f]]

section Conversion

variable (x : Value) (fromWidth toWidth : Nat)

def chop : Result :=
  match toWidth with
  | 8 => .ok (x &&& 0xFF)
  | 16 => .ok (x &&& 0xFFFF)
  | 32 => .ok (x &&& 0xFFFFFFFF)
  | 64 => .ok x
  | _ => .error .typeMismatch

/-- The sign bit of a width is copied to all higher bits. -/
def signFrom (width : Nat) : Result :=
  match width with
  | 8 => .ok (if x.getLsbD 7 then x ||| 0xFFFFFFFFFFFFFF00 else x)
  | 16 => .ok (if x.getLsbD 15 then x ||| 0xFFFFFFFFFFFF0000 else x)
  | 32 => .ok (if x.getLsbD 31 then x ||| 0xFFFFFFFF00000000 else x)
  | 64 => .ok x
  | _ => .error .typeMismatch

def sext : Result := do
  let x ← chop x fromWidth
  signFrom x fromWidth

/-- As `sext`, but with the sign bit of the destination. -/
def sexd : Result := do
  let x ← chop x fromWidth
  signFrom x toWidth

def zext : Result := chop x fromWidth

variable (fp : FloatConversions) (rounding : Rounding)

/-- `s2f`. What it makes of a 64-bit integer does not depend on that. -/
def s2f : Result :=
  if fromWidth < 64 then do
    let y ← sext x fromWidth
    match toWidth with
    | 32 => .ok (if rounding = .other then y else y.setU32 (fp.int2float rounding y.u32))
    | 64 => .ok (fp.int2double y.u32)
    | _ => .error .typeMismatch
  else
    match toWidth with
    | 32 => .ok (if rounding = .other then 0 else ofMember (fp.ll2float rounding 0))
    | 64 => .ok (fp.ll2double 0)
    | _ => .error .typeMismatch

/-- `u2f`. -/
def u2f : Result :=
  if fromWidth < 64 then do
    let y ← zext x fromWidth
    match toWidth with
    | 32 => .ok (if rounding = .other then y else y.setU32 (fp.uint2float rounding y.u32))
    | 64 => .ok (fp.uint2double y.u32)
    | _ => .error .typeMismatch
  else
    match toWidth with
    | 32 => .ok (if rounding = .other then 0 else ofMember (fp.ull2float 0))
    | 64 => .ok (fp.ull2double 0)
    | _ => .error .typeMismatch

/-- The negation at the beginning of a `cvt`. -/
def cvtNeg (ty : ScalarType) : Value :=
  match ty with
  | .S8 | .U8 | .B8 => (x &&& 0xFFFFFFFFFFFFFF00) ||| (-x.u8).setWidth 64
  | .S16 | .U16 | .B16 => (x &&& 0xFFFFFFFFFFFF0000) ||| (-x.u16).setWidth 64
  | .S32 | .U32 | .B32 => x.setU32 (-x.u32)
  | .S64 | .U64 | .B64 => -x

/-- `cvt_impl` from an integer type. -/
def cvtImpl (ty : ScalarType) (neg : Bool) (toType : CvtType) : Result :=
  let x := if neg then cvtNeg x ty else x
  match (gCvtFn[ty.fmt]?).bind (·[toType.fmt]?) with
  | none => .error .cvtTable
  | some .NULL => .ok x
  | some .chop => chop x toType.width
  | some .sext => sext x ty.width
  | some .sexd => sexd x ty.width toType.width
  | some .zext => zext x ty.width
  | some .s2f => s2f x ty.width toType.width fp rounding
  | some .u2f => u2f x ty.width toType.width fp rounding

end Conversion

/-! ## Execution -/

/-- An operation with its options. For `set` and `cvt` the type of the instruction is that of its
source, and the type of the result is an option. -/
inductive IntOp where
  | add | sub | mul (mode : MulMode) | mad (mode : MulMode) | div | rem
  | and | or | xor | not | shl | shr | min | max
  | set (cmp : Cmp) (abs : Bool) (result : SetType)
  | setp (cmp : Cmp)
  | selp
  | slct (cType : SlctType)
  | cvt (neg : Bool) (toType : CvtType) (rounding : Rounding)
  deriving DecidableEq, Repr

namespace IntOp

/-- What is computed from the values of the sources. -/
def value (fp : FloatConversions) (op : IntOp) (ty : ScalarType) (a b c : Value) : Result :=
  match op with
  | add => addImpl ty a b
  | sub => subImpl ty a b
  | mul mode => mulImpl ty a b mode
  | mad mode => madImpl ty a b c mode
  | div => divImpl ty a b
  | rem => remImpl a b
  | and => andImpl a b
  | or => orImpl a b
  | xor => xorImpl a b
  | not => notImpl ty a
  | shl => shlImpl ty a b
  | shr => shrImpl ty a b
  | min => minImpl ty a b
  | max => maxImpl ty a b
  | set cmp abs result => setImpl ty a b cmp abs result
  | setp cmp => setpImpl ty a b cmp
  | selp => selpImpl a b c
  | slct cType => slctImpl ty a b c cType
  | cvt neg toType rounding => cvtImpl a fp rounding ty neg toType

/-- The number of sources. -/
def arity : IntOp → Nat
  | not | cvt .. => 1
  | mad _ | selp | slct _ => 3
  | _ => 2

/-- The width of the result. A predicate has four bits. -/
def resultWidth (op : IntOp) (ty : ScalarType) : Nat :=
  match op with
  | mul .wide | mad .wide => 2 * ty.width
  | set .. => 32
  | setp _ => 4
  | cvt _ toType _ => toType.width
  | _ => ty.width

end IntOp

/-- A register, by the name of its symbol. -/
abbrev Reg := String

/-- An instruction with its registers. -/
structure IntInst where
  op : IntOp
  type : ScalarType
  dst : Reg
  src1 : Reg
  src2 : Reg
  src3 : Reg

/-- The instruction is executed on a register file. -/
def IntInst.exec (fp : FloatConversions) (i : IntInst) (regs : Reg → Value) :
    Except ExecFault (Reg → Value) :=
  (i.op.value fp i.type (regs i.src1) (regs i.src2) (regs i.src3)).map (Function.update regs i.dst)

end GpgpuSimRuby.Ptx
