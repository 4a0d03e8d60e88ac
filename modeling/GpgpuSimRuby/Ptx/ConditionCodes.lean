import GpgpuSimRuby.Ptx.WidthLocality
import GpgpuSimRuby.Library.Fault
import GpgpuSimRuby.Library.SubtractFlags

/-!
# Condition codes

The destination `$p|$r` of PTXPlus: `set_operand_value` writes the result to the register and four flags
to the predicate, which `pred_lookup` turns into the conditions of predicated instructions.
-/

open Function (update update_self update_of_ne)

namespace GpgpuSimRuby.Ptx

open Library Value

abbrev Regs := Reg → Value

/-- The destination `$p|$r`, whose double operand type is `-2`. -/
structure DoubleDst where
  pred : Reg
  reg : Reg
  pred_ne_reg : pred ≠ reg

/-- The member `pred`. -/
abbrev Value.pred (x : Value) : BitVec 4 := x.setWidth 4

/-- `1` for zero, `2` for the sign, `4` for the carry and `8` for the overflow. -/
def flagBits (zero sign carry overflow : Bool) : BitVec 4 :=
  (if zero then 1 else 0) ||| (if sign then 2 else 0) ||| (if carry then 4 else 0) |||
    (if overflow then 8 else 0)

/-! ## Writing a destination with flags -/

section Destination

/-- The zero flag in `set_operand_value`. For a signed type the sign bit is masked out. -/
def zeroFlag (ty : ScalarType) (x : Value) : Bool :=
  match ty with
  | .S8 => x.u8 &&& 0x7F = 0
  | .S16 => x.u16 &&& 0x7FFF = 0
  | .S32 => x.u32 &&& 0x7FFFFFFF = 0
  | .S64 => x &&& 0x7FFFFFFFFFFFFFFF = 0
  | .U8 | .B8 => x.u8 = 0
  | .U16 | .B16 => x.u16 = 0
  | .U32 | .B32 => x.u32 = 0
  | .U64 | .B64 => x = 0

/-- The sign flag, with a shift of an `int` by one less than the width. -/
def signFlag (ty : ScalarType) (x : Value) : Except ExecFault Bool :=
  if 32 < ty.width then .error .shift else .ok (x.u32 &&& (1 <<< (ty.width - 1)) ≠ 0)

variable (regs : Regs) (dst : DoubleDst) (ty : ScalarType) (data : Value)

/-- `set_operand_value`. -/
def setOperandValue : Except ExecFault Regs := do
  let sign ← signFlag ty data
  let predValue : Value := (if zeroFlag ty data then 1 else 0) ||| (if sign then 1 <<< 1 else 0)
  return update (update regs dst.pred predValue) dst.reg data

/-- `set_operand_value` with `overflow` and `carry`. -/
def setOperandValueFlags (overflow carry : Value) : Except ExecFault Regs := do
  let regs ← setOperandValue regs dst ty data
  let predValue := regs dst.pred &&& ~~~0x0C
  let predValue := predValue ||| ((overflow &&& 0x01) <<< 3)
  let predValue := predValue ||| ((carry &&& 0x01) <<< 2)
  return update regs dst.pred predValue

end Destination

/-! ## Subtraction -/

/-- The overflow in `sub_impl`, where `sign` is the sign bit of the type. -/
def subOverflowAt (sign a b data : Value) : Value :=
  if (a &&& sign) - (b &&& sign) ≠ 0 then (if (a &&& sign) - (data &&& sign) = 0 then 0 else 1) else 0

def subOverflow (ty : ScalarType) (a b data : Value) : Value :=
  match ty with
  | .S8 => subOverflowAt 0x80 a b data
  | .S16 => subOverflowAt 0x8000 a b data
  | .S32 => subOverflowAt 0x80000000 a b data
  | _ => 0

def subCarry (ty : ScalarType) (data : Value) : Value :=
  match ty with
  | .S8 | .U8 | .B8 => (data &&& 0x100) >>> 8
  | .S16 | .U16 | .B16 => (data &&& 0x10000) >>> 16
  | .S32 => (data >>> 32) &&& 0x0001
  | .U32 | .B32 => (data &&& 0x100000000) >>> 32
  | .S64 | .U64 | .B64 => 0

/-- `sub_impl` with the destination `$p|$r`. -/
def subDouble (ty : ScalarType) (dst : DoubleDst) (src1 src2 : Reg) (regs : Regs) :
    Except ExecFault Regs := do
  let data ← subImpl ty (regs src1) (regs src2)
  setOperandValueFlags regs dst ty data (subOverflow ty (regs src1) (regs src2) data) (subCarry ty data)

/-! ## Conditions -/

/-- The conditions that compare, by the names of their rows. -/
inductive Condition where
  | lt | eq | le | gt | ne | ge | cf | ab | ble | ncf
  deriving DecidableEq, Repr

namespace Condition

/-- The row of `pred_table`. -/
def code : Condition → Nat
  | lt => 0x01 | eq => 0x02 | le => 0x03 | gt => 0x04 | ne => 0x05 | ge => 0x06
  | cf => 0x11 | ab => 0x12 | ble => 0x1d | ncf => 0x1e

/-- The conditions that take the operands as signed numbers. -/
def IsSigned (c : Condition) : Prop := c ∈ [lt, eq, le, gt, ne, ge]

instance (c : Condition) : Decidable c.IsSigned := inferInstanceAs (Decidable (c ∈ _))

/-- What it says of the operands of a subtraction. -/
def compare {w : Nat} (c : Condition) (x y : BitVec w) : Bool :=
  match c with
  | lt => x.slt y
  | eq => x == y
  | le => x.sle y
  | gt => y.slt x
  | ne => x != y
  | ge => y.sle x
  | cf => y.ule x
  | ab => y.ult x
  | ble => x.ule y
  | ncf => x.ult y

end Condition

/-- `pred_table`, of which a row has an entry for every value of the flags. -/
def predTable : List (List Nat) := [
  [0, 0, 0, 0, 0, 0, 0, 0, 0, 0, 0, 0, 0, 0, 0, 0],
  [0, 0, 1, 0, 0, 0, 1, 0, 1, 1, 0, 1, 1, 1, 0, 1],
  [0, 1, 0, 0, 0, 1, 0, 0, 0, 1, 0, 0, 0, 1, 0, 0],
  [0, 1, 1, 0, 0, 1, 1, 0, 1, 1, 0, 0, 1, 1, 0, 0],
  [1, 0, 0, 0, 1, 0, 0, 0, 0, 0, 1, 0, 0, 0, 1, 0],
  [1, 0, 1, 0, 1, 0, 1, 0, 1, 0, 1, 0, 1, 0, 1, 0],
  [1, 1, 0, 0, 1, 1, 0, 0, 0, 0, 1, 1, 0, 0, 1, 1],
  [1, 1, 1, 0, 1, 1, 1, 0, 1, 1, 1, 0, 1, 1, 1, 0],
  [0, 0, 0, 1, 0, 0, 0, 1, 0, 0, 0, 1, 0, 0, 0, 1],
  [0, 0, 1, 1, 0, 0, 1, 1, 1, 1, 0, 0, 1, 1, 0, 0],
  [0, 1, 0, 1, 0, 1, 0, 1, 0, 1, 0, 1, 0, 1, 0, 1],
  [0, 1, 1, 1, 0, 1, 1, 1, 1, 1, 0, 1, 1, 1, 0, 1],
  [1, 0, 0, 1, 1, 0, 0, 1, 0, 0, 1, 1, 0, 0, 1, 1],
  [1, 0, 1, 1, 1, 0, 1, 1, 1, 0, 1, 1, 1, 0, 1, 1],
  [1, 1, 0, 1, 1, 1, 0, 1, 0, 0, 1, 0, 0, 0, 1, 0],
  [1, 1, 1, 1, 1, 1, 1, 1, 1, 1, 1, 1, 1, 1, 1, 1],
  [0, 0, 0, 0, 0, 0, 0, 0, 1, 1, 1, 1, 1, 1, 1, 1],
  [0, 0, 0, 0, 1, 1, 1, 1, 0, 0, 0, 0, 1, 1, 1, 1],
  [0, 0, 0, 0, 1, 0, 1, 0, 0, 0, 0, 0, 1, 0, 1, 0],
  [0, 0, 1, 1, 0, 0, 1, 1, 0, 0, 1, 1, 0, 0, 1, 1],
  [0, 0, 0, 0, 0, 0, 0, 0, 0, 0, 0, 0, 0, 0, 0, 0],
  [0, 0, 0, 0, 0, 0, 0, 0, 0, 0, 0, 0, 0, 0, 0, 0],
  [0, 0, 0, 0, 0, 0, 0, 0, 0, 0, 0, 0, 0, 0, 0, 0],
  [0, 0, 0, 0, 0, 0, 0, 0, 0, 0, 0, 0, 0, 0, 0, 0],
  [0, 0, 0, 0, 0, 0, 0, 0, 0, 0, 0, 0, 0, 0, 0, 0],
  [0, 0, 0, 0, 0, 0, 0, 0, 0, 0, 0, 0, 0, 0, 0, 0],
  [0, 0, 0, 0, 0, 0, 0, 0, 0, 0, 0, 0, 0, 0, 0, 0],
  [0, 0, 0, 0, 0, 0, 0, 0, 0, 0, 0, 0, 0, 0, 0, 0],
  [1, 1, 0, 0, 1, 1, 0, 0, 1, 1, 0, 0, 1, 1, 0, 0],
  [1, 1, 1, 1, 0, 1, 0, 1, 1, 1, 1, 1, 0, 1, 0, 1],
  [1, 1, 1, 1, 0, 0, 0, 0, 1, 1, 1, 1, 0, 0, 0, 0],
  [1, 1, 1, 1, 1, 1, 1, 1, 0, 0, 0, 0, 0, 0, 0, 0]]

/-- `pred_lookup`, which reads within the table. -/
def predLookup (condition : Nat) (flags : BitVec 4) : Option Bool :=
  (predTable[condition]?).bind fun row => (row[flags.toNat]?).map (· != 0)

/-- The usual formula of a condition. -/
def Condition.formula (zero sign carry overflow : Bool) : Condition → Bool
  | lt => sign ^^ overflow
  | eq => zero
  | le => zero || (sign ^^ overflow)
  | gt => !(zero || (sign ^^ overflow))
  | ne => !zero
  | ge => !(sign ^^ overflow)
  | cf => carry
  | ab => !(!carry || zero)
  | ble => !carry || zero
  | ncf => !carry

theorem predLookup_flagBits (c : Condition) (zero sign carry overflow : Bool) (h : (zero && sign) = false) :
    predLookup c.code (flagBits zero sign carry overflow) = some (c.formula zero sign carry overflow) := by
  revert h
  cases c <;> cases zero <;> cases sign <;> cases carry <;> cases overflow <;> decide

theorem predLookup_ne_flagBits (carry overflow : Bool) :
    predLookup Condition.ne.code (flagBits true true carry overflow) = some false := by
  cases carry <;> cases overflow <;> decide

/-! ## The flags of a difference -/

section Difference

variable {w : Nat} (a b : Value)

/-- What `sub_impl` computes for a type of width `w`. -/
def difference (w : Nat) (a b : Value) : Value :=
  (a.setWidth w).setWidth 64 - (b.setWidth w).setWidth 64 + BitVec.twoPow 64 w

theorem subImpl_eq {ty : ScalarType} (hw : ty.width ≤ 32) :
    subImpl ty a b = .ok (difference ty.width a b) := by
  cases ty with
  | S8 | U8 | B8 => exact congrArg₂ (fun x y => Except.ok (x - y + 0x100)) (and_mask 8 a) (and_mask 8 b)
  | S16 | U16 | B16 =>
    exact congrArg₂ (fun x y => Except.ok (x - y + 0x10000)) (and_mask 16 a) (and_mask 16 b)
  | S32 | U32 | B32 =>
    exact congrArg₂ (fun x y => Except.ok (x - y + 0x100000000)) (and_mask 32 a) (and_mask 32 b)
  | S64 | U64 | B64 => exact absurd hw (by decide)

theorem toNat_ofMember {n : Nat} (hn : n ≤ 64) (y : BitVec n) : (ofMember y).toNat = y.toNat := by
  have hlt : y.toNat < 2 ^ 64 := y.isLt.trans_le (Nat.pow_le_pow_right (by omega) hn)
  rw [BitVec.toNat_setWidth, Nat.mod_eq_of_lt hlt]

theorem toNat_difference (hw : w ≤ 32) :
    (difference w a b).toNat = (a.setWidth w).toNat + 2 ^ w - (b.setWidth w).toNat := by
  have ha := (a.setWidth w).isLt
  have hb := (b.setWidth w).isLt
  have hpow : 2 ^ w ≤ 2 ^ 32 := Nat.pow_le_pow_right (by omega) hw
  have hmod : 2 ^ w % 2 ^ 64 = 2 ^ w := Nat.mod_eq_of_lt (by omega)
  unfold difference
  rw [BitVec.toNat_add, BitVec.toNat_sub, BitVec.toNat_twoPow, hmod, toNat_ofMember (by omega),
    toNat_ofMember (by omega)]
  omega

theorem setWidth_difference (hw : w ≤ 32) : (difference w a b).setWidth w = a.setWidth w - b.setWidth w := by
  have hb := (b.setWidth w).isLt
  apply BitVec.eq_of_toNat_eq
  rw [BitVec.toNat_setWidth, toNat_difference a b hw, BitVec.toNat_sub]
  congr 1
  omega

theorem getLsbD_difference (hw : w ≤ 32) :
    (difference w a b).getLsbD w = (b.setWidth w).ule (a.setWidth w) := by
  have ha := (a.setWidth w).isLt
  have hb := (b.setWidth w).isLt
  rw [BitVec.getLsbD, toNat_difference a b hw, BitVec.ule_eq_decide, Nat.testBit_eq_decide_div_mod_eq]
  apply decide_eq_decide.mpr
  by_cases hle : (b.setWidth w).toNat ≤ (a.setWidth w).toNat
  · have hdiv : ((a.setWidth w).toNat + 2 ^ w - (b.setWidth w).toNat) / 2 ^ w = 1 :=
      Nat.div_eq_of_lt_le (by omega) (by omega)
    rw [hdiv]
    exact iff_of_true rfl hle
  · rw [Nat.div_eq_of_lt (by omega)]
    exact iff_of_false (by decide) hle

end Difference

/-! ## Flags by width -/

/-- The types `S8_TYPE` to `S64_TYPE`. -/
def ScalarType.isSigned : ScalarType → Bool
  | .S8 | .S16 | .S32 | .S64 => true
  | _ => false

section Flags

theorem and_mask_eq_zero_iff {n : Nat} (d : BitVec (n + 1)) :
    d &&& BitVec.ofNat (n + 1) (2 ^ n - 1) = 0 ↔ d = 0 ∨ d = BitVec.intMin (n + 1) := by
  have hd := d.isLt
  have hpow : 2 ^ (n + 1) = 2 * 2 ^ n := by rw [Nat.pow_succ]; omega
  have hpos : 0 < 2 ^ n := Nat.two_pow_pos n
  have hmask : (2 ^ n - 1) % 2 ^ (n + 1) = 2 ^ n - 1 := Nat.mod_eq_of_lt (by omega)
  have hmin : 2 ^ (n + 1 - 1) % 2 ^ (n + 1) = 2 ^ n := Nat.mod_eq_of_lt (by rw [hpow]; simp)
  rw [← BitVec.toNat_inj, ← BitVec.toNat_inj, ← BitVec.toNat_inj, BitVec.toNat_and, BitVec.toNat_ofNat,
    hmask, Nat.and_two_pow_sub_one_eq_mod, BitVec.toNat_intMin, hmin]
  show d.toNat % 2 ^ n = 0 ↔ d.toNat = 0 ∨ d.toNat = 2 ^ n
  constructor
  · intro h
    obtain ⟨k, hk⟩ := Nat.dvd_of_mod_eq_zero h
    have hk2 : k < 2 := by
      by_contra hge
      have := Nat.mul_le_mul_left (2 ^ n) (Nat.not_lt.mp hge)
      omega
    interval_cases k <;> omega
  · rintro (h | h) <;> rw [h]
    · exact Nat.zero_mod _
    · exact Nat.mod_self _

theorem zeroFlag_eq {ty : ScalarType} (hw : ty.width ≤ 32) (x : Value) :
    zeroFlag ty x = decide (x.setWidth ty.width = 0 ∨
      (ty.isSigned = true ∧ x.setWidth ty.width = BitVec.intMin ty.width)) := by
  have hsigned : ∀ p q : Prop, (p ∨ (true = true ∧ q)) ↔ (p ∨ q) := by simp
  cases ty with
  | S8 => exact decide_eq_decide.mpr ((and_mask_eq_zero_iff x.u8).trans (hsigned _ _).symm)
  | S16 => exact decide_eq_decide.mpr ((and_mask_eq_zero_iff x.u16).trans (hsigned _ _).symm)
  | S32 => exact decide_eq_decide.mpr ((and_mask_eq_zero_iff x.u32).trans (hsigned _ _).symm)
  | U8 | U16 | U32 | B8 | B16 | B32 =>
    exact decide_eq_decide.mpr (by simp [ScalarType.isSigned, ScalarType.width])
  | S64 | U64 | B64 => exact absurd hw (by decide)

theorem msb_setWidth {w : Nat} (hw : 0 < w) (x : Value) : (x.setWidth w).msb = x.getLsbD (w - 1) := by
  rw [BitVec.msb_eq_getLsbD_last, BitVec.getLsbD_setWidth, decide_eq_true (by omega), Bool.true_and]

theorem ScalarType.width_pos (ty : ScalarType) : 0 < ty.width := by
  cases ty <;> decide

theorem signFlag_eq {ty : ScalarType} (hw : ty.width ≤ 32) (x : Value) :
    signFlag ty x = .ok (x.setWidth ty.width).msb := by
  have hpos := ty.width_pos
  unfold signFlag
  rw [if_neg (by omega), msb_setWidth hpos]
  congr 1
  show decide (x.u32 &&& BitVec.twoPow 32 (ty.width - 1) ≠ 0) = _
  have hbit : x.u32.getLsbD (ty.width - 1) = x.getLsbD (ty.width - 1) := by
    rw [BitVec.getLsbD_setWidth, decide_eq_true (by omega), Bool.true_and]
  rw [BitVec.and_twoPow, hbit]
  cases x.getLsbD (ty.width - 1) with
  | false => simp
  | true =>
    refine decide_eq_true ?_
    rw [if_pos rfl, ← BitVec.toNat_inj.ne, BitVec.toNat_twoPow_of_lt (by omega)]
    exact (Nat.two_pow_pos _).ne'

theorem subOverflowAt_twoPow {i : Nat} (hi : i < 64) (a b d : Value) :
    subOverflowAt (BitVec.twoPow 64 i) a b d =
      if (a.getLsbD i != b.getLsbD i && a.getLsbD i != d.getLsbD i) = true then 1 else 0 := by
  have hne : BitVec.twoPow 64 i ≠ 0#64 := by
    rw [← BitVec.toNat_inj.ne, BitVec.toNat_twoPow_of_lt hi]
    exact (Nat.two_pow_pos _).ne'
  unfold subOverflowAt
  rw [BitVec.and_twoPow, BitVec.and_twoPow, BitVec.and_twoPow]
  cases a.getLsbD i <;> cases b.getLsbD i <;> cases d.getLsbD i <;> simp [hne]

theorem subOverflow_eq {ty : ScalarType} (hw : ty.width ≤ 32) (a b : Value) :
    subOverflow ty a b (difference ty.width a b) =
      if (ty.isSigned && (a.setWidth ty.width).ssubOverflow (b.setWidth ty.width)) = true
      then 1 else 0 := by
  have hbits : ∀ {w : Nat}, 0 < w → w ≤ 32 →
      subOverflowAt (BitVec.twoPow 64 (w - 1)) a b (difference w a b) =
        if (a.setWidth w).ssubOverflow (b.setWidth w) = true then 1 else 0 := by
    intro w hpos hle
    rw [subOverflowAt_twoPow (by omega), BitVec.ssubOverflow_eq, ← setWidth_difference a b hle,
      msb_setWidth hpos, msb_setWidth hpos, msb_setWidth hpos]
    cases a.getLsbD (w - 1) <;> cases b.getLsbD (w - 1) <;>
      cases (difference w a b).getLsbD (w - 1) <;> rfl
  cases ty with
  | S8 => exact hbits (w := 8) (by decide) (by decide)
  | S16 => exact hbits (w := 16) (by decide) (by decide)
  | S32 => exact hbits (w := 32) (by decide) (by decide)
  | U8 | U16 | U32 | B8 | B16 | B32 => rfl
  | S64 | U64 | B64 => exact absurd hw (by decide)

theorem subCarry_eq {ty : ScalarType} (hw : ty.width ≤ 32) (a b : Value) :
    subCarry ty (difference ty.width a b) =
      if (b.setWidth ty.width).ule (a.setWidth ty.width) = true then 1 else 0 := by
  rw [← getLsbD_difference a b hw]
  generalize difference ty.width a b = d
  cases ty with
  | S8 | U8 | B8 =>
    show (d &&& BitVec.twoPow 64 8) >>> 8 = if d.getLsbD 8 = true then 1 else 0
    rw [BitVec.and_twoPow]
    cases d.getLsbD 8 <;> rfl
  | S16 | U16 | B16 =>
    show (d &&& BitVec.twoPow 64 16) >>> 16 = if d.getLsbD 16 = true then 1 else 0
    rw [BitVec.and_twoPow]
    cases d.getLsbD 16 <;> rfl
  | U32 | B32 =>
    show (d &&& BitVec.twoPow 64 32) >>> 32 = if d.getLsbD 32 = true then 1 else 0
    rw [BitVec.and_twoPow]
    cases d.getLsbD 32 <;> rfl
  | S32 =>
    show (d >>> 32) &&& BitVec.twoPow 64 0 = if d.getLsbD 32 = true then 1 else 0
    rw [BitVec.and_twoPow, BitVec.getLsbD_ushiftRight]
    rfl
  | S64 | U64 | B64 => exact absurd hw (by decide)

theorem setOperandValueFlags_ok {ty : ScalarType} (hw : ty.width ≤ 32) (regs : Regs) (dst : DoubleDst)
    (data : Value) (overflow carry : Bool) :
    ∃ regs', setOperandValueFlags regs dst ty data (if overflow = true then 1 else 0)
        (if carry = true then 1 else 0) = .ok regs' ∧
      (regs' dst.pred).pred =
        flagBits (zeroFlag ty data) (data.setWidth ty.width).msb carry overflow ∧
      regs' dst.reg = data ∧ ∀ r, r ≠ dst.pred → r ≠ dst.reg → regs' r = regs r := by
  unfold setOperandValueFlags setOperandValue
  rw [signFlag_eq hw]
  refine ⟨_, rfl, ?_, ?_, ?_⟩
  · rw [update_self, update_of_ne dst.pred_ne_reg, update_self]
    cases zeroFlag ty data <;> cases (data.setWidth ty.width).msb <;> cases carry <;> cases overflow <;>
      rfl
  · rw [update_of_ne dst.pred_ne_reg.symm, update_self]
  · intro r hpred hreg
    rw [update_of_ne hpred, update_of_ne hreg, update_of_ne hpred]

end Flags

/-! ## Conditions after a subtraction -/

section Conditions

variable {ty : ScalarType}

theorem subDouble_ok (hw : ty.width ≤ 32) (dst : DoubleDst) (src1 src2 : Reg) (regs : Regs) :
    ∃ regs', subDouble ty dst src1 src2 regs = .ok regs' ∧
      (regs' dst.pred).pred = flagBits (zeroFlag ty (difference ty.width (regs src1) (regs src2)))
        ((regs src1).setWidth ty.width - (regs src2).setWidth ty.width).msb
        (((regs src2).setWidth ty.width).ule ((regs src1).setWidth ty.width))
        (ty.isSigned && ((regs src1).setWidth ty.width).ssubOverflow ((regs src2).setWidth ty.width)) := by
  unfold subDouble
  rw [subImpl_eq _ _ hw, ok_bind, subOverflow_eq hw, subCarry_eq hw]
  obtain ⟨regs', hok, hflags, -⟩ := setOperandValueFlags_ok hw regs dst
    (difference ty.width (regs src1) (regs src2)) (ty.isSigned &&
      ((regs src1).setWidth ty.width).ssubOverflow ((regs src2).setWidth ty.width))
    (((regs src2).setWidth ty.width).ule ((regs src1).setWidth ty.width))
  rw [setWidth_difference _ _ hw] at hflags
  exact ⟨regs', hok, hflags⟩

theorem formula_eq_compare {w : Nat} (x y : BitVec w) (c : Condition) (overflow : Bool)
    (hoverflow : c.IsSigned → overflow = x.ssubOverflow y) :
    c.formula (x - y == 0) (x - y).msb (y.ule x) overflow = c.compare x y := by
  have hzero : (x - y == 0) = (x == y) := by
    rw [Bool.eq_iff_iff, beq_iff_eq, beq_iff_eq, sub_eq_zero]
  have hsle : x.sle y = ((x == y) || x.slt y) := by
    rw [BitVec.sle_eq_slt_or_eq, Bool.or_comm]
  cases c with
  | lt =>
    rw [Condition.formula, hoverflow (by decide), Condition.compare, slt_eq_msb_sub_xor_ssubOverflow]
  | eq => exact hzero
  | le =>
    rw [Condition.formula, hoverflow (by decide), Condition.compare, hzero, hsle,
      slt_eq_msb_sub_xor_ssubOverflow]
  | gt =>
    rw [Condition.formula, hoverflow (by decide), Condition.compare, hzero,
      ← slt_eq_msb_sub_xor_ssubOverflow, ← hsle, BitVec.sle_eq_not_slt, Bool.not_not]
  | ne => exact congrArg not hzero
  | ge =>
    rw [Condition.formula, hoverflow (by decide), Condition.compare, ← slt_eq_msb_sub_xor_ssubOverflow,
      BitVec.sle_eq_not_slt]
  | cf => rfl
  | ab => rw [Condition.formula, Condition.compare, ← ule_eq_not_ule_or_eq, ult_eq_not_ule]
  | ble => exact (ule_eq_not_ule_or_eq x y).symm
  | ncf => exact (ult_eq_not_ule x y).symm

/-- **Condition codes of subtraction.** For the types of at most 32 bits, every condition says of the
flags of a subtraction what it compares, the signed ones after a subtraction of signed type, exactly
when that is not of signed type or the difference is not the most negative number: its zero flag is
set as well. -/
theorem predLookup_subDouble_iff (hw : ty.width ≤ 32) (dst : DoubleDst) (src1 src2 : Reg) (regs : Regs) :
    (∃ regs', subDouble ty dst src1 src2 regs = .ok regs' ∧
      ∀ c : Condition, (c.IsSigned → ty.isSigned = true) →
        predLookup c.code (regs' dst.pred).pred =
          some (c.compare ((regs src1).setWidth ty.width) ((regs src2).setWidth ty.width))) ↔
      ¬ (ty.isSigned = true ∧ (regs src1).setWidth ty.width - (regs src2).setWidth ty.width =
        BitVec.intMin ty.width) := by
  obtain ⟨regs', hok, hflags⟩ := subDouble_ok hw dst src1 src2 regs
  rw [zeroFlag_eq hw, setWidth_difference _ _ hw] at hflags
  generalize (regs src1).setWidth ty.width = x at hflags ⊢
  generalize (regs src2).setWidth ty.width = y at hflags ⊢
  constructor
  · rintro ⟨r, hr, hall⟩ ⟨hsigned, hmin⟩
    obtain rfl : regs' = r := Except.ok.inj (hok.symm.trans hr)
    -- The condition `ne` is false although the operands differ.
    have hne := hall .ne fun _ => hsigned
    rw [hflags, hmin, decide_eq_true (.inr ⟨hsigned, rfl⟩), BitVec.msb_intMin,
      decide_eq_true ty.width_pos, predLookup_ne_flagBits] at hne
    have hxy : x = y := by simpa [Condition.compare] using (Option.some.inj hne).symm
    have hpos := ty.width_pos
    rw [hxy, sub_self, ← BitVec.toNat_inj, BitVec.toNat_intMin_of_pos hpos] at hmin
    exact absurd hmin.symm (Nat.two_pow_pos _).ne'
  · intro hmin
    refine ⟨regs', hok, fun c hc => ?_⟩
    have hzero : decide (x - y = 0 ∨ (ty.isSigned = true ∧ x - y = BitVec.intMin ty.width)) =
        (x - y == 0) := by
      rw [Bool.eq_iff_iff, decide_eq_true_iff, beq_iff_eq]
      exact or_iff_left hmin
    rw [hflags, hzero, predLookup_flagBits, formula_eq_compare]
    · intro hsigned
      rw [hc hsigned, Bool.true_and]
    · -- Zero has no sign.
      cases hz : (x - y == 0) with
      | false => rfl
      | true =>
        rw [beq_iff_eq.mp hz]
        exact BitVec.msb_zero

theorem p0_ne_r4 : "$p0" ≠ "$r4" := by decide

/-- A destination. -/
def p0r4 : DoubleDst := ⟨"$p0", "$r4", p0_ne_r4⟩

/-- `5 - 7` in signed bytes. -/
theorem predLookup_subDouble_iff_bytes :
    ∃ regs', subDouble .S8 p0r4 "$r0" "$r1" (fun r => if r = "$r0" then 5 else 7) = .ok regs' ∧
      predLookup Condition.lt.code ( regs' "$p0").pred = some true := by
  obtain ⟨regs', hok, hall⟩ :=
    (predLookup_subDouble_iff (by decide : ScalarType.S8.width ≤ 32) p0r4 "$r0" "$r1"
    (fun r => if r = "$r0" then 5 else 7)).mpr (by decide)
  exact ⟨regs', hok, hall .lt fun _ => rfl⟩

/-- `-128 - 0` in signed bytes: `-128` is not less than `0`, and not unequal to it. -/
theorem predLookup_subDouble_intMin :
    ((subDouble .S8 p0r4 "$r0" "$r1" (fun r => if r = "$r0" then 0x80 else 0)).toOption.map fun regs' =>
      (predLookup Condition.lt.code ( regs' "$p0").pred, predLookup Condition.ne.code ( regs' "$p0").pred)) =
        some (some false, some false) ∧
      Condition.lt.compare 0x80#8 0#8 = true ∧ Condition.ne.compare 0x80#8 0#8 = true := by
  decide

end Conditions

end GpgpuSimRuby.Ptx
