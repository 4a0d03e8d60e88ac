import GpgpuSimRuby.Ptx.WidthLocality
import GpgpuSimRuby.Library.Fault

/-!
# Multiply and add

`mad` and `mad24` against `mul` and `mul24` with an `add` behind them.
-/

namespace GpgpuSimRuby.Ptx

open Library Value

/-! ## The 24-bit instructions -/

section Arithmetic24

variable (ty : ScalarType) (a b c : Value) (mode : MulMode)

/-- A source of `mul24_impl`. Bit 23 of a signed one is copied to all higher bits. -/
def mul24Source (x : Value) : Except ExecFault Value :=
  let x := x &&& 0xFFFFFF
  match ty with
  | .S32 => .ok (if x.getLsbD 23 then x ||| 0xFFFFFFFFFF000000 else x)
  | .U32 => .ok x
  | .S8 | .S16 | .S64 | .U8 | .U16 | .U64 | .B8 | .B16 | .B32 | .B64 => .error .typeMismatch

/-- `mul24_impl`. -/
def mul24Impl : Result := do
  let a ← mul24Source ty a
  let b ← mul24Source ty b
  let data := a * b
  match mode with
  | .hi => .ok ((data >>> 16) &&& 0xFFFFFFFF)
  | .lo => .ok (data &&& 0xFFFFFFFF)
  | .wide | .none => .ok data

/-- The saturation of a signed `mad24.hi`. -/
def saturate (d : Value) : Value :=
  if (0x7FFFFFFF : Value).slt d then 0x7FFFFFFF
  else if d.slt 0xFFFFFFFF80000000 then 0xFFFFFFFF80000000
  else d

/-- `mad24_impl`. The product of two 32-bit members is one of 32 bits. -/
def mad24Impl (satMode : Bool) : Result :=
  match ty with
  | .S32 =>
    let t : Value := (a.u32 * b.u32).signExtend 64
    let d := t.sshiftRight 16 + c.u32.signExtend 64
    selectMode mode (.error .typeMismatch) (.ok (if satMode then saturate d else d))
      (.ok (ofSigned (t.u32 + c.u32)))
  | .U32 =>
    let t : Value := (a.u32 * b.u32).setWidth 64
    selectMode mode (.error .typeMismatch) (.ok ((t >>> 16) + c.u32.setWidth 64))
      (.ok (ofMember (t.u32 + c.u32)))
  | .S8 | .S16 | .S64 | .U8 | .U16 | .U64 | .B8 | .B16 | .B32 | .B64 => .error .typeMismatch

end Arithmetic24

/-! ## The two ways -/

inductive MadOp where
  | mad
  | mad24 (satMode : Bool)
  deriving DecidableEq, Repr

/-- The type of the result. -/
def resultType (ty : ScalarType) (mode : MulMode) : ScalarType :=
  match mode, ty with
  | .wide, .S16 => .S32
  | .wide, .U16 => .U32
  | .wide, .S32 => .S64
  | .wide, .U32 => .U64
  | _, ty => ty

namespace MadOp

variable (op : MadOp) (ty : ScalarType) (mode : MulMode) (a b c : Value)

/-- The instruction itself. -/
def exec : Result :=
  match op with
  | mad => madImpl ty a b c mode
  | mad24 satMode => mad24Impl ty a b c mode satMode

/-- The corresponding multiplication. -/
def product : Result :=
  match op with
  | mad => mulImpl ty a b mode
  | mad24 _ => mul24Impl ty a b mode

/-- The multiplication and an `add` of the third operand. -/
def mulThenAdd : Result := do
  let p ← op.product ty mode a b
  addImpl (resultType ty mode) p c

/-- Wherever the instruction takes its type and mode, so do the two others, and the results agree on the
width of the result. -/
def Agrees : Prop :=
  ∀ d, op.exec ty mode a b c = .ok d →
    ∃ s, op.mulThenAdd ty mode a b c = .ok s ∧ AgreeOn (resultType ty mode).width d s

/-- The exact product of the operands. -/
def exact (w : Nat) (a b : Value) : Int := (a.setWidth w).toInt * (b.setWidth w).toInt

def exactUnsigned (w : Nat) (a b : Value) : Nat := (a.setWidth w).toNat * (b.setWidth w).toNat

/-- The low 32 bits of a number, with their sign. -/
def lowSigned (n : Int) : Int := n.bmod (2 ^ 32)

/-- The operands for which `mad24.hi.s32` agrees: with `t` for what it has of the product and `p` for
the upper bits of the 24-bit one. -/
def AgreesWhenHi24 (satMode : Bool) (t p c : Int) : Prop :=
  if satMode = true ∧ 2 ^ 31 ≤ t + c then p + c ≡ 2 ^ 31 - 1 [ZMOD 2 ^ 32]
  else if satMode = true ∧ t + c < -2 ^ 31 then p + c ≡ 2 ^ 31 [ZMOD 2 ^ 32]
  else t = p

/-- The operands for which it agrees. -/
def AgreesWhen : Prop :=
  match op, ty, mode with
  | mad, .U16, .hi => c.u16 = 0 ∨ (c.u16 = 1 ∧ exactUnsigned 16 a b % 2 ^ 16 = 2 ^ 16 - 1)
  | mad, .S32, .wide | mad, .S32, .hi => -2 ^ 31 ≤ exact 32 a b ∧ exact 32 a b < 2 ^ 31
  | mad, .U32, .wide => exactUnsigned 32 a b < 2 ^ 32
  | mad, .U32, .hi => (exactUnsigned 32 a b / 2 ^ 32 + c.u32.toNat) % 2 ^ 32 =
      (exactUnsigned 32 a b % 2 ^ 32 + c.u32.toNat) / 2 ^ 32
  | mad24 _, .S32, .lo => exact 32 a b ≡ exact 24 a b [ZMOD 2 ^ 32]
  | mad24 _, .U32, .lo => exactUnsigned 32 a b ≡ exactUnsigned 24 a b [MOD 2 ^ 32]
  | mad24 _, .U32, .hi => exactUnsigned 32 a b % 2 ^ 32 / 2 ^ 16 = exactUnsigned 24 a b / 2 ^ 16
  | mad24 satMode, .S32, .hi =>
    AgreesWhenHi24 satMode (lowSigned (exact 32 a b) / 2 ^ 16) (exact 24 a b / 2 ^ 16) c.u32.toInt
  | _, _, _ => True

end MadOp

/-! ## Members as residues -/

section Residues

variable {v w : Nat}

theorem ofInt_eq_ofInt_iff {i j : Int} : BitVec.ofInt v i = BitVec.ofInt v j ↔ i ≡ j [ZMOD 2 ^ v] := by
  rw [← BitVec.toNat_inj, BitVec.toNat_ofInt, BitVec.toNat_ofInt, Int.ModEq]
  have hpos : (0 : Int) < 2 ^ v := by positivity
  have hi := Int.emod_nonneg i hpos.ne'
  have hj := Int.emod_nonneg j hpos.ne'
  push_cast
  omega

theorem setWidth_eq_ofInt (h : v ≤ w) (x : BitVec w) : x.setWidth v = BitVec.ofInt v x.toInt := by
  have hdvd : (2 : Int) ^ v ∣ 2 ^ w := pow_dvd_pow 2 h
  rw [← BitVec.ofNat_toNat, ← BitVec.ofInt_natCast, ofInt_eq_ofInt_iff, BitVec.toInt_eq_toNat_bmod]
  exact Int.ModEq.of_dvd hdvd (by exact_mod_cast Int.bmod_emod.symm)

theorem setWidth_ofMember (h : w ≤ 64) (y : BitVec w) : (ofMember y).setWidth w = y := by
  rw [BitVec.setWidth_setWidth_of_le y h, BitVec.setWidth_eq]

theorem setWidth_ofSigned (h : w ≤ 64) (y : BitVec w) : (ofSigned y).setWidth w = y := by
  apply BitVec.eq_of_getLsbD_eq
  intro i hi
  rw [BitVec.getLsbD_setWidth, BitVec.getLsbD_signExtend, decide_eq_true hi,
    decide_eq_true (show i < 64 by omega), if_pos hi, Bool.true_and, Bool.true_and]

theorem setWidth_ushiftRight_eq {n : Nat} (h : v + n ≤ w) (x : BitVec w) :
    (x >>> n).setWidth v = (x.sshiftRight n).setWidth v := by
  apply BitVec.eq_of_getLsbD_eq
  intro i hi
  rw [BitVec.getLsbD_setWidth, BitVec.getLsbD_setWidth, BitVec.getLsbD_ushiftRight,
    BitVec.getLsbD_sshiftRight, if_pos (show n + i < w by omega),
    decide_eq_false (show ¬ w ≤ i by omega), Bool.not_false, Bool.true_and]

theorem setWidth_sshiftRight_eq_ofInt {n : Nat} (h : v ≤ w) (x : BitVec w) :
    (x.sshiftRight n).setWidth v = BitVec.ofInt v (x.toInt / 2 ^ n) := by
  rw [setWidth_eq_ofInt h, BitVec.toInt_sshiftRight, Int.shiftRight_eq_div_pow]
  norm_cast

end Residues

/-! ## Products -/

section Products

variable (a b : Value)

theorem exact_bounds {w : Nat} : -(2 ^ (w - 1) * 2 ^ (w - 1)) ≤ MadOp.exact w a b ∧
    MadOp.exact w a b ≤ 2 ^ (w - 1) * 2 ^ (w - 1) := by
  have ha := BitVec.le_toInt (a.setWidth w)
  have ha' := BitVec.toInt_lt (x := a.setWidth w)
  have hb := BitVec.le_toInt (b.setWidth w)
  have hb' := BitVec.toInt_lt (x := b.setWidth w)
  unfold MadOp.exact
  constructor <;> nlinarith

theorem toInt_signExtend_mul {w : Nat} (hle : w ≤ 32) :
    ((a.setWidth w).signExtend 64 * (b.setWidth w).signExtend 64).toInt = MadOp.exact w a b := by
  obtain ⟨hlow, hhigh⟩ := exact_bounds a b (w := w)
  have hpow : (2 : Int) ^ (w - 1) * 2 ^ (w - 1) ≤ 2 ^ 62 := by
    rw [← pow_add]
    exact pow_le_pow_right₀ (by decide) (by omega)
  rw [BitVec.toInt_mul, BitVec.toInt_signExtend_of_le (by omega),
    BitVec.toInt_signExtend_of_le (by omega)]
  show (MadOp.exact w a b).bmod (2 ^ 64) = _
  apply Int.bmod_eq_of_le <;> omega

theorem toInt_signExtend_mul32 :
    ((a.u32 * b.u32).signExtend 64).toInt = MadOp.lowSigned (MadOp.exact 32 a b) := by
  rw [BitVec.toInt_signExtend_of_le (by decide), BitVec.toInt_mul]
  rfl

theorem exactUnsigned_lt {w : Nat} : MadOp.exactUnsigned w a b ≤ (2 ^ w - 1) * (2 ^ w - 1) := by
  have ha := (a.setWidth w).isLt
  have hb := (b.setWidth w).isLt
  exact Nat.mul_le_mul (by omega) (by omega)

theorem toNat_setWidth_mul {w n : Nat} (hw : 0 < w) (hn : 2 * w ≤ n) :
    ((a.setWidth w).setWidth n * (b.setWidth w).setWidth n).toNat = MadOp.exactUnsigned w a b := by
  have ha := (a.setWidth w).isLt
  have hb := (b.setWidth w).isLt
  have hpow : 2 ^ w * 2 ^ w ≤ 2 ^ n := by
    rw [← pow_add]
    exact Nat.pow_le_pow_right (by decide) (by omega)
  have hlt : (a.setWidth w).toNat * (b.setWidth w).toNat < 2 ^ n :=
    (Nat.mul_lt_mul'' ha hb).trans_le hpow
  have hle : w ≤ n := by omega
  rw [BitVec.toNat_mul, BitVec.toNat_setWidth_of_le hle, BitVec.toNat_setWidth_of_le hle,
    Nat.mod_eq_of_lt hlt]
  rfl

theorem toNat_setWidth_mul32 :
    ((a.u32 * b.u32).setWidth 64).toNat = MadOp.exactUnsigned 32 a b % 2 ^ 32 := by
  rw [BitVec.toNat_setWidth_of_le (by decide), BitVec.toNat_mul]
  rfl

theorem signExtend_eq_or {v w : Nat} (y : BitVec w) :
    y.signExtend v =
      if y.msb = true then y.setWidth v ||| (BitVec.allOnes v <<< w) else y.setWidth v := by
  apply BitVec.eq_of_getLsbD_eq
  intro i hi
  rw [BitVec.getLsbD_signExtend, decide_eq_true hi, Bool.true_and]
  by_cases hlow : i < w
  · cases y.msb <;> simp [hlow, hi]
  · have hout := BitVec.getLsbD_of_ge y i (Nat.le_of_not_lt hlow)
    cases y.msb <;> simp [hlow, hi, hout]

theorem mul24Source_S32 (x : Value) : mul24Source .S32 x = .ok ((x.setWidth 24).signExtend 64) := by
  have hmask : x &&& 0xFFFFFF = (x.setWidth 24).setWidth 64 := and_mask 24 x
  have hhigh : (0xFFFFFFFFFF000000 : Value) = BitVec.allOnes 64 <<< 24 := by decide
  have hsign : ((x.setWidth 24).setWidth 64).getLsbD 23 = (x.setWidth 24).msb := by
    rw [BitVec.getLsbD_setWidth, BitVec.msb_eq_getLsbD_last]
    rfl
  show Except.ok (if (x &&& 0xFFFFFF).getLsbD 23 = true then _ else _) = _
  rw [hmask, hsign, hhigh, signExtend_eq_or]

theorem mul24Source_U32 (x : Value) : mul24Source .U32 x = .ok ((x.setWidth 24).setWidth 64) :=
  congrArg Except.ok (and_mask 24 x)

end Products

/-! ## The addition -/

theorem addImpl_setWidth {ty : ScalarType} (hty : ty ∉ [ScalarType.B8, .B16, .B32, .B64])
    (p c : Value) :
    ∃ s, addImpl ty p c = .ok s ∧ s.setWidth ty.width = p.setWidth ty.width + c.setWidth ty.width := by
  have hmasked : ∀ w ≤ 64, (((p &&& BitVec.ofNat 64 (2 ^ w - 1)) + (c &&& BitVec.ofNat 64 (2 ^ w - 1)) :
      Value).setWidth w) = p.setWidth w + c.setWidth w := by
    intro w hw
    rw [and_mask, and_mask, BitVec.setWidth_add _ _ hw, setWidth_ofMember hw, setWidth_ofMember hw]
  cases ty with
  | S8 | U8 => exact ⟨_, rfl, hmasked 8 (by decide)⟩
  | S16 | U16 => exact ⟨_, rfl, hmasked 16 (by decide)⟩
  | S32 | U32 => exact ⟨_, rfl, hmasked 32 (by decide)⟩
  | S64 | U64 => exact ⟨_, rfl, BitVec.setWidth_add _ _ le_rfl⟩
  | B8 | B16 | B32 | B64 => exact absurd (by decide) hty

/-! ## Where the two ways agree -/

namespace MadOp

section

variable {op : MadOp} {ty : ScalarType} {mode : MulMode} {a b c d p : Value}

theorem agrees_of_error {e : ExecFault} (h : op.exec ty mode a b c = .error e) :
    op.Agrees ty mode a b c := by
  intro d hd
  cases h.symm.trans hd

theorem agrees_iff (hd : op.exec ty mode a b c = .ok d) (hp : op.product ty mode a b = .ok p)
    (hty : resultType ty mode ∉ [ScalarType.B8, .B16, .B32, .B64]) :
    op.Agrees ty mode a b c ↔ d.setWidth (resultType ty mode).width =
      p.setWidth (resultType ty mode).width + c.setWidth (resultType ty mode).width := by
  obtain ⟨s, hs, hsum⟩ := addImpl_setWidth hty p c
  have hadd : op.mulThenAdd ty mode a b c = .ok s := by
    unfold mulThenAdd
    rw [hp, ok_bind, hs]
  rw [← hsum]
  constructor
  · intro h
    obtain ⟨s', hs', hagree⟩ := h d hd
    obtain rfl : s = s' := Except.ok.inj (hadd.symm.trans hs')
    exact hagree
  · intro h d' hd'
    obtain rfl : d = d' := Except.ok.inj (hd.symm.trans hd')
    exact ⟨s, hadd, h⟩

theorem agrees_iff_product {w : Nat} {y : BitVec w} (hw : (resultType ty mode).width = w) (hle : w ≤ 64)
    (hd : op.exec ty mode a b c = .ok d) (hp : op.product ty mode a b = .ok (ofMember y))
    (hty : resultType ty mode ∉ [ScalarType.B8, .B16, .B32, .B64]) :
    op.Agrees ty mode a b c ↔ d.setWidth w = y + c.setWidth w := by
  subst hw
  rw [agrees_iff hd hp hty, setWidth_ofMember hle]

theorem agrees_iff_member {w : Nat} {x y : BitVec w} (hw : (resultType ty mode).width = w)
    (hle : w ≤ 64)
    (hd : op.exec ty mode a b c = .ok (ofMember x)) (hp : op.product ty mode a b = .ok (ofMember y))
    (hty : resultType ty mode ∉ [ScalarType.B8, .B16, .B32, .B64]) :
    op.Agrees ty mode a b c ↔ x = y + c.setWidth w := by
  rw [agrees_iff_product hw hle hd hp hty, setWidth_ofMember hle]

theorem agrees_iff_add {w : Nat} {x y : BitVec w} (hw : (resultType ty mode).width = w) (hle : w ≤ 64)
    (hd : op.exec ty mode a b c = .ok (ofMember (x + c.setWidth w)))
    (hp : op.product ty mode a b = .ok (ofMember y))
    (hty : resultType ty mode ∉ [ScalarType.B8, .B16, .B32, .B64]) :
    op.Agrees ty mode a b c ↔ x = y := by
  rw [agrees_iff_member hw hle hd hp hty]
  exact add_left_inj _

end

section Mad

variable (a b c : Value)

theorem agrees_mad_S16 (mode : MulMode) : mad.Agrees .S16 mode a b c := by
  cases mode with
  | wide => exact (agrees_iff_add (w := 32) rfl (by decide) rfl rfl (by decide)).mpr rfl
  | hi | lo => exact (agrees_iff_add (w := 16) rfl (by decide) rfl rfl (by decide)).mpr rfl
  | none => exact agrees_of_error rfl

theorem lowSigned_eq (n : Int) :
    lowSigned n = n % 2 ^ 32 - if 2 ^ 31 ≤ n % 2 ^ 32 then 2 ^ 32 else 0 := by
  unfold lowSigned
  rw [Int.bmod_eq_emod]
  push_cast
  rfl

theorem lowSigned_eq_iff (n : Int) : lowSigned n = n ↔ -2 ^ 31 ≤ n ∧ n < 2 ^ 31 := by
  rw [lowSigned_eq]
  split <;> omega

theorem lowSigned_modEq (n : Int) : lowSigned n ≡ n [ZMOD 2 ^ 32] := by
  rw [lowSigned_eq, Int.ModEq]
  split <;> omega

theorem lowSigned_div_modEq_iff {n : Int} (hlow : -2 ^ 62 ≤ n) (hhigh : n ≤ 2 ^ 62) :
    lowSigned n / 2 ^ 32 ≡ n / 2 ^ 32 [ZMOD 2 ^ 32] ↔ -2 ^ 31 ≤ n ∧ n < 2 ^ 31 := by
  rw [lowSigned_eq, Int.ModEq]
  split <;> omega

theorem agrees_mad_S32 (mode : MulMode) :
    mad.Agrees .S32 mode a b c ↔ mad.AgreesWhen .S32 mode a b c := by
  have ht := toInt_signExtend_mul32 a b
  have hp := toInt_signExtend_mul a b (w := 32) le_rfl
  obtain ⟨hlow, hhigh⟩ := exact_bounds a b (w := 32)
  cases mode with
  | wide =>
    rw [agrees_iff (d := _) (p := _) rfl rfl (by decide)]
    show ((a.u32 * b.u32).signExtend 64 + c).setWidth 64 =
      (a.u32.signExtend 64 * b.u32.signExtend 64).setWidth 64 + c.setWidth 64 ↔ _
    rw [BitVec.setWidth_eq, BitVec.setWidth_eq, BitVec.setWidth_eq, add_left_inj,
      ← BitVec.toInt_inj, ht, hp]
    exact lowSigned_eq_iff _
  | hi =>
    rw [agrees_iff_add (w := 32) rfl (by decide) rfl rfl (by decide),
      setWidth_sshiftRight_eq_ofInt (by decide), setWidth_sshiftRight_eq_ofInt (by decide),
      ofInt_eq_ofInt_iff, ht, hp]
    exact lowSigned_div_modEq_iff (by omega) (by omega)
  | lo =>
    refine iff_of_true ((agrees_iff_add (w := 32) rfl (by decide) rfl rfl (by decide)).mpr ?_) trivial
    rw [setWidth_eq_ofInt (by decide), setWidth_eq_ofInt (by decide), ofInt_eq_ofInt_iff, ht, hp]
    exact lowSigned_modEq _
  | none => exact iff_of_true (agrees_of_error rfl) trivial

/-- The carry of a low half is the third operand itself only for zero, and for one below the top. -/
theorem add_div_mod_iff {n c : Nat} (hn : n ≤ (2 ^ 16 - 1) * (2 ^ 16 - 1)) (hc : c < 2 ^ 16) :
    (n + c) % 2 ^ 32 / 2 ^ 16 % 2 ^ 16 = (n / 2 ^ 16 % 2 ^ 16 + c) % 2 ^ 16 ↔
      c = 0 ∨ (c = 1 ∧ n % 2 ^ 16 = 2 ^ 16 - 1) := by
  have hsplit : n = 2 ^ 16 * (n / 2 ^ 16) + n % 2 ^ 16 := (Nat.div_add_mod n (2 ^ 16)).symm
  have hr : n % 2 ^ 16 < 2 ^ 16 := Nat.mod_lt _ (by decide)
  have hq : n / 2 ^ 16 < 2 ^ 16 := by omega
  rw [Nat.mod_eq_of_lt (show n + c < 2 ^ 32 by omega), Nat.mod_eq_of_lt hq]
  generalize n / 2 ^ 16 = q at hsplit hq ⊢
  generalize n % 2 ^ 16 = r at hsplit hr ⊢
  subst hsplit
  rw [Nat.add_assoc, Nat.mul_add_div (by decide)]
  by_cases hcarry : r + c < 2 ^ 16
  · rw [Nat.div_eq_of_lt hcarry]
    omega
  · rw [Nat.div_eq_of_lt_le (k := 1) (by omega) (by omega)]
    omega

theorem mod_add_div_iff {n c : Nat} (hn : n ≤ (2 ^ 32 - 1) * (2 ^ 32 - 1)) (hc : c < 2 ^ 32) :
    (n % 2 ^ 32 + c) % 2 ^ 64 / 2 ^ 32 % 2 ^ 32 = (n / 2 ^ 32 % 2 ^ 32 + c) % 2 ^ 32 ↔
      (n / 2 ^ 32 + c) % 2 ^ 32 = (n % 2 ^ 32 + c) / 2 ^ 32 := by
  have hr : n % 2 ^ 32 < 2 ^ 32 := Nat.mod_lt _ (by decide)
  have hq : n / 2 ^ 32 < 2 ^ 32 := Nat.div_lt_of_lt_mul (by omega)
  have hcarry : (n % 2 ^ 32 + c) / 2 ^ 32 < 2 ^ 32 := Nat.div_lt_of_lt_mul (by omega)
  rw [Nat.mod_eq_of_lt (show n % 2 ^ 32 + c < 2 ^ 64 by omega), Nat.mod_eq_of_lt hq,
    Nat.mod_eq_of_lt hcarry]
  exact eq_comm

theorem agrees_mad_U16 (mode : MulMode) :
    mad.Agrees .U16 mode a b c ↔ mad.AgreesWhen .U16 mode a b c := by
  have hp := toNat_setWidth_mul a b (w := 16) (n := 32) (by decide) (by decide)
  have hc := c.u16.isLt
  cases mode with
  | wide =>
    exact iff_of_true ((agrees_iff_add (w := 32) rfl (by decide) rfl rfl (by decide)).mpr rfl) trivial
  | hi =>
    have hc32 : (c.u16.setWidth 32).toNat = c.u16.toNat := BitVec.toNat_setWidth_of_le (by decide)
    have hzero : c.u16 = 0 ↔ c.u16.toNat = 0 := BitVec.toNat_inj.symm
    have hone : c.u16 = 1 ↔ c.u16.toNat = 1 := BitVec.toNat_inj.symm
    rw [agrees_iff_member (w := 16) rfl (by decide) rfl rfl (by decide), ← BitVec.toNat_inj,
      BitVec.toNat_add, BitVec.toNat_setWidth, BitVec.toNat_setWidth, BitVec.toNat_ushiftRight,
      BitVec.toNat_ushiftRight, BitVec.toNat_add, hp, hc32, Nat.shiftRight_eq_div_pow,
      Nat.shiftRight_eq_div_pow, add_div_mod_iff (exactUnsigned_lt a b) hc, ← hzero, ← hone]
    rfl
  | lo =>
    exact iff_of_true ((agrees_iff_add (w := 16) rfl (by decide) rfl rfl (by decide)).mpr rfl) trivial
  | none => exact iff_of_true (agrees_of_error rfl) trivial

theorem agrees_mad_U32 (mode : MulMode) :
    mad.Agrees .U32 mode a b c ↔ mad.AgreesWhen .U32 mode a b c := by
  have ht := toNat_setWidth_mul32 a b
  have hp := toNat_setWidth_mul a b (w := 32) (n := 64) (by decide) (by decide)
  have hle := exactUnsigned_lt a b (w := 32)
  cases mode with
  | wide =>
    rw [agrees_iff (d := _) (p := _) rfl rfl (by decide)]
    show ((a.u32 * b.u32).setWidth 64 + c).setWidth 64 =
      (a.u32.setWidth 64 * b.u32.setWidth 64).setWidth 64 + c.setWidth 64 ↔ _
    rw [BitVec.setWidth_eq, BitVec.setWidth_eq, BitVec.setWidth_eq, add_left_inj,
      ← BitVec.toNat_inj, ht, hp]
    exact Nat.mod_eq_iff_lt (by decide)
  | hi =>
    have hc64 : (c.u32.setWidth 64).toNat = c.u32.toNat := BitVec.toNat_setWidth_of_le (by decide)
    rw [agrees_iff_member (w := 32) rfl (by decide) rfl rfl (by decide), ← BitVec.toNat_inj,
      BitVec.toNat_add, BitVec.toNat_setWidth, BitVec.toNat_setWidth, BitVec.toNat_ushiftRight,
      BitVec.toNat_ushiftRight, BitVec.toNat_add, ht, hp, hc64, Nat.shiftRight_eq_div_pow,
      Nat.shiftRight_eq_div_pow]
    exact mod_add_div_iff (exactUnsigned_lt a b) c.u32.isLt
  | lo =>
    refine iff_of_true ((agrees_iff_add (w := 32) rfl (by decide) rfl rfl (by decide)).mpr ?_) trivial
    rw [← BitVec.toNat_inj, BitVec.toNat_setWidth, ht, BitVec.toNat_setWidth, hp, Nat.mod_mod]
  | none => exact iff_of_true (agrees_of_error rfl) trivial

end Mad

section Mad24

variable (a b c : Value) (satMode : Bool)

theorem product_mad24 {ty : ScalarType} {x y : Value} (hx : mul24Source ty a = .ok x)
    (hy : mul24Source ty b = .ok y) :
    (mad24 satMode).product ty .hi a b = .ok (ofMember (((x * y) >>> 16).setWidth 32)) ∧
      (mad24 satMode).product ty .lo a b = .ok (ofMember ((x * y).setWidth 32)) := by
  unfold product mul24Impl
  rw [hx, hy]
  exact ⟨congrArg Except.ok (and_mask 32 _), congrArg Except.ok (and_mask 32 _)⟩

theorem agrees_mad24_U32 (mode : MulMode) :
    (mad24 satMode).Agrees .U32 mode a b c ↔ (mad24 satMode).AgreesWhen .U32 mode a b c := by
  have ht := toNat_setWidth_mul32 a b
  have hp := toNat_setWidth_mul a b (w := 24) (n := 64) (by decide) (by decide)
  have hle := exactUnsigned_lt a b (w := 24)
  obtain ⟨hhi, hlo⟩ := product_mad24 a b satMode (mul24Source_U32 a) (mul24Source_U32 b)
  cases mode with
  | wide | none => exact iff_of_true (agrees_of_error rfl) trivial
  | lo =>
    rw [agrees_iff_add (w := 32) rfl (by decide) rfl hlo (by decide), ← BitVec.toNat_inj,
      BitVec.toNat_setWidth, ht, BitVec.toNat_setWidth, hp, Nat.mod_mod]
    rfl
  | hi =>
    rw [agrees_iff_product (w := 32) (d := _) rfl (by decide) rfl hhi (by decide)]
    show (((a.u32 * b.u32).setWidth 64 >>> 16) + c.u32.setWidth 64).setWidth 32 = _ + c.setWidth 32 ↔
      exactUnsigned 32 a b % 2 ^ 32 / 2 ^ 16 = exactUnsigned 24 a b / 2 ^ 16
    rw [BitVec.setWidth_add _ _ (by decide), setWidth_ofMember (by decide), add_left_inj,
      ← BitVec.toNat_inj, BitVec.toNat_setWidth, BitVec.toNat_setWidth, BitVec.toNat_ushiftRight,
      BitVec.toNat_ushiftRight, ht, hp, Nat.shiftRight_eq_div_pow, Nat.shiftRight_eq_div_pow]
    omega

theorem setWidth_saturate (d : Value) : (saturate d).setWidth 32 = BitVec.ofInt 32
    (if 2 ^ 31 ≤ d.toInt then 2 ^ 31 - 1 else if d.toInt < -2 ^ 31 then 2 ^ 31 else d.toInt) := by
  have hmax : (0x7FFFFFFF : Value).toInt = 2 ^ 31 - 1 := by decide
  have hmin : (0xFFFFFFFF80000000 : Value).toInt = -2 ^ 31 := by decide
  unfold saturate
  simp only [BitVec.slt_eq_decide, hmax, hmin, decide_eq_true_eq]
  by_cases hover : 2 ^ 31 ≤ d.toInt
  · rw [if_pos (by omega), if_pos hover]
    rfl
  · rw [if_neg (by omega), if_neg hover]
    by_cases hunder : d.toInt < -2 ^ 31
    · rw [if_pos hunder, if_pos hunder]
      rfl
    · rw [if_neg hunder, if_neg hunder]
      exact setWidth_eq_ofInt (by decide) d

theorem toInt_mad24Hi : (((a.u32 * b.u32).signExtend 64).sshiftRight 16 + c.u32.signExtend 64).toInt =
      lowSigned (exact 32 a b) / 2 ^ 16 + c.u32.toInt := by
  have hlow := BitVec.le_toInt c.u32
  have hhigh := BitVec.toInt_lt (x := c.u32)
  have hshift : (((a.u32 * b.u32).signExtend 64).sshiftRight 16).toInt =
      lowSigned (exact 32 a b) / 2 ^ 16 := by
    rw [BitVec.toInt_sshiftRight, Int.shiftRight_eq_div_pow, toInt_signExtend_mul32]
    rfl
  have hbound := lowSigned_eq (exact 32 a b)
  rw [BitVec.toInt_add, hshift, BitVec.toInt_signExtend_of_le (by decide)]
  apply Int.bmod_eq_of_le <;> split at hbound <;> omega

theorem agrees_mad24_S32 (mode : MulMode) :
    (mad24 satMode).Agrees .S32 mode a b c ↔ (mad24 satMode).AgreesWhen .S32 mode a b c := by
  have ht := toInt_signExtend_mul32 a b
  have hp := toInt_signExtend_mul a b (w := 24) (by decide)
  obtain ⟨hlow, hhigh⟩ := exact_bounds a b (w := 24)
  obtain ⟨hhi, hlo⟩ := product_mad24 a b satMode (mul24Source_S32 a) (mul24Source_S32 b)
  cases mode with
  | wide | none => exact iff_of_true (agrees_of_error rfl) trivial
  | lo =>
    rw [agrees_iff_product (w := 32) (d := _) rfl (by decide) rfl hlo (by decide)]
    show (ofSigned (((a.u32 * b.u32).signExtend 64).setWidth 32 + c.setWidth 32)).setWidth 32 =
      _ + c.setWidth 32 ↔ exact 32 a b ≡ exact 24 a b [ZMOD 2 ^ 32]
    rw [setWidth_ofSigned (by decide), add_left_inj, setWidth_eq_ofInt (by decide),
      setWidth_eq_ofInt (by decide), ofInt_eq_ofInt_iff, ht, hp]
    exact ⟨(lowSigned_modEq _).symm.trans, (lowSigned_modEq _).trans⟩
  | hi =>
    have hd := toInt_mad24Hi a b c
    have hbound := lowSigned_eq (exact 32 a b)
    have hsum : BitVec.ofInt 32 (exact 24 a b / 2 ^ 16) + c.setWidth 32 =
        BitVec.ofInt 32 (exact 24 a b / 2 ^ 16 + c.u32.toInt) := by
      rw [BitVec.ofInt_add, BitVec.ofInt_toInt]
    rw [agrees_iff_product (w := 32) (d := _) rfl (by decide) rfl hhi (by decide),
      setWidth_ushiftRight_eq (by decide), setWidth_sshiftRight_eq_ofInt (by decide), hp, hsum]
    show (if satMode = true then saturate _ else _).setWidth 32 = _ ↔
      AgreesWhenHi24 satMode (lowSigned (exact 32 a b) / 2 ^ 16) (exact 24 a b / 2 ^ 16) c.u32.toInt
    have hexact : lowSigned (exact 32 a b) / 2 ^ 16 + c.u32.toInt ≡ exact 24 a b / 2 ^ 16 + c.u32.toInt
        [ZMOD 2 ^ 32] ↔ lowSigned (exact 32 a b) / 2 ^ 16 = exact 24 a b / 2 ^ 16 := by
      rw [Int.modEq_iff_dvd]
      split at hbound <;> omega
    unfold AgreesWhenHi24
    cases satMode with
    | false =>
      rw [if_neg Bool.false_ne_true, if_neg (fun h => Bool.false_ne_true h.1),
        if_neg (fun h => Bool.false_ne_true h.1), setWidth_eq_ofInt (by decide), hd, ofInt_eq_ofInt_iff]
      exact hexact
    | true =>
      rw [if_pos rfl, setWidth_saturate, hd, ofInt_eq_ofInt_iff]
      simp only [true_and]
      split
      · exact ⟨Int.ModEq.symm, Int.ModEq.symm⟩
      · split
        · exact ⟨Int.ModEq.symm, Int.ModEq.symm⟩
        · exact hexact

end Mad24

/-- **Multiply and add.** For every type, mode and operands, `mad` or `mad24` has the result of the
multiplication and an addition of the third operand exactly where `AgreesWhen` says: always for 16 bits
but for `hi.u16`, and in general where the product that is computed in 32 bits is that of the
multiplication, and the third operand is not added before the upper half is taken. -/
theorem agrees_iff_agreesWhen (op : MadOp) (ty : ScalarType) (mode : MulMode) (a b c : Value) :
    op.Agrees ty mode a b c ↔ op.AgreesWhen ty mode a b c := by
  cases op with
  | mad =>
    cases ty with
    | S16 =>
      refine iff_of_true (agrees_mad_S16 a b c mode) ?_
      cases mode <;> trivial
    | S32 => exact agrees_mad_S32 a b c mode
    | U16 => exact agrees_mad_U16 a b c mode
    | U32 => exact agrees_mad_U32 a b c mode
    | S64 | U64 =>
      cases mode with
      | wide | hi | none => exact iff_of_true (agrees_of_error rfl) trivial
      | lo =>
        refine iff_of_true ((agrees_iff (d := _) (p := _) rfl rfl (by decide)).mpr ?_) trivial
        exact BitVec.setWidth_add _ _ le_rfl
    | S8 | U8 | B8 | B16 | B32 | B64 =>
      cases mode <;> exact iff_of_true (agrees_of_error rfl) trivial
  | mad24 satMode =>
    cases ty with
    | S32 => exact agrees_mad24_S32 a b c satMode mode
    | U32 => exact agrees_mad24_U32 a b c satMode mode
    | S8 | S16 | S64 | U8 | U16 | U64 | B8 | B16 | B32 | B64 =>
      cases mode <;> exact iff_of_true (agrees_of_error rfl) trivial

/-- For `0x10000 * 0x10000 + 0` a `mad.wide.u32` has zero, a `mul.wide.u32` and an `add.u64` have
`2^32`. -/
theorem not_agrees_wide_U32 :
    mad.exec .U32 .wide 0x10000 0x10000 0 = .ok 0 ∧
      mad.mulThenAdd .U32 .wide 0x10000 0x10000 0 = .ok 0x100000000 ∧
      ¬ mad.Agrees .U32 .wide 0x10000 0x10000 0 := by
  refine ⟨by decide, by decide, fun h => ?_⟩
  obtain ⟨s, hs, hagree⟩ := h 0 (by decide)
  obtain rfl : 0x100000000 = s := Except.ok.inj hs
  exact absurd hagree (by decide)

end MadOp

end GpgpuSimRuby.Ptx
