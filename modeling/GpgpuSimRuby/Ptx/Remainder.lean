import GpgpuSimRuby.Ptx.ConditionCodes
import GpgpuSimRuby.Ptx.MultiplyAdd

/-!
# Division and remainder

`div_impl` divides at the type of the instruction, `rem_impl` takes the whole registers as unsigned
numbers. When the two results belong together is said in terms of the operands.
-/

namespace GpgpuSimRuby.Ptx

open Value

/-- The value of a register at a type. -/
def ScalarType.toInt (ty : ScalarType) (x : Value) : Int :=
  if ty.isSigned = true then (x.setWidth ty.width).toInt else (x.setWidth ty.width).toNat

/-- A quotient and a remainder that is smaller than the divisor and has the sign of the dividend. -/
def IsDivRem (a b q r : Int) : Prop := a = q * b + r ∧ |r| < |b| ∧ (r = 0 ∨ r.sign = a.sign)

/-- The registers hold the values of the type, and zeros above them. -/
def CleanAt (ty : ScalarType) (a b : Value) : Prop := a.toNat < 2 ^ ty.width ∧ b.toNat < 2 ^ ty.width

/-- The operands of signed type whose remainder is that of their unsigned values. -/
def SignedRemAgrees (w : Nat) (a b : Int) : Prop :=
  (0 ≤ a ∧ 0 < b) ∨ (0 ≤ a ∧ b < 0 ∧ a < -b) ∨ (a < 0 ∧ b < 0 ∧ a = b) ∨
    (a < 0 ∧ 0 < b ∧ b ∣ a ∧ b ∣ 2 ^ w)

/-- The operands for which quotient and remainder belong together. -/
def RemAgrees (ty : ScalarType) (a b : Value) : Prop :=
  (CleanAt ty a b ∧ (ty.isSigned = true → SignedRemAgrees ty.width (ty.toInt a) (ty.toInt b))) ∨
    (¬ CleanAt ty a b ∧
      (2 ^ ty.width : Int) ∣ ty.toInt b * (a.toNat / b.toNat - (ty.toInt a).tdiv (ty.toInt b)))

/-! ## Division -/

section Division

theorem isDivRem_tdiv_iff {a b r : Int} (hb : b ≠ 0) : IsDivRem a b (a.tdiv b) r ↔ r = a.tmod b := by
  have hdiv := Int.tmod_add_tdiv_mul a b
  constructor
  · intro h
    have := h.1
    omega
  · intro h
    subst h
    refine ⟨by omega, ?_, ?_⟩
    · rw [Int.abs_eq_natAbs, Int.abs_eq_natAbs, Int.natAbs_tmod]
      exact_mod_cast Nat.mod_lt _ (Int.natAbs_pos.mpr hb)
    · by_cases hdvd : b ∣ a
      · exact .inl (Int.tmod_eq_zero_of_dvd hdvd)
      · exact .inr (by rw [Int.sign_tmod, if_neg hdvd])

variable {w : Nat} {x y : BitVec w}

theorem ne_zero_of_toInt (h : y.toInt ≠ 0) : y ≠ 0 := by
  rintro rfl
  exact h BitVec.toInt_zero

theorem divSmall_toInt (hw : w ≤ 64) (hy : y.toInt ≠ 0) (hover : x ≠ BitVec.intMin w ∨ y ≠ -1) :
    ∃ q, divSmall x y = .ok q ∧ (q.setWidth w).toInt = x.toInt.tdiv y.toInt := by
  refine ⟨_, if_neg (ne_zero_of_toInt hy), ?_⟩
  rw [setWidth_ofMember hw]
  exact BitVec.toInt_sdiv_of_ne_or_ne x y hover

theorem divSigned_toInt (hw : w ≤ 64) (hy : y.toInt ≠ 0) (hover : x ≠ BitVec.intMin w ∨ y ≠ -1) :
    ∃ q, divSigned x y = .ok q ∧ (q.setWidth w).toInt = x.toInt.tdiv y.toInt := by
  have hno : ¬ (y = 0 ∨ (x = BitVec.intMin w ∧ y = -1)) := by
    rintro (h | ⟨hx, hy'⟩)
    · exact ne_zero_of_toInt hy h
    · exact hover.elim (· hx) (· hy')
  refine ⟨_, if_neg hno, ?_⟩
  rw [setWidth_ofMember hw]
  exact BitVec.toInt_sdiv_of_ne_or_ne x y hover

theorem divUnsigned_toNat (hw : w ≤ 64) (hy : (y.toNat : Int) ≠ 0) :
    ∃ q, divUnsigned x y = .ok q ∧ ((q.setWidth w).toNat : Int) = (x.toNat : Int).tdiv y.toNat := by
  have hne : y ≠ 0 := by
    rintro rfl
    exact hy (by simp)
  refine ⟨_, if_neg hne, ?_⟩
  rw [setWidth_ofMember hw, BitVec.toNat_udiv]
  exact Int.ofNat_tdiv _ _

/-- The operands whose quotient is not in the range of the type. -/
def DivOverflows (ty : ScalarType) (a b : Value) : Prop :=
  ty.isSigned = true ∧ ty.toInt a = -2 ^ (ty.width - 1) ∧ ty.toInt b = -1

theorem divImpl_toInt {ty : ScalarType} {a b : Value} (hb : ty.toInt b ≠ 0) (hover : ¬ DivOverflows ty a b) :
    ∃ q, divImpl ty a b = .ok q ∧ ty.toInt q = (ty.toInt a).tdiv (ty.toInt b) := by
  have hsigned : ∀ {w : Nat}, 0 < w → ∀ x y : BitVec w,
      ¬ (x.toInt = -2 ^ (w - 1) ∧ y.toInt = -1) → x ≠ BitVec.intMin w ∨ y ≠ -1 := by
    intro w hw x y h
    by_contra hno
    simp only [not_or, not_not] at hno
    obtain ⟨rfl, rfl⟩ := hno
    refine h ⟨BitVec.toInt_intMin_of_pos hw, ?_⟩
    show (-1#w).toInt = -1
    rw [BitVec.neg_one_eq_allOnes, BitVec.toInt_allOnes, if_pos hw]
  cases ty with
  | S8 => exact divSmall_toInt (by decide) hb (hsigned (by decide) _ _ fun h => hover ⟨rfl, h⟩)
  | S16 => exact divSmall_toInt (by decide) hb (hsigned (by decide) _ _ fun h => hover ⟨rfl, h⟩)
  | S32 => exact divSigned_toInt (by decide) hb (hsigned (by decide) _ _ fun h => hover ⟨rfl, h⟩)
  | S64 =>
    have h := divSigned_toInt (x := a.setWidth 64) (y := b.setWidth 64) le_rfl hb
      (hsigned (by decide) _ _ fun h => hover ⟨rfl, h⟩)
    rw [BitVec.setWidth_eq a, BitVec.setWidth_eq b] at h
    show ∃ q, divSigned a b = .ok q ∧
      (q.setWidth 64).toInt = (a.setWidth 64).toInt.tdiv (b.setWidth 64).toInt
    rwa [BitVec.setWidth_eq a, BitVec.setWidth_eq b]
  | U8 | B8 => exact divUnsigned_toNat (by decide) hb
  | U16 | B16 => exact divUnsigned_toNat (by decide) hb
  | U32 | B32 => exact divUnsigned_toNat (by decide) hb
  | U64 | B64 =>
    have h := divUnsigned_toNat (x := a.setWidth 64) (y := b.setWidth 64) le_rfl hb
    rw [BitVec.setWidth_eq a, BitVec.setWidth_eq b] at h
    show ∃ q, divUnsigned a b = .ok q ∧
      ((q.setWidth 64).toNat : Int) = ((a.setWidth 64).toNat : Int).tdiv (b.setWidth 64).toNat
    rwa [BitVec.setWidth_eq a, BitVec.setWidth_eq b]

end Division

/-! ## The value of a register -/

section Range

variable (ty : ScalarType)

/-- The smallest value of a type. -/
def ScalarType.least : Int := if ty.isSigned = true then -2 ^ (ty.width - 1) else 0

theorem ScalarType.two_pow_width : (2 : Int) ^ ty.width = 2 * 2 ^ (ty.width - 1) := by
  cases ty <;> rfl

theorem ScalarType.toInt_bounds (x : Value) :
    ty.least ≤ ty.toInt x ∧ ty.toInt x < ty.least + 2 ^ ty.width := by
  have hpow := ty.two_pow_width
  unfold least toInt
  cases ty.isSigned with
  | true =>
    have hlow := BitVec.le_toInt (x.setWidth ty.width)
    have hhigh := BitVec.toInt_lt (x := x.setWidth ty.width)
    rw [if_pos rfl, if_pos rfl]
    omega
  | false =>
    have hlt := (x.setWidth ty.width).isLt
    rw [if_neg Bool.false_ne_true, if_neg Bool.false_ne_true]
    constructor
    · omega
    · rw [zero_add]
      exact_mod_cast hlt

theorem ScalarType.width_le (ty : ScalarType) : ty.width ≤ 64 := by
  cases ty <;> decide

theorem ScalarType.toInt_modEq (x : Value) : (x.toNat : Int) ≡ ty.toInt x [ZMOD 2 ^ ty.width] := by
  have hnat : ((x.setWidth ty.width).toNat : Int) ≡ x.toNat [ZMOD 2 ^ ty.width] := by
    rw [BitVec.toNat_setWidth]
    push_cast
    exact Int.mod_modEq _ _
  unfold toInt
  split
  · refine hnat.symm.trans ?_
    rw [BitVec.toInt_eq_toNat_bmod]
    exact (by exact_mod_cast Int.bmod_emod.symm)
  · exact hnat.symm

theorem tmod_bounds (a b : Int) :
    (0 ≤ a ∧ 0 ≤ a.tmod b ∧ a.tmod b ≤ a) ∨ (a < 0 ∧ a ≤ a.tmod b ∧ a.tmod b ≤ 0) := by
  have habs : (a.tmod b).natAbs ≤ a.natAbs := by
    rw [Int.natAbs_tmod]
    exact Nat.mod_le _ _
  by_cases ha : 0 ≤ a
  · have := Int.tmod_nonneg b ha
    exact .inl (by omega)
  · have := Int.tmod_nonneg b (show 0 ≤ -a by omega)
    rw [Int.neg_tmod] at this
    exact .inr (by omega)

theorem ScalarType.least_le : ty.least ≤ 0 := by
  have hpos : (0 : Int) < 2 ^ (ty.width - 1) := by positivity
  unfold least
  split <;> omega

theorem ScalarType.top_pos : 0 < ty.least + 2 ^ ty.width := by
  have hpos : (0 : Int) < 2 ^ (ty.width - 1) := by positivity
  have hpow := ty.two_pow_width
  unfold least
  split <;> omega

theorem ScalarType.eq_iff_dvd {i j : Int} (hi : ty.least ≤ i ∧ i < ty.least + 2 ^ ty.width)
    (hj : ty.least ≤ j ∧ j < ty.least + 2 ^ ty.width) : i = j ↔ (2 ^ ty.width : Int) ∣ i - j := by
  constructor
  · rintro rfl
    simp
  · intro h
    have := Int.eq_zero_of_abs_lt_dvd h (abs_lt.mpr (by omega))
    omega

end Range

/-! ## The remainder of the whole registers -/

section Remainder

variable {ty : ScalarType} {a b r : Value}

theorem ScalarType.toInt_of_toNat_eq_zero (h : b.toNat = 0) : ty.toInt b = 0 := by
  obtain rfl : b = 0 := BitVec.eq_of_toNat_eq h
  unfold toInt
  split <;> simp

theorem toInt_umod_iff (hr : r.toNat = a.toNat % b.toNat) :
    ty.toInt r = (ty.toInt a).tmod (ty.toInt b) ↔ (2 ^ ty.width : Int) ∣
      ty.toInt b * (a.toNat / b.toNat - (ty.toInt a).tdiv (ty.toInt b)) := by
  have hrange : ty.least ≤ (ty.toInt a).tmod (ty.toInt b) ∧
      (ty.toInt a).tmod (ty.toInt b) < ty.least + 2 ^ ty.width := by
    have hleast := ty.least_le
    have hbounds := ty.toInt_bounds a
    have htop := ty.top_pos
    rcases tmod_bounds (ty.toInt a) (ty.toInt b) with h | h <;> omega
  rw [ScalarType.eq_iff_dvd ty (ty.toInt_bounds r) hrange]
  have ha := (ty.toInt_modEq a).symm.dvd
  have hb := ((ty.toInt_modEq b).symm.dvd).mul_right (a.toNat / b.toNat : Int)
  have hr' := (ty.toInt_modEq r).symm.dvd
  have hquot : (r.toNat : Int) = a.toNat - b.toNat * (a.toNat / b.toNat) := by
    have := Nat.mod_add_div a.toNat b.toNat
    rw [hr]
    push_cast
    zify at this
    omega
  have htdiv := Int.tmod_add_tdiv_mul (ty.toInt a) (ty.toInt b)
  -- The two sides differ by multiples of the modulus.
  have hdiff : (ty.toInt r - (ty.toInt a).tmod (ty.toInt b)) +
      ty.toInt b * (a.toNat / b.toNat - (ty.toInt a).tdiv (ty.toInt b)) =
        -(r.toNat - ty.toInt r) + (a.toNat - ty.toInt a) - (b.toNat - ty.toInt b) * (a.toNat / b.toNat) := by
    linear_combination hquot - htdiv
  have hsum : (2 ^ ty.width : Int) ∣ (ty.toInt r - (ty.toInt a).tmod (ty.toInt b)) +
      ty.toInt b * (a.toNat / b.toNat - (ty.toInt a).tdiv (ty.toInt b)) := by
    rw [hdiff]
    exact dvd_sub (dvd_add (dvd_neg.mpr hr') ha) hb
  exact ⟨fun h => (dvd_add_right h).mp hsum, fun h => (dvd_add_left h).mp hsum⟩

/-- The value of a number of `w` bits with a sign. -/
def signedValue (w n : Nat) : Int := if 2 * n < 2 ^ w then n else n - 2 ^ w

theorem signedValue_of_lt {w n : Nat} (h : 2 * n < 2 ^ w) : signedValue w n = n := if_pos h

theorem signedValue_of_le {w n : Nat} (h : 2 ^ w ≤ 2 * n) (hlt : n < 2 ^ w) :
    signedValue w n = -((2 ^ w - n : Nat) : Int) := by
  unfold signedValue
  rw [if_neg (by omega), Int.ofNat_sub hlt.le]
  push_cast
  omega

theorem signedValue_mod_iff {w A B : Nat} (hA : A < 2 ^ w) (hB : B < 2 ^ w) (hpos : 0 < B) :
    signedValue w (A % B) = (signedValue w A).tmod (signedValue w B) ↔
      SignedRemAgrees w (signedValue w A) (signedValue w B) := by
  have hmod : A % B < B := Nat.mod_lt _ hpos
  have hcast : ((2 ^ w : Nat) : Int) = 2 ^ w := by push_cast; rfl
  unfold SignedRemAgrees
  by_cases hA2 : 2 * A < 2 ^ w
  · have hle := Nat.mod_le A B
    rw [signedValue_of_lt hA2]
    by_cases hB2 : 2 * B < 2 ^ w
    · -- Neither is negative.
      rw [signedValue_of_lt hB2, signedValue_of_lt (by omega), Int.ofNat_tmod]
      exact iff_of_true rfl (.inl ⟨Int.natCast_nonneg A, by exact_mod_cast hpos⟩)
    · -- A negative divisor is larger than the dividend as an unsigned number.
      rw [signedValue_of_le (by omega) hB, Nat.mod_eq_of_lt (by omega), signedValue_of_lt hA2, Int.tmod_neg,
        ← Int.ofNat_tmod, Int.natCast_inj, eq_comm, Nat.mod_eq_iff_lt (by omega)]
      omega
  · rw [signedValue_of_le (by omega) hA]
    by_cases hB2 : 2 * B < 2 ^ w
    · -- A negative dividend: what is left of it is not negative.
      have hiff : A % B = 0 ∧ (2 ^ w - A) % B = 0 ↔ B ∣ 2 ^ w - A ∧ B ∣ 2 ^ w := by
        rw [← Nat.dvd_iff_mod_eq_zero, ← Nat.dvd_iff_mod_eq_zero]
        constructor
        · intro h
          refine ⟨h.2, ?_⟩
          rw [← Nat.sub_add_cancel hA.le]
          exact dvd_add h.2 h.1
        · intro h
          have hsum : B ∣ 2 ^ w - A + A := by
            rw [Nat.sub_add_cancel hA.le]
            exact h.2
          exact ⟨(Nat.dvd_add_right h.1).mp hsum, h.1⟩
      rw [signedValue_of_lt hB2, signedValue_of_lt (by omega), Int.neg_tmod, ← Int.ofNat_tmod, dvd_neg,
        ← hcast, Int.natCast_dvd_natCast, Int.natCast_dvd_natCast]
      constructor
      · intro h
        exact .inr (.inr (.inr ⟨by omega, by exact_mod_cast hpos, hiff.mp (by omega)⟩))
      · intro h
        have := hiff.mpr (by omega)
        omega
    · -- Two negative numbers: the quotient is zero or one.
      rw [signedValue_of_le (by omega) hB, Int.tmod_neg, Int.neg_tmod, ← Int.ofNat_tmod]
      rcases Nat.lt_trichotomy A B with hlt | heq | hgt
      · rw [Nat.mod_eq_of_lt hlt, signedValue_of_le (by omega) hA, neg_inj, Int.natCast_inj, eq_comm,
          Nat.mod_eq_iff_lt (by omega)]
        omega
      · subst heq
        rw [Nat.mod_self, Nat.mod_self, signedValue_of_lt (by omega)]
        exact iff_of_true rfl (.inr (.inr (.inl (by omega))))
      · have hone : A % B = A - B := by
          rw [Nat.mod_eq_sub_mod hgt.le, Nat.mod_eq_of_lt (by omega)]
        rw [hone, signedValue_of_lt (by omega)]
        omega

theorem toInt_umod_of_clean (hclean : CleanAt ty a b) (hb : ty.toInt b ≠ 0)
    (hr : r.toNat = a.toNat % b.toNat) : ty.toInt r = (ty.toInt a).tmod (ty.toInt b) ↔
      (ty.isSigned = true → SignedRemAgrees ty.width (ty.toInt a) (ty.toInt b)) := by
  obtain ⟨ha', hb'⟩ := hclean
  have hpos : 0 < b.toNat := Nat.pos_of_ne_zero fun h => hb (ScalarType.toInt_of_toNat_eq_zero h)
  have hr' : r.toNat < 2 ^ ty.width := by
    rw [hr]
    exact (Nat.mod_lt _ hpos).trans hb'
  have hmember : ∀ x : Value, x.toNat < 2 ^ ty.width → (x.setWidth ty.width).toNat = x.toNat := by
    intro x hx
    rw [BitVec.toNat_setWidth, Nat.mod_eq_of_lt hx]
  unfold ScalarType.toInt
  cases ty.isSigned with
  | false =>
    refine iff_of_true ?_ fun h => absurd h Bool.false_ne_true
    rw [if_neg Bool.false_ne_true, if_neg Bool.false_ne_true, if_neg Bool.false_ne_true, hmember r hr',
      hmember a ha', hmember b hb', hr, Int.ofNat_tmod]
  | true =>
    have hvalue : ∀ x : Value, x.toNat < 2 ^ ty.width →
        (x.setWidth ty.width).toInt = signedValue ty.width x.toNat := by
      intro x hx
      rw [BitVec.toInt_eq_toNat_cond, hmember x hx]
      unfold signedValue
      push_cast
      rfl
    simp only [if_true, true_imp_iff]
    rw [hvalue r hr', hvalue a ha', hvalue b hb', hr]
    exact signedValue_mod_iff ha' hb' hpos

/-- **Division and remainder agree.** For every type and operands with a divisor other than zero whose
quotient is in range, the results of `div` and `rem` are a quotient and a remainder exactly when
`RemAgrees` holds: `rem` takes the whole registers as unsigned numbers. -/
theorem isDivRem_iff_remAgrees (ty : ScalarType) (a b : Value) (hb : ty.toInt b ≠ 0)
    (hover : ¬ DivOverflows ty a b) :
    (∃ q r, divImpl ty a b = .ok q ∧ remImpl a b = .ok r ∧
      IsDivRem (ty.toInt a) (ty.toInt b) (ty.toInt q) (ty.toInt r)) ↔ RemAgrees ty a b := by
  obtain ⟨q, hq, hquot⟩ := divImpl_toInt hb hover
  have hne : b ≠ 0 := fun h => hb (ScalarType.toInt_of_toNat_eq_zero (by rw [h]; rfl))
  have hrem : remImpl a b = .ok (a % b) := if_neg hne
  have hr : (a % b).toNat = a.toNat % b.toNat := BitVec.toNat_umod
  have hiff : (∃ q r, divImpl ty a b = .ok q ∧ remImpl a b = .ok r ∧
      IsDivRem (ty.toInt a) (ty.toInt b) (ty.toInt q) (ty.toInt r)) ↔
        ty.toInt (a % b) = (ty.toInt a).tmod (ty.toInt b) := by
    rw [← isDivRem_tdiv_iff hb, ← hquot]
    constructor
    · rintro ⟨q', r, hq', hr', h⟩
      obtain rfl : q = q' := Except.ok.inj (hq.symm.trans hq')
      obtain rfl : a % b = r := Except.ok.inj (hrem.symm.trans hr')
      exact h
    · exact fun h => ⟨q, a % b, hq, hrem, h⟩
  rw [hiff]
  unfold RemAgrees
  by_cases hclean : CleanAt ty a b
  · rw [toInt_umod_of_clean hclean hb hr]
    simp only [hclean, true_and, not_true_eq_false, false_and, or_false]
  · rw [toInt_umod_iff hr]
    simp only [hclean, false_and, not_false_eq_true, true_and, false_or]

/-- `7 / 2` at 32 bits with a sign. -/
theorem isDivRem_iff_remAgrees_seven : ∃ q r, divImpl .S32 7 2 = .ok q ∧ remImpl 7 2 = .ok r ∧
    IsDivRem (ScalarType.S32.toInt 7) (ScalarType.S32.toInt 2) (ScalarType.S32.toInt q)
      (ScalarType.S32.toInt r) := by
  refine (isDivRem_iff_remAgrees .S32 7 2 (by decide) ?_).mpr (.inl
    ⟨⟨by decide, by decide⟩, fun _ => .inl (by decide)⟩)
  rintro ⟨-, h, -⟩
  exact absurd h (by decide)

/-- `-7 / 2` at 32 bits with a sign: the quotient is `-3`, and the remainder `1`. -/
theorem not_isDivRem_neg_seven :
    divImpl .S32 0xFFFFFFF9 2 = .ok 0xFFFFFFFD ∧ remImpl 0xFFFFFFF9 2 = .ok 1 ∧
      ¬ IsDivRem (ScalarType.S32.toInt 0xFFFFFFF9) (ScalarType.S32.toInt 2)
        (ScalarType.S32.toInt 0xFFFFFFFD) (ScalarType.S32.toInt 1) := by
  refine ⟨by decide, by decide, fun h => ?_⟩
  exact absurd h.1 (by decide)

end Remainder

end GpgpuSimRuby.Ptx
