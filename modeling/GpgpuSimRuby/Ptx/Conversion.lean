import GpgpuSimRuby.Ptx.Shifts

/-!
# Conversions between integers

`cvt_impl` between the integer types. The helpers in `g_cvt_fn` are given `saturation_mode`, and
those of the integers do not look at it.
-/

namespace GpgpuSimRuby.Ptx

open Value

namespace ScalarType

/-- The types that `g_cvt_fn` has rows and columns for. -/
def IsInteger (ty : ScalarType) : Prop := ty.fmt < 8

instance (ty : ScalarType) : Decidable ty.IsInteger := inferInstanceAs (Decidable (_ < _))

/-- The number of a type that is next to another. -/
def clamp (ty : ScalarType) (n : Int) : Int := max ty.least (min n (ty.least + 2 ^ ty.width - 1))

end ScalarType

/-- A `cvt` between integer types. -/
structure IntCvt where
  toType : ScalarType
  fromType : ScalarType
  neg : Bool
  saturationMode : Bool
  rounding : Rounding
  deriving DecidableEq, Repr

namespace IntCvt

variable (i : IntCvt) (fp : FloatConversions) (x : Value)

/-- The value that is converted. -/
def source : Value := if i.neg then cvtNeg x i.fromType else x

def exec : Result := cvtImpl x fp i.rounding i.fromType i.neg (.int i.toType)

/-- The number that the result is to be, modulo `2 ^ w`. -/
def exact : Int :=
  if i.saturationMode then i.toType.clamp (i.fromType.toInt (i.source x))
  else i.fromType.toInt (i.source x)

def Agrees : Prop :=
  ∃ d, i.exec fp x = .ok d ∧ d.setWidth i.toType.width = BitVec.ofInt i.toType.width (i.exact x)

/-- A number that is not clamped, or is a multiple of the modulus away from what it is clamped to. -/
def Unclamped (ty : ScalarType) (n : Int) : Prop :=
  (ty.least ≤ n ∧ n < ty.least + 2 ^ ty.width) ∨ (n < ty.least ∧ (2 ^ ty.width : Int) ∣ ty.least - n) ∨
    (ty.least + 2 ^ ty.width ≤ n ∧ (2 ^ ty.width : Int) ∣ n + 1 - ty.least)

def AgreesWhen : Prop :=
  i.toType.IsInteger ∧ i.fromType.IsInteger ∧
    (i.saturationMode = true → Unclamped i.toType (i.fromType.toInt (i.source x)))

end IntCvt

/-! ## Clamping -/

section Clamp

variable (ty : ScalarType) (n : Int)

theorem IntCvt.unclamped_iff : n ≡ ty.clamp n [ZMOD 2 ^ ty.width] ↔ Unclamped ty n := by
  have hleast := ty.least_le
  have htop := ty.top_pos
  rw [Int.modEq_iff_dvd]
  unfold Unclamped
  rcases lt_or_ge n ty.least with hlow | hlow
  · have hclamp : ty.clamp n = ty.least := by
      unfold ScalarType.clamp
      omega
    rw [hclamp]
    omega
  · rcases lt_or_ge n (ty.least + 2 ^ ty.width) with hhigh | hhigh
    · have hclamp : ty.clamp n = n := by
        unfold ScalarType.clamp
        omega
      rw [hclamp, sub_self]
      exact iff_of_true (dvd_zero _) (.inl ⟨hlow, hhigh⟩)
    · have hclamp : ty.clamp n = ty.least + 2 ^ ty.width - 1 := by
        unfold ScalarType.clamp
        omega
      have hsub : ty.least + 2 ^ ty.width - 1 - n = 2 ^ ty.width - (n + 1 - ty.least) := by omega
      rw [hclamp, hsub, dvd_sub_right (dvd_refl _)]
      omega

end Clamp

/-! ## The helpers -/

section Helpers

variable {v w : Nat} {x d : Value} {ty toType : ScalarType}

theorem setWidth_eq_ofInt_iff {n : Int} :
    x.setWidth v = BitVec.ofInt v n ↔ (x.toNat : Int) ≡ n [ZMOD 2 ^ v] := by
  rw [← BitVec.ofNat_toNat, ← BitVec.ofInt_natCast, ofInt_eq_ofInt_iff]

theorem setWidth_eq_ofInt_toInt (h : v ≤ ty.width) : x.setWidth v = BitVec.ofInt v (ty.toInt x) :=
  setWidth_eq_ofInt_iff.mpr ((ty.toInt_modEq x).of_dvd (pow_dvd_pow 2 h))

theorem chop_eq (ty : ScalarType) (x : Value) : chop x ty.width = .ok (ofMember (x.setWidth ty.width)) := by
  have hmask := and_mask ty.width x
  have hwhole : x = ofMember (x.setWidth 64) := by
    rw [BitVec.setWidth_eq, ofMember, BitVec.setWidth_eq]
  cases ty with
  | S8 | U8 | B8 => exact congrArg Except.ok hmask
  | S16 | U16 | B16 => exact congrArg Except.ok hmask
  | S32 | U32 | B32 => exact congrArg Except.ok hmask
  | S64 | U64 | B64 => exact congrArg Except.ok hwhole

theorem ofSigned_eq (hpos : 0 < w) (hw : w ≤ 64) (y : BitVec w) :
    ofSigned y = if (ofMember y).getLsbD (w - 1) then ofMember y ||| BitVec.allOnes 64 <<< w
      else ofMember y := by
  have hmsb : (ofMember y).getLsbD (w - 1) = y.msb := by
    rw [BitVec.getLsbD_setWidth, decide_eq_true (by omega), Bool.true_and, BitVec.msb_eq_getLsbD_last]
  rw [hmsb]
  apply BitVec.eq_of_getLsbD_eq
  intro j hj
  rw [BitVec.getLsbD_signExtend, decide_eq_true hj, Bool.true_and]
  by_cases hlt : j < w
  · rw [if_pos hlt]
    split
    · rw [BitVec.getLsbD_or, BitVec.getLsbD_setWidth, BitVec.getLsbD_shiftLeft, decide_eq_true hlt]
      simp [hj]
    · rw [BitVec.getLsbD_setWidth, decide_eq_true hj, Bool.true_and]
  · rw [if_neg hlt]
    have hzero : y.getLsbD j = false := BitVec.getLsbD_of_ge y j (not_lt.mp hlt)
    have hones : (BitVec.allOnes 64).getLsbD (j - w) = true := by
      rw [BitVec.getLsbD_allOnes]
      exact decide_eq_true (by omega)
    cases y.msb with
    | true =>
      rw [if_pos rfl, BitVec.getLsbD_or, BitVec.getLsbD_shiftLeft, hones, decide_eq_true hj,
        decide_eq_false hlt]
      simp
    | false =>
      rw [if_neg Bool.false_ne_true, BitVec.getLsbD_setWidth, hzero, Bool.and_false]

theorem signFrom_eq (ty : ScalarType) (y : BitVec ty.width) :
    signFrom (ofMember y) ty.width = .ok (ofSigned y) := by
  cases ty with
  | S8 | U8 | B8 => exact congrArg Except.ok (ofSigned_eq (by decide) (by decide) y).symm
  | S16 | U16 | B16 => exact congrArg Except.ok (ofSigned_eq (by decide) (by decide) y).symm
  | S32 | U32 | B32 => exact congrArg Except.ok (ofSigned_eq (by decide) (by decide) y).symm
  | S64 | U64 | B64 => exact congrArg Except.ok (BitVec.signExtend_eq_setWidth_of_le y le_rfl).symm

theorem sext_eq (ty : ScalarType) (x : Value) : sext x ty.width = .ok (ofSigned (x.setWidth ty.width)) := by
  unfold sext
  rw [chop_eq]
  exact signFrom_eq ty _

theorem sexd_low (x : Value) :
    ∃ d, sexd x ScalarType.S32.width ScalarType.S16.width = .ok d ∧ d.setWidth 16 = x.setWidth 16 := by
  have hor : ∀ y : Value, (y ||| 0xFFFFFFFFFFFF0000).setWidth 16 = y.setWidth 16 := by
    intro y
    rw [BitVec.setWidth_or]
    exact BitVec.or_zero
  have hchop : (ofMember (x.setWidth 32)).setWidth 16 = x.setWidth 16 := by
    rw [BitVec.setWidth_setWidth_of_le _ (by decide), BitVec.setWidth_setWidth_of_le _ (by decide)]
  unfold sexd
  rw [chop_eq]
  refine ⟨_, rfl, ?_⟩
  split
  · rw [hor]
    exact hchop
  · exact hchop

end Helpers

/-! ## The table -/

namespace IntCvt

variable {i : IntCvt} {fp : FloatConversions} {x d : Value} {ty toType : ScalarType}

theorem gCvtFn_integer (hfrom : ty.IsInteger) (hto : toType.IsInteger) :
    ((gCvtFn[ty.fmt]?).bind (·[toType.fmt]?) = some .NULL ∧ toType.width = ty.width) ∨
      ((gCvtFn[ty.fmt]?).bind (·[toType.fmt]?) = some .chop ∧ toType.width ≤ ty.width) ∨
      ((gCvtFn[ty.fmt]?).bind (·[toType.fmt]?) = some .sext ∧ ty.isSigned = true) ∨
      ((gCvtFn[ty.fmt]?).bind (·[toType.fmt]?) = some .zext ∧ ty.isSigned = false) ∨
      ((gCvtFn[ty.fmt]?).bind (·[toType.fmt]?) = some .sexd ∧ ty = .S32 ∧ toType = .S16) := by
  revert hfrom hto
  cases ty <;> cases toType <;> decide

theorem gCvtFn_none (h : ¬ (toType.IsInteger ∧ ty.IsInteger)) :
    (gCvtFn[ty.fmt]?).bind (·[toType.fmt]?) = none := by
  revert h
  cases ty <;> cases toType <;> decide

theorem exec_of_integer (hto : i.toType.IsInteger) (hfrom : i.fromType.IsInteger) (fp : FloatConversions)
    (x : Value) : ∃ d, i.exec fp x = .ok d ∧
      d.setWidth i.toType.width = BitVec.ofInt i.toType.width (i.fromType.toInt (i.source x)) := by
  have hexec : i.exec fp x = cvtImpl x fp i.rounding i.fromType i.neg (.int i.toType) := rfl
  unfold cvtImpl at hexec
  dsimp only at hexec
  rw [show (if i.neg then cvtNeg x i.fromType else x) = i.source x from rfl] at hexec
  rw [hexec]
  generalize i.source x = y
  rcases gCvtFn_integer hfrom hto with ⟨hfn, hw⟩ | ⟨hfn, hw⟩ | ⟨hfn, hs⟩ | ⟨hfn, hs⟩ | ⟨hfn, hf, ht⟩
  · -- Nothing is done for a type of the same width.
    refine ⟨y, ?_, setWidth_eq_ofInt_toInt hw.le⟩
    rw [show (CvtType.int i.toType).fmt = i.toType.fmt from rfl, hfn]
  · refine ⟨ofMember (y.setWidth i.toType.width), ?_, ?_⟩
    · rw [show (CvtType.int i.toType).fmt = i.toType.fmt from rfl, hfn]
      exact chop_eq i.toType y
    · rw [setWidth_ofMember i.toType.width_le]
      exact setWidth_eq_ofInt_toInt hw
  · refine ⟨ofSigned (y.setWidth i.fromType.width), ?_, ?_⟩
    · rw [show (CvtType.int i.toType).fmt = i.toType.fmt from rfl, hfn]
      exact sext_eq i.fromType y
    · rw [setWidth_eq_ofInt i.toType.width_le, BitVec.toInt_signExtend_of_le i.fromType.width_le]
      unfold ScalarType.toInt
      rw [if_pos hs]
  · refine ⟨ofMember (y.setWidth i.fromType.width), ?_, ?_⟩
    · rw [show (CvtType.int i.toType).fmt = i.toType.fmt from rfl, hfn]
      exact chop_eq i.fromType y
    · rw [setWidth_eq_ofInt_iff, BitVec.toNat_setWidth_of_le i.fromType.width_le]
      unfold ScalarType.toInt
      rw [if_neg (by rw [hs]; exact Bool.false_ne_true)]
  · obtain ⟨d, hd, hlow⟩ := sexd_low y
    refine ⟨d, ?_, ?_⟩
    · rw [show (CvtType.int i.toType).fmt = i.toType.fmt from rfl, hfn, hf, ht]
      exact hd
    · rw [hf, ht]
      exact hlow.trans (setWidth_eq_ofInt_toInt (show 16 ≤ ScalarType.S32.width by decide))

theorem agrees_iff {d : Value} (h : i.exec fp x = .ok d) :
    i.Agrees fp x ↔ d.setWidth i.toType.width = BitVec.ofInt i.toType.width (i.exact x) := by
  constructor
  · rintro ⟨d', hd, h'⟩
    obtain rfl := Except.ok.inj (h.symm.trans hd)
    exact h'
  · exact fun h' => ⟨d, h, h'⟩

/-- **Conversion.** For every pair of types, with and without saturation, a `cvt` gives the value of its
source, or the number of the destination type next to it, exactly when `AgreesWhen` holds. -/
theorem cvt_agrees_iff (i : IntCvt) (fp : FloatConversions) (x : Value) :
    i.Agrees fp x ↔ i.AgreesWhen x := by
  by_cases hint : i.toType.IsInteger ∧ i.fromType.IsInteger
  · obtain ⟨d, hexec, hd⟩ := exec_of_integer hint.1 hint.2 fp x
    rw [agrees_iff hexec, hd]
    unfold AgreesWhen exact
    cases i.saturationMode with
    | false => simp [hint]
    | true =>
      rw [if_pos rfl, ofInt_eq_ofInt_iff, unclamped_iff]
      simp [hint]
  · refine iff_of_false ?_ fun h => hint ⟨h.1, h.2.1⟩
    rintro ⟨d, hd, -⟩
    have herror : i.exec fp x = .error .cvtTable := by
      have hfn := gCvtFn_none hint
      unfold exec cvtImpl
      dsimp only
      rw [show (CvtType.int i.toType).fmt = i.toType.fmt from rfl, hfn]
    rw [herror] at hd
    cases hd

/-- `cvt.sat.u8.s32` of 256 and of -1. -/
theorem not_agrees_sat :
    ¬ (⟨.U8, .S32, false, true, .RN⟩ : IntCvt).Agrees FloatConversions.zero 256 ∧
      ¬ (⟨.U8, .S32, false, true, .RN⟩ : IntCvt).Agrees FloatConversions.zero 0xFFFFFFFF := by
  refine ⟨fun h => ?_, fun h => ?_⟩
  · have hzero := (agrees_iff (d := 0) rfl).mp h
    exact absurd hzero (by decide)
  · have hones := (agrees_iff (d := 0xFF) rfl).mp h
    exact absurd hones (by decide)

end IntCvt

end GpgpuSimRuby.Ptx
