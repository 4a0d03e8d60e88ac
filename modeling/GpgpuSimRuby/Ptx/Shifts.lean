import GpgpuSimRuby.Ptx.Remainder

/-!
# Shifts

`shl_impl` and `shr_impl`. The amount of a shift is a number of 32 bits, but they compare and shift by
other members of its register: `u16` at 16 bits, and `u64` for `shr.s64`.
-/

namespace GpgpuSimRuby.Ptx

open Value

inductive ShiftOp where
  | shl
  | shr
  deriving DecidableEq, Repr

/-- The amount that a shift is to be made by. -/
def shiftAmount (b : Value) : Nat := b.u32.toNat

/-- A shift to the right by `k` leaves copies of the sign only. -/
def ScalarType.Vanishes (ty : ScalarType) (k : Nat) (a : Value) : Prop :=
  -2 ^ k ≤ ty.toInt a ∧ ty.toInt a < 2 ^ k

namespace ShiftOp

variable (op : ShiftOp) (ty : ScalarType) (a b : Value)

def exec : Result :=
  match op with
  | shl => shlImpl ty a b
  | shr => shrImpl ty a b

/-- The number that the result is to be, modulo `2 ^ w`. -/
def exact : Int :=
  match op with
  | shl => ty.toInt a * 2 ^ shiftAmount b
  | shr => ty.toInt a / 2 ^ min (shiftAmount b) ty.width

def Agrees : Prop :=
  ∃ d, op.exec ty a b = .ok d ∧ d.setWidth ty.width = BitVec.ofInt ty.width (op.exact ty a b)

/-- The operands for which it is. -/
def AgreesWhen : Prop :=
  match op, ty with
  | _, .S8 | _, .U8 | _, .B8 => False
  | shl, .S16 | shl, .S32 | shl, .S64 => False
  | shl, .U16 | shl, .B16 => shiftAmount b < 16 ∨ 16 ≤ b.u16.toNat ∨ 2 ^ 16 ∣ a.u16.toNat * 2 ^ b.u16.toNat
  | shr, .U16 | shr, .B16 | shr, .S16 =>
    shiftAmount b < 16 ∨ 16 ≤ b.u16.toNat ∨ ty.Vanishes b.u16.toNat a
  | shl, .U32 | shl, .B32 | shr, .U32 | shr, .B32 | shr, .S32 => True
  | shl, .U64 | shl, .B64 | shr, .U64 | shr, .B64 => 64 ≤ shiftAmount b ∨ b.toNat < 64
  | shr, .S64 => b.toNat < 64 ∨
    ((0 ≤ a.toInt ∨ shiftAmount b < 2 ^ 31) ∧ (64 ≤ shiftAmount b ∨ ty.Vanishes (shiftAmount b) a))

end ShiftOp

/-! ## The amount -/

section Amount

variable {b : Value}

theorem shiftAmount_eq (b : Value) : shiftAmount b = b.toNat % 2 ^ 32 := BitVec.toNat_setWidth ..

theorem u16_eq (b : Value) : b.u16.toNat = shiftAmount b % 2 ^ 16 := by
  rw [shiftAmount_eq, BitVec.toNat_setWidth]
  omega

theorem shiftAmount_of_lt (h : b.toNat < 64) : shiftAmount b = b.toNat := by
  rw [shiftAmount_eq]
  omega

theorem u16_of_lt (h : shiftAmount b < 16) : b.u16.toNat = shiftAmount b := by
  rw [u16_eq]
  omega

end Amount

/-! ## What a shift leaves -/

section Members

variable {w k : Nat} {n m : Int}

theorem ediv_eq_sign_iff (hm : 0 < m) : n / m = (if n < 0 then -1 else 0) ↔ -m ≤ n ∧ n < m := by
  have hdiv := Int.mul_ediv_add_emod n m
  have hlow := Int.emod_nonneg n hm.ne'
  have hhigh := Int.emod_lt_of_pos n hm
  constructor
  · intro h
    rw [h] at hdiv
    split at hdiv <;> omega
  · rintro ⟨hlow', hhigh'⟩
    split
    · next hneg =>
      exact ((Int.ediv_emod_unique (r := n + m) hm).mpr ⟨by omega, by omega, by omega⟩).1
    · exact Int.ediv_eq_zero_of_lt (by omega) hhigh'

theorem shiftLeft_eq_ofInt (x : BitVec w) (k : Nat) : x <<< k = BitVec.ofInt w (x.toNat * 2 ^ k) := by
  apply BitVec.eq_of_toNat_eq
  rw [BitVec.toNat_shiftLeft, Nat.shiftLeft_eq, BitVec.toNat_ofInt]
  norm_cast

theorem ofInt_mul_two_pow_of_le (h : w ≤ k) (n : Int) : BitVec.ofInt w (n * 2 ^ k) = BitVec.ofInt w 0 := by
  rw [ofInt_eq_ofInt_iff]
  exact Int.modEq_zero_iff_dvd.mpr (Dvd.dvd.mul_left (pow_dvd_pow 2 h) n)

theorem shl_member (hw : w ≤ 64) (x : BitVec w) (k : Nat) :
    (if w ≤ k then 0 else ofMember (x <<< k) : Value).setWidth w = BitVec.ofInt w (x.toNat * 2 ^ k) := by
  split
  · next h =>
    rw [ofInt_mul_two_pow_of_le h]
    simp
  · rw [setWidth_ofMember hw, shiftLeft_eq_ofInt]

theorem ushiftRight_eq_ofInt (x : BitVec w) (k : Nat) : x >>> k = BitVec.ofInt w (x.toNat / 2 ^ k) := by
  apply BitVec.eq_of_toNat_eq
  have hlt : x.toNat / 2 ^ k < 2 ^ w := lt_of_le_of_lt (Nat.div_le_self _ _) x.isLt
  rw [BitVec.toNat_ushiftRight, Nat.shiftRight_eq_div_pow, BitVec.toNat_ofInt]
  norm_cast
  rw [Nat.mod_eq_of_lt hlt]

theorem ushr_member (hw : w ≤ 64) (x : BitVec w) (k : Nat) :
    (if k < w then ofMember (x >>> k) else 0 : Value).setWidth w =
      BitVec.ofInt w (x.toNat / 2 ^ min k w) := by
  split
  · next h => rw [setWidth_ofMember hw, ushiftRight_eq_ofInt, min_eq_left h.le]
  · next h =>
    have hzero : (x.toNat : Int) / 2 ^ w = 0 := by
      norm_cast
      exact Nat.div_eq_of_lt x.isLt
    rw [min_eq_right (not_lt.mp h), hzero]
    simp

theorem toInt_div_width (x : BitVec w) : x.toInt / 2 ^ w = if x.msb then -1 else 0 := by
  have hlow := BitVec.le_two_mul_toInt (x := x)
  have hhigh := BitVec.two_mul_toInt_lt (x := x)
  have hpow : (0 : Int) < 2 ^ w := by positivity
  rw [(ediv_eq_sign_iff hpow).mpr ⟨by omega, by omega⟩, BitVec.msb_eq_toInt]
  simp

theorem sshr_member (hw : w ≤ 64) (x : BitVec w) (k : Nat) :
    (if k < w then ofSigned (x.sshiftRight k) else if x.msb then -1 else 0 : Value).setWidth w =
      BitVec.ofInt w (x.toInt / 2 ^ min k w) := by
  split
  · next h =>
    have hshift := setWidth_sshiftRight_eq_ofInt (n := k) le_rfl x
    rw [BitVec.setWidth_eq] at hshift
    rw [setWidth_ofSigned hw, hshift, min_eq_left h.le]
  · next h =>
    rw [min_eq_right (not_lt.mp h), toInt_div_width]
    cases x.msb with
    | true =>
      rw [if_pos rfl, if_pos rfl, setWidth_eq_ofInt hw]
      rfl
    | false => simp

end Members

/-! ## Quotients of a type -/

namespace ScalarType

variable (ty : ScalarType) (a b : Value)

theorem div_bounds (k : Nat) :
    ty.least ≤ ty.toInt a / 2 ^ k ∧ ty.toInt a / 2 ^ k < ty.least + 2 ^ ty.width := by
  obtain ⟨hlow, hhigh⟩ := ty.toInt_bounds a
  have hleast := ty.least_le
  have hpos : (0 : Int) < 2 ^ k := by positivity
  have hone : (1 : Int) ≤ 2 ^ k := hpos
  rcases le_or_gt 0 (ty.toInt a) with ha | ha
  · have hnonneg := Int.ediv_nonneg ha hpos.le
    have hle := Int.ediv_le_self (2 ^ k) ha
    omega
  · have hneg := Int.ediv_neg_of_neg_of_pos ha hpos
    have hge : ty.toInt a ≤ ty.toInt a / 2 ^ k := by
      rw [Int.le_ediv_iff_mul_le hpos]
      nlinarith
    have htop := ty.top_pos
    omega

theorem ofInt_eq_iff {i j : Int} (hi : ty.least ≤ i ∧ i < ty.least + 2 ^ ty.width)
    (hj : ty.least ≤ j ∧ j < ty.least + 2 ^ ty.width) :
    BitVec.ofInt ty.width i = BitVec.ofInt ty.width j ↔ i = j := by
  rw [ofInt_eq_ofInt_iff, Int.modEq_iff_dvd, ty.eq_iff_dvd hi hj, dvd_sub_comm]

theorem vanishes_width : ty.Vanishes ty.width a := by
  obtain ⟨hlow, hhigh⟩ := ty.toInt_bounds a
  have hpow := ty.two_pow_width
  have hpos : (0 : Int) < 2 ^ (ty.width - 1) := by positivity
  unfold least at hlow hhigh
  unfold Vanishes
  split at hlow <;> omega

theorem div_eq_div_width_iff (k : Nat) :
    ty.toInt a / 2 ^ k = ty.toInt a / 2 ^ ty.width ↔ ty.Vanishes k a := by
  have hpos : ∀ j : Nat, (0 : Int) < 2 ^ j := fun j => by positivity
  rw [(ediv_eq_sign_iff (hpos ty.width)).mpr (ty.vanishes_width a), ediv_eq_sign_iff (hpos k)]
  rfl

theorem div_min_eq_width_iff (k : Nat) : BitVec.ofInt ty.width (ty.toInt a / 2 ^ ty.width) =
      BitVec.ofInt ty.width (ty.toInt a / 2 ^ min k ty.width) ↔ ty.width ≤ k ∨ ty.Vanishes k a := by
  rw [ty.ofInt_eq_iff (ty.div_bounds a _) (ty.div_bounds a _)]
  rcases le_or_gt ty.width k with hk | hk
  · rw [min_eq_right hk]
    exact iff_of_true rfl (.inl hk)
  · rw [min_eq_left hk.le, eq_comm, ty.div_eq_div_width_iff]
    simp only [not_le.mpr hk, false_or]

theorem div_min_eq_iff {k m : Nat} (h : m < ty.width → k = m) :
    BitVec.ofInt ty.width (ty.toInt a / 2 ^ min k ty.width) =
      BitVec.ofInt ty.width (ty.toInt a / 2 ^ min m ty.width) ↔
        m < ty.width ∨ ty.width ≤ k ∨ ty.Vanishes k a := by
  rw [ty.ofInt_eq_iff (ty.div_bounds a _) (ty.div_bounds a _)]
  by_cases hm : m < ty.width
  · rw [h hm]
    exact iff_of_true rfl (.inl hm)
  · rw [min_eq_right (not_lt.mp hm)]
    by_cases hk : ty.width ≤ k
    · rw [min_eq_right hk]
      exact iff_of_true rfl (.inr (.inl hk))
    · rw [min_eq_left (not_le.mp hk).le, ty.div_eq_div_width_iff]
      simp only [hm, hk, false_or]

end ScalarType

/-! ## The results -/

namespace ShiftOp

variable {op : ShiftOp} {ty : ScalarType} {a b d : Value}

theorem not_agrees_of_error {e : ExecFault} (h : op.exec ty a b = .error e) : ¬ op.Agrees ty a b := by
  rintro ⟨d, hd, -⟩
  rw [h] at hd
  cases hd

theorem agrees_iff (h : op.exec ty a b = .ok d) :
    op.Agrees ty a b ↔ d.setWidth ty.width = BitVec.ofInt ty.width (op.exact ty a b) := by
  constructor
  · rintro ⟨d', hd, h'⟩
    obtain rfl := Except.ok.inj (h.symm.trans hd)
    exact h'
  · exact fun h' => ⟨d, h, h'⟩

theorem shl_agrees_iff {k : Nat} (h : shlImpl ty a b = .ok d)
    (hd : d.setWidth ty.width = BitVec.ofInt ty.width (ty.toInt a * 2 ^ k)) :
    shl.Agrees ty a b ↔ ty.toInt a * 2 ^ k ≡ ty.toInt a * 2 ^ shiftAmount b [ZMOD 2 ^ ty.width] := by
  have hexec : shl.exec ty a b = .ok d := h
  rw [agrees_iff hexec, hd, exact, ofInt_eq_ofInt_iff]

theorem shr_agrees_iff {k : Nat} (h : shrImpl ty a b = .ok d)
    (hd : d.setWidth ty.width = BitVec.ofInt ty.width (ty.toInt a / 2 ^ min k ty.width))
    (hk : shiftAmount b < ty.width → k = shiftAmount b) :
    shr.Agrees ty a b ↔ shiftAmount b < ty.width ∨ ty.width ≤ k ∨ ty.Vanishes k a := by
  have hexec : shr.exec ty a b = .ok d := h
  rw [agrees_iff hexec, hd, exact, ty.div_min_eq_iff a hk]

theorem shl16_agrees_iff (hw : ty.width = 16) (hty : ty.toInt a = a.u16.toNat)
    (h : shlImpl ty a b = .ok (if 16 ≤ b.u16.toNat then 0 else ofMember (a.u16 <<< b.u16.toNat))) :
    shl.Agrees ty a b ↔
      shiftAmount b < 16 ∨ 16 ≤ b.u16.toNat ∨ 2 ^ 16 ∣ a.u16.toNat * 2 ^ b.u16.toNat := by
  have hzero : ∀ k, 16 ≤ k → ty.toInt a * 2 ^ k ≡ 0 [ZMOD 2 ^ 16] := by
    intro k hk
    exact Int.modEq_zero_iff_dvd.mpr (Dvd.dvd.mul_left (pow_dvd_pow 2 hk) _)
  have hdvd : ty.toInt a * 2 ^ b.u16.toNat ≡ 0 [ZMOD 2 ^ 16] ↔ 2 ^ 16 ∣ a.u16.toNat * 2 ^ b.u16.toNat := by
    rw [Int.modEq_zero_iff_dvd, hty]
    norm_cast
  have hmember := shl_member (by decide) a.u16 b.u16.toNat
  rw [← hty] at hmember
  rw [shl_agrees_iff (k := b.u16.toNat) h (by rw [hw]; exact hmember), hw]
  by_cases hlt : shiftAmount b < 16
  · rw [u16_of_lt hlt]
    exact iff_of_true rfl (.inl hlt)
  · have hamount := hzero _ (not_lt.mp hlt)
    constructor
    · intro hmod
      exact .inr (.inr (hdvd.mp (hmod.trans hamount)))
    · rintro (h' | h' | h')
      · exact absurd h' hlt
      · exact (hzero _ h').trans hamount.symm
      · exact (hdvd.mpr h').trans hamount.symm

theorem shl32_agrees (hw : ty.width = 32) (hty : ty.toInt a = a.u32.toNat)
    (h : shlImpl ty a b = .ok (if 32 ≤ b.u32.toNat then 0 else ofMember (a.u32 <<< b.u32.toNat))) :
    shl.Agrees ty a b := by
  have hmember := shl_member (by decide) a.u32 b.u32.toNat
  rw [← hty] at hmember
  apply (shl_agrees_iff (k := b.u32.toNat) h ?_).mpr
  · rfl
  · rw [hw]
    exact hmember

theorem ushr_agrees_iff {w k : Nat} {x : BitVec w} (hw : ty.width = w) (hty : ty.toInt a = x.toNat)
    (h : shrImpl ty a b = .ok (if k < w then ofMember (x >>> k) else 0))
    (hk : shiftAmount b < w → k = shiftAmount b) :
    shr.Agrees ty a b ↔ shiftAmount b < w ∨ w ≤ k ∨ ty.Vanishes k a := by
  subst hw
  have hmember := ushr_member ty.width_le x k
  rw [← hty] at hmember
  exact shr_agrees_iff h hmember hk

theorem sshr_agrees_iff {w k : Nat} {x : BitVec w} (hw : ty.width = w) (hty : ty.toInt a = x.toInt)
    (h : shrImpl ty a b =
      .ok (if k < w then ofSigned (x.sshiftRight k) else if x.msb then -1 else 0))
    (hk : shiftAmount b < w → k = shiftAmount b) :
    shr.Agrees ty a b ↔ shiftAmount b < w ∨ w ≤ k ∨ ty.Vanishes k a := by
  subst hw
  have hmember := sshr_member ty.width_le x k
  rw [← hty] at hmember
  exact shr_agrees_iff h hmember hk

theorem shr32_agrees_of_iff
    (h : shr.Agrees ty a b ↔ shiftAmount b < 32 ∨ 32 ≤ shiftAmount b ∨ ty.Vanishes (shiftAmount b) a) :
    shr.Agrees ty a b :=
  h.mpr ((lt_or_ge (shiftAmount b) 32).imp_right .inl)

theorem not_lt_of_shift_fault (h : ¬ (64 ≤ b.u32)) (hb : 64 ≤ b) : ¬ (64 ≤ shiftAmount b ∨ b.toNat < 64) := by
  have h' : ¬ 64 ≤ shiftAmount b := h
  have hb' : 64 ≤ b.toNat := hb
  omega

theorem shl64_agrees_iff (hw : ty.width = 64) (hty : ty.toInt a = a.toNat)
    (hexec : shlImpl ty a b =
      if 64 ≤ b.u32 then .ok 0 else if 64 ≤ b then .error .shift else .ok (a <<< b.toNat)) :
    shl.Agrees ty a b ↔ 64 ≤ shiftAmount b ∨ b.toNat < 64 := by
  by_cases h : 64 ≤ b.u32
  · have hamount : 64 ≤ shiftAmount b := h
    have hmod : ∀ k : Nat, 64 ≤ k → ty.toInt a * 2 ^ k ≡ 0 [ZMOD 2 ^ 64] := by
      intro k hk
      exact Int.modEq_zero_iff_dvd.mpr (Dvd.dvd.mul_left (pow_dvd_pow 2 hk) _)
    rw [if_pos h] at hexec
    refine iff_of_true ?_ (.inl hamount)
    apply (shl_agrees_iff (k := 64) hexec ?_).mpr
    · rw [hw]
      exact (hmod 64 le_rfl).trans (hmod _ hamount).symm
    · rw [ofInt_mul_two_pow_of_le hw.le]
      simp
  · rw [if_neg h] at hexec
    by_cases hb : 64 ≤ b
    · rw [if_pos hb] at hexec
      have hshl : shl.exec ty a b = .error .shift := hexec
      exact iff_of_false (not_agrees_of_error hshl) (not_lt_of_shift_fault h hb)
    · rw [if_neg hb] at hexec
      have hlt : b.toNat < 64 := not_le.mp hb
      refine iff_of_true ?_ (.inr hlt)
      apply (shl_agrees_iff (k := b.toNat) hexec ?_).mpr
      · rw [shiftAmount_of_lt hlt]
      · rw [hty, shiftLeft_eq_ofInt, hw]
        exact BitVec.setWidth_eq _

theorem shr64_agrees_iff (hw : ty.width = 64) (hty : ty.toInt a = a.toNat)
    (hexec : shrImpl ty a b =
      if b.u32 < 64 then if 64 ≤ b then .error .shift else .ok (a >>> b.toNat) else .ok 0) :
    shr.Agrees ty a b ↔ 64 ≤ shiftAmount b ∨ b.toNat < 64 := by
  by_cases h : b.u32 < 64
  · rw [if_pos h] at hexec
    by_cases hb : 64 ≤ b
    · rw [if_pos hb] at hexec
      have hshr : shr.exec ty a b = .error .shift := hexec
      exact iff_of_false (not_agrees_of_error hshr) (not_lt_of_shift_fault (BitVec.not_le.mpr h) hb)
    · rw [if_neg hb] at hexec
      have hlt : b.toNat < 64 := not_le.mp hb
      refine iff_of_true ?_ (.inr hlt)
      apply (shr_agrees_iff (k := b.toNat) hexec ?_ ?_).mpr
      · rw [hw, shiftAmount_of_lt hlt]
        exact .inl hlt
      · rw [hty, hw, min_eq_left hlt.le, ushiftRight_eq_ofInt]
        exact BitVec.setWidth_eq _
      · exact fun _ => (shiftAmount_of_lt hlt).symm
  · rw [if_neg h] at hexec
    have hamount : 64 ≤ shiftAmount b := not_lt.mp h
    refine iff_of_true ?_ (.inl hamount)
    apply (shr_agrees_iff (k := shiftAmount b) hexec ?_ ?_).mpr
    · rw [hw]
      exact .inr (.inl hamount)
    · have hzero : (a.toNat : Int) / 2 ^ 64 = 0 := by
        norm_cast
        exact Nat.div_eq_of_lt a.isLt
      rw [hty, hw, min_eq_right hamount, hzero]
      rfl
    · exact fun _ => rfl

theorem shrS64_agrees_iff : shr.Agrees .S64 a b ↔ b.toNat < 64 ∨ ((0 ≤ a.toInt ∨ shiftAmount b < 2 ^ 31) ∧
      (64 ≤ shiftAmount b ∨ ScalarType.S64.Vanishes (shiftAmount b) a)) := by
  have htoInt : ScalarType.S64.toInt a = a.toInt := by
    show (a.setWidth 64).toInt = a.toInt
    rw [BitVec.setWidth_eq]
  have hmsb : a.msb = true ↔ ¬ 0 ≤ a.toInt := by
    rw [BitVec.msb_eq_toInt, decide_eq_true_iff, not_le]
  have hamount : b.u32.msb = true ↔ ¬ shiftAmount b < 2 ^ 31 := by
    rw [BitVec.msb_eq_decide, decide_eq_true_iff, not_lt]
    rfl
  by_cases hb : b.toNat < 64
  · have h : shrImpl .S64 a b = .ok (a.sshiftRight b.toNat) := congrArg Except.ok (if_pos hb)
    refine iff_of_true ?_ (.inl hb)
    apply (shr_agrees_iff (k := b.toNat) h ?_ ?_).mpr
    · rw [shiftAmount_of_lt hb]
      exact .inl hb
    · have hshift := setWidth_sshiftRight_eq_ofInt (n := b.toNat) le_rfl a
      rw [htoInt, show ScalarType.S64.width = 64 from rfl, min_eq_left hb.le]
      exact hshift
    · exact fun _ => (shiftAmount_of_lt hb).symm
  · -- Only the sign is left, or what the clearing leaves of it.
    have hsign : a.toInt / 2 ^ 64 = if a.msb then -1 else 0 := toInt_div_width a
    have hwidth := ScalarType.S64.div_min_eq_width_iff a (shiftAmount b)
    rw [htoInt, show ScalarType.S64.width = 64 from rfl] at hwidth
    have hexec : shr.exec .S64 a b = .ok (if a.msb then (if b.u32.msb then (-1 : Value).setU32 0 else -1)
        else 0) := congrArg Except.ok (if_neg hb)
    rw [agrees_iff hexec, exact, htoInt, show ScalarType.S64.width = 64 from rfl, BitVec.setWidth_eq]
    by_cases hclear : a.msb = true ∧ b.u32.msb = true
    · rw [if_pos hclear.1, if_pos hclear.2]
      have hbig : 64 ≤ shiftAmount b := by
        have := hamount.mp hclear.2
        omega
      rw [min_eq_right hbig, hsign, if_pos hclear.1]
      refine iff_of_false (by decide) ?_
      rintro (h | ⟨h | h, -⟩)
      · exact hb h
      · exact hmsb.mp hclear.1 h
      · exact hamount.mp hclear.2 h
    · have hkept : 0 ≤ a.toInt ∨ shiftAmount b < 2 ^ 31 := by
        by_contra hno
        rw [not_or] at hno
        exact hclear ⟨hmsb.mpr hno.1, hamount.mpr hno.2⟩
      have hd : (if a.msb then (if b.u32.msb then (-1 : Value).setU32 0 else -1) else 0 : Value) =
          BitVec.ofInt 64 (a.toInt / 2 ^ 64) := by
        rw [hsign]
        cases ha : a.msb with
        | false => rfl
        | true =>
          cases hb' : b.u32.msb with
          | false => rfl
          | true => exact absurd ⟨ha, hb'⟩ hclear
      rw [hd, hwidth]
      simp only [hb, hkept, false_or, true_and]

/-- **Shifts.** For every type, every value and every amount, `shl` and `shr` give the product and the
quotient with a power of two exactly when `AgreesWhen` holds. -/
theorem shift_agrees_iff (op : ShiftOp) (ty : ScalarType) (a b : Value) :
    op.Agrees ty a b ↔ op.AgreesWhen ty a b := by
  have hnat : ∀ x : Value, (((x.setWidth 64).toNat : Nat) : Int) = x.toNat := fun x => by
    rw [BitVec.setWidth_eq]
  cases op with
  | shl =>
    cases ty with
    | S8 | U8 | B8 | S16 | S32 | S64 => exact iff_false_intro (not_agrees_of_error rfl)
    | U16 | B16 => exact shl16_agrees_iff rfl rfl rfl
    | U32 | B32 => exact iff_true_intro (shl32_agrees rfl rfl rfl)
    | U64 | B64 => exact shl64_agrees_iff rfl (hnat a) rfl
  | shr =>
    cases ty with
    | S8 | U8 | B8 => exact iff_false_intro (not_agrees_of_error rfl)
    | U16 | B16 => exact ushr_agrees_iff (x := a.u16) rfl rfl rfl u16_of_lt
    | U32 | B32 =>
      exact iff_true_intro (shr32_agrees_of_iff (ushr_agrees_iff (x := a.u32) rfl rfl rfl fun _ => rfl))
    | U64 | B64 => exact shr64_agrees_iff rfl (hnat a) rfl
    | S16 => exact sshr_agrees_iff (x := a.u16) rfl rfl rfl u16_of_lt
    | S32 =>
      exact iff_true_intro (shr32_agrees_of_iff (sshr_agrees_iff (x := a.u32) rfl rfl rfl fun _ => rfl))
    | S64 => exact shrS64_agrees_iff

/-- `shl.b16` of 1 by 65536 leaves 1, and `shr.s64` of `-1` by `2 ^ 31` is not `-1`. -/
theorem not_agrees_large_amount :
    shl.exec .B16 1 0x10000 = .ok 1 ∧ ¬ shl.Agrees .B16 1 0x10000 ∧
      shr.exec .S64 (-1) 0x80000000 = .ok 0xFFFFFFFF00000000 ∧ ¬ shr.Agrees .S64 (-1) 0x80000000 := by
  refine ⟨rfl, fun h => ?_, rfl, fun h => ?_⟩
  · have hwhen := (shl16_agrees_iff rfl rfl rfl).mp h
    exact absurd hwhen (by decide)
  · rcases shrS64_agrees_iff.mp h with h' | ⟨h' | h', -⟩ <;> exact absurd h' (by decide)

end ShiftOp

end GpgpuSimRuby.Ptx
