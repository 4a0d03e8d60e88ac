import Mathlib

/-!
# The flags of a subtraction

What the sign, the borrow and the overflow of `x - y` say about `x` and `y`.
-/

namespace GpgpuSimRuby.Library

variable {w : Nat}

/-- Signed: the sign of the difference, unless it overflows. -/
theorem slt_eq_msb_sub_xor_ssubOverflow (x y : BitVec w) : x.slt y = ((x - y).msb ^^ x.ssubOverflow y) := by
  cases h : x.ssubOverflow y with
  | false =>
    have hint : (x - y).toInt = x.toInt - y.toInt :=
      BitVec.toInt_sub_of_not_ssubOverflow (by rw [h]; exact Bool.false_ne_true)
    rw [Bool.xor_false, BitVec.msb_eq_toInt, BitVec.slt_eq_decide, hint]
    exact decide_eq_decide.mpr (by omega)
  | true =>
    rw [BitVec.ssubOverflow_eq, Bool.or_eq_true_iff] at h
    rw [Bool.xor_true, BitVec.slt_eq_decide]
    simp only [Bool.and_eq_true, Bool.not_eq_true'] at h
    rcases h with ⟨⟨hx, hy⟩, hd⟩ | ⟨⟨hx, hy⟩, hd⟩
    · rw [hd, decide_eq_false]
      · rfl
      · rw [BitVec.msb_eq_toInt] at hx hy
        have := of_decide_eq_false hx
        have := of_decide_eq_true hy
        omega
    · rw [hd, decide_eq_true]
      · rfl
      · rw [BitVec.msb_eq_toInt] at hx hy
        have := of_decide_eq_true hx
        have := of_decide_eq_false hy
        omega

theorem ult_eq_not_ule (x y : BitVec w) : x.ult y = !y.ule x := by
  rw [BitVec.ult_eq_decide, BitVec.ule_eq_decide, ← decide_not]
  exact decide_eq_decide.mpr (by omega)

theorem ule_eq_not_ule_or_eq (x y : BitVec w) : x.ule y = (!y.ule x || x - y == 0) := by
  have heq : (x - y = 0) ↔ x.toNat = y.toNat := by
    rw [sub_eq_zero, BitVec.toNat_inj]
  rw [Bool.eq_iff_iff, Bool.or_eq_true_iff, Bool.not_eq_true', beq_iff_eq, heq]
  simp only [BitVec.ule_eq_decide, decide_eq_true_eq, decide_eq_false_iff_not]
  omega

end GpgpuSimRuby.Library
