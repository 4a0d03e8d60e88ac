import Mathlib.Data.Nat.Bitwise
import Mathlib.Data.Nat.ModEq
import Mathlib.Algebra.Ring.Parity
import Mathlib.Algebra.Order.Ring.Nat
import Mathlib.Data.Nat.Factorization.Basic
import Mathlib.Tactic.Ring

/-!
# Packed bits

The bits at some positions, put next to each other: they say as much as the bits do, and their lower
`k` bits as much as the first `k` of the positions. The second part is about numbers that are
divided by an `n`, when some bits of the quotient are not known: which bits of the number the
remainder and the known bits say.
-/

namespace GpgpuSimRuby.Library

/-- The bits at the positions `ps`, the first of them lowest. -/
def pack (x : Nat → Bool) : List Nat → Nat
  | [] => 0
  | p :: ps => Nat.bit (x p) (pack x ps)

section Pack

variable {x y : Nat → Bool} {ps : List Nat} {k : Nat}

theorem testBit_pack : (pack x ps).testBit k = (ps[k]?.map x).getD false := by
  induction ps generalizing k with
  | nil => simp [pack]
  | cons p ps ih =>
    cases k with
    | zero => simp [pack]
    | succ k =>
      rw [pack, Nat.testBit_bit_succ, ih]
      simp

theorem pack_lt : pack x ps < 2 ^ ps.length := by
  induction ps with
  | nil => simp [pack]
  | cons p ps ih =>
    rw [pack, Nat.bit_val, List.length_cons, Nat.pow_succ]
    have hbit := Bool.toNat_le (x p)
    omega

theorem pack_mod_two_pow : pack x ps % 2 ^ k = pack x (ps.take k) := by
  apply Nat.eq_of_testBit_eq
  intro i
  rw [Nat.testBit_mod_two_pow, testBit_pack, testBit_pack, List.getElem?_take]
  split_ifs with h
  · simp [h]
  · simp [h]

theorem pack_eq_iff : pack x ps = pack y ps ↔ ∀ p ∈ ps, x p = y p := by
  induction ps with
  | nil => simp [pack]
  | cons p ps ih =>
    rw [pack, pack, List.forall_mem_cons, ← ih]
    constructor
    · intro h
      have hbodd := congrArg Nat.bodd h
      have hdiv := congrArg Nat.div2 h
      rw [Nat.bodd_bit, Nat.bodd_bit] at hbodd
      rw [Nat.div2_bit, Nat.div2_bit] at hdiv
      exact ⟨hbodd, hdiv⟩
    · rintro ⟨hp, hps⟩
      rw [hp, hps]

theorem pack_true (h : ∀ p ∈ ps, x p = true) : pack x ps = 2 ^ ps.length - 1 := by
  induction ps with
  | nil => simp [pack]
  | cons p ps ih =>
    obtain ⟨hp, hps⟩ := List.forall_mem_cons.mp h
    have hpos := Nat.two_pow_pos ps.length
    rw [pack, hp, ih hps, Nat.bit_val, Bool.toNat_true, List.length_cons, Nat.pow_succ]
    omega

end Pack

/-! ## Quotients -/

section Quotient

variable {n q x y i j k w : Nat}

theorem testBit_add_two_pow (hj : q.testBit j = false) :
    (q + 2 ^ j).testBit k = if k = j then true else q.testBit k := by
  have hlow : q % 2 ^ (j + 1) < 2 ^ j := by
    apply Nat.lt_pow_two_of_testBit
    intro i hi
    rw [Nat.testBit_mod_two_pow]
    rcases hi.lt_or_eq with hlt | rfl
    · simp [show ¬ i < j + 1 by omega]
    · simp [hj]
  have hpow : 2 ^ (j + 1) = 2 ^ j * 2 := Nat.pow_succ ..
  have hq := Nat.div_add_mod q (2 ^ (j + 1))
  have hadd : q + 2 ^ j = 2 ^ (j + 1) * (q / 2 ^ (j + 1)) + (2 ^ j + q % 2 ^ (j + 1)) := by omega
  have hbit : q.testBit k =
      if k < j + 1 then (q % 2 ^ (j + 1)).testBit k else (q / 2 ^ (j + 1)).testBit (k - (j + 1)) := by
    conv_lhs => rw [← hq]
    exact Nat.testBit_two_pow_mul_add _ (Nat.mod_lt _ (Nat.two_pow_pos _)) k
  rw [hadd, Nat.testBit_two_pow_mul_add _ (by omega), hbit]
  rcases Nat.lt_trichotomy k j with h | rfl | h
  · simp only [show k < j + 1 by omega, if_true, if_neg h.ne, Nat.testBit_two_pow_add_gt h]
  · rw [if_pos (by omega), if_pos rfl, Nat.testBit_two_pow_add_eq, Nat.testBit_mod_two_pow, hj]
    simp
  · simp only [show ¬ k < j + 1 by omega, if_false, if_neg h.ne']

/-- The remainder and enough of the quotient's bits say what a bit is: of a divisor with the factor
`2 ^ v` the bits up to `v` places lower. -/
theorem testBit_eq_of_quotient (hmod : x % n = y % n)
    (h : ∀ j ≤ i, ¬ 2 ^ (i - j + 1) ∣ n → (x / n).testBit j = (y / n).testBit j) :
    x.testBit i = y.testBit i := by
  rcases Nat.eq_zero_or_pos n with rfl | hn
  · rw [Nat.mod_zero, Nat.mod_zero] at hmod
    rw [hmod]
  obtain ⟨v, m, hm, rfl⟩ := Nat.exists_eq_two_pow_mul_odd hn.ne'
  have hdvd {k : Nat} (hk : 2 ^ k ∣ 2 ^ v * m) : k ≤ v := by
    have hcoprime : Nat.Coprime (2 ^ k) m := Nat.Coprime.pow_left k (Nat.coprime_two_left.mpr hm)
    exact (Nat.pow_dvd_pow_iff_le_right (by decide)).mp (hcoprime.dvd_of_dvd_mul_right hk)
  -- the quotients agree as far as they matter for the bits up to `i`
  have hquotient : x / (2 ^ v * m) ≡ y / (2 ^ v * m) [MOD 2 ^ (i + 1 - v)] := by
    apply Nat.eq_of_testBit_eq
    intro j
    rw [Nat.testBit_mod_two_pow, Nat.testBit_mod_two_pow]
    by_cases hj : j < i + 1 - v
    · rw [h j (by omega) fun hd => by have := hdvd hd; omega]
    · simp [hj]
  have hmul := (hquotient.mul_left' (2 ^ v)).mul_left m
  rw [← Nat.pow_add] at hmul
  have hsame : x ≡ y [MOD 2 ^ (v + (i + 1 - v))] := by
    rw [← Nat.div_add_mod x (2 ^ v * m), ← Nat.div_add_mod y (2 ^ v * m), hmod]
    apply Nat.ModEq.add_right
    convert hmul using 1 <;> ring
  have hlow := hsame.of_dvd (Nat.pow_dvd_pow 2 (show i + 1 ≤ v + (i + 1 - v) by omega))
  have hbit := congrArg (Nat.testBit · i) (show x % 2 ^ (i + 1) = y % 2 ^ (i + 1) from hlow)
  simpa [Nat.testBit_mod_two_pow] using hbit

theorem testBit_ne_of_carry {m d : Nat} (hx : x < 2 ^ d) (hge : 2 ^ d ≤ x + m) (hlt : x + m < 2 ^ (d + 1)) :
    x.testBit d ≠ (x + m).testBit d := by
  have hset : (x + m).testBit d = true := by
    apply Nat.testBit_of_two_pow_le_and_two_pow_add_one_gt hge hlt
  rw [Nat.testBit_lt_two_pow hx, hset]
  decide

/-- There is a number with an even quotient in which the bit `d` changes when an odd `m` is added. -/
theorem exists_testBit_ne {m d : Nat} (hm : Odd m) (hm3 : 3 ≤ m) (hd : d < w) (hlt : m < 2 ^ w) :
    ∃ x, (x / m) % 2 = 0 ∧ x + m < 2 ^ w ∧ x.testBit d ≠ (x + m).testBit d := by
  have hpow : 2 ^ (d + 1) ≤ 2 ^ w := Nat.pow_le_pow_right (by decide) hd
  have hsucc : 2 ^ (d + 1) = 2 * 2 ^ d := by ring
  have hpos := Nat.two_pow_pos d
  by_cases hbit : m.testBit d = true
  · refine ⟨0, by simp, by omega, ?_⟩
    simp [hbit]
  rw [Bool.not_eq_true] at hbit
  have hne : 2 ^ d ≠ m := by
    rintro rfl
    rw [Nat.testBit_two_pow_self] at hbit
    cases hbit
  rcases Nat.lt_or_gt_of_ne hne with hgt | hless
  · -- all ones below `d`; the bits of `m` from `d + 1` on stay
    have hd0 : d ≠ 0 := by
      rintro rfl
      rw [Nat.testBit_zero, decide_eq_false_iff_not] at hbit
      exact hbit (Nat.odd_iff.mp hm)
    have hlow : m % 2 ^ (d + 1) < 2 ^ d := by
      apply Nat.lt_pow_two_of_testBit
      intro i hi
      rw [Nat.testBit_mod_two_pow]
      rcases hi.lt_or_eq with hlt' | rfl
      · simp [show ¬ i < d + 1 by omega]
      · simp [hbit]
    have hodd : m % 2 ^ (d + 1) % 2 = 1 := by
      rw [Nat.mod_mod_of_dvd _ ⟨2 ^ d, hsucc⟩]
      exact Nat.odd_iff.mp hm
    have hdiv := Nat.div_add_mod m (2 ^ (d + 1))
    have hadd : 2 ^ d - 1 + m = 2 ^ (d + 1) * (m / 2 ^ (d + 1)) + (2 ^ d + (m % 2 ^ (d + 1) - 1)) := by omega
    refine ⟨2 ^ d - 1, ?_, ?_, ?_⟩
    · rw [Nat.div_eq_of_lt (by omega)]
    · -- `2 ^ w` is a multiple of `2 ^ (d + 1)`
      obtain ⟨c, hc⟩ := Nat.pow_dvd_pow 2 (show d + 1 ≤ w from hd)
      have hquot : m / 2 ^ (d + 1) + 1 ≤ c := by
        rw [Nat.succ_le_iff, Nat.div_lt_iff_lt_mul (by omega), Nat.mul_comm, ← hc]
        exact hlt
      have hmul := Nat.mul_le_mul_left (2 ^ (d + 1)) hquot
      rw [Nat.mul_add, Nat.mul_one, ← hc] at hmul
      omega
    · have hset : (2 ^ d - 1 + m).testBit d = true := by
        rw [hadd, Nat.testBit_two_pow_mul_add _ (by omega), if_pos (by omega), Nat.testBit_two_pow_add_eq,
          Nat.testBit_lt_two_pow (by omega)]
        rfl
      rw [hset, Nat.testBit_lt_two_pow (by omega)]
      decide
  · -- the last multiple of `m` below `2 ^ d`, or `m` below `2 ^ d`
    have hndvd : ¬ m ∣ 2 ^ d := by
      intro hdvd
      have hcoprime : Nat.Coprime m (2 ^ d) := (Nat.Coprime.pow_left d (Nat.coprime_two_left.mpr hm)).symm
      have hone := Nat.eq_one_of_dvd_coprimes hcoprime dvd_rfl hdvd
      omega
    have hdiv := Nat.div_add_mod (2 ^ d) m
    have hrem : 0 < 2 ^ d % m := Nat.pos_of_ne_zero fun h => hndvd (Nat.dvd_of_mod_eq_zero h)
    have hrem' : 2 ^ d % m < m := Nat.mod_lt _ (by omega)
    rcases Nat.mod_two_eq_zero_or_one (2 ^ d / m) with heven | hodd
    · refine ⟨m * (2 ^ d / m), ?_, by omega, testBit_ne_of_carry (by omega) (by omega) (by omega)⟩
      rw [Nat.mul_div_cancel_left _ (by omega)]
      exact heven
    · refine ⟨2 ^ d - m, ?_, by omega, testBit_ne_of_carry (by omega) (by omega) (by omega)⟩
      have hquot : (2 ^ d - m) / m = 2 ^ d / m - 1 := by
        rw [← Nat.sub_mul_div (2 ^ d) m 1, Nat.mul_one]
      omega

/-- **Too few bits** of the quotient do not say what a bit is, unless the divisor is a power of two. -/
theorem exists_quotient (hn : 0 < n) (hpow : ¬ ∃ k, n = 2 ^ k) (hji : j ≤ i) (hdvd : ¬ 2 ^ (i - j + 1) ∣ n)
    (hlt : n * 2 ^ j < 2 ^ w) (hi : i < w) : ∃ x y, x < 2 ^ w ∧ y < 2 ^ w ∧ x % n = y % n ∧
      (∀ k ≠ j, (x / n).testBit k = (y / n).testBit k) ∧ x.testBit i ≠ y.testBit i := by
  obtain ⟨v, m, hm, rfl⟩ := Nat.exists_eq_two_pow_mul_odd hn.ne'
  have hm3 : 3 ≤ m := by
    have hne : m ≠ 1 := by
      rintro rfl
      exact hpow ⟨v, by rw [Nat.mul_one]⟩
    obtain ⟨c, rfl⟩ := hm
    omega
  have hv : v + j ≤ i := by
    by_contra hnot
    exact hdvd (Dvd.dvd.mul_right (Nat.pow_dvd_pow 2 (by omega)) m)
  -- everything in units of `2 ^ (v + j)`
  have hunit : 2 ^ v * m * 2 ^ j = m * 2 ^ (v + j) := by ring
  have hsplit : 2 ^ w = 2 ^ (w - (v + j)) * 2 ^ (v + j) := by
    rw [← Nat.pow_add]
    congr 1
    omega
  rw [hunit, hsplit] at hlt
  have hmlt : m < 2 ^ (w - (v + j)) := Nat.lt_of_mul_lt_mul_right hlt
  obtain ⟨x, heven, hsum, hbit⟩ := exists_testBit_ne (d := i - (v + j)) hm hm3 (by omega) hmlt
  have hshift (z : Nat) : (z * 2 ^ (v + j)).testBit i = z.testBit (i - (v + j)) := by
    rw [Nat.testBit_mul_two_pow]
    simp [hv]
  have hbound {z : Nat} (hz : z < 2 ^ (w - (v + j))) : z * 2 ^ (v + j) < 2 ^ w := by
    rw [hsplit]
    exact Nat.mul_lt_mul_of_pos_right hz (Nat.two_pow_pos _)
  have hadd : (x + m) * 2 ^ (v + j) = x * 2 ^ (v + j) + 2 ^ v * m * 2 ^ j := by ring
  have hnpos : 0 < 2 ^ v * m := hn
  refine ⟨x * 2 ^ (v + j), (x + m) * 2 ^ (v + j), hbound (by omega), hbound hsum, ?_, ?_, ?_⟩
  · rw [hadd, Nat.add_mul_mod_self_left]
  · intro k hk
    rw [hadd, Nat.add_mul_div_left _ _ hnpos, testBit_add_two_pow, if_neg hk]
    -- the quotient of `x` by `m` is even
    have hq : x * 2 ^ (v + j) / (2 ^ v * m) / 2 ^ j = x / m := by
      rw [Nat.div_div_eq_div_mul, hunit, Nat.mul_div_mul_right _ _ (Nat.two_pow_pos _)]
    have hzero : (x * 2 ^ (v + j) / (2 ^ v * m)).testBit (0 + j) = false := by
      rw [← Nat.testBit_div_two_pow, hq, Nat.testBit_zero, heven]
      rfl
    rwa [Nat.zero_add] at hzero
  · rwa [hshift, hshift]

end Quotient

end GpgpuSimRuby.Library
