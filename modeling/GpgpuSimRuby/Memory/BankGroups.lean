import GpgpuSimRuby.Memory.Dram

/-!
# Bank groups

The number of the group of a bank is computed twice: the constructor of `dram_t` divides by the
number of banks of a group, and the bank loop of `cycle` shifts by `bk_tag_length`, the "number of
bits that define a bank inside a bank group". The loop that finds this length shifts until nothing
is left, which is once more than there are such bits.
-/

namespace GpgpuSimRuby.Memory

namespace MemoryConfig

variable (cfg : MemoryConfig)

/-- `bkgrpindex` of a bank. -/
def bkgrpIndex (i : Nat) : Nat := i / (cfg.nbk / cfg.nbkgrp)

/-- The group whose counters the bank loop looks up, `grp` in `issueBank`. -/
def group (j : Nat) : Nat := j >>> cfg.bkTagLength

end MemoryConfig

theorem tagLengthLoop_two_pow {fuel k i : Nat} (h : k < fuel) :
    tagLengthLoop fuel ((2 ^ k : Nat) : Int) i = i + k + 1 := by
  induction k generalizing fuel i with
  | zero =>
    obtain ⟨fuel, rfl⟩ := Nat.exists_eq_succ_of_ne_zero h.ne'
    cases fuel <;> rfl
  | succ k ih =>
    obtain ⟨fuel, rfl⟩ := Nat.exists_eq_succ_of_ne_zero (Nat.ne_zero_of_lt h)
    have hpos : (0 : Int) < ((2 ^ (k + 1) : Nat) : Int) := by
      exact_mod_cast Nat.two_pow_pos (k + 1)
    have hhalf : ((2 ^ (k + 1) : Nat) : Int) >>> (1 : Nat) = ((2 ^ k : Nat) : Int) := by
      rw [Int.shiftRight_eq_div_pow, Nat.pow_succ]
      omega
    unfold tagLengthLoop
    rw [if_pos hpos, hhalf, ih (by omega)]
    omega

namespace MemoryConfig

variable {cfg : MemoryConfig} {j k : Nat}

theorem bkTagLength_two_pow (hk : k < 31) (h : cfg.nbk / cfg.nbkgrp = 2 ^ k) : cfg.bkTagLength = k + 1 := by
  have hlt : 2 ^ k < 2 ^ 31 := Nat.pow_lt_pow_right (by decide) hk
  have hint : (BitVec.ofNat 32 (2 ^ k)).toInt = ((2 ^ k : Nat) : Int) := by
    rw [BitVec.toInt_eq_toNat_of_lt, BitVec.toNat_ofNat, Nat.mod_eq_of_lt (by omega)]
    rw [BitVec.toNat_ofNat, Nat.mod_eq_of_lt (by omega)]
    omega
  unfold bkTagLength
  rw [h, hint, tagLengthLoop_two_pow (by omega)]
  omega

theorem bkTagLength_negative (h : cfg.nbk / cfg.nbkgrp = 2 ^ 31) : cfg.bkTagLength = 0 := by
  unfold bkTagLength
  rw [h]
  rfl

theorem shiftRight_succ_eq_iff : j >>> (k + 1) = j / 2 ^ k ↔ j < 2 ^ k := by
  have hpos := Nat.two_pow_pos k
  rw [Nat.shiftRight_eq_div_pow, Nat.pow_succ, ← Nat.div_div_eq_div_mul]
  constructor
  · intro h
    apply (Nat.div_eq_zero_iff_lt hpos).mp
    generalize j / 2 ^ k = q at h ⊢
    omega
  · intro h
    rw [Nat.div_eq_of_lt h]

/-- **The group of a bank** in the bank loop is the one that the constructor gave it, and a group that
there is, exactly for the banks of the first group. -/
theorem group_eq_iff (cfg : MemoryConfig) (hnbk : ∃ m < 32, cfg.nbk = 2 ^ m)
    (hnbkgrp : ∃ n, cfg.nbkgrp = 2 ^ n) (hdvd : cfg.nbkgrp ∣ cfg.nbk) (j : Nat) (hj : j < cfg.nbk) :
    (cfg.group j = cfg.bkgrpIndex j ∧ cfg.group j < cfg.nbkgrp) ↔
      j < cfg.nbk / cfg.nbkgrp ∧ (cfg.nbk / cfg.nbkgrp = 2 ^ 31 → j = 0) := by
  obtain ⟨m, hm, hnbk⟩ := hnbk
  obtain ⟨n, hnbkgrp⟩ := hnbkgrp
  have hle : n ≤ m := by
    rw [hnbk, hnbkgrp] at hdvd
    exact (Nat.pow_dvd_pow_iff_le_right (by decide)).mp hdvd
  have hper : cfg.nbk / cfg.nbkgrp = 2 ^ (m - n) := by
    rw [hnbk, hnbkgrp, Nat.pow_div hle (by decide)]
  have hgrp := Nat.two_pow_pos n
  unfold group bkgrpIndex
  by_cases hk : m - n < 31
  · have hne : ¬ 2 ^ (m - n) = 2 ^ 31 := by
      intro heq
      have := Nat.pow_right_injective (le_refl 2) heq
      omega
    rw [bkTagLength_two_pow hk hper, hper, shiftRight_succ_eq_iff]
    constructor
    · rintro ⟨hlt, -⟩
      exact ⟨hlt, fun heq => absurd heq hne⟩
    · rintro ⟨hlt, -⟩
      refine ⟨hlt, ?_⟩
      rw [shiftRight_succ_eq_iff.mpr hlt, Nat.div_eq_of_lt hlt, hnbkgrp]
      exact hgrp
  · -- a single group of `2 ^ 31` banks
    have hmn : m - n = 31 := by omega
    have hn : n = 0 := by omega
    rw [hmn] at hper
    rw [bkTagLength_negative hper, hper, hnbkgrp, hn]
    simp only [Nat.shiftRight_zero, Nat.pow_zero]
    constructor
    · rintro ⟨heq, hlt⟩
      omega
    · rintro ⟨-, hzero⟩
      obtain rfl : j = 0 := by simpa using hzero
      exact ⟨rfl, by decide⟩

/-- Two banks in each of two groups. -/
def fourBanks : MemoryConfig where
  schedulerType := .fifo
  schedQueueSize := 4
  nbk := 4
  nbkgrp := 2
  tCCD := 2
  tRRD := 2
  tRCD := 3
  tRAS := 5
  tRP := 3
  tRC := 8
  CL := 2
  WL := 1
  tCDLR := 2
  tWR := 2
  tCCDL := 3
  tRTPL := 2
  BL := 4
  dataCommandFreqRatio := 2
  dramAtomSize := 32

theorem group_eq_fourBanks : fourBanks.group 1 = fourBanks.bkgrpIndex 1 ∧ fourBanks.group 1 < 2 :=
  (group_eq_iff fourBanks ⟨2, by decide, rfl⟩ ⟨1, rfl⟩ (by decide) 1 (by decide)).mpr
    ⟨by decide, fun h => absurd h (by decide)⟩

/-- The third bank belongs to the second group, and its commands wait for the first. -/
theorem group_ne_fourBanks :
    fourBanks.group 2 = 0 ∧ fourBanks.bkgrpIndex 2 = 1 ∧ fourBanks.group 2 ≠ fourBanks.bkgrpIndex 2 := by
  decide

end MemoryConfig

end GpgpuSimRuby.Memory
