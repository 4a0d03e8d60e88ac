import GpgpuSimRuby.Cache.ConfigString

/-!
# How a cache splits an address

`set_index`, `tag` and `block_addr` bit by bit. The first two shift by logarithms that are rounded down,
and the mask of the set index is the number of sets less one; the mask of `block_addr` is the complement
of the line size less one, taken in 32 bits. So the tag and the set index say which block an address is
in if both sizes are powers of two, and then only among addresses that agree above their lower 32 bits.
-/

namespace GpgpuSimRuby.Cache

/-! ## Low bits -/

theorem testBit_low_iff {x k : Nat} : (∀ j < k, x.testBit j) ↔ x % 2 ^ k = 2 ^ k - 1 := by
  constructor
  · intro h
    apply Nat.eq_of_testBit_eq
    intro i
    rw [Nat.testBit_mod_two_pow, Nat.testBit_two_pow_sub_one]
    by_cases hi : i < k
    · simp [hi, h i hi]
    · simp [hi]
  · intro h j hj
    have hbit : (x % 2 ^ k).testBit j = (2 ^ k - 1).testBit j := by rw [h]
    rw [Nat.testBit_mod_two_pow, Nat.testBit_two_pow_sub_one] at hbit
    simpa [hj] using hbit

theorem testBit_pred_iff {n k : Nat} (hn : 0 < n) : (∀ j < k, (n - 1).testBit j) ↔ 2 ^ k ∣ n := by
  rw [testBit_low_iff]
  have hpos := Nat.two_pow_pos k
  constructor
  · intro h
    have hdiv := Nat.div_add_mod (n - 1) (2 ^ k)
    refine ⟨(n - 1) / 2 ^ k + 1, ?_⟩
    rw [Nat.mul_add, Nat.mul_one]
    omega
  · rintro ⟨q, rfl⟩
    cases q with
    | zero => omega
    | succ q =>
      have heq : 2 ^ k * (q + 1) - 1 = 2 ^ k * q + (2 ^ k - 1) := by
        rw [Nat.mul_add, Nat.mul_one]
        omega
      rw [heq, Nat.mul_add_mod, Nat.mod_eq_of_lt (by omega)]

theorem eq_two_pow_log2 {n : Nat} (hn : n ≠ 0) (h : 2 ^ n.log2 ∣ n) : n = 2 ^ n.log2 := by
  obtain ⟨q, hq⟩ := h
  have hlt := Nat.lt_log2_self (n := n)
  have hpos := Nat.two_pow_pos n.log2
  rw [Nat.pow_succ] at hlt
  have hq1 : q = 1 := by
    have hq2 : q < 2 := by
      apply Nat.lt_of_mul_lt_mul_left (a := 2 ^ n.log2)
      omega
    have hq0 : q ≠ 0 := by
      rintro rfl
      exact hn (by simpa using hq)
    omega
  rw [hq1, Nat.mul_one] at hq
  exact hq

/-! ## `LOGB2` -/

/-- A line of `LOGB2`: what is left of the number, and the logarithm so far. -/
def logb2Step (mask bits : Nat) (p : Nat × Nat) : Nat × Nat :=
  let shift := if p.1 &&& mask ≠ 0 then bits else 0
  (p.1 >>> shift, p.2 ||| shift)

def logb2 (v : Nat) : Nat :=
  (logb2Step 0x2 1 (logb2Step 0xC 2 (logb2Step 0xF0 4 (logb2Step 0xFF00 8
    (logb2Step 0xFFFF0000 16 (v, 0)))))).2

theorem logb2Step_spec {v : Nat} (r bits : Nat) (hv : v < 2 ^ (2 * bits)) :
    ∃ v' shift, logb2Step (2 ^ (2 * bits) - 2 ^ bits) bits (v, r) = (v', r ||| shift) ∧
      v' < 2 ^ bits ∧ (shift = 0 ∨ shift = bits) ∧ v.log2 = shift + v'.log2 := by
  have hpos := Nat.two_pow_pos bits
  have hsq : 2 ^ (2 * bits) = 2 ^ bits * 2 ^ bits := by rw [two_mul, Nat.pow_add]
  have hmask : 2 ^ (2 * bits) - 2 ^ bits = (2 ^ bits - 1) <<< bits := by
    rw [Nat.shiftLeft_eq, Nat.sub_mul, hsq, Nat.one_mul]
  have hand : v &&& (2 ^ (2 * bits) - 2 ^ bits) = v / 2 ^ bits * 2 ^ bits := by
    rw [hmask]
    apply Nat.eq_of_testBit_eq
    intro i
    rw [Nat.testBit_and, Nat.testBit_shiftLeft, Nat.testBit_two_pow_sub_one, ← Nat.shiftLeft_eq,
      Nat.testBit_shiftLeft, ← Nat.shiftRight_eq_div_pow, Nat.testBit_shiftRight]
    by_cases hi : bits ≤ i
    · have hadd : bits + (i - bits) = i := by omega
      by_cases hi' : i - bits < bits
      · simp [hi, hi', hadd]
      · have hzero : v.testBit i = false :=
          Nat.testBit_lt_two_pow (lt_of_lt_of_le hv (Nat.pow_le_pow_right (by decide) (by omega)))
        simp [hi, hi', hadd, hzero]
    · simp [hi]
  unfold logb2Step
  dsimp only
  rw [hand]
  by_cases hlt : v < 2 ^ bits
  · refine ⟨v, 0, ?_, hlt, .inl rfl, ?_⟩
    · simp [Nat.div_eq_of_lt hlt]
    · rw [Nat.zero_add]
  · have hdiv : 0 < v / 2 ^ bits := Nat.div_pos (Nat.le_of_not_lt hlt) hpos
    have hne : v / 2 ^ bits * 2 ^ bits ≠ 0 := (Nat.mul_pos hdiv hpos).ne'
    refine ⟨v / 2 ^ bits, bits, ?_, ?_, .inr rfl, ?_⟩
    · rw [if_pos hne, Nat.shiftRight_eq_div_pow]
    · rw [Nat.div_lt_iff_lt_mul hpos, ← hsq]
      exact hv
    · rw [Nat.log2_eq_iff (by omega)]
      have hle := Nat.log2_self_le hdiv.ne'
      have hgt := Nat.lt_log2_self (n := v / 2 ^ bits)
      constructor
      · rw [Nat.pow_add, Nat.mul_comm]
        exact (Nat.le_div_iff_mul_le hpos).mp hle
      · rw [Nat.add_assoc, Nat.pow_add, Nat.mul_comm]
        exact (Nat.div_lt_iff_lt_mul hpos).mp hgt

theorem logb2_eq {v : Nat} (hv : v < wordSize) : logb2 v = v.log2 := by
  obtain ⟨v₁, s₁, h₁, hv₁, hs₁, hl₁⟩ := logb2Step_spec 0 16 hv
  obtain ⟨v₂, s₂, h₂, hv₂, hs₂, hl₂⟩ := logb2Step_spec (0 ||| s₁) 8 hv₁
  obtain ⟨v₃, s₃, h₃, hv₃, hs₃, hl₃⟩ := logb2Step_spec (0 ||| s₁ ||| s₂) 4 hv₂
  obtain ⟨v₄, s₄, h₄, hv₄, hs₄, hl₄⟩ := logb2Step_spec (0 ||| s₁ ||| s₂ ||| s₃) 2 hv₃
  obtain ⟨v₅, s₅, h₅, hv₅, hs₅, hl₅⟩ :=
    logb2Step_spec (0 ||| s₁ ||| s₂ ||| s₃ ||| s₄) 1 hv₄
  have hres : logb2 v = 0 ||| s₁ ||| s₂ ||| s₃ ||| s₄ ||| s₅ := by
    have h₁ : logb2Step 0xFFFF0000 16 (v, 0) = _ := h₁
    have h₂ : logb2Step 0xFF00 8 (v₁, 0 ||| s₁) = _ := h₂
    have h₃ : logb2Step 0xF0 4 (v₂, 0 ||| s₁ ||| s₂) = _ := h₃
    have h₄ : logb2Step 0xC 2 (v₃, 0 ||| s₁ ||| s₂ ||| s₃) = _ := h₄
    have h₅ : logb2Step 0x2 1 (v₄, 0 ||| s₁ ||| s₂ ||| s₃ ||| s₄) = _ := h₅
    unfold logb2
    rw [h₁, h₂, h₃, h₄, h₅]
  have hlast : v₅.log2 = 0 := by
    have hcases : v₅ = 0 ∨ v₅ = 1 := by omega
    rcases hcases with rfl | rfl <;> decide
  rw [hres, hl₁, hl₂, hl₃, hl₄, hl₅, hlast]
  rcases hs₁ with rfl | rfl <;> rcases hs₂ with rfl | rfl <;> rcases hs₃ with rfl | rfl <;>
    rcases hs₄ with rfl | rfl <;> rcases hs₅ with rfl | rfl <;> rfl

/-! ## The bits that are kept -/

namespace CacheConfig

variable (cfg : CacheConfig)

/-- The mask of `set_index`. -/
def setMask : Nat := (cfg.nset + wordSize - 1) % wordSize

/-- The bits of the line size less one. -/
def lineMask : Nat := (cfg.lineSz + wordSize - 1) % wordSize

/-- The bits of an address that are in its tag or its set index. -/
def Indexed (b : Nat) : Prop :=
  cfg.lineSz.log2 + cfg.nset.log2 ≤ b ∨
    (cfg.lineSz.log2 ≤ b ∧ cfg.setMask.testBit (b - cfg.lineSz.log2))

/-- The bits of an address that are in its block address. -/
def Blocked (b : Nat) : Prop := b < 32 ∧ cfg.lineMask.testBit b = false

/-- The addresses differ in a bit. -/
def Differ (a a' b : Nat) : Prop := a.testBit b ≠ a'.testBit b

/-- The tag and the set index of two addresses are equal if and only if their block addresses are,
and the set indices are those of sets. -/
def Faithful (a a' : Nat) : Prop :=
  ((cfg.tag a, cfg.setIndex a) = (cfg.tag a', cfg.setIndex a') ↔ cfg.blockAddr a = cfg.blockAddr a') ∧
    cfg.setIndex a < cfg.nset ∧ cfg.setIndex a' < cfg.nset

/-- The block address is blind: the addresses differ in bits above its 32 or in bits that its mask
clears, and in no others, and one of these is in the tag or the set index. -/
def BlockBlind (a a' : Nat) : Prop :=
  (∃ b, Differ a a' b ∧ cfg.Indexed b) ∧ ∀ b, Differ a a' b → 32 ≤ b ∨ cfg.lineMask.testBit b

/-- The tag and the set index are blind: the addresses differ below them or in the zeros of the mask of
the set index, and in no other bits, and one of these is in the block address. -/
def IndexBlind (a a' : Nat) : Prop :=
  (∃ b, Differ a a' b ∧ cfg.Blocked b) ∧ ∀ b, Differ a a' b → b < cfg.lineSz.log2 ∨
    (b < cfg.lineSz.log2 + cfg.nset.log2 ∧ cfg.setMask.testBit (b - cfg.lineSz.log2) = false)

variable {cfg} {a a' b : Nat}

theorem not_indexed_iff : ¬ cfg.Indexed b ↔ b < cfg.lineSz.log2 ∨
    (b < cfg.lineSz.log2 + cfg.nset.log2 ∧ cfg.setMask.testBit (b - cfg.lineSz.log2) = false) := by
  unfold Indexed
  by_cases hl : cfg.lineSz.log2 ≤ b
  · by_cases hn : cfg.lineSz.log2 + cfg.nset.log2 ≤ b
    · simp [hl, hn]
    · simp [hl, hn, Nat.lt_of_not_le hn]
  · have hn : ¬ cfg.lineSz.log2 + cfg.nset.log2 ≤ b := by omega
    simp [hl, hn, Nat.lt_of_not_le hl]

theorem not_blocked_iff : ¬ cfg.Blocked b ↔ 32 ≤ b ∨ cfg.lineMask.testBit b := by
  unfold Blocked
  by_cases hb : b < 32
  · simp [hb]
  · simp [hb, Nat.le_of_not_lt hb]

theorem split_eq_iff : (cfg.tag a, cfg.setIndex a) = (cfg.tag a', cfg.setIndex a') ↔
    ∀ b, Differ a a' b → ¬ cfg.Indexed b := by
  rw [Prod.mk.injEq]
  constructor
  · rintro ⟨htag, hset⟩ b hd hi
    apply hd
    rcases hi with hb | ⟨hb, hm⟩
    · obtain ⟨i, rfl⟩ := Nat.exists_eq_add_of_le hb
      have hbit : (cfg.tag a).testBit i = (cfg.tag a').testBit i := by rw [htag]
      unfold tag at hbit
      rwa [Nat.testBit_shiftRight, Nat.testBit_shiftRight] at hbit
    · obtain ⟨i, rfl⟩ := Nat.exists_eq_add_of_le hb
      rw [Nat.add_sub_cancel_left] at hm
      have hbit : (cfg.setIndex a).testBit i = (cfg.setIndex a').testBit i := by rw [hset]
      have hm : ((cfg.nset + wordSize - 1) % wordSize).testBit i := hm
      unfold setIndex at hbit
      rw [Nat.testBit_and, Nat.testBit_and, Nat.testBit_shiftRight, Nat.testBit_shiftRight, hm,
        Bool.and_true, Bool.and_true] at hbit
      exact hbit
  · intro h
    have hsame : ∀ b, cfg.Indexed b → a.testBit b = a'.testBit b := by
      intro b hi
      by_contra hd
      exact h b hd hi
    constructor
    · apply Nat.eq_of_testBit_eq
      intro i
      unfold tag
      rw [Nat.testBit_shiftRight, Nat.testBit_shiftRight]
      exact hsame _ (.inl (Nat.le_add_right _ _))
    · apply Nat.eq_of_testBit_eq
      intro i
      unfold setIndex
      rw [Nat.testBit_and, Nat.testBit_and, Nat.testBit_shiftRight, Nat.testBit_shiftRight]
      by_cases hm : cfg.setMask.testBit i
      · have hi : cfg.Indexed (cfg.lineSz.log2 + i) := by
          refine .inr ⟨Nat.le_add_right _ _, ?_⟩
          rwa [Nat.add_sub_cancel_left]
        rw [hsame _ hi]
      · have hm : ((cfg.nset + wordSize - 1) % wordSize).testBit i = false :=
          (Bool.not_eq_true _).mp hm
        rw [hm, Bool.and_false, Bool.and_false]

theorem testBit_blockMask : (wordSize - 1 - cfg.lineMask).testBit b =
    (decide (b < 32) && !cfg.lineMask.testBit b) := by
  have hlt : cfg.lineMask < 2 ^ 32 := Nat.mod_lt _ (by decide)
  rw [Nat.sub_sub, Nat.add_comm 1]
  exact Nat.testBit_two_pow_sub_succ hlt b

theorem blockAddr_eq_iff : cfg.blockAddr a = cfg.blockAddr a' ↔ ∀ b, Differ a a' b → ¬ cfg.Blocked b := by
  have hbits : ∀ x b, (cfg.blockAddr x).testBit b =
      (x.testBit b && (decide (b < 32) && !cfg.lineMask.testBit b)) := by
    intro x b
    rw [← testBit_blockMask]
    exact Nat.testBit_and _ _ _
  constructor
  · rintro h b hd ⟨hb, hm⟩
    apply hd
    have hbit : (cfg.blockAddr a).testBit b = (cfg.blockAddr a').testBit b := by rw [h]
    simpa [hbits, hb, hm] using hbit
  · intro h
    apply Nat.eq_of_testBit_eq
    intro b
    rw [hbits, hbits]
    by_cases hk : cfg.Blocked b
    · have hsame : a.testBit b = a'.testBit b := by
        by_contra hd
        exact h b hd hk
      rw [hsame]
    · have hzero : (decide (b < 32) && !cfg.lineMask.testBit b) = false := by
        rcases not_blocked_iff.mp hk with hb | hm
        · simp [Nat.not_lt.mpr hb]
        · simp [hm]
      rw [hzero, Bool.and_false, Bool.and_false]

theorem setIndex_lt_iff (hn : cfg.nset < wordSize) : cfg.setIndex a < cfg.nset ↔ cfg.nset ≠ 0 := by
  constructor
  · intro h
    omega
  · intro h
    have hmask : (cfg.nset + wordSize - 1) % wordSize = cfg.nset - 1 := by
      have heq : cfg.nset + wordSize - 1 = cfg.nset - 1 + wordSize := by omega
      rw [heq, Nat.add_mod_right, Nat.mod_eq_of_lt (by omega)]
    unfold setIndex
    rw [hmask]
    have hle : a >>> cfg.lineSz.log2 &&& (cfg.nset - 1) ≤ cfg.nset - 1 := Nat.and_le_right
    omega

theorem faithful_iff (hn : cfg.nset < wordSize) : cfg.Faithful a a' ↔
    cfg.nset ≠ 0 ∧ ¬ cfg.BlockBlind a a' ∧ ¬ cfg.IndexBlind a a' := by
  unfold Faithful BlockBlind IndexBlind
  rw [split_eq_iff, blockAddr_eq_iff, setIndex_lt_iff hn, setIndex_lt_iff hn]
  simp only [← not_indexed_iff, ← not_blocked_iff]
  constructor
  · rintro ⟨hiff, h0, -⟩
    refine ⟨h0, ?_, ?_⟩
    · rintro ⟨⟨b, hd, hi⟩, hall⟩
      exact hiff.mpr hall b hd hi
    · rintro ⟨⟨b, hd, hk⟩, hall⟩
      exact hiff.mp hall b hd hk
  · rintro ⟨h0, hblock, hindex⟩
    refine ⟨⟨?_, ?_⟩, h0, h0⟩
    · intro hall b hd hk
      exact hindex ⟨⟨b, hd, hk⟩, hall⟩
    · intro hall b hd hi
      exact hblock ⟨⟨b, hd, hi⟩, hall⟩

/-! ## Powers of two -/

/-- The size of a line is a power of two, there are sets, and the mask of the set index has no zero
among the bits below the 32nd of an address. -/
structure PowersOfTwo (cfg : CacheConfig) : Prop where
  lineSz : cfg.lineSz = 2 ^ cfg.lineSz.log2
  ne_zero : cfg.nset ≠ 0
  nset : 2 ^ min cfg.nset.log2 (32 - cfg.lineSz.log2) ∣ cfg.nset

theorem setMask_eq (hn : cfg.nset < wordSize) (h0 : cfg.nset ≠ 0) : cfg.setMask = cfg.nset - 1 := by
  have heq : cfg.nset + wordSize - 1 = cfg.nset - 1 + wordSize := by omega
  unfold setMask
  rw [heq, Nat.add_mod_right, Nat.mod_eq_of_lt (by omega)]

theorem lineMask_eq (hl : cfg.lineSz < wordSize) (h0 : cfg.lineSz ≠ 0) : cfg.lineMask = cfg.lineSz - 1 := by
  have heq : cfg.lineSz + wordSize - 1 = cfg.lineSz - 1 + wordSize := by omega
  unfold lineMask
  rw [heq, Nat.add_mod_right, Nat.mod_eq_of_lt (by omega)]

theorem log2_lt_word {n : Nat} (hn : n < wordSize) : n.log2 < 32 := by
  by_cases h0 : n = 0
  · subst h0
    decide
  · exact (Nat.log2_lt h0).mpr hn

/-- With these sizes the bits of the tag, of the set index and of the block address are those from the
size of a line on, as far as there are any in the block address. -/
theorem PowersOfTwo.indexed_iff (h : PowersOfTwo cfg) (hn : cfg.nset < wordSize) (hb : b < 32) :
    cfg.Indexed b ↔ cfg.lineSz.log2 ≤ b := by
  unfold Indexed
  constructor
  · rintro (hle | ⟨hle, -⟩)
    · omega
    · exact hle
  · intro hle
    by_cases hge : cfg.lineSz.log2 + cfg.nset.log2 ≤ b
    · exact .inl hge
    · refine .inr ⟨hle, ?_⟩
      rw [setMask_eq hn h.ne_zero]
      apply (testBit_pred_iff (Nat.pos_of_ne_zero h.ne_zero)).mpr h.nset
      omega

theorem PowersOfTwo.blocked_iff (h : PowersOfTwo cfg) (hl : cfg.lineSz < wordSize) :
    cfg.Blocked b ↔ b < 32 ∧ cfg.lineSz.log2 ≤ b := by
  have h0 : cfg.lineSz ≠ 0 := by
    rw [h.lineSz]
    exact (Nat.two_pow_pos _).ne'
  unfold Blocked
  rw [lineMask_eq hl h0, h.lineSz, Nat.testBit_two_pow_sub_one, Nat.log2_two_pow]
  simp

theorem powersOfTwo_of_bits (hn : cfg.nset < wordSize) (hl : cfg.lineSz < wordSize)
    (h0 : cfg.nset ≠ 0) (h : ∀ b < 32, cfg.Indexed b ↔ cfg.Blocked b) : PowersOfTwo cfg := by
  have hllt := log2_lt_word hl
  have hnlt := log2_lt_word hn
  have hline : cfg.lineSz ≠ 0 := by
    intro hzero
    -- the last bit is in the tag, and no bit is in the block address
    have hi : cfg.Indexed 31 := by
      left
      rw [hzero, Nat.log2_zero]
      omega
    have hm := ((h 31 (by decide)).mp hi).2
    unfold lineMask at hm
    rw [hzero] at hm
    exact absurd hm (by decide)
  have hlow : ∀ j < cfg.lineSz.log2, (cfg.lineSz - 1).testBit j := by
    intro j hj
    rw [← lineMask_eq hl hline]
    by_contra hm
    have hi := (h j (by omega)).mpr ⟨by omega, (Bool.not_eq_true _).mp hm⟩
    exact not_indexed_iff.mpr (.inl hj) hi
  have hpow := eq_two_pow_log2 hline ((testBit_pred_iff (Nat.pos_of_ne_zero hline)).mp hlow)
  refine ⟨hpow, h0, ?_⟩
  apply (testBit_pred_iff (Nat.pos_of_ne_zero h0)).mp
  intro j hj
  have hblocked : cfg.Blocked (cfg.lineSz.log2 + j) := by
    refine ⟨by omega, ?_⟩
    rw [lineMask_eq hl hline, hpow, Nat.testBit_two_pow_sub_one, Nat.log2_two_pow]
    simp
  rcases (h (cfg.lineSz.log2 + j) (by omega)).mpr hblocked with hge | ⟨-, hbit⟩
  · omega
  · rwa [Nat.add_sub_cancel_left, setMask_eq hn h0] at hbit

theorem differ_lt (h : a / 2 ^ 32 = a' / 2 ^ 32) (hd : Differ a a' b) : b < 32 := by
  by_contra hb
  apply hd
  obtain ⟨i, rfl⟩ := Nat.exists_eq_add_of_le (Nat.le_of_not_lt hb)
  have hbit : (a / 2 ^ 32).testBit i = (a' / 2 ^ 32).testBit i := by rw [h]
  rwa [Nat.testBit_div_two_pow, Nat.testBit_div_two_pow, Nat.add_comm] at hbit

theorem differ_two_pow_zero : Differ (2 ^ b) 0 b' ↔ b' = b := by
  unfold Differ
  rw [Nat.testBit_two_pow, Nat.zero_testBit]
  simp [eq_comm]

/-- The split is faithful to all addresses that agree from the 32nd bit on exactly with these sizes. -/
theorem powersOfTwo_iff (hn : cfg.nset < wordSize) (hl : cfg.lineSz < wordSize) :
    (∀ a a', a < 2 ^ 64 → a' < 2 ^ 64 → a / 2 ^ 32 = a' / 2 ^ 32 → cfg.Faithful a a') ↔ PowersOfTwo cfg := by
  constructor
  · intro h
    have h0 : cfg.nset ≠ 0 := by
      have hzero := h 0 0 (by decide) (by decide) rfl
      exact ((faithful_iff hn).mp hzero).1
    apply powersOfTwo_of_bits hn hl h0
    intro b hb
    -- the addresses that differ in this bit only
    have hlt : 2 ^ b < 2 ^ 32 := Nat.pow_lt_pow_right (by decide) hb
    have hone : cfg.Faithful (2 ^ b) 0 := by
      apply h _ _ (by omega) (by decide)
      rw [Nat.div_eq_of_lt hlt, Nat.zero_div]
    obtain ⟨-, hblock, hindex⟩ := (faithful_iff hn).mp hone
    have hself : Differ (2 ^ b) 0 b := differ_two_pow_zero.mpr rfl
    constructor
    · intro hi
      by_contra hk
      refine hblock ⟨⟨b, hself, hi⟩, ?_⟩
      intro b' hd
      obtain rfl := differ_two_pow_zero.mp hd
      exact not_blocked_iff.mp hk
    · intro hk
      by_contra hi
      refine hindex ⟨⟨b, hself, hk⟩, ?_⟩
      intro b' hd
      obtain rfl := differ_two_pow_zero.mp hd
      exact not_indexed_iff.mp hi
  · intro h a a' _ _ hupper
    have hsame : ∀ b, Differ a a' b → (cfg.Indexed b ↔ cfg.Blocked b) := by
      intro b hd
      have hb := differ_lt hupper hd
      rw [h.indexed_iff hn hb, h.blocked_iff hl]
      simp [hb]
    refine (faithful_iff hn).mpr ⟨h.ne_zero, ?_, ?_⟩
    · rintro ⟨⟨b, hd, hi⟩, hall⟩
      exact not_blocked_iff.mpr (hall b hd) ((hsame b hd).mp hi)
    · rintro ⟨⟨b, hd, hk⟩, hall⟩
      exact not_indexed_iff.mpr (hall b hd) ((hsame b hd).mpr hk)

theorem upper_eq_iff : a / 2 ^ 32 = a' / 2 ^ 32 ↔ ∀ b, Differ a a' b → b < 32 := by
  constructor
  · intro h b
    exact differ_lt h
  · intro h
    apply Nat.eq_of_testBit_eq
    intro i
    rw [Nat.testBit_div_two_pow, Nat.testBit_div_two_pow]
    by_contra hd
    have hlt := h (i + 32) hd
    omega

theorem lower_eq_iff {l : Nat} : a % 2 ^ 32 / 2 ^ l = a' % 2 ^ 32 / 2 ^ l ↔
    ∀ b, Differ a a' b → b < l ∨ 32 ≤ b := by
  have hbits : ∀ x i, (x % 2 ^ 32 / 2 ^ l).testBit i = (decide (i + l < 32) && x.testBit (i + l)) := by
    intro x i
    rw [Nat.testBit_div_two_pow, Nat.testBit_mod_two_pow]
  constructor
  · intro h b hd
    by_contra hb
    obtain ⟨hl, hlt⟩ := not_or.mp hb
    obtain ⟨i, rfl⟩ := Nat.exists_eq_add_of_le' (Nat.le_of_not_lt hl)
    apply hd
    have hbit : (a % 2 ^ 32 / 2 ^ l).testBit i = (a' % 2 ^ 32 / 2 ^ l).testBit i := by rw [h]
    rw [hbits, hbits] at hbit
    simpa [Nat.lt_of_not_le hlt] using hbit
  · intro h
    apply Nat.eq_of_testBit_eq
    intro i
    rw [hbits, hbits]
    by_cases hi : i + l < 32
    · have hsame : a.testBit (i + l) = a'.testBit (i + l) := by
        by_contra hd
        rcases h _ hd with hlt | hge <;> omega
      rw [hsame]
    · simp [hi]

/-- With powers of two that do not exceed the lower 32 bits together, the split is faithful unless two
addresses in the same line of their lower 32 bits differ above these. -/
theorem PowersOfTwo.faithful_iff (h : PowersOfTwo cfg) (hn : cfg.nset < wordSize)
    (hl : cfg.lineSz < wordSize) (hsum : cfg.lineSz.log2 + cfg.nset.log2 ≤ 32) : cfg.Faithful a a' ↔
      a / 2 ^ 32 = a' / 2 ^ 32 ∨ a % 2 ^ 32 / cfg.lineSz ≠ a' % 2 ^ 32 / cfg.lineSz := by
  have hindexed : ∀ b, cfg.Indexed b ↔ cfg.lineSz.log2 ≤ b := by
    intro b
    by_cases hb : b < 32
    · exact h.indexed_iff hn hb
    · refine ⟨fun _ => by omega, fun _ => .inl (by omega)⟩
  have hnot : ∀ b, ¬ cfg.Blocked b ↔ b < cfg.lineSz.log2 ∨ 32 ≤ b := by
    intro b
    rw [h.blocked_iff hl]
    omega
  rw [CacheConfig.faithful_iff hn]
  have hindex : ¬ cfg.IndexBlind a a' := by
    rintro ⟨⟨b, hd, hk⟩, hall⟩
    exact not_indexed_iff.mpr (hall b hd) ((hindexed b).mpr ((h.blocked_iff hl).mp hk).2)
  have hblock : cfg.BlockBlind a a' ↔ ¬ a / 2 ^ 32 = a' / 2 ^ 32 ∧
      a % 2 ^ 32 / cfg.lineSz = a' % 2 ^ 32 / cfg.lineSz := by
    have hlower : a % 2 ^ 32 / cfg.lineSz = a' % 2 ^ 32 / cfg.lineSz ↔
        ∀ b, Differ a a' b → b < cfg.lineSz.log2 ∨ 32 ≤ b := by
      rw [← lower_eq_iff, ← h.lineSz]
    unfold BlockBlind
    rw [hlower, upper_eq_iff]
    simp only [← not_blocked_iff, hnot, hindexed]
    constructor
    · rintro ⟨⟨b, hd, hi⟩, hall⟩
      refine ⟨?_, hall⟩
      intro hlow
      have hlt := hlow b hd
      rcases hall b hd with hb | hb <;> omega
    · rintro ⟨hup, hall⟩
      refine ⟨?_, hall⟩
      by_contra hnone
      apply hup
      intro b hd
      rcases hall b hd with hb | hb
      · have hllt := log2_lt_word hl
        omega
      · exact absurd ⟨b, hd, by omega⟩ hnone
  rw [hblock]
  have h0 := h.ne_zero
  tauto

theorem not_faithful_upper (hn : cfg.nset < wordSize) (hl : cfg.lineSz < wordSize) :
    ¬ cfg.Faithful (2 ^ 63) 0 := by
  have hllt := log2_lt_word hl
  have hnlt := log2_lt_word hn
  intro h
  obtain ⟨-, hblock, -⟩ := (faithful_iff hn).mp h
  refine hblock ⟨⟨63, differ_two_pow_zero.mpr rfl, .inl (by omega)⟩, ?_⟩
  intro b hd
  obtain rfl := differ_two_pow_zero.mp hd
  exact .inl (by decide)

end CacheConfig

open CacheConfig

/-- **The split of an address** by a configuration that is accepted. It is faithful to two addresses
unless the block address or the tag and the set index are blind to what they differ in. It is
faithful to all addresses with the same upper 32 bits if and only if the sizes are powers of two; to
all addresses it never is. -/
theorem faithful_of_init {old : Unset} {s : List Char} {p : ParsedConfig}
    (h : ParsedConfig.init old s = .ok (some p)) :
    (∀ a a', p.cfg.Faithful a a' ↔
      p.cfg.nset ≠ 0 ∧ ¬ p.cfg.BlockBlind a a' ∧ ¬ p.cfg.IndexBlind a a') ∧
    ((∀ a a', a < 2 ^ 64 → a' < 2 ^ 64 → a / 2 ^ 32 = a' / 2 ^ 32 → p.cfg.Faithful a a') ↔
      PowersOfTwo p.cfg) ∧
    (PowersOfTwo p.cfg → p.cfg.lineSz.log2 + p.cfg.nset.log2 ≤ 32 → ∀ a a', p.cfg.Faithful a a' ↔
      a / 2 ^ 32 = a' / 2 ^ 32 ∨ a % 2 ^ 32 / p.cfg.lineSz ≠ a' % 2 ^ 32 / p.cfg.lineSz) ∧
    ¬ ∀ a a', a < 2 ^ 64 → a' < 2 ^ 64 → p.cfg.Faithful a a' := by
  obtain ⟨hn, hl⟩ := ParsedConfig.init_lt h
  refine ⟨fun a a' => faithful_iff hn, powersOfTwo_iff hn hl, ?_, ?_⟩
  · intro hpow hsum a a'
    exact hpow.faithful_iff hn hl hsum
  · intro hall
    exact not_faithful_upper hn hl (hall _ _ (by decide) (by decide))

/-- The string that the texture cache has by default. -/
def defaultTexture : List Char := "8:128:5,L:R:m:N,F:128:4,128:2".toList

theorem faithful_defaultTexture : ∃ p, ParsedConfig.init ⟨0, 0⟩ defaultTexture = .ok (some p) ∧
    ((∀ a a', a < 2 ^ 64 → a' < 2 ^ 64 → a / 2 ^ 32 = a' / 2 ^ 32 → p.cfg.Faithful a a') ↔
      PowersOfTwo p.cfg) := by
  have h : ParsedConfig.init ⟨0, 0⟩ defaultTexture = .ok (some {
      cfg := ⟨8, 128, 5, .lru, .readOnly, .onMiss, .noWriteAllocate, 128, 4, 128⟩
      mshrType := .texFifo
      resultFifoEntries := 2 }) := rfl
  exact ⟨_, h, (faithful_of_init h).2.1⟩

/-- Addresses that are `2 ^ 32` apart have the same block address and different tags. -/
theorem not_faithful_defaultTexture : ∃ p,
    ParsedConfig.init ⟨0, 0⟩ defaultTexture = .ok (some p) ∧
      p.cfg.blockAddr 0 = p.cfg.blockAddr (2 ^ 32) ∧ p.cfg.tag 0 ≠ p.cfg.tag (2 ^ 32) ∧
      ¬ p.cfg.Faithful 0 (2 ^ 32) := by
  refine ⟨_, rfl, by decide, by decide, ?_⟩
  intro h
  have htag := (Prod.mk.inj (h.1.mpr (by decide))).1
  exact absurd htag (by decide)

end GpgpuSimRuby.Cache
