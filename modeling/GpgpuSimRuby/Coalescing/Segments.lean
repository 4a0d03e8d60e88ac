import GpgpuSimRuby.Coalescing.WarpInst

/-!
# Segments

The segments of 32, 64 and 128 bytes that global and local accesses go to, and what is left of a
segment when it is reduced: the chunks that are used, or all of it if both halves of 128 bytes are.
-/

namespace GpgpuSimRuby.Coalescing

open Library

/-! ## Addresses of segments -/

theorem blockOf_two_pow {k address : Nat} (hk : k < 64) (h : address < 2 ^ 64) :
    blockOf (2 ^ k) address = address / 2 ^ k * 2 ^ k := by
  have hlt : 2 ^ k < 2 ^ 64 := Nat.pow_lt_pow_right (by decide) hk
  have hpos := Nat.two_pow_pos k
  have hmask : 2 ^ 64 - 1 - (2 ^ k + (2 ^ 64 - 1)) % 2 ^ 64 = 2 ^ 64 - (2 ^ k - 1 + 1) := by omega
  apply Nat.eq_of_testBit_eq
  intro i
  unfold blockOf
  rw [hmask, Nat.testBit_and, Nat.testBit_two_pow_sub_succ (by omega), Nat.testBit_two_pow_sub_one,
    Nat.testBit_mul_two_pow, Nat.testBit_div_two_pow]
  by_cases hik : k ≤ i
  · rw [Nat.sub_add_cancel hik]
    by_cases hi : i < 64
    · simp [hik, hi, Nat.not_lt.mpr hik]
    · have hbit : address.testBit i = false :=
        Nat.testBit_lt_two_pow (Nat.lt_of_lt_of_le h (Nat.pow_le_pow_right (by decide) (not_lt.mp hi)))
      simp [hbit]
  · simp [hik, not_le.mp hik]

/-- The sizes of segments. -/
def IsSegmentSize (size : Nat) : Prop := size = 32 ∨ size = 64 ∨ size = 128

variable {size address n : Nat}

theorem IsSegmentSize.tag (h : IsSegmentSize size) (haddr : address < 2 ^ 64) :
    lineSizeBasedTagFunc address size = address / size * size % 2 ^ 32 := by
  rw [lineSizeBasedTagFunc_eq]
  rcases h with rfl | rfl | rfl
  · rw [show 32 = 2 ^ 5 from rfl, blockOf_two_pow (by decide) haddr]
  · rw [show 64 = 2 ^ 6 from rfl, blockOf_two_pow (by decide) haddr]
  · rw [show 128 = 2 ^ 7 from rfl, blockOf_two_pow (by decide) haddr]

theorem IsSegmentSize.tag_of_lt (h : IsSegmentSize size) (haddr : address < 2 ^ 32) :
    lineSizeBasedTagFunc address size = address / size * size := by
  rw [h.tag (haddr.trans (by decide))]
  exact Nat.mod_eq_of_lt (Nat.lt_of_le_of_lt (Nat.div_mul_le_self _ _) haddr)

/-- An access that lies in one segment. -/
def InSegment (size address n : Nat) : Prop := address % size + n ≤ size

theorem IsSegmentSize.last_iff (h : IsSegmentSize size) (haddr : address < 2 ^ 64) (hn : 0 < n)
    (hle : n ≤ 32) :
    lineSizeBasedTagFunc address size =
        lineSizeBasedTagFunc ((address + n + (2 ^ 64 - 1)) % 2 ^ 64) size ↔
      InSegment size address n := by
  rw [h.tag haddr, h.tag (Nat.mod_lt _ (by decide))]
  unfold InSegment
  rcases h with rfl | rfl | rfl <;> omega

theorem IsSegmentSize.range (h : IsSegmentSize size) (hin : InSegment size address n) :
    address % 128 + n ≤ MAX_MEMORY_ACCESS_SIZE := by
  unfold InSegment at hin
  unfold MAX_MEMORY_ACCESS_SIZE
  rcases h with rfl | rfl | rfl <;> omega

theorem IsSegmentSize.aligned (h : IsSegmentSize size) {b : Nat} (hb : size ∣ b) :
    b &&& (size + (2 ^ 32 - 1)) % 2 ^ 32 = 0 := by
  rcases h with rfl | rfl | rfl
  · rw [show (32 + (2 ^ 32 - 1)) % 2 ^ 32 = 2 ^ 5 - 1 from rfl, Nat.and_two_pow_sub_one_eq_mod]
    exact Nat.mod_eq_zero_of_dvd hb
  · rw [show (64 + (2 ^ 32 - 1)) % 2 ^ 32 = 2 ^ 6 - 1 from rfl, Nat.and_two_pow_sub_one_eq_mod]
    exact Nat.mod_eq_zero_of_dvd hb
  · rw [show (128 + (2 ^ 32 - 1)) % 2 ^ 32 = 2 ^ 7 - 1 from rfl, Nat.and_two_pow_sub_one_eq_mod]
    exact Nat.mod_eq_zero_of_dvd hb

/-! ## Reductions -/

/-- The chunk of a byte. -/
def chunk (address : Nat) : Nat := address % 128 / 32

/-- The chunks that are left of a segment: those that are used, or all of 128 bytes. -/
def Left (size : Nat) (q : Finset Nat) (c : Nat) : Prop :=
  c ∈ q ∨ size = 128 ∧ (0 ∈ q ∨ 1 ∈ q) ∧ (2 ∈ q ∨ 3 ∈ q)

/-- What a reduction may be: a segment inside the old one. -/
structure Reduced (size : Nat) (q : Finset Nat) (b : Nat) (p : Nat × Nat) : Prop where
  segment : IsSegmentSize p.2
  aligned : p.2 ∣ p.1
  lower : b ≤ p.1
  upper : p.1 + p.2 ≤ b + size
  left : ∀ y, b ≤ y → y < b + size → ((p.1 ≤ y ∧ y < p.1 + p.2) ↔ Left size q (chunk y))

namespace WarpInst

variable {cfg : CoreConfig} {inst : WarpInst cfg} {q : Finset Nat} {b : Nat} {c : Nat}

/-- The sizes that have segments. -/
def HasSegments (inst : WarpInst cfg) : Prop :=
  inst.dataSize = 1 ∨ inst.dataSize = 2 ∨ inst.dataSize = 4 ∨ inst.dataSize = 8 ∨ inst.dataSize = 16

theorem HasSegments.pos (h : inst.HasSegments) : 0 < inst.dataSize ∧ inst.dataSize ≤ 16 := by
  unfold HasSegments at h
  omega

theorem HasSegments.segment (h : inst.HasSegments) : IsSegmentSize inst.segmentSize := by
  unfold segmentSize
  rcases h with h | h | h | h | h <;> rw [h]
  · exact .inl rfl
  · exact .inr (.inl rfl)
  all_goals exact .inr (.inr rfl)

theorem reduceHalves_ok (b : Nat) (lower upper : Bool) (h : lower ∨ upper) :
    reduceHalves b lower upper =
    .ok (if lower ∧ upper then (b, 64) else if lower then (b, 32) else (b + 32, 32)) := by
  cases lower <;> cases upper
  · simp at h
  all_goals rfl

theorem reduced_halves (hb : b % 128 = 32 * c) (hc : c = 0 ∨ c = 2) (h : c ∈ q ∨ c + 1 ∈ q) :
    ∃ p, reduceHalves b (c ∈ q) (c + 1 ∈ q) = .ok p ∧ IsSegmentSize p.2 ∧ p.2 ∣ p.1 ∧ b ≤ p.1 ∧
      p.1 + p.2 ≤ b + 64 ∧ ∀ y, b ≤ y → y < b + 64 → ((p.1 ≤ y ∧ y < p.1 + p.2) ↔ chunk y ∈ q) := by
  have hchunk :
      ∀ y, b ≤ y → y < b + 64 → (chunk y = c ∧ y < b + 32) ∨ (chunk y = c + 1 ∧ b + 32 ≤ y) := by
    intro y hge hlt
    unfold chunk
    rcases hc with rfl | rfl <;> omega
  have hok := reduceHalves_ok b (c ∈ q) (c + 1 ∈ q) (by simpa using h)
  rw [hok]
  refine ⟨_, rfl, ?_⟩
  by_cases hlower : c ∈ q
  · by_cases hupper : c + 1 ∈ q
    · simp only [hlower, hupper, decide_true, and_self, if_true]
      refine ⟨.inr (.inl rfl), by rcases hc with rfl | rfl <;> omega, le_rfl, le_rfl, ?_⟩
      intro y hge hlt
      rcases hchunk y hge hlt with ⟨heq, -⟩ | ⟨heq, -⟩
      · simp [heq, hlower, hge, hlt]
      · simp [heq, hupper, hge, hlt]
    · simp only [hlower, hupper, decide_true, decide_false, and_false, if_true, if_false,
        Bool.false_eq_true]
      refine ⟨.inl rfl, by rcases hc with rfl | rfl <;> omega, le_rfl, by omega, ?_⟩
      intro y hge hlt
      rcases hchunk y hge hlt with ⟨heq, hy⟩ | ⟨heq, hy⟩
      · simp [heq, hlower, hge, hy]
      · simp [heq, hupper, hy]
  · have hupper := h.resolve_left hlower
    simp only [hlower, hupper, decide_true, decide_false, false_and, if_false, Bool.false_eq_true]
    refine ⟨.inl rfl, by rcases hc with rfl | rfl <;> omega, by omega, by omega, ?_⟩
    intro y hge hlt
    rcases hchunk y hge hlt with ⟨heq, hy⟩ | ⟨heq, hy⟩
    · simp only [heq, hlower, iff_false]
      omega
    · simp only [heq, hupper, iff_true]
      omega

theorem left_iff_mem (h : size ≠ 128 ∨ ¬ (0 ∈ q ∨ 1 ∈ q) ∨ ¬ (2 ∈ q ∨ 3 ∈ q)) :
    Left size q c ↔ c ∈ q := by
  unfold Left
  tauto

theorem reduce_32 (hb : 32 ∣ b) (hc : c ∈ q) (hin : ∃ y, b ≤ y ∧ y < b + 32 ∧ chunk y = c) :
    ∃ p, reduce q b 32 = .ok p ∧ Reduced 32 q b p := by
  refine ⟨(b, 32), rfl, .inl rfl, hb, le_rfl, le_rfl, ?_⟩
  intro y hge hlt
  obtain ⟨y₀, hge₀, hlt₀, hy₀⟩ := hin
  have hsame : chunk y = c := by
    rw [← hy₀]
    unfold chunk
    omega
  rw [left_iff_mem (.inl (by decide)), hsame]
  simp [hge, hlt, hc]

theorem reduce_64 (hb : 64 ∣ b) (hc : c ∈ q) (hin : ∃ y, b ≤ y ∧ y < b + 64 ∧ chunk y = c) :
    ∃ p, reduce q b 64 = .ok p ∧ Reduced 64 q b p := by
  have hplace : c = b % 128 / 32 ∨ c = b % 128 / 32 + 1 := by
    obtain ⟨y, hge, hlt, rfl⟩ := hin
    unfold chunk
    omega
  have hused (k : Nat) (hk : b % 128 = 32 * k) : k ∈ q ∨ k + 1 ∈ q := by
    rw [hk, Nat.mul_div_cancel_left _ (by decide)] at hplace
    rcases hplace with rfl | rfl
    · exact .inl hc
    · exact .inr hc
  unfold reduce
  rw [if_neg (by decide), if_pos rfl]
  by_cases hlow : b % 128 = 0
  · rw [if_pos hlow]
    obtain ⟨p, hp, hsize, haligned, hlower, hupper, hleft⟩ :=
      reduced_halves hlow (.inl rfl) (hused 0 hlow)
    refine ⟨p, hp, hsize, haligned, hlower, hupper, ?_⟩
    intro y hge hlt
    rw [left_iff_mem (.inl (by decide))]
    exact hleft y hge hlt
  · have hhigh : b % 128 = 64 := by omega
    rw [if_neg hlow, assert_pos hhigh, ok_bind]
    obtain ⟨p, hp, hsize, haligned, hlower, hupper, hleft⟩ :=
      reduced_halves hhigh (.inr rfl) (hused 2 hhigh)
    refine ⟨p, hp, hsize, haligned, hlower, hupper, ?_⟩
    intro y hge hlt
    rw [left_iff_mem (.inl (by decide))]
    exact hleft y hge hlt

theorem reduce_128_lower (hb : b % 128 = 0) (hlower : 0 ∈ q ∨ 1 ∈ q) (hupper : ¬ (2 ∈ q ∨ 3 ∈ q)) :
    ∃ p, reduce q b 128 = .ok p ∧ Reduced 128 q b p := by
  obtain ⟨p, hp, hsize, haligned, hfrom, hto, hleft⟩ :=
    reduced_halves (q := q) (c := 0) hb (.inl rfl) hlower
  refine ⟨p, ?_, hsize, haligned, hfrom, by omega, ?_⟩
  · unfold reduce
    rw [if_pos rfl]
    simpa [hlower, hupper] using hp
  · intro y hge hlt
    rw [left_iff_mem (.inr (.inr hupper))]
    by_cases hhalf : y < b + 64
    · exact hleft y hge hhalf
    · have hchunk : chunk y = 2 ∨ chunk y = 3 := by
        unfold chunk
        omega
      have hmem : chunk y ∉ q := by
        intro hmem
        rcases hchunk with heq | heq <;> rw [heq] at hmem
        · exact hupper (.inl hmem)
        · exact hupper (.inr hmem)
      simp only [hmem, iff_false]
      omega

theorem reduce_128_upper (hb : b % 128 = 0) (hlower : ¬ (0 ∈ q ∨ 1 ∈ q)) (hupper : 2 ∈ q ∨ 3 ∈ q) :
    ∃ p, reduce q b 128 = .ok p ∧ Reduced 128 q b p := by
  obtain ⟨p, hp, hsize, haligned, hfrom, hto, hleft⟩ :=
    reduced_halves (b := b + 64) (q := q) (c := 2) (by omega) (.inr rfl) hupper
  refine ⟨p, ?_, hsize, haligned, by omega, by omega, ?_⟩
  · unfold reduce
    rw [if_pos rfl]
    simpa [hlower, hupper] using hp
  · intro y hge hlt
    rw [left_iff_mem (.inr (.inl hlower))]
    by_cases hhalf : b + 64 ≤ y
    · exact hleft y hhalf (by omega)
    · have hchunk : chunk y = 0 ∨ chunk y = 1 := by
        unfold chunk
        omega
      have hmem : chunk y ∉ q := by
        intro hmem
        rcases hchunk with heq | heq <;> rw [heq] at hmem
        · exact hlower (.inl hmem)
        · exact hlower (.inr hmem)
      simp only [hmem, iff_false]
      omega

theorem reduce_128 (hb : 128 ∣ b) (hc : c ∈ q) (hlt : c < 4) :
    ∃ p, reduce q b 128 = .ok p ∧ Reduced 128 q b p := by
  have hzero : b % 128 = 0 := Nat.mod_eq_zero_of_dvd hb
  have hhalf : (0 ∈ q ∨ 1 ∈ q) ∨ (2 ∈ q ∨ 3 ∈ q) := by
    interval_cases c
    · exact .inl (.inl hc)
    · exact .inl (.inr hc)
    · exact .inr (.inl hc)
    · exact .inr (.inr hc)
  by_cases hlower : 0 ∈ q ∨ 1 ∈ q
  · by_cases hupper : 2 ∈ q ∨ 3 ∈ q
    · refine ⟨(b, 128), ?_, .inr (.inr rfl), hb, le_rfl, le_rfl, ?_⟩
      · unfold reduce
        simp [hlower, hupper]
      · intro y hge hlt
        have hleft : Left 128 q (chunk y) := .inr ⟨rfl, hlower, hupper⟩
        simp [hge, hlt, hleft]
    · exact reduce_128_lower hzero hlower hupper
  · exact reduce_128_upper hzero hlower (hhalf.resolve_left hlower)

/-- **A reduction** leaves the chunks that are used, or all of 128 bytes if both halves are. -/
theorem reduce_ok (hsize : IsSegmentSize size) (hb : size ∣ b) (hc : c ∈ q)
    (hin : ∃ y, b ≤ y ∧ y < b + size ∧ chunk y = c) :
    ∃ p, reduce q b size = .ok p ∧ Reduced size q b p := by
  rcases hsize with rfl | rfl | rfl
  · exact reduce_32 hb hc hin
  · exact reduce_64 hb hc hin
  · obtain ⟨y, -, -, rfl⟩ := hin
    apply reduce_128 hb hc
    unfold chunk
    omega

end WarpInst

end GpgpuSimRuby.Coalescing
