import GpgpuSimRuby.Addrdec.PartitionAddress

/-!
# Raw addresses

The law that the sweep samples: a chip that there is, and different raw addresses for addresses that
differ in a bit of the layout. A field keeps 32 of its bits. If the address is divided, the fields
have bits of the quotient, and a bit of the address is known if the quotient's bits are from as many
places below it as the number of chips has factors of two.
-/

namespace GpgpuSimRuby.Addrdec

open Library
open Translation

/-! ## The law -/

section Layouts

variable (m : Field → Nat → Bool) (nchips : Nat)

/-- The bits of a field. -/
def bitsOf (f : Field) : List Nat := (List.range 64).filter (m f)

/-- The bits that a field keeps. -/
def keptOf (f : Field) : List Nat := (bitsOf m f).take 32

/-- Some field has the bit. -/
def Covered (p : Nat) : Prop := ∃ f, m f p = true

/-- Layouts for a power of two: not too many bits for the chip, and every bit is kept by some field. -/
structure PowerLayout : Prop where
  chip : 2 ^ (bitsOf m .chip).length ≤ nchips
  kept : ∀ p, Covered m p → ∃ f, p ∈ keptOf m f

/-- Layouts for other numbers of chips, with the cut at `cut`. -/
structure GapLayout (cut : Nat) : Prop where
  pos : 0 < nchips
  chip : nchips < 2 ^ 31 ∨ 2 ^ (64 - cut) ≤ nchips
  lower : ∀ p < cut, Covered m p → p < cut % 32 ∧ ∃ f ≠ .chip, p ∈ keptOf m f
  upper : ∀ p p', cut ≤ p → p ≤ p' → p' < 64 → Covered m p' → (∀ f ≠ .chip, p ∉ keptOf m f) →
    nchips * 2 ^ p < 2 ^ 64 → 2 ^ (p' - p + 1) ∣ nchips

end Layouts

/-- The masks as layout. -/
def Translation.masks (t : Translation) (f : Field) : Nat → Bool := (t.addrdecMask f).getLsbD

/-- What the sweep looks for. -/
def Translation.Decodes (t : Translation) : Prop := ∃ raw : BitVec 64 → Tlx,
  (∀ addr, t.addrdecTlx addr = .ok (raw addr)) ∧ (∀ addr, (raw addr).chip.toNat < t.nchips.toNat) ∧
    ∀ a b, (∃ p, Covered t.masks p ∧ a.getLsbD p ≠ b.getLsbD p) → raw a ≠ raw b

namespace Translation

variable {t : Translation} {a b addr : BitVec 64} {p : Nat}

/-- The fields of an address. -/
def fields (t : Translation) (chip : BitVec 32) (addr : BitVec 64) : Tlx :=
  ⟨chip, t.field .bk addr, t.field .row addr, t.field .col addr, t.field .burst addr⟩

theorem fields_eq_iff (hlimits : HasLimits t) {c d : BitVec 32} : t.fields c a = t.fields d b ↔
    c = d ∧ ∀ f ≠ .chip, ∀ p ∈ t.kept f, a.getLsbD p = b.getLsbD p := by
  unfold fields
  rw [Tlx.mk.injEq, hlimits.field_eq_iff, hlimits.field_eq_iff, hlimits.field_eq_iff, hlimits.field_eq_iff]
  constructor
  · rintro ⟨hchip, hbk, hrow, hcol, hburst⟩
    refine ⟨hchip, ?_⟩
    intro f hf
    cases f with
    | chip => exact absurd rfl hf
    | bk => exact hbk
    | row => exact hrow
    | col => exact hcol
    | burst => exact hburst
  · rintro ⟨hchip, h⟩
    exact ⟨hchip, h .bk (by decide), h .row (by decide), h .col (by decide), h .burst (by decide)⟩

theorem kept_subset {f : Field} (h : p ∈ t.kept f) : (t.addrdecMask f).getLsbD p = true :=
  mem_bits.mp (List.mem_of_mem_take h)

theorem lt_of_covered (h : Covered t.masks p) : p < 64 := by
  obtain ⟨f, hf⟩ := h
  exact BitVec.lt_of_getLsbD hf

/-! ## Powers of two -/

theorem field_chip_lt_iff (hlimits : HasLimits t) : (∀ addr, (t.field .chip addr).toNat < t.nchips.toNat) ↔
      2 ^ (bits (t.addrdecMask .chip)).length ≤ t.nchips.toNat := by
  have hn := t.nchips.isLt
  constructor
  · intro h
    have hall := h (BitVec.allOnes 64)
    have hones : ∀ p ∈ t.kept .chip, (BitVec.allOnes 64).getLsbD p = true := by
      intro p hp
      rw [BitVec.getLsbD_allOnes]
      exact decide_eq_true (BitVec.lt_of_getLsbD (kept_subset hp))
    rw [hlimits.toNat_field, pack_true hones] at hall
    have hlen : (t.kept .chip).length = min 32 (bits (t.addrdecMask .chip)).length := List.length_take
    have hlt : (bits (t.addrdecMask .chip)).length < 32 := by
      by_contra hge
      rw [hlen, min_eq_left (by omega)] at hall
      omega
    have hpos := Nat.two_pow_pos (bits (t.addrdecMask .chip)).length
    rw [hlen, min_eq_right (by omega)] at hall
    omega
  · intro h addr
    rw [hlimits.toNat_field]
    refine Nat.lt_of_lt_of_le (Nat.lt_of_lt_of_le pack_lt ?_) h
    apply Nat.pow_le_pow_right (by decide)
    unfold kept
    rw [List.length_take]
    exact min_le_right _ _

theorem decodes_iff_of_power (hlimits : HasLimits t) (hgap : t.gap = 0) :
    t.Decodes ↔ PowerLayout t.masks t.nchips.toNat := by
  have htlx (addr : BitVec 64) : t.addrdecTlx addr = .ok (t.fields (t.field .chip addr) addr) := if_pos hgap
  constructor
  · rintro ⟨raw, hraw, hchip, hne⟩
    have hfields (addr : BitVec 64) : raw addr = t.fields (t.field .chip addr) addr :=
      Except.ok.inj ((hraw addr).symm.trans (htlx addr))
    constructor
    · apply (field_chip_lt_iff hlimits).mp
      intro addr
      have hlt := hchip addr
      rwa [hfields] at hlt
    · intro p hp
      by_contra hnot
      push Not at hnot
      have hp64 := lt_of_covered hp
      apply hne 0 (BitVec.twoPow 64 p)
      · refine ⟨p, hp, ?_⟩
        rw [BitVec.getLsbD_twoPow]
        simp [hp64]
      · have hsame {f : Field} : ∀ q ∈ t.kept f,
          (0 : BitVec 64).getLsbD q = (BitVec.twoPow 64 p).getLsbD q := by
          intro q hq
          apply getLsbD_twoPow_zero
          rintro rfl
          exact hnot f hq
        rw [hfields, hfields, fields_eq_iff hlimits, hlimits.field_eq_iff]
        exact ⟨hsame, fun f _ => hsame⟩
  · intro h
    refine ⟨fun addr => t.fields (t.field .chip addr) addr, htlx, (field_chip_lt_iff hlimits).mpr h.chip, ?_⟩
    rintro a b ⟨p, hp, hne⟩ heq
    obtain ⟨hchip, hrest⟩ := (fields_eq_iff hlimits).mp heq
    obtain ⟨f, hf⟩ := h.kept p hp
    apply hne
    by_cases hf' : f = .chip
    · subst hf'
      exact hlimits.field_eq_iff.mp hchip p hf
    · exact hrest f hf' p hf

/-! ## Other numbers of chips -/

theorem toNat_msbs_ofNat {x : Nat} (hx : x < 2 ^ (64 - t.cut)) :
    (t.msbs (BitVec.ofNat 64 (x * 2 ^ t.cut))).toNat = x := by
  have hpow : 2 ^ 64 = 2 ^ (64 - t.cut) * 2 ^ t.cut := by rw [← Nat.pow_add, Nat.sub_add_cancel cut_lt.le]
  have hlt : x * 2 ^ t.cut < 2 ^ 64 := by
    rw [hpow]
    exact Nat.mul_lt_mul_of_pos_right hx (Nat.two_pow_pos _)
  rw [toNat_msbs, BitVec.toNat_ofNat, Nat.mod_eq_of_lt hlt, Nat.mul_div_cancel _ (Nat.two_pow_pos _)]

theorem nchips_le_divisor : t.nchips.toNat ≤ t.divisor.toNat := by
  rw [toNat_divisor]
  split_ifs <;> omega

theorem remainder_lt (h : t.nchips.toNat < 2 ^ 31 ∨ 2 ^ (64 - t.cut) ≤ t.nchips.toNat)
    (hpos : 0 < t.nchips.toNat) (addr : BitVec 64) :
    (t.msbs addr).toNat % t.divisor.toNat < t.nchips.toNat := by
  have hdiv := toNat_divisor (t := t)
  by_cases hlt : t.nchips.toNat < 2 ^ 31
  · rw [if_pos hlt] at hdiv
    rw [hdiv]
    exact Nat.mod_lt _ hpos
  · exact Nat.lt_of_le_of_lt (Nat.mod_le _ _) (Nat.lt_of_lt_of_le msbs_lt (h.resolve_left hlt))

theorem remainder_lt_iff (hpos : 0 < t.nchips.toNat) :
    (∀ addr, ((t.msbs addr % t.divisor).setWidth 32).toNat < t.nchips.toNat) ↔
      t.nchips.toNat < 2 ^ 31 ∨ 2 ^ (64 - t.cut) ≤ t.nchips.toNat := by
  have hn := t.nchips.isLt
  have hdiv := toNat_divisor (t := t)
  simp only [BitVec.toNat_setWidth, BitVec.toNat_umod]
  constructor
  · intro h
    by_contra hnot
    push Not at hnot
    have hchip := h (BitVec.ofNat 64 (t.nchips.toNat * 2 ^ t.cut))
    rw [if_neg (by omega)] at hdiv
    rw [toNat_msbs_ofNat hnot.2, Nat.mod_eq_of_lt (show t.nchips.toNat < t.divisor.toNat by omega),
      Nat.mod_eq_of_lt hn] at hchip
    exact lt_irrefl _ hchip
  · exact fun h addr => Nat.lt_of_le_of_lt (Nat.mod_le _ _) (remainder_lt h hpos addr)

theorem remainder_eq (h : t.nchips.toNat < 2 ^ 31 ∨ 2 ^ (64 - t.cut) ≤ t.nchips.toNat)
    (hpos : 0 < t.nchips.toNat)
    (heq : (t.msbs a % t.divisor).setWidth 32 = (t.msbs b % t.divisor).setWidth 32) :
    (t.msbs a).toNat % t.divisor.toNat = (t.msbs b).toNat % t.divisor.toNat := by
  have hfits (addr : BitVec 64) : (t.msbs addr).toNat % t.divisor.toNat < 2 ^ 32 :=
    Nat.lt_trans (remainder_lt h hpos addr) t.nchips.isLt
  have hnat := congrArg BitVec.toNat heq
  rwa [BitVec.toNat_setWidth, BitVec.toNat_setWidth, BitVec.toNat_umod, BitVec.toNat_umod,
    Nat.mod_eq_of_lt (hfits a), Nat.mod_eq_of_lt (hfits b)] at hnat

/-- Addresses with the same remainder and the same fields agree where they are covered. -/
def Separates (t : Translation) : Prop := ∀ ⦃a b p⦄, t.msbs a % t.divisor = t.msbs b % t.divisor →
  (∀ f ≠ .chip, ∀ q ∈ t.kept f, (t.restOfAddr a).getLsbD q = (t.restOfAddr b).getLsbD q) →
    Covered t.masks p → a.getLsbD p = b.getLsbD p

section Gap

variable (hlimits : HasLimits t) (hgap : t.gap ≠ 0)

include hgap

theorem addrdecTlx_of_gap (hdivisor : t.divisor ≠ 0) (addr : BitVec 64) : t.addrdecTlx addr =
    .ok (t.fields ((t.msbs addr % t.divisor).setWidth 32) (t.restOfAddr addr)) := by
  unfold addrdecTlx
  rw [if_neg hgap, assert_pos hdivisor]
  rfl

theorem divisor_ne_zero_of_raw {raw : BitVec 64 → Tlx}
    (hraw : ∀ addr, t.addrdecTlx addr = .ok (raw addr)) : t.divisor ≠ 0 := by
  intro hzero
  have h₀ := hraw 0
  unfold addrdecTlx at h₀
  rw [if_neg hgap, assert_neg (not_not.mpr hzero)] at h₀
  cases h₀

include hlimits

/-- What decoding needs: a divisor, remainders that are chips, and separate addresses. -/
theorem Decodes.parts (h : t.Decodes) : t.divisor ≠ 0 ∧
    (∀ addr, ((t.msbs addr % t.divisor).setWidth 32).toNat < t.nchips.toNat) ∧ t.Separates := by
  obtain ⟨raw, hraw, hchip, hne⟩ := h
  have hdivisor := divisor_ne_zero_of_raw hgap hraw
  have hfields (addr : BitVec 64) : raw addr =
      t.fields ((t.msbs addr % t.divisor).setWidth 32) (t.restOfAddr addr) :=
    Except.ok.inj ((hraw addr).symm.trans (addrdecTlx_of_gap hgap hdivisor addr))
  refine ⟨hdivisor, ?_, ?_⟩
  · intro addr
    have hlt := hchip addr
    rwa [hfields] at hlt
  · intro a b p hmod hrest hp
    by_contra hdiffer
    apply hne a b ⟨p, hp, hdiffer⟩
    rw [hfields, hfields, fields_eq_iff hlimits, hmod]
    exact ⟨rfl, hrest⟩

omit hgap hlimits in
/-- Two addresses that differ in one bit below the cut have to differ in a field. -/
theorem Separates.lower (h : t.Separates) (hp : p < t.cut) (hcovered : Covered t.masks p) :
    p < t.cut % 32 ∧ ∃ f ≠ .chip, p ∈ keptOf t.masks f := by
  by_contra hnot
  have hmsbs := msbs_twoPow hp
  have hsame := h (congrArg (· % t.divisor) hmsbs) (fun f hf q hq => by
    rw [getLsbD_restOfAddr, getLsbD_restOfAddr, hmsbs]
    by_cases hqp : q = p
    · have hcut : ¬ q < t.cut % 32 := fun hlt => hnot ⟨hqp ▸ hlt, f, hf, hqp ▸ hq⟩
      rw [decide_eq_false hcut, Bool.and_false, Bool.and_false]
    · rw [getLsbD_twoPow_zero hqp]) hcovered
  rw [BitVec.getLsbD_twoPow] at hsame
  simp [lt_of_covered hcovered] at hsame

omit hgap hlimits in
/-- Quotients that differ only in a bit that no field keeps give addresses that differ only where the
number of chips has a factor. -/
theorem Separates.upper (h : t.Separates) (hpow : ¬ ∃ k, t.nchips.toNat = 2 ^ k)
    (hpos : 0 < t.nchips.toNat)
    (hrange : t.nchips.toNat < 2 ^ 31 ∨ 2 ^ (64 - t.cut) ≤ t.nchips.toNat) {p' : Nat}
    (hcut : t.cut ≤ p) (hle : p ≤ p') (hp' : p' < 64) (hcovered : Covered t.masks p')
    (hnot : ∀ f ≠ .chip, p ∉ keptOf t.masks f) (hlt : t.nchips.toNat * 2 ^ p < 2 ^ 64) :
    2 ^ (p' - p + 1) ∣ t.nchips.toNat := by
  by_contra hdvd
  -- in the other case there is no such position
  have hnchips : t.nchips.toNat < 2 ^ 31 := by
    by_contra hge
    have hmul := Nat.mul_le_mul (hrange.resolve_left hge)
      (Nat.pow_le_pow_right (show 0 < 2 by decide) hcut)
    rw [← Nat.pow_add, Nat.sub_add_cancel cut_lt.le] at hmul
    omega
  have hdiv := toNat_divisor (t := t)
  rw [if_pos hnchips] at hdiv
  obtain ⟨j, rfl⟩ := Nat.exists_eq_add_of_le hcut
  obtain ⟨i, rfl⟩ := Nat.exists_eq_add_of_le (hcut.trans hle)
  have hshift : t.nchips.toNat * 2 ^ j < 2 ^ (64 - t.cut) := by
    apply Nat.lt_of_mul_lt_mul_right (a := 2 ^ t.cut)
    rw [← Nat.pow_add, Nat.sub_add_cancel cut_lt.le, Nat.mul_assoc, ← Nat.pow_add, Nat.add_comm j]
    exact hlt
  obtain ⟨x, y, hx, hy, hmod, hquotient, hbit⟩ := exists_quotient hpos hpow (show j ≤ i by omega)
    (by rwa [show i - j + 1 = t.cut + i - (t.cut + j) + 1 by omega]) hshift
    (show i < 64 - t.cut by omega)
  have hsame := @h (.ofNat 64 (x * 2 ^ t.cut)) (.ofNat 64 (y * 2 ^ t.cut)) _ ?_ ?_ hcovered
  · apply hbit
    rwa [← testBit_msbs, ← testBit_msbs, toNat_msbs_ofNat hx, toNat_msbs_ofNat hy] at hsame
  · apply BitVec.eq_of_toNat_eq
    rw [BitVec.toNat_umod, BitVec.toNat_umod, toNat_msbs_ofNat hx, toNat_msbs_ofNat hy, hdiv, hmod]
  · intro f hf q hq
    have hlow (z : Nat) (hqcut : q < t.cut) :
        (BitVec.ofNat 64 (z * 2 ^ t.cut)).getLsbD q = false := by
      rw [BitVec.getLsbD_ofNat, Nat.testBit_mul_two_pow]
      simp [Nat.not_le.mpr hqcut]
    rw [getLsbD_restOfAddr, getLsbD_restOfAddr, toNat_msbs_ofNat hx, toNat_msbs_ofNat hy, hdiv]
    split_ifs with hqcut
    · rw [hlow x hqcut, hlow y hqcut]
    · apply hquotient
      rintro heq
      have hqj : q = t.cut + j := by omega
      exact hnot f hf (hqj ▸ hq)

theorem layout_of_decodes (hpow : ¬ ∃ k, t.nchips.toNat = 2 ^ k) (h : t.Decodes) :
    GapLayout t.masks t.nchips.toNat t.cut := by
  obtain ⟨hdivisor, hchip, hsep⟩ := h.parts hlimits hgap
  have hpos := nchips_pos hdivisor
  have hrange := (remainder_lt_iff hpos).mp hchip
  exact ⟨hpos, hrange, fun p => hsep.lower, fun p p' => hsep.upper hpow hpos hrange⟩

omit hgap hlimits in
/-- A quotient has no bit as high as that. -/
theorem testBit_quotient {j : Nat} (hpos : 0 < t.nchips.toNat)
    (hbig : 2 ^ 64 ≤ t.nchips.toNat * 2 ^ (t.cut + j)) (addr : BitVec 64) :
    ((t.msbs addr).toNat / t.divisor.toNat).testBit j = false := by
  apply Nat.testBit_lt_two_pow
  rw [Nat.div_lt_iff_lt_mul (Nat.lt_of_lt_of_le hpos nchips_le_divisor)]
  refine Nat.lt_of_lt_of_le msbs_lt ?_
  apply Nat.le_of_mul_le_mul_right (c := 2 ^ t.cut) _ (Nat.two_pow_pos _)
  rw [← Nat.pow_add, Nat.sub_add_cancel cut_lt.le]
  refine hbig.trans ?_
  rw [Nat.mul_comm (2 ^ j), Nat.mul_assoc, ← Nat.pow_add, Nat.add_comm j]
  exact Nat.mul_le_mul_right _ nchips_le_divisor

omit hgap hlimits in
theorem separates_of_layout (h : GapLayout t.masks t.nchips.toNat t.cut)
    (hmod : (t.msbs a).toNat % t.divisor.toNat = (t.msbs b).toNat % t.divisor.toNat)
    (hrest : ∀ f ≠ .chip, ∀ q ∈ t.kept f, (t.restOfAddr a).getLsbD q = (t.restOfAddr b).getLsbD q)
    (hp : Covered t.masks p) : a.getLsbD p = b.getLsbD p := by
  by_cases hcut : p < t.cut
  · obtain ⟨hlow, f, hf, hkept⟩ := h.lower p hcut hp
    have hbit := hrest f hf p hkept
    rw [getLsbD_restOfAddr, getLsbD_restOfAddr, if_pos hcut, if_pos hcut] at hbit
    simpa [hlow] using hbit
  · obtain ⟨i, rfl⟩ := Nat.exists_eq_add_of_le (not_lt.mp hcut)
    rw [← testBit_msbs, ← testBit_msbs]
    apply testBit_eq_of_quotient hmod
    intro j hji hdvd
    by_cases hkept : ∃ f ≠ .chip, t.cut + j ∈ t.kept f
    · obtain ⟨f, hf, hq⟩ := hkept
      have hbit := hrest f hf _ hq
      rw [getLsbD_restOfAddr, getLsbD_restOfAddr, if_neg (by omega), if_neg (by omega)] at hbit
      rwa [Nat.add_sub_cancel_left] at hbit
    · push Not at hkept
      have hbig : 2 ^ 64 ≤ t.nchips.toNat * 2 ^ (t.cut + j) := by
        by_contra hlt
        have hdvd' := h.upper (t.cut + j) (t.cut + i) (by omega) (by omega) (lt_of_covered hp) hp
          hkept (by omega)
        rcases h.chip with hnchips | hnchips
        · apply hdvd
          rw [toNat_divisor, if_pos hnchips, show i - j + 1 = t.cut + i - (t.cut + j) + 1 by omega]
          exact hdvd'
        · have hmul := Nat.mul_le_mul hnchips
            (Nat.pow_le_pow_right (show 0 < 2 by decide) (Nat.le_add_right t.cut j))
          rw [← Nat.pow_add, Nat.sub_add_cancel cut_lt.le] at hmul
          exact hlt hmul
      rw [testBit_quotient h.pos hbig, testBit_quotient h.pos hbig]

theorem decodes_of_layout (h : GapLayout t.masks t.nchips.toNat t.cut) : t.Decodes := by
  have hdivisor : t.divisor ≠ 0 := by
    intro hzero
    have hle := nchips_le_divisor (t := t)
    rw [hzero] at hle
    exact absurd h.pos (Nat.not_lt.mpr hle)
  refine ⟨_, addrdecTlx_of_gap hgap hdivisor, (remainder_lt_iff h.pos).mpr h.chip, ?_⟩
  rintro a b ⟨p, hp, hne⟩ heq
  obtain ⟨hchip, hrest⟩ := (fields_eq_iff hlimits).mp heq
  exact hne (separates_of_layout h (remainder_eq h.chip h.pos hchip) hrest hp)

theorem decodes_iff_of_gap (hpow : ¬ ∃ k, t.nchips.toNat = 2 ^ k) :
    t.Decodes ↔ GapLayout t.masks t.nchips.toNat t.cut :=
  ⟨layout_of_decodes hlimits hgap hpow, decodes_of_layout hlimits hgap⟩

end Gap

/-! ## All numbers of chips -/

theorem masks_eq_layout {option : List Char} {gpgpuMemAddressMask : Int} {runTest : Bool} {nchips : BitVec 32}
    (h : init (some option) gpgpuMemAddressMask runTest nchips = .ok t) : t.masks = layout option nchips := by
  funext f p
  exact (init_mask h).2 f p

/-- **Raw addresses** are what the sweep looks for if and only if the layout is one for the number
of chips. -/
theorem init_decodes_iff {option : List Char} {gpgpuMemAddressMask : Int} {runTest : Bool}
    {nchips : BitVec 32}
    (h : init (some option) gpgpuMemAddressMask runTest nchips = .ok t) : t.Decodes ↔
      ((∃ k, nchips.toNat = 2 ^ k) ∧ PowerLayout (layout option nchips) nchips.toNat) ∨
      ((¬ ∃ k, nchips.toNat = 2 ^ k) ∧
        GapLayout (layout option nchips) nchips.toNat ((chipStart option).toNat % 64)) := by
  obtain ⟨hgap, hnchips⟩ := init_gap h
  have hlimits := init_hasLimits h
  have hstart := (init_mask h).1
  by_cases hpow : ∃ k, nchips.toNat = 2 ^ k
  · rw [decodes_iff_of_power hlimits (hgap.trans (gapOf_eq_zero_iff.mpr hpow)), masks_eq_layout h, hnchips]
    simp [hpow]
  · have hne : t.gap ≠ 0 := by
      rw [hgap]
      exact fun hzero => hpow (gapOf_eq_zero_iff.mp hzero)
    rw [decodes_iff_of_gap hlimits hne (by rwa [hnchips]), masks_eq_layout h, hnchips]
    unfold cut
    rw [hstart]
    simp [hpow]

/-! ### Examples -/

/-- `dramid@8;` and 28 bits. -/
def dramid8 : List Char :=
  ['d', 'r', 'a', 'm', 'i', 'd', '@', '8', ';'] ++ List.replicate 36 '0' ++ List.replicate 12 'R' ++
    List.replicate 4 'B' ++ List.replicate 12 'C'

theorem init_decodes_iff_dramid8 : ∃ t, init (some dramid8) 0 false 8 = .ok t ∧ (t.Decodes ↔
    ((∃ k, (8 : BitVec 32).toNat = 2 ^ k) ∧ PowerLayout (layout dramid8 8) (8 : BitVec 32).toNat) ∨
      ((¬ ∃ k, (8 : BitVec 32).toNat = 2 ^ k) ∧
        GapLayout (layout dramid8 8) (8 : BitVec 32).toNat ((chipStart dramid8).toNat % 64))) := by
  have hok : (init (some dramid8) 0 false 8).map (fun t => t.gap) = .ok 0 := by decide +kernel
  obtain ⟨t, ht, -⟩ := map_eq_ok.mp hok
  exact ⟨t, ht, init_decodes_iff ht⟩

/-- One letter for the chip. -/
def oneChipBit : List Char :=
  List.replicate 35 '0' ++ ['D'] ++ List.replicate 12 'R' ++ List.replicate 4 'B' ++ List.replicate 12 'C'

/-- `dramid@8;` and 28 bits without the bit 10. -/
def ignoredBit : List Char :=
  ['d', 'r', 'a', 'm', 'i', 'd', '@', '8', ';'] ++ List.replicate 35 '0' ++ List.replicate 12 'R' ++
    List.replicate 4 'B' ++ ['C', 'C', '0'] ++ List.replicate 10 'C'

/-- A chip 1 of one, and two addresses with different bits 11 that three chips do not tell apart. -/
theorem not_decodes :
    (∃ t, init (some oneChipBit) 0 false 1 = .ok t ∧
      (t.addrdecTlx (1#64 <<< 28)).map Tlx.chip = .ok 1 ∧ ¬ t.Decodes) ∧
    ∃ t, init (some ignoredBit) 0 false 3 = .ok t ∧ t.addrdecTlx 0 = t.addrdecTlx 0xC00 ∧
      (t.addrdecMask .col).getLsbD 11 = true ∧ ¬ t.Decodes := by
  constructor
  · have hchip : (init (some oneChipBit) 0 false 1).map (fun t =>
        ((t.addrdecTlx (1#64 <<< 28)).map Tlx.chip, t.nchips)) = .ok (.ok 1, 1) := by decide +kernel
    obtain ⟨t, ht, hchip⟩ := map_eq_ok.mp hchip
    obtain ⟨hchip, hnchips⟩ := Prod.mk.inj hchip
    refine ⟨t, ht, hchip, ?_⟩
    rintro ⟨raw, hraw, hlt, -⟩
    have hlt := hlt (1#64 <<< 28)
    rw [hraw] at hchip
    rw [show (raw (1#64 <<< 28)).chip = 1 from Except.ok.inj hchip, hnchips] at hlt
    exact absurd hlt (by decide)
  · have hraw : (init (some ignoredBit) 0 false 3).map (fun t =>
        (decide (t.addrdecTlx 0 = t.addrdecTlx 0xC00), (t.addrdecMask .col).getLsbD 11)) =
          .ok (true, true) := by decide +kernel
    obtain ⟨t, ht, hraw⟩ := map_eq_ok.mp hraw
    obtain ⟨hsame, hcovered⟩ := Prod.mk.inj hraw
    have hsame := of_decide_eq_true hsame
    refine ⟨t, ht, hsame, hcovered, ?_⟩
    rintro ⟨raw, hraw, -, hne⟩
    rw [hraw, hraw] at hsame
    exact hne 0 0xC00 ⟨11, ⟨.col, hcovered⟩, by decide⟩ (Except.ok.inj hsame)

end Translation

end GpgpuSimRuby.Addrdec
