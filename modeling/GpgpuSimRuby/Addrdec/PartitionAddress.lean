import GpgpuSimRuby.Addrdec.Layout

/-!
# Partition addresses

The chip and the partition address say which address they belong to if the bits of the chip fit into
an `unsigned`, and with a division by the number of chips if the lower part of the address is not
cut: its mask is an `int`, in which there is no room for a position from 32 on.
-/

namespace GpgpuSimRuby.Addrdec

open Library
open Translation

/-! ## The number of bits -/

/-- The letters for the chip. -/
def chipLetters : Option (List Char) → Nat
  | none => 0
  | some option => (letters option).countP (· ∈ lettersOf .chip)

section Count

variable {mask : BitVec 64} {n : Nat} {s : BitVec 32}

theorem nodup_bits : (bits mask).Nodup := List.nodup_range.filter _

theorem length_bits_le_of_subset {l : List Nat} (h : ∀ p, mask.getLsbD p = true → p ∈ l) :
    (bits mask).length ≤ l.length :=
  (List.subperm_of_subset nodup_bits fun p hp => h p (mem_bits.mp hp)).length_le

theorem length_chipPositions_le : (chipPositions s n).length ≤ n := by
  unfold chipPositions
  have hlt := s.isLt
  rw [List.length_range', BitVec.toNat_add, BitVec.toNat_ofNat]
  omega

theorem countP_range {α : Type} (P : α → Bool) (l : List α) :
    (List.range l.length).countP (fun i => l[i]?.any P) = l.countP P := by
  induction l with
  | nil => rfl
  | cons x l ih =>
    rw [List.length_cons, List.range_succ_eq_map, List.countP_cons, List.countP_map, List.countP_cons]
    simp only [Function.comp_def, List.getElem?_cons_succ, List.getElem?_cons_zero, Option.any_some]
    rw [ih]

theorem countP_hasLetter {option : List Char} (h : (letters option).length = 64) (f : Field) :
    ((List.range 64).filter (hasLetter option f)).length = (letters option).countP (· ∈ lettersOf f) := by
  have hreverse := countP_range (· ∈ lettersOf f) (letters option).reverse
  rw [List.length_reverse, h, List.countP_reverse] at hreverse
  rw [← hreverse, ← List.countP_eq_length_filter]
  apply List.countP_congr
  intro p hp
  have hlt := List.mem_range.mp hp
  unfold hasLetter
  rw [List.getElem?_reverse (by omega), h]
  simp [hlt]

end Count

section Chip

variable {addrdecOption : Option (List Char)} {gpgpuMemAddressMask : Int} {runTest : Bool}
  {nchips : BitVec 32}
  {t : Translation}

theorem preset_ne {x : BitVec 32 × BitVec 64 × BitVec 64 × BitVec 64}
    (h : preset gpgpuMemAddressMask = some x) : x.1 ≠ -1 := by
  unfold preset at h
  split at h
  all_goals first
    | cases h; decide
    | cases h

theorem length_chip_preset (h : init none gpgpuMemAddressMask runTest nchips = .ok t)
    (hgap : gapOf nchips = 0) : (bits (t.addrdecMask .chip)).length ≤ 31 := by
  obtain ⟨t₀, t₁, h₀, h₁, rfl⟩ := init_eq_ok h
  have hn := logb2_32_lt nchips
  have hstart : t₀.gap = 0 ∧ t₀.addrChipS ≠ -1 ∧ ∃ l : List Nat, l.length ≤ 31 ∧
      (∀ p, (t₀.addrdecMask .chip).getLsbD p = true → p ∈ l) ∧
      ∀ i ∈ chipPositions t₀.addrChipS (logb2_32 nchips), i % 64 ∈ l := by
    cases h₀
    unfold setPreset
    split
    · next addrChipS bk row col hpreset =>
      refine ⟨hgap, preset_ne hpreset, (chipPositions addrChipS (logb2_32 nchips)).map (· % 64), ?_, ?_, ?_⟩
      · rw [List.length_map]
        exact length_chipPositions_le.trans (by omega)
      · intro p hp
        simp at hp
      · exact fun i hi => List.mem_map.mpr ⟨i, hi, rfl⟩
    · refine ⟨hgap, (by decide : (10 : BitVec 32) ≠ -1), List.range' 10 31,
        le_of_eq List.length_range', ?_, ?_⟩
      · intro p hp
        have hp64 := BitVec.lt_of_getLsbD hp
        have hall : ∀ p < 64, (0x1C00#64).getLsbD p = true → p ∈ List.range' 10 31 := by decide
        exact hall p hp64 hp
      · intro i hi
        have hpositions : chipPositions 10 (logb2_32 nchips) = List.range' 10 (logb2_32 nchips) := by
          unfold chipPositions
          congr 1
          rw [BitVec.toNat_add, BitVec.toNat_ofNat]
          simp
          omega
        rw [show (new (gapOf nchips) nchips).addrChipS = 10 from rfl, hpositions] at hi
        rw [List.mem_range'_1] at hi ⊢
        omega
  obtain ⟨hgap₀, hs, l, hlen, hmask, hpositions⟩ := hstart
  unfold insertChipBits at h₁
  rw [if_pos hs, if_pos hgap₀, if_pos hgap] at h₁
  cases h₁
  refine (length_bits_le_of_subset ?_).trans hlen
  intro p hp
  rw [show (t₀.insertChip (logb2_32 nchips)).setLimits.addrdecMask .chip =
    (chipPositions t₀.addrChipS (logb2_32 nchips)).foldl (fun m i => m ||| shl 1#64 i)
      (t₀.addrdecMask .chip) from rfl, getLsbD_foldl_shl, Bool.or_eq_true, Bool.and_eq_true,
    List.any_eq_true] at hp
  rcases hp with hp | ⟨-, i, hi, heq⟩
  · exact hmask p hp
  · exact of_decide_eq_true heq ▸ hpositions i hi

/-- The position `ADDR_CHIP_S` of a configuration. -/
def startOf : Option (List Char) → Int → BitVec 32
  | some option, _ => chipStart option
  | none, gpgpuMemAddressMask => ((preset gpgpuMemAddressMask).map Prod.fst).getD 10

theorem init_addrChipS (h : init addrdecOption gpgpuMemAddressMask runTest nchips = .ok t) :
    t.addrChipS = startOf addrdecOption gpgpuMemAddressMask := by
  cases addrdecOption with
  | some option => exact (init_mask h).1
  | none =>
    obtain ⟨t₀, t₁, h₀, h₁, rfl⟩ := init_eq_ok h
    have hstart : t₀.addrChipS = startOf none gpgpuMemAddressMask := by
      cases h₀
      rw [show startOf none gpgpuMemAddressMask =
        ((preset gpgpuMemAddressMask).map Prod.fst).getD 10 from rfl]
      unfold setPreset
      cases preset gpgpuMemAddressMask <;> rfl
    unfold insertChipBits at h₁
    rw [← hstart]
    by_cases hs : t₀.addrChipS ≠ -1
    · rw [if_pos hs] at h₁
      by_cases hgap : t₀.gap = 0
      · rw [if_pos hgap] at h₁
        cases h₁
        rfl
      · rw [if_neg hgap] at h₁
        cases h₁
        rfl
    · rw [if_neg hs] at h₁
      obtain ⟨_, -, h₁⟩ := bind_eq_ok.mp h₁
      cases h₁
      rfl

theorem length_chip_le_iff (h : init addrdecOption gpgpuMemAddressMask runTest nchips = .ok t)
    (hgap : gapOf nchips = 0) :
    (bits (t.addrdecMask .chip)).length ≤ 32 ↔ chipLetters addrdecOption ≤ 32 := by
  cases addrdecOption with
  | none =>
    have hlen := length_chip_preset h hgap
    have hzero : chipLetters none = 0 := rfl
    omega
  | some option =>
    obtain ⟨-, hmask⟩ := init_mask h
    obtain ⟨t₀, t₁, h₀, -, -⟩ := init_eq_ok h
    obtain ⟨hlen, -, hdramid, -⟩ := addrdecParseoption_eq_ok h₀
    by_cases hs : chipStart option ≠ -1
    · have hsome : dramidStart option ≠ none := by
        intro hnone
        apply hs
        unfold chipStart
        rw [hnone]
        rfl
      have hzero : chipLetters (some option) = 0 := by
        rw [show chipLetters (some option) = (letters option).countP (· ∈ lettersOf .chip) from rfl,
          ← countP_hasLetter hlen, List.length_eq_zero_iff, List.filter_eq_nil_iff]
        intro p _
        simp [hdramid hsome p]
      have hle : (bits (t.addrdecMask .chip)).length ≤
          ((chipPositions (chipStart option) (logb2_32 nchips)).map (· % 64)).length := by
        apply length_bits_le_of_subset
        intro p hp
        rw [hmask] at hp
        unfold layout at hp
        rw [if_pos ⟨hs, hgap⟩, Bool.and_eq_true, List.any_eq_true] at hp
        obtain ⟨-, i, hi, heq⟩ := hp
        exact List.mem_map.mpr ⟨i, hi, of_decide_eq_true heq⟩
      rw [List.length_map] at hle
      have hn := logb2_32_lt nchips
      have hpositions := length_chipPositions_le (s := chipStart option) (n := logb2_32 nchips)
      omega
    · have hbits : bits (t.addrdecMask .chip) = (List.range 64).filter (hasLetter option .chip) := by
        unfold bits
        congr 1
        funext p
        rw [hmask]
        unfold layout
        rw [if_neg fun hand => hs hand.1]
      rw [hbits, countP_hasLetter hlen]
      rfl

end Chip

/-! ## The parts of an address -/

namespace Translation

variable {t : Translation} {a b addr : BitVec 64} {p : Nat}

/-- The position that an address is cut at. -/
def cut (t : Translation) : Nat := t.addrChipS.toNat % 64

theorem cut_lt : t.cut < 64 := Nat.mod_lt _ (by decide)

theorem toNat_msbs : (t.msbs addr).toNat = addr.toNat / 2 ^ t.cut := by
  unfold msbs
  rw [BitVec.toNat_ushiftRight, Nat.shiftRight_eq_div_pow]
  rfl

theorem msbs_lt : (t.msbs addr).toNat < 2 ^ (64 - t.cut) := by
  rw [toNat_msbs, Nat.div_lt_iff_lt_mul (Nat.two_pow_pos _), ← Nat.pow_add, Nat.sub_add_cancel cut_lt.le]
  exact addr.isLt

theorem testBit_msbs : (t.msbs addr).toNat.testBit p = addr.getLsbD (t.cut + p) := by
  rw [toNat_msbs, Nat.testBit_div_two_pow, Nat.add_comm, BitVec.testBit_toNat]

theorem getLsbD_restOfAddr : (t.restOfAddr addr).getLsbD p =
    if p < t.cut then addr.getLsbD p && decide (p < t.cut % 32)
    else ((t.msbs addr).toNat / t.divisor.toNat).testBit (p - t.cut) := by
  have hcut : t.cut % 32 = t.addrChipS.toNat % 32 := by
    unfold cut
    omega
  have hlow : ((shl 1#32 t.addrChipS.toNat - 1#32).signExtend 64).getLsbD p = decide (p < t.cut % 32) := by
    have hmsb : (shl 1#32 t.addrChipS.toNat - 1#32).msb = false := by
      rw [BitVec.msb_eq_getLsbD_last, getLsbD_shl_sub_one (by decide), decide_eq_false_iff_not]
      omega
    rw [BitVec.signExtend_eq_setWidth_of_msb_false hmsb, BitVec.getLsbD_setWidth,
      getLsbD_shl_sub_one (by decide), hcut]
    by_cases hp : p < t.addrChipS.toNat % 32
    · simp [hp, show p < 64 by omega]
    · simp [hp]
  have hhigh : (shl (t.msbs addr / t.divisor) t.addrChipS.toNat).getLsbD p = (decide (p < 64) &&
      !decide (p < t.cut) && ((t.msbs addr).toNat / t.divisor.toNat).testBit (p - t.cut)) := by
    unfold shl
    rw [BitVec.getLsbD_shiftLeft, ← BitVec.testBit_toNat, BitVec.toNat_udiv]
    rfl
  unfold restOfAddr
  rw [BitVec.getLsbD_or, BitVec.getLsbD_and, hlow, hhigh]
  split_ifs with hp
  · simp [hp]
  · have hmask : ¬ p < t.cut % 32 := by omega
    by_cases hp64 : p < 64
    · simp [hp, hp64, hmask]
    · have hzero : ((t.msbs addr).toNat / t.divisor.toNat).testBit (p - t.cut) = false := by
        apply Nat.testBit_lt_two_pow
        refine Nat.lt_of_le_of_lt (Nat.div_le_self _ _) (Nat.lt_of_lt_of_le msbs_lt ?_)
        exact Nat.pow_le_pow_right (by decide) (by omega)
      simp [hp64, hmask, hzero]

theorem toNat_divisor : t.divisor.toNat =
    if t.nchips.toNat < 2 ^ 31 then t.nchips.toNat else 2 ^ 64 - 2 ^ 32 + t.nchips.toNat := by
  have hlt := t.nchips.isLt
  unfold divisor
  rw [BitVec.toNat_signExtend, BitVec.toNat_setWidth_of_le (by decide), BitVec.msb_eq_decide]
  by_cases h : t.nchips.toNat < 2 ^ 31
  · rw [if_pos h, if_neg (by simpa using h), Nat.add_zero]
  · rw [if_neg h, if_pos (by simpa using h), Nat.add_comm]

theorem eq_of_getLsbD (h : ∀ p < 64, a.getLsbD p = b.getLsbD p) : a = b := by
  apply BitVec.eq_of_getLsbD_eq
  intro p hp
  exact h p hp

/-! ## Places -/

/-- The chip and the partition address say which address they belong to. -/
def Invertible (t : Translation) : Prop := ∃ place : BitVec 64 → BitVec 32 × BitVec 64,
  (∀ addr, (t.addrdecTlx addr).map Tlx.chip = .ok (place addr).1 ∧
    t.partitionAddress addr = .ok (place addr).2) ∧ Function.Injective place

theorem getLsbD_twoPow_zero {q : Nat} (h : q ≠ p) :
    (0 : BitVec 64).getLsbD q = (BitVec.twoPow 64 p).getLsbD q := by
  rw [BitVec.getLsbD_twoPow]
  simp [Ne.symm h]

theorem twoPow_ne_zero (hp : p < 64) : (0 : BitVec 64) ≠ BitVec.twoPow 64 p := by
  intro heq
  have hbit := congrArg (BitVec.getLsbD · p) heq
  rw [BitVec.getLsbD_twoPow] at hbit
  simp [hp] at hbit

theorem nchips_pos (h : t.divisor ≠ 0) : 0 < t.nchips.toNat := by
  by_contra hzero
  apply h
  apply BitVec.eq_of_toNat_eq
  rw [toNat_divisor, if_pos (by omega)]
  exact Nat.eq_zero_of_not_pos hzero

theorem msbs_twoPow (hp : p < t.cut) : t.msbs 0 = t.msbs (BitVec.twoPow 64 p) := by
  apply BitVec.eq_of_toNat_eq
  apply Nat.eq_of_testBit_eq
  intro j
  rw [testBit_msbs, testBit_msbs]
  exact getLsbD_twoPow_zero (by omega)

/-! ### Chips that are a power of two -/

theorem packbits_complement_eq_iff : addrdecPackbits (~~~ t.addrdecMask .chip) a 64 0 =
    addrdecPackbits (~~~ t.addrdecMask .chip) b 64 0 ↔
      ∀ p < 64, (t.addrdecMask .chip).getLsbD p = false → a.getLsbD p = b.getLsbD p := by
  rw [← BitVec.toNat_inj, toNat_addrdecPackbits le_rfl, toNat_addrdecPackbits le_rfl, pack_eq_iff]
  simp only [List.mem_filter, List.mem_range'_1, BitVec.getLsbD_not]
  constructor
  · intro h p hp hmask
    exact h p ⟨by omega, by rw [hmask, decide_eq_true hp]; rfl⟩
  · rintro h p ⟨hp, hmask⟩
    refine h p (by omega) ?_
    simpa [show p < 64 by omega] using hmask

section Power

variable (hlimits : HasLimits t) (hgap : t.gap = 0)

include hgap

theorem partitionAddress_eq : t.partitionAddress addr =
    .ok (addrdecPackbits (~~~ t.addrdecMask .chip) addr 64 0) := if_pos hgap

include hlimits

/-- **The chip's bits** have to fit into an `unsigned`. -/
theorem invertible_iff_of_gap_zero : t.Invertible ↔ (bits (t.addrdecMask .chip)).length ≤ 32 := by
  have htlx (addr : BitVec 64) : (t.addrdecTlx addr).map Tlx.chip = .ok (t.field .chip addr) := by
    unfold addrdecTlx
    rw [if_pos hgap]
    rfl
  constructor
  · rintro ⟨place, hplace, hinj⟩
    by_contra hlen
    rw [not_le] at hlen
    -- the first bit that does not fit
    obtain ⟨p, hp⟩ : ∃ p, (bits (t.addrdecMask .chip))[32]? = some p := ⟨_, List.getElem?_eq_getElem hlen⟩
    have hmem := mem_bits.mp (List.mem_of_getElem? hp)
    have hp64 := BitVec.lt_of_getLsbD hmem
    have hnot : p ∉ t.kept .chip := by
      intro hkept
      obtain ⟨k, hk, heq⟩ := List.mem_take_iff_getElem.mp hkept
      have hk32 : (bits (t.addrdecMask .chip))[k]? = some p := by
        rw [List.getElem?_eq_getElem (by omega), heq]
      have hsame := (List.getElem?_inj hlen nodup_bits).mp (hp.trans hk32.symm)
      omega
    apply twoPow_ne_zero hp64
    apply hinj
    apply Prod.ext
    · have hchip : t.field .chip 0 = t.field .chip (BitVec.twoPow 64 p) := by
        rw [hlimits.field_eq_iff]
        intro q hq
        apply getLsbD_twoPow_zero
        rintro rfl
        exact hnot hq
      have h₀ := (hplace 0).1
      have h₁ := (hplace (BitVec.twoPow 64 p)).1
      rw [htlx] at h₀ h₁
      exact (Except.ok.inj h₀).symm.trans (hchip.trans (Except.ok.inj h₁))
    · have hpart : addrdecPackbits (~~~ t.addrdecMask .chip) 0 64 0 =
          addrdecPackbits (~~~ t.addrdecMask .chip) (BitVec.twoPow 64 p) 64 0 := by
        rw [packbits_complement_eq_iff]
        intro q _ hq
        apply getLsbD_twoPow_zero
        rintro rfl
        rw [hmem] at hq
        cases hq
      have h₀ := (hplace 0).2
      have h₁ := (hplace (BitVec.twoPow 64 p)).2
      rw [partitionAddress_eq hgap] at h₀ h₁
      exact (Except.ok.inj h₀).symm.trans (hpart.trans (Except.ok.inj h₁))
  · intro hlen
    refine ⟨fun addr => (t.field .chip addr, addrdecPackbits (~~~ t.addrdecMask .chip) addr 64 0),
      fun addr => ⟨htlx addr, partitionAddress_eq hgap⟩, ?_⟩
    intro a b hab
    obtain ⟨hchip, hpart⟩ := Prod.mk.inj hab
    rw [hlimits.field_eq_iff] at hchip
    rw [packbits_complement_eq_iff] at hpart
    apply eq_of_getLsbD
    intro p hp
    cases hmask : (t.addrdecMask .chip).getLsbD p with
    | true =>
      apply hchip
      unfold kept
      rw [List.take_of_length_le hlen]
      exact mem_bits.mpr hmask
    | false => exact hpart p hp hmask

end Power

/-! ### Other numbers of chips -/

section Gap

variable (hgap : t.gap ≠ 0)

include hgap

theorem tlx_chip_eq (hdivisor : t.divisor ≠ 0) :
    (t.addrdecTlx addr).map Tlx.chip = .ok ((t.msbs addr % t.divisor).setWidth 32) := by
  unfold addrdecTlx
  rw [if_neg hgap, assert_pos hdivisor]
  rfl

theorem partitionAddress_eq_rest (hdivisor : t.divisor ≠ 0) :
    t.partitionAddress addr = .ok (t.restOfAddr addr) := by
  unfold partitionAddress
  rw [if_neg hgap, assert_pos hdivisor]
  rfl

theorem divisor_ne_zero_of_place {place : BitVec 64 → BitVec 64} (h : ∀ addr, t.partitionAddress addr =
    .ok (place addr)) : t.divisor ≠ 0 := by
  intro hzero
  have h₀ := h 0
  unfold partitionAddress at h₀
  rw [if_neg hgap, assert_neg (not_not.mpr hzero)] at h₀
  cases h₀

/-- Addresses that go to one place are the same. -/
theorem eq_of_place {place : BitVec 64 → BitVec 32 × BitVec 64} (hdivisor : t.divisor ≠ 0)
    (hplace : ∀ addr, (t.addrdecTlx addr).map Tlx.chip = .ok (place addr).1 ∧
      t.partitionAddress addr = .ok (place addr).2) (hinj : Function.Injective place)
    (hchip : (t.msbs a % t.divisor).setWidth 32 = (t.msbs b % t.divisor).setWidth 32)
    (hrest : t.restOfAddr a = t.restOfAddr b) : a = b := by
  apply hinj
  apply Prod.ext
  · have ha := (hplace a).1
    have hb := (hplace b).1
    rw [tlx_chip_eq hgap hdivisor] at ha hb
    exact (Except.ok.inj ha).symm.trans (hchip.trans (Except.ok.inj hb))
  · have ha := (hplace a).2
    have hb := (hplace b).2
    rw [partitionAddress_eq_rest hgap hdivisor] at ha hb
    exact (Except.ok.inj ha).symm.trans (hrest.trans (Except.ok.inj hb))

omit hgap in
/-- The bit below a cut of 32 or more is lost. -/
theorem restOfAddr_twoPow (hge : 32 ≤ t.cut) :
    t.restOfAddr 0 = t.restOfAddr (BitVec.twoPow 64 (t.cut - 1)) := by
  have hlt := cut_lt (t := t)
  apply eq_of_getLsbD
  intro p _
  rw [getLsbD_restOfAddr, getLsbD_restOfAddr,
    msbs_twoPow (t := t) (show t.cut - 1 < t.cut by omega)]
  by_cases hp : p = t.cut - 1
  · rw [decide_eq_false (show ¬ p < t.cut % 32 by omega), Bool.and_false, Bool.and_false]
  · rw [getLsbD_twoPow_zero hp]

omit hgap in
/-- A remainder of `2 ^ 32` is lost in an `unsigned`. -/
theorem chip_rest_twoPow (hcut : t.cut < 32) (hge : ¬ t.nchips.toNat < 2 ^ 31) :
    (t.msbs 0 % t.divisor).setWidth 32 =
        (t.msbs (BitVec.twoPow 64 (t.cut + 32)) % t.divisor).setWidth 32 ∧
      t.restOfAddr 0 = t.restOfAddr (BitVec.twoPow 64 (t.cut + 32)) := by
  have hdiv := toNat_divisor (t := t)
  rw [if_neg hge] at hdiv
  have hmsbs : (t.msbs (BitVec.twoPow 64 (t.cut + 32))).toNat = 2 ^ 32 := by
    rw [toNat_msbs, BitVec.toNat_twoPow_of_lt (by omega), Nat.pow_add,
      Nat.mul_div_cancel_left _ (Nat.two_pow_pos _)]
  have hmsbs₀ : (t.msbs 0).toNat = 0 := by
    rw [toNat_msbs]
    exact Nat.zero_div _
  constructor
  · apply BitVec.eq_of_toNat_eq
    rw [BitVec.toNat_setWidth, BitVec.toNat_setWidth, BitVec.toNat_umod, BitVec.toNat_umod, hmsbs,
      hmsbs₀, Nat.zero_mod, Nat.mod_eq_of_lt (show 2 ^ 32 < t.divisor.toNat by omega)]
    exact (Nat.mod_self _).symm
  · apply eq_of_getLsbD
    intro p _
    rw [getLsbD_restOfAddr, getLsbD_restOfAddr, hmsbs, hmsbs₀, Nat.zero_div,
      Nat.div_eq_of_lt (show 2 ^ 32 < t.divisor.toNat by omega)]
    split_ifs with hp
    · rw [getLsbD_twoPow_zero (show p ≠ t.cut + 32 by omega)]
    · rfl

theorem bounds_of_invertible (h : t.Invertible) :
    t.cut < 32 ∧ 0 < t.nchips.toNat ∧ t.nchips.toNat < 2 ^ 31 := by
  obtain ⟨place, hplace, hinj⟩ := h
  have hdivisor := divisor_ne_zero_of_place hgap fun addr => (hplace addr).2
  have hcut : t.cut < 32 := by
    by_contra hge
    have hlt := cut_lt (t := t)
    apply twoPow_ne_zero (show t.cut - 1 < 64 by omega)
    apply eq_of_place hgap hdivisor hplace hinj _ (restOfAddr_twoPow (not_lt.mp hge))
    rw [msbs_twoPow (t := t) (show t.cut - 1 < t.cut by omega)]
  refine ⟨hcut, nchips_pos hdivisor, ?_⟩
  by_contra hge
  obtain ⟨hchip, hrest⟩ := chip_rest_twoPow hcut hge
  exact twoPow_ne_zero (show t.cut + 32 < 64 by omega)
    (eq_of_place hgap hdivisor hplace hinj hchip hrest)

omit hgap in
/-- The quotient and the remainder give the upper part back, and nothing of the lower part is lost. -/
theorem eq_of_chip_rest (hcut : t.cut < 32) (hpos : 0 < t.nchips.toNat)
    (hlt : t.nchips.toNat < 2 ^ 31)
    (hchip : (t.msbs a % t.divisor).setWidth 32 = (t.msbs b % t.divisor).setWidth 32)
    (hrest : t.restOfAddr a = t.restOfAddr b) : a = b := by
  have hdiv := toNat_divisor (t := t)
  rw [if_pos hlt] at hdiv
  have hmod : (t.msbs a).toNat % t.nchips.toNat = (t.msbs b).toNat % t.nchips.toNat := by
    have hnat := congrArg BitVec.toNat hchip
    rw [BitVec.toNat_setWidth, BitVec.toNat_setWidth, BitVec.toNat_umod, BitVec.toNat_umod,
      hdiv] at hnat
    have hfits (x : Nat) : x % t.nchips.toNat < 2 ^ 32 := by
      have hx := Nat.mod_lt x hpos
      omega
    rwa [Nat.mod_eq_of_lt (hfits _), Nat.mod_eq_of_lt (hfits _)] at hnat
  have hquot : (t.msbs a).toNat / t.nchips.toNat = (t.msbs b).toNat / t.nchips.toNat := by
    apply Nat.eq_of_testBit_eq
    intro j
    have hbit := congrArg (BitVec.getLsbD · (t.cut + j)) hrest
    simpa [getLsbD_restOfAddr, hdiv] using hbit
  have hmsbs : (t.msbs a).toNat = (t.msbs b).toNat := by
    rw [← Nat.div_add_mod (t.msbs a).toNat t.nchips.toNat, hquot, hmod, Nat.div_add_mod]
  apply eq_of_getLsbD
  intro p hp
  by_cases hlow : p < t.cut
  · have hbit := congrArg (BitVec.getLsbD · p) hrest
    simpa [getLsbD_restOfAddr, hlow, Nat.mod_eq_of_lt hcut] using hbit
  · obtain ⟨d, rfl⟩ := Nat.exists_eq_add_of_le (not_lt.mp hlow)
    rw [← testBit_msbs, ← testBit_msbs, hmsbs]

theorem invertible_of_bounds (hcut : t.cut < 32) (hpos : 0 < t.nchips.toNat)
    (hlt : t.nchips.toNat < 2 ^ 31) : t.Invertible := by
  have hdiv := toNat_divisor (t := t)
  rw [if_pos hlt] at hdiv
  have hdivisor : t.divisor ≠ 0 := by
    intro hzero
    rw [hzero] at hdiv
    exact hpos.ne hdiv
  refine ⟨fun addr => ((t.msbs addr % t.divisor).setWidth 32, t.restOfAddr addr),
    fun addr => ⟨tlx_chip_eq hgap hdivisor, partitionAddress_eq_rest hgap hdivisor⟩, ?_⟩
  intro a b hab
  obtain ⟨hchip, hrest⟩ := Prod.mk.inj hab
  exact eq_of_chip_rest hcut hpos hlt hchip hrest

/-- **The division** is undone if nothing of the lower part is lost, and the chip is what was left
over. -/
theorem invertible_iff_of_gap :
    t.Invertible ↔ t.cut < 32 ∧ 0 < t.nchips.toNat ∧ t.nchips.toNat < 2 ^ 31 :=
  ⟨bounds_of_invertible hgap, fun ⟨hcut, hpos, hlt⟩ => invertible_of_bounds hgap hcut hpos hlt⟩

end Gap

/-! ### All numbers of chips -/

section Init

variable {addrdecOption : Option (List Char)} {gpgpuMemAddressMask : Int} {runTest : Bool}
  {nchips : BitVec 32}

/-- **Places** are different if and only if the chip's letters are 32 at most, when the number of
chips is a power of two, and the cut lies below 32, when there are other numbers of them. -/
theorem init_invertible_iff (h : init addrdecOption gpgpuMemAddressMask runTest nchips = .ok t) :
    t.Invertible ↔ ((∃ k, nchips.toNat = 2 ^ k) ∧ chipLetters addrdecOption ≤ 32) ∨
      ((¬ ∃ k, nchips.toNat = 2 ^ k) ∧ (startOf addrdecOption gpgpuMemAddressMask).toNat % 64 < 32 ∧
        0 < nchips.toNat ∧ nchips.toNat < 2 ^ 31) := by
  rw [← init_addrChipS h]
  obtain ⟨hgap, hnchips⟩ := init_gap h
  have hlimits := init_hasLimits h
  by_cases hpow : ∃ k, nchips.toNat = 2 ^ k
  · have hzero := gapOf_eq_zero_iff.mpr hpow
    rw [invertible_iff_of_gap_zero hlimits (hgap.trans hzero), length_chip_le_iff h hzero]
    simp [hpow]
  · have hne : t.gap ≠ 0 := by
      rw [hgap]
      exact fun hzero => hpow (gapOf_eq_zero_iff.mp hzero)
    rw [invertible_iff_of_gap hne, hnchips]
    simp [hpow, cut]

end Init

/-! ### Examples -/

theorem init_invertible_iff_eight : ∃ t, init none 0 false 8 = .ok t ∧
    (t.Invertible ↔ ((∃ k, (8 : BitVec 32).toNat = 2 ^ k) ∧ chipLetters none ≤ 32) ∨
      ((¬ ∃ k, (8 : BitVec 32).toNat = 2 ^ k) ∧ (startOf none 0).toNat % 64 < 32 ∧
        0 < (8 : BitVec 32).toNat ∧ (8 : BitVec 32).toNat < 2 ^ 31)) :=
  ⟨_, rfl, init_invertible_iff (show init none 0 false 8 = _ from rfl)⟩

/-- `dramid@32;` and 28 bits. -/
def dramid32 : List Char :=
  ['d', 'r', 'a', 'm', 'i', 'd', '@', '3', '2', ';'] ++ List.replicate 36 '0' ++ List.replicate 12 'R' ++
    List.replicate 4 'B' ++ List.replicate 12 'C'

/-- With three chips, the addresses 0 and 1 have chip 0 and the partition address 0. -/
theorem not_invertible_dramid32 : ∃ t, init (some dramid32) 0 false 3 = .ok t ∧
    ((t.addrdecTlx 0).map Tlx.chip = .ok 0 ∧ t.partitionAddress 0 = .ok 0) ∧
    ((t.addrdecTlx 1).map Tlx.chip = .ok 0 ∧ t.partitionAddress 1 = .ok 0) ∧ ¬ t.Invertible := by
  have hplaces : (init (some dramid32) 0 false 3).map (fun t =>
      (((t.addrdecTlx 0).map Tlx.chip, t.partitionAddress 0),
        ((t.addrdecTlx 1).map Tlx.chip, t.partitionAddress 1))) = .ok ((.ok 0, .ok 0), (.ok 0, .ok 0)) := by
    decide +kernel
  obtain ⟨t, ht, hplaces⟩ := map_eq_ok.mp hplaces
  obtain ⟨h₀, h₁⟩ := Prod.mk.inj hplaces
  refine ⟨t, ht, Prod.mk.inj h₀, Prod.mk.inj h₁, ?_⟩
  rintro ⟨place, hplace, hinj⟩
  have hsame : place 0 = place 1 := by
    apply Prod.ext
    · exact Except.ok.inj
        ((hplace 0).1.symm.trans ((congrArg Prod.fst (h₀.trans h₁.symm)).trans (hplace 1).1))
    · exact Except.ok.inj
        ((hplace 0).2.symm.trans ((congrArg Prod.snd (h₀.trans h₁.symm)).trans (hplace 1).2))
  exact absurd (hinj hsame) (by decide)

end Translation

end GpgpuSimRuby.Addrdec
