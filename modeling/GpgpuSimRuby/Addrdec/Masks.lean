import GpgpuSimRuby.Addrdec.Translation
import GpgpuSimRuby.Library.PackBits

/-!
# Masks

A field of a raw address is the bits of its mask packed, of which 32 are kept; the limits of a mask
leave none of its bits out. `init` sets the limits and says whether the number of chips is a power
of two.
-/

namespace GpgpuSimRuby.Addrdec

open Library

/-! ## Packing -/

/-- The positions of a mask, in order. -/
def bits (mask : BitVec 64) : List Nat := (List.range 64).filter mask.getLsbD

section Bits

variable {mask val : BitVec 64} {i k : Nat} {l : List Nat}

theorem mem_bits {p : Nat} : p ∈ bits mask ↔ mask.getLsbD p = true := by
  unfold bits
  rw [List.mem_filter, List.mem_range]
  constructor
  · exact And.right
  · intro h
    exact ⟨BitVec.lt_of_getLsbD h, h⟩

theorem and_bit_ne_zero (hi : i < 64) : mask &&& 1#64 <<< i ≠ 0 ↔ mask.getLsbD i = true := by
  rw [← BitVec.twoPow_eq, BitVec.and_twoPow]
  split_ifs with h
  · have hne : BitVec.twoPow 64 i ≠ 0#64 := by
      intro hzero
      have hnat := congrArg BitVec.toNat hzero
      rw [BitVec.toNat_twoPow_of_lt hi] at hnat
      exact (Nat.two_pow_pos i).ne' hnat
    simp [h, hne]
  · simp [h]

theorem packStep_eq {p : Nat × BitVec 64} (hi : i < 64) : packStep mask val p i =
    if mask.getLsbD i then (p.1 + 1, p.2 ||| if val.getLsbD i then BitVec.twoPow 64 p.1 else 0) else p := by
  have hbit : (val &&& 1#64 <<< i) >>> i = if val.getLsbD i then 1#64 else 0 := by
    rw [← BitVec.twoPow_eq, BitVec.and_twoPow]
    split_ifs
    · apply BitVec.eq_of_toNat_eq
      rw [BitVec.toNat_ushiftRight, BitVec.toNat_twoPow_of_lt hi, Nat.shiftRight_eq_div_pow,
        Nat.div_self (Nat.two_pow_pos i)]
      rfl
    · simp
  unfold packStep
  simp only [and_bit_ne_zero hi, hbit]
  split_ifs
  · rw [BitVec.twoPow_eq]
  · simp
  · rfl

theorem getLsbD_packLoop (mask val : BitVec 64) (k : Nat) (hl : ∀ i ∈ l, i < 64) (p : Nat × BitVec 64) :
    (l.foldl (packStep mask val) p).2.getLsbD k = (p.2.getLsbD k || (decide (p.1 ≤ k ∧ k < 64) &&
      ((l.filter mask.getLsbD)[k - p.1]?.map val.getLsbD).getD false)) := by
  induction l generalizing p with
  | nil => simp
  | cons i l ih =>
    obtain ⟨hi, hl⟩ := List.forall_mem_cons.mp hl
    rw [List.foldl_cons, ih hl, packStep_eq hi]
    by_cases hmask : mask.getLsbD i = true
    · rw [if_pos hmask, List.filter_cons_of_pos hmask, BitVec.getLsbD_or]
      have hnew : (if val.getLsbD i then BitVec.twoPow 64 p.1 else 0).getLsbD k =
          (val.getLsbD i && decide (p.1 = k ∧ k < 64)) := by
        split_ifs with h
        · rw [BitVec.getLsbD_twoPow, h]
          by_cases heq : p.1 = k
          · simp [heq]
          · simp [heq]
        · simp [h]
      rw [hnew, Bool.or_assoc]
      congr 1
      rcases Nat.lt_trichotomy p.1 k with h | rfl | h
      · obtain ⟨d, hd⟩ : ∃ d, k - p.1 = d + 1 := ⟨k - p.1 - 1, by omega⟩
        rw [hd, List.getElem?_cons_succ, show k - (p.1 + 1) = d by omega]
        simp [h.ne, h.le, Nat.succ_le_of_lt h]
      · simp [Bool.and_comm]
      · simp [h.ne', Nat.not_le.mpr h, show ¬ p.1 + 1 ≤ k by omega]
    · rw [if_neg hmask, List.filter_cons_of_neg hmask]

/-- **`addrdec_packbits`** packs the bits of the mask between the limits. -/
theorem toNat_addrdecPackbits {high low : Nat} (h : high ≤ 64) : (addrdecPackbits mask val high low).toNat =
    pack val.getLsbD ((List.range' low (high - low)).filter mask.getLsbD) := by
  have hl : ∀ i ∈ List.range' low (high - low), i < 64 := by
    intro i hi
    rw [List.mem_range'_1] at hi
    omega
  apply Nat.eq_of_testBit_eq
  intro k
  have hloop := getLsbD_packLoop mask val k hl (0, 0)
  rw [testBit_pack]
  refine Eq.trans hloop ?_
  by_cases hk : k < 64
  · simp [hk]
  · have hlen : ((List.range' low (high - low)).filter mask.getLsbD).length ≤ k := by
      apply (List.length_filter_le _ _).trans
      rw [List.length_range']
      omega
    simp [hk, List.getElem?_eq_none hlen]

end Bits

/-! ## Limits -/

/-- All bits so far lie between the limits. -/
structure Bounds (mask : BitVec 64) (n : Nat) (s : (Nat × Nat) × Bool) : Prop where
  found : s.2 = true → s.1.2 ≤ s.1.1 ∧ s.1.1 ≤ n
  between : ∀ p < n, mask.getLsbD p = true → s.2 = true ∧ s.1.2 ≤ p ∧ p < s.1.1
  initial : s.2 = false → s.1 = (64, 0)

theorem bounds_loop (mask : BitVec 64) {n : Nat} (hn : n ≤ 64) :
    Bounds mask n ((List.range n).foldl (limitStep mask) ((64, 0), false)) := by
  induction n with
  | zero =>
    constructor
    · intro h
      cases h
    · intro p hp
      exact absurd hp (Nat.not_lt_zero p)
    · exact fun _ => rfl
  | succ n ih =>
    have hinv := ih (by omega)
    rw [List.range_succ, List.foldl_append, List.foldl_cons, List.foldl_nil]
    generalize (List.range n).foldl (limitStep mask) ((64, 0), false) = s at hinv
    unfold limitStep
    simp only [and_bit_ne_zero (show n < 64 by omega)]
    split_ifs with hbit hs
    · obtain ⟨hlow, hhigh⟩ := hinv.found hs
      constructor
      · exact fun _ => ⟨(hlow.trans hhigh).trans (Nat.le_succ n), le_rfl⟩
      · intro p hp hmask
        refine ⟨rfl, ?_, hp⟩
        rcases Nat.lt_succ_iff_lt_or_eq.mp hp with hlt | rfl
        · exact (hinv.between p hlt hmask).2.1
        · exact hlow.trans hhigh
      · intro h
        cases h
    · constructor
      · exact fun _ => ⟨Nat.le_succ n, le_rfl⟩
      · intro p hp hmask
        rcases Nat.lt_succ_iff_lt_or_eq.mp hp with hlt | rfl
        · exact absurd (hinv.between p hlt hmask).1 hs
        · exact ⟨rfl, le_rfl, hp⟩
      · intro h
        cases h
    · constructor
      · intro hs
        exact ⟨(hinv.found hs).1, (hinv.found hs).2.trans (Nat.le_succ n)⟩
      · intro p hp hmask
        rcases Nat.lt_succ_iff_lt_or_eq.mp hp with hlt | rfl
        · exact hinv.between p hlt hmask
        · exact absurd hmask hbit
      · exact hinv.initial

/-- **The limits** leave no bit out. -/
theorem filter_limits (mask : BitVec 64) : (addrdecGetmasklimit mask).1 ≤ 64 ∧
    (List.range' (addrdecGetmasklimit mask).2
      ((addrdecGetmasklimit mask).1 - (addrdecGetmasklimit mask).2)).filter mask.getLsbD = bits mask := by
  obtain ⟨⟨⟨high, low⟩, found⟩, hloop⟩ : ∃ s, (List.range 64).foldl (limitStep mask) ((64, 0), false) = s :=
    ⟨_, rfl⟩
  have hinv := bounds_loop mask le_rfl
  rw [hloop] at hinv
  have hlimit : addrdecGetmasklimit mask = (high, low) := congrArg Prod.fst hloop
  have hbetween : ∀ p < 64, mask.getLsbD p = true → low ≤ p ∧ p < high := fun p hp h =>
    (hinv.between p hp h).2
  obtain ⟨hle, hhigh⟩ : low ≤ high ∧ high ≤ 64 := by
    cases found with
    | true => exact hinv.found rfl
    | false =>
      obtain ⟨rfl, rfl⟩ := Prod.mk.inj (hinv.initial rfl)
      decide
  rw [hlimit]
  refine ⟨hhigh, ?_⟩
  dsimp only
  have houter (first len : Nat) (hout : ∀ p, first ≤ p → p < first + len → ¬ (low ≤ p ∧ p < high))
      (hlen : first + len ≤ 64) : (List.range' first len).filter mask.getLsbD = [] := by
    rw [List.filter_eq_nil_iff]
    intro p hp hmask
    obtain ⟨hge, hlt⟩ := List.mem_range'_1.mp hp
    exact hout p hge hlt (hbetween p (by omega) hmask)
  have hrange : List.range 64 = List.range' 0 low ++ (List.range' low (high - low) ++
      List.range' high (64 - high)) := by
    have happend (a b c : Nat) : List.range' a b ++ List.range' (a + b) c = List.range' a (b + c) := by
      simp
    have hupper := happend low (high - low) (64 - high)
    have hall := happend 0 low (64 - low)
    rw [show low + (high - low) = high by omega, show high - low + (64 - high) = 64 - low by omega] at hupper
    rw [Nat.zero_add, show low + (64 - low) = 64 by omega] at hall
    rw [hupper, hall, List.range_eq_range']
  unfold bits
  rw [hrange, List.filter_append, List.filter_append, houter 0 low (fun p _ _ => by omega) (by omega),
    houter high (64 - high) (fun p _ _ => by omega) (by omega), List.nil_append, List.append_nil]

/-! ## Fields -/

/-- The limits are those of the masks. -/
structure HasLimits (t : Translation) : Prop where
  high : ∀ f, t.addrdecMkhigh f = (addrdecGetmasklimit (t.addrdecMask f)).1
  low : ∀ f, t.addrdecMklow f = (addrdecGetmasklimit (t.addrdecMask f)).2

/-- The positions whose bits a field has. -/
def Translation.kept (t : Translation) (f : Field) : List Nat := (bits (t.addrdecMask f)).take 32

section Field

variable {t : Translation} {f : Field} {a b addr : BitVec 64}

theorem HasLimits.toNat_field (h : HasLimits t) : (t.field f addr).toNat = pack addr.getLsbD (t.kept f) := by
  obtain ⟨hle, hfilter⟩ := filter_limits (t.addrdecMask f)
  unfold Translation.field Translation.kept
  rw [BitVec.toNat_setWidth, h.high, h.low, toNat_addrdecPackbits hle, hfilter, pack_mod_two_pow]

theorem HasLimits.field_eq_iff (h : HasLimits t) :
    t.field f a = t.field f b ↔ ∀ p ∈ t.kept f, a.getLsbD p = b.getLsbD p := by
  rw [← BitVec.toNat_inj, h.toNat_field, h.toNat_field, pack_eq_iff]

end Field

/-! ## Initialisation -/

theorem powli_two (n : Nat) : powli 2 n = 2 ^ n := by
  unfold powli
  induction n with
  | zero => rfl
  | succ n ih => rw [List.range_succ, List.foldl_append, ih, List.foldl_cons, List.foldl_nil, Int.pow_succ]

namespace Translation

/-- What `init` computes from the number of chips. -/
def gapOf (nchips : BitVec 32) : BitVec 32 := .ofInt 32 (nchips.toNat - powli 2 (logb2_32 nchips))

theorem gapOf_eq_zero_iff {nchips : BitVec 32} : gapOf nchips = 0 ↔ ∃ k, nchips.toNat = 2 ^ k := by
  have hlt := nchips.isLt
  have hlog : logb2_32 nchips = nchips.toNat.log2 := Cache.logb2_eq hlt
  unfold gapOf
  rw [powli_two, hlog]
  have hiff : BitVec.ofInt 32 (nchips.toNat - 2 ^ nchips.toNat.log2) = 0 ↔
      ((nchips.toNat : Int) - 2 ^ nchips.toNat.log2) % 2 ^ 32 = 0 := by
    rw [← BitVec.toNat_inj, BitVec.toNat_ofInt]
    simp only [BitVec.ofNat_eq_ofNat, BitVec.toNat_ofNat]
    omega
  rw [hiff]
  by_cases hzero : nchips.toNat = 0
  · rw [hzero]
    constructor
    · intro h
      exact absurd h (by decide)
    · rintro ⟨k, hk⟩
      exact absurd hk.symm (Nat.two_pow_pos k).ne'
  · have hle := Nat.log2_self_le hzero
    have hpos := Nat.two_pow_pos nchips.toNat.log2
    have hcast : ((2 ^ nchips.toNat.log2 : Nat) : Int) = 2 ^ nchips.toNat.log2 := by push_cast; rfl
    rw [← hcast]
    constructor
    · intro h
      exact ⟨nchips.toNat.log2, by omega⟩
    · rintro ⟨k, hk⟩
      rw [hk, Nat.log2_two_pow]
      omega

section Init

variable {t t' : Translation} {addrdecOption : Option (List Char)} {gpgpuMemAddressMask : Int}
  {runTest : Bool}
  {nchips : BitVec 32} {n : Nat}

theorem addrdecParseoption_gap {option : List Char} (h : t.addrdecParseoption option = .ok t') :
    t'.gap = t.gap ∧ t'.nchips = t.nchips := by
  obtain ⟨⟨mask, ofs⟩, -, h⟩ := bind_eq_ok.mp h
  obtain ⟨-, -, h⟩ := bind_eq_ok.mp h
  cases h
  exact ⟨rfl, rfl⟩

theorem insertChipBits_gap (h : t.insertChipBits nchips n = .ok t') :
    t'.gap = t.gap ∧ t'.nchips = t.nchips := by
  unfold insertChipBits at h
  split_ifs at h
  · cases h
    exact ⟨rfl, rfl⟩
  · cases h
    exact ⟨rfl, rfl⟩
  · obtain ⟨-, -, h⟩ := bind_eq_ok.mp h
    cases h
    exact ⟨rfl, rfl⟩

theorem setPreset_gap (t : Translation) (gpgpuMemAddressMask : Int) :
    (t.setPreset gpgpuMemAddressMask).gap = t.gap ∧
    (t.setPreset gpgpuMemAddressMask).nchips = t.nchips := by
  unfold setPreset
  split
  · exact ⟨rfl, rfl⟩
  · exact ⟨rfl, rfl⟩

/-- The state before the bits of the chip are put in. -/
def configure (addrdecOption : Option (List Char)) (gpgpuMemAddressMask : Int) (nchips : BitVec 32) :
    Except Fault Translation :=
  ((new (gapOf nchips) nchips).setPreset gpgpuMemAddressMask).readOption addrdecOption

/-- **`init`** that ends well. -/
theorem init_eq_ok (h : init addrdecOption gpgpuMemAddressMask runTest nchips = .ok t) : ∃ t₀ t₁,
    configure addrdecOption gpgpuMemAddressMask nchips = .ok t₀ ∧
      t₀.insertChipBits nchips (if gapOf nchips = 0 then logb2_32 nchips else logb2_32 nchips + 1) = .ok t₁ ∧
        t = t₁.setLimits := by
  obtain ⟨t₀, h₀, h⟩ := bind_eq_ok.mp h
  obtain ⟨t₁, h₁, h⟩ := bind_eq_ok.mp h
  obtain ⟨-, -, h⟩ := bind_eq_ok.mp h
  cases h
  exact ⟨t₀, t₁, h₀, h₁, rfl⟩

theorem init_hasLimits (h : init addrdecOption gpgpuMemAddressMask runTest nchips = .ok t) : HasLimits t := by
  obtain ⟨t₀, t₁, -, -, rfl⟩ := init_eq_ok h
  exact ⟨fun _ => rfl, fun _ => rfl⟩

theorem configure_gap (h : configure addrdecOption gpgpuMemAddressMask nchips = .ok t) :
    t.gap = gapOf nchips ∧ t.nchips = nchips := by
  unfold configure readOption at h
  obtain ⟨hgap, hnchips⟩ := setPreset_gap (new (gapOf nchips) nchips) gpgpuMemAddressMask
  split at h
  · obtain ⟨hgap', hnchips'⟩ := addrdecParseoption_gap h
    exact ⟨hgap'.trans hgap, hnchips'.trans hnchips⟩
  · cases h
    exact ⟨hgap, hnchips⟩

theorem init_gap (h : init addrdecOption gpgpuMemAddressMask runTest nchips = .ok t) :
    t.gap = gapOf nchips ∧ t.nchips = nchips := by
  obtain ⟨t₀, t₁, h₀, h₁, rfl⟩ := init_eq_ok h
  obtain ⟨hgap, hnchips⟩ := configure_gap h₀
  obtain ⟨hgap', hnchips'⟩ := insertChipBits_gap h₁
  exact ⟨hgap'.trans hgap, hnchips'.trans hnchips⟩

end Init

end Translation

end GpgpuSimRuby.Addrdec
