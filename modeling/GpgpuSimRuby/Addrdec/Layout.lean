import GpgpuSimRuby.Addrdec.Masks

/-!
# The layout of an address

Which bits of an address a mapping string gives to which field, and that these are the masks `init`
computes. The string has a letter for every bit, the highest first; bits of the chip that are put in
at a position move the bank, the row and the column, but not the burst.
-/

namespace GpgpuSimRuby.Addrdec

open Library
open Translation

/-! ## Letters -/

/-- The letters of a field. -/
def lettersOf : Field → List Char
  | .chip => ['D', 'd']
  | .bk => ['B', 'b']
  | .row => ['R', 'r']
  | .col => ['C', 'c', 'S', 's']
  | .burst => ['S', 's']

/-- The letters, and `0` for a bit that is ignored. -/
def isLetter (c : Char) : Bool := c ∈ ['D', 'd', 'B', 'b', 'R', 'r', 'C', 'c', 'S', 's', '0']

/-- The letters of a mapping string. -/
def letters (option : List Char) : List Char := (cmapping option).filter isLetter

/-- The letter of a bit is one of the field's. -/
def hasLetter (option : List Char) (f : Field) (p : Nat) : Bool :=
  p < 64 && (letters option)[63 - p]?.any (· ∈ lettersOf f)

section Parse

variable {parsed : Bool} {s s' : (Field → BitVec 64) × Int} {c : Char} {l : List Char} {f : Field}

/-- What a letter does: a bit for its fields. -/
structure Adds (parsed : Bool) (c : Char) (s s' : (Field → BitVec 64) × Int) : Prop where
  mask : ∀ f, s'.1 f = if c ∈ lettersOf f then s.1 f ||| 1#64 <<< (s.2 % 64).toNat else s.1 f
  ofs : s'.2 = s.2 - 1
  dramid : c ∈ lettersOf .chip → parsed = false

theorem addBit_apply {mask : Field → BitVec 64} {g : Field} {ofs : Int} : addBit f ofs mask g =
    if g = f then mask g ||| 1#64 <<< (ofs % 64).toNat else mask g := by
  unfold addBit
  rw [Function.update_apply]
  split_ifs with h
  · rw [h]
  · rfl

theorem parseChar_cases (h : parseChar parsed s c = .ok s') :
    isLetter c = true ∧ Adds parsed c s s' ∨ isLetter c = false ∧ s' = s := by
  unfold parseChar at h
  split at h
  case h_12 hD hd hB hb hR hr hC hc hS hs h0 =>
    cases h
    refine .inr ⟨?_, rfl⟩
    apply decide_eq_false
    simp only [List.mem_cons, List.not_mem_nil]
    tauto
  case h_1 | h_2 =>
    obtain ⟨_, hparsed, h⟩ := bind_eq_ok.mp h
    cases h
    refine .inl ⟨rfl, ⟨?_, rfl, fun _ => assert_eq_ok.mp hparsed⟩⟩
    intro f
    cases f <;> simp [addBit_apply, lettersOf]
  all_goals
    cases h
    refine .inl ⟨rfl, ⟨?_, rfl, ?_⟩⟩
    · intro f
      cases f <;> simp [addBit_apply, lettersOf]
    · intro hmem
      simp [lettersOf] at hmem

theorem parse_loop {k : Nat} (hofs : s.2 = 63 - k) (h : l.foldlM (parseChar parsed) s = .ok s') :
    s'.2 = 63 - (k + (l.filter isLetter).length : Nat) ∧
      ((∃ c ∈ l.filter isLetter, c ∈ lettersOf .chip) → parsed = false) ∧
      (k + (l.filter isLetter).length ≤ 64 → ∀ f, ∀ p < 64, (s'.1 f).getLsbD p =
        ((s.1 f).getLsbD p ||
          (k + p ≤ 63 && (l.filter isLetter)[63 - p - k]?.any (· ∈ lettersOf f)))) := by
  induction l generalizing s k with
  | nil =>
    cases h
    simp [hofs]
  | cons c l ih =>
    rw [List.foldlM_cons] at h
    obtain ⟨s₁, hc, hrest⟩ := bind_eq_ok.mp h
    rcases parseChar_cases hc with ⟨hletter, hadds⟩ | ⟨hletter, rfl⟩
    · have hofs₁ : s₁.2 = 63 - (k + 1 : Nat) := by
        rw [hadds.ofs, hofs]
        push_cast
        ring
      obtain ⟨hend, hdramid, hmask⟩ := ih hofs₁ hrest
      rw [List.filter_cons_of_pos hletter, List.length_cons]
      refine ⟨by rw [hend]; push_cast; ring, ?_, ?_⟩
      · rintro ⟨d, hd, hchip⟩
        rcases List.mem_cons.mp hd with rfl | hd
        · exact hadds.dramid hchip
        · exact hdramid ⟨d, hd, hchip⟩
      · intro hlen f p hp
        have hplace : (s.2 % 64).toNat = 63 - k := by omega
        rw [hmask (by omega) f p hp, hadds.mask, hplace]
        rcases Nat.lt_trichotomy (k + p) 63 with hlt | heq | hgt
        · obtain ⟨d, hd⟩ : ∃ d, 63 - p - k = d + 1 := ⟨63 - p - k - 1, by omega⟩
          have hne : ¬ 63 - k = p := by omega
          rw [hd, List.getElem?_cons_succ, show 63 - p - (k + 1) = d by omega]
          split_ifs
          · rw [BitVec.getLsbD_or, ← BitVec.twoPow_eq, BitVec.getLsbD_twoPow]
            simp [hne, hlt.le, show k + 1 + p ≤ 63 by omega]
          · simp [hlt.le, show k + 1 + p ≤ 63 by omega]
        · have hd : 63 - p - k = 0 := by omega
          have hp' : 63 - k = p := by omega
          rw [hd, List.getElem?_cons_zero, hp']
          split_ifs with hmem
          · rw [BitVec.getLsbD_or, ← BitVec.twoPow_eq, BitVec.getLsbD_twoPow]
            simp [hmem, hp, heq.le, show ¬ k + 1 + p ≤ 63 by omega]
          · simp [hmem, show ¬ k + 1 + p ≤ 63 by omega]
        · have hne : ¬ 63 - k = p := by omega
          split_ifs
          · rw [BitVec.getLsbD_or, ← BitVec.twoPow_eq, BitVec.getLsbD_twoPow]
            simp [hne, show ¬ k + p ≤ 63 by omega, show ¬ k + 1 + p ≤ 63 by omega]
          · simp [show ¬ k + p ≤ 63 by omega, show ¬ k + 1 + p ≤ 63 by omega]
    · rw [List.filter_cons_of_neg (by simp [hletter])]
      exact ih hofs hrest

/-- **The option**: an accepted string has 64 letters, and no letters for the chip beside `dramid@`. -/
theorem addrdecParseoption_eq_ok {t t' : Translation} {option : List Char}
    (h : t.addrdecParseoption option = .ok t') :
    (letters option).length = 64 ∧ t'.addrChipS = (dramidStart option).getD (-1) ∧
      (dramidStart option ≠ none → ∀ p, hasLetter option .chip p = false) ∧
      ∀ f p, (t'.addrdecMask f).getLsbD p = hasLetter option f p := by
  obtain ⟨⟨mask, ofs⟩, hloop, h⟩ := bind_eq_ok.mp h
  obtain ⟨_, hofs, h⟩ := bind_eq_ok.mp h
  cases h
  have hofs' : ofs = -1 := assert_eq_ok.mp hofs
  obtain ⟨hend, hdramid, hmask⟩ := parse_loop (k := 0) rfl hloop
  have hlen : (letters option).length = 64 := by
    unfold letters
    dsimp only at hend
    omega
  refine ⟨hlen, rfl, ?_, ?_⟩
  · intro hsome p
    unfold hasLetter
    cases hp : (letters option)[63 - p]? with
    | none => simp
    | some c =>
      by_cases hchip : c ∈ lettersOf .chip
      · have hnone := hdramid ⟨c, List.mem_of_getElem? hp, hchip⟩
        rw [Option.isSome_eq_false_iff, Option.isNone_iff_eq_none] at hnone
        exact absurd hnone hsome
      · simp [hchip]
  · intro f p
    by_cases hp : p < 64
    · rw [hmask (by unfold letters at hlen; omega) f p hp]
      unfold hasLetter letters
      simp [hp, show p ≤ 63 by omega]
    · unfold hasLetter
      rw [BitVec.getLsbD_of_ge _ _ (by omega)]
      simp [hp]

end Parse

/-! ## The masks of `init` -/

/-- Room for `n` bits at the position `first`. -/
def room (first n : Nat) (m : Nat → Bool) (p : Nat) : Bool :=
  if p < first then m p else p < 64 && n + first ≤ p && m (p - n)

/-- The position `ADDR_CHIP_S` that a string gives. -/
def chipStart (option : List Char) : BitVec 32 := (dramidStart option).getD (-1)

/-- The bits of the address that a field has. -/
def layout (option : List Char) (nchips : BitVec 32) (f : Field) (p : Nat) : Bool :=
  if chipStart option ≠ -1 ∧ gapOf nchips = 0 then
    match f with
    | .chip => p < 64 && (chipPositions (chipStart option) (logb2_32 nchips)).any (· % 64 = p)
    | .burst => hasLetter option .burst p
    | f => room ((chipStart option).toNat % 64) (logb2_32 nchips) (hasLetter option f) p
  else hasLetter option f p

section Masks

variable {p n : Nat} {s : BitVec 32} {m : BitVec 64}

theorem getLsbD_shl_sub_one {w c : Nat} (hw : 0 < w) : (shl 1#w c - 1#w).getLsbD p = decide (p < c % w) := by
  have hlt : c % w < w := Nat.mod_lt _ hw
  have hpow : 2 ^ (c % w) < 2 ^ w := Nat.pow_lt_pow_right (by decide) hlt
  have hpos := Nat.two_pow_pos (c % w)
  have hone : (1#w).toNat = 1 := by
    rw [BitVec.toNat_ofNat]
    exact Nat.mod_eq_of_lt (Nat.one_lt_two_pow hw.ne')
  have hnat : (shl 1#w c - 1#w).toNat = 2 ^ (c % w) - 1 := by
    unfold shl
    rw [← BitVec.twoPow_eq, BitVec.toNat_sub, BitVec.toNat_twoPow_of_lt hlt, hone,
      show 2 ^ w - 1 + 2 ^ (c % w) = 2 ^ (c % w) - 1 + 2 ^ w by omega, Nat.add_mod_right]
    exact Nat.mod_eq_of_lt (by omega)
  rw [← BitVec.testBit_toNat, hnat, Nat.testBit_two_pow_sub_one]

theorem getLsbD_insertBits (hn : n < 64) :
    (insertBits s n m).getLsbD p = room (s.toNat % 64) n m.getLsbD p := by
  have hmask {q : Nat} : (shl 1#64 s.toNat - 1#64).getLsbD q = decide (q < s.toNat % 64) :=
    getLsbD_shl_sub_one (by decide)
  unfold insertBits room
  dsimp only
  rw [BitVec.getLsbD_or, BitVec.getLsbD_and, hmask, show shl (m &&& ~~~(shl 1#64 s.toNat - 1#64)) n =
    (m &&& ~~~(shl 1#64 s.toNat - 1#64)) <<< n by unfold shl; rw [Nat.mod_eq_of_lt hn],
    BitVec.getLsbD_shiftLeft, BitVec.getLsbD_and, BitVec.getLsbD_not, hmask]
  split_ifs with hp
  · have hsub : ¬ s.toNat % 64 ≤ p - n := by omega
    simp [hp, hsub]
  · by_cases hp64 : p < 64
    · by_cases hge : n + s.toNat % 64 ≤ p
      · simp [hp, hp64, hge, show ¬ p < n by omega, show ¬ p - n < s.toNat % 64 by omega]
        exact fun _ => by omega
      · by_cases hnp : n ≤ p
        · simp [hp, hge, show p - n < s.toNat % 64 by omega]
        · simp [hp, hge, Nat.not_le.mp hnp]
    · simp [hp, hp64]

theorem getLsbD_foldl_shl (l : List Nat) : (l.foldl (fun m i => m ||| shl 1#64 i) m).getLsbD p =
    (m.getLsbD p || (p < 64 && l.any (· % 64 = p))) := by
  induction l generalizing m with
  | nil => simp
  | cons i l ih =>
    have hbit : (shl 1#64 i).getLsbD p = (p < 64 && decide (i % 64 = p)) := by
      unfold shl
      rw [← BitVec.twoPow_eq, BitVec.getLsbD_twoPow]
      by_cases heq : i % 64 = p
      · simp [heq]
      · simp [heq]
    rw [List.foldl_cons, ih, BitVec.getLsbD_or, hbit, List.any_cons, Bool.and_or_distrib_left, Bool.or_assoc]

theorem logb2_32_lt (nchips : BitVec 32) : logb2_32 nchips < 32 := by
  unfold logb2_32
  rw [Cache.logb2_eq nchips.isLt]
  by_cases hzero : nchips.toNat = 0
  · rw [hzero]
    decide
  · exact (Nat.log2_lt hzero).mpr nchips.isLt

/-- **The masks** of an accepted string are its layout. -/
theorem init_mask {option : List Char} {gpgpuMemAddressMask : Int} {runTest : Bool} {nchips : BitVec 32}
    {t : Translation} (h : init (some option) gpgpuMemAddressMask runTest nchips = .ok t) :
    t.addrChipS = chipStart option ∧ ∀ f p, (t.addrdecMask f).getLsbD p = layout option nchips f p := by
  obtain ⟨t₀, t₁, h₀, h₁, rfl⟩ := init_eq_ok h
  obtain ⟨-, hstart, hdramid, hmask⟩ := addrdecParseoption_eq_ok h₀
  obtain ⟨hgap, -⟩ := configure_gap h₀
  have hstart' : t₀.addrChipS = chipStart option := hstart
  have hn := logb2_32_lt nchips
  unfold insertChipBits at h₁
  rw [hgap] at h₁
  unfold layout
  by_cases hs : t₀.addrChipS ≠ -1
  · rw [if_pos hs] at h₁
    rw [hstart'] at hs
    by_cases hzero : gapOf nchips = 0
    · rw [if_pos hzero, if_pos hzero] at h₁
      cases h₁
      refine ⟨hstart', ?_⟩
      intro f p
      rw [if_pos ⟨hs, hzero⟩]
      have hsome : dramidStart option ≠ none := by
        intro hnone
        apply hs
        unfold chipStart
        rw [hnone]
        rfl
      have hroom (f : Field) : (insertBits t₀.addrChipS (logb2_32 nchips) (t₀.addrdecMask f)).getLsbD p =
          room ((chipStart option).toNat % 64) (logb2_32 nchips) (hasLetter option f) p := by
        rw [getLsbD_insertBits (by omega), hstart', show (t₀.addrdecMask f).getLsbD = hasLetter option f from
          funext (hmask f)]
      cases f with
      | chip =>
        refine (getLsbD_foldl_shl _).trans ?_
        rw [hmask, hdramid hsome, hstart', Bool.false_or]
      | bk => exact hroom .bk
      | row => exact hroom .row
      | col => exact hroom .col
      | burst => exact hmask .burst p
    · rw [if_neg hzero] at h₁
      cases h₁
      refine ⟨hstart', ?_⟩
      intro f p
      rw [if_neg fun hand => hzero hand.2]
      exact hmask f p
  · rw [if_neg hs] at h₁
    obtain ⟨_, -, h₁⟩ := bind_eq_ok.mp h₁
    cases h₁
    rw [hstart'] at hs
    refine ⟨hstart', ?_⟩
    intro f p
    rw [if_neg fun hand => hs hand.1]
    exact hmask f p

end Masks

end GpgpuSimRuby.Addrdec
