import GpgpuSimRuby.Library.Fault

/-!
# Texture borders

What `tex_impl` makes of the coordinates of a texel outside of the texture: its own integer code, and
`wrap` and `clamp` for the four texels of a linear sample. A coordinate is an `int`, and becomes an
`unsigned` in most places.

* An overflow of an `int` is a fault.
* The coordinates of the linear samples are in bytes, those of the other code in texels.
-/

namespace GpgpuSimRuby.Ptx

open Library

/-- `cudaTextureAddressMode`. -/
inductive TexMode where
  | wrap | clamp
  deriving DecidableEq, Repr

inductive TexFault where
  | overflow
  deriving DecidableEq, Repr

/-- The sizes of a `cudaArray`. Its `size` in bytes is an `int`. -/
structure Texture where
  width : Nat
  height : Nat
  elemSize : Nat
  width_pos : 0 < width
  height_pos : 0 < height
  elemSize_pos : 0 < elemSize
  size_lt : width * height * elemSize < 2 ^ 31

/-! ## The code -/

section Code

variable (x y mx my : BitVec 32) (elemSize : Nat)

/-- `wrap`. -/
def wrap : BitVec 32 :=
  let nx := (mx + x) % mx
  let ny := (my + y) % my
  nx + mx * ny

/-- The loop of `clamp`. -/
def clampLoop : Nat → BitVec 32 → Option (BitVec 32)
  | 0, _ => none
  | fuel + 1, nx => if mx ≤ nx then clampLoop fuel (nx - BitVec.ofNat 32 elemSize) else some nx

/-- `clamp`. -/
def clamp (fuel : Nat) : Option (BitVec 32) := do
  let nx ← clampLoop mx elemSize fuel x
  let ny := if my ≤ y then my - 1 else y
  some (nx + mx * ny)

/-- The function that `b_lim` points to. -/
def bLim (mode : TexMode) (fuel : Nat) : Option (BitVec 32) :=
  match mode with
  | .wrap => some (wrap x y mx my)
  | .clamp => clamp x y mx my elemSize fuel

/-- The handling of a coordinate of `GEOM_MODIFIER_1D`. The comparison with `width` is one of `unsigned`
numbers. -/
def tex1D (mode : TexMode) (width : BitVec 32) : BitVec 32 :=
  match mode with
  | .clamp =>
    let x := if width - 1 < x then width - 1 else x
    if x.slt 0 then 0 else x
  | .wrap => x % width

/-- The handling of each coordinate of `GEOM_MODIFIER_2D`. -/
def tex2D (mode : TexMode) (width : BitVec 32) : BitVec 32 :=
  match mode with
  | .clamp =>
    let x := if x.slt 0 then 0 else x
    if width.sle x then width - 1 else x
  | .wrap =>
    let x := x % width
    if x.slt 0 then x * -1 else x

/-- A result of type `int`. -/
def toInt32 (n : Int) : Except TexFault (BitVec 32) :=
  if -2 ^ 31 ≤ n ∧ n < 2 ^ 31 then .ok (BitVec.ofInt 32 n) else .error .overflow

end Code

namespace Texture

variable (t : Texture)

/-- `width`, after it has been multiplied. -/
def mx : BitVec 32 := BitVec.ofNat 32 (t.width * t.elemSize)

def my : BitVec 32 := BitVec.ofNat 32 t.height

/-- The address in the array that `tex_linf_sampling` reads for one of its four texels: `x` is
multiplied by the size of a texel, and `ofst` is the offset of the element in the texel. -/
def linearAddr (mode : TexMode) (fuel : Nat) (x y : BitVec 32) (ofst : Nat) (dx dy : Bool) :
    Except TexFault (Option (BitVec 32)) := do
  let x ← toInt32 (x.toInt * t.elemSize)
  let x := x + BitVec.ofNat 32 ofst
  let y ← toInt32 (y.toInt + dy.toNat)
  .ok (bLim (x + BitVec.ofNat 32 (dx.toNat * t.elemSize)) y t.mx t.my t.elemSize mode fuel)

end Texture

/-! ## The texels -/

/-- The coordinate of the texel that is selected. -/
def TexMode.fold (mode : TexMode) (n : Nat) (x : Int) : Int :=
  match mode with
  | .wrap => x % n
  | .clamp => max 0 (min x (n - 1))

/-- The places in which coordinates are handled. -/
inductive TexCode (t : Texture) where
  | linear (mode : TexMode) (ofst : Fin t.elemSize) (dx dy : Bool)
  | oneD (mode : TexMode)
  | twoD (modeX modeY : TexMode)

namespace Texture

variable (t : Texture)

/-- The address of an element in the array. -/
def texelAddr (x y : Int) (ofst : Nat) : Int := x * t.elemSize + ofst + t.width * t.elemSize * y

/-- The texel that is selected is the one that the address mode stands for. -/
def Right (c : TexCode t) (x y : BitVec 32) : Prop :=
  match c with
  | .linear mode ofst dx dy => ∃ fuel a, t.linearAddr mode fuel x y ofst dx dy = .ok (some a) ∧
    (a.toNat : Int) = t.texelAddr (mode.fold t.width (x.toInt + dx.toNat))
      (mode.fold t.height (y.toInt + dy.toNat)) ofst
  | .oneD mode => (tex1D x mode (BitVec.ofNat 32 t.width)).toInt = mode.fold t.width x.toInt
  | .twoD modeX modeY =>
    (tex2D x modeX (BitVec.ofNat 32 t.width)).toInt = modeX.fold t.width x.toInt ∧
      (tex2D y modeY (BitVec.ofNat 32 t.height)).toInt = modeY.fold t.height y.toInt

/-- What the code makes of a horizontal position in bytes is right. -/
def RightX (mode : TexMode) (x : Int) : Prop :=
  match mode with
  | .wrap => (0 ≤ t.width * t.elemSize + x ∧ t.width * t.elemSize + x < 2 ^ 32) ∨
    t.width * t.elemSize ∣ 2 ^ 32
  | .clamp => (0 ≤ x ∧ x < 2 ^ 32) ∨ (t.width = 1 ∧ t.elemSize ∣ 2 ^ 32)

def RightY (mode : TexMode) (y : Int) : Prop :=
  match mode with
  | .wrap => 0 ≤ t.height + y ∨ t.height ∣ 2 ^ 32
  | .clamp => 0 ≤ y ∨ t.height = 1

/-- The coordinates for which the right texel is selected. -/
def RightWhen (c : TexCode t) (x y : BitVec 32) : Prop :=
  match c with
  | .linear mode ofst dx dy =>
    (-2 ^ 31 ≤ x.toInt * t.elemSize ∧ x.toInt * t.elemSize < 2 ^ 31 ∧ y.toInt + dy.toNat < 2 ^ 31) ∧
      t.RightX mode ((x.toInt + dx.toNat) * t.elemSize + ofst) ∧ t.RightY mode (y.toInt + dy.toNat)
  | .oneD .clamp => 0 ≤ x.toInt ∨ t.width = 1
  | .oneD .wrap => 0 ≤ x.toInt ∨ t.width ∣ 2 ^ 32
  | .twoD modeX modeY => (modeX = .wrap → 0 ≤ x.toInt ∨ t.width ∣ 2 ^ 32) ∧
    (modeY = .wrap → 0 ≤ y.toInt ∨ t.height ∣ 2 ^ 32)

end Texture

/-! ## Residues -/

theorem emod_emod_eq_iff {N m n : Int} (hN : 0 < N) (hlow : -N ≤ n) (hhigh : n < 2 * N) :
    n % N % m = n % m ↔ (0 ≤ n ∧ n < N) ∨ m ∣ N := by
  have hdiv := Int.emod_add_mul_ediv n N
  have hdiff : n % N % m = n % m ↔ m ∣ N * (n / N) := by
    rw [Int.emod_eq_emod_iff_emod_sub_eq_zero, ← Int.dvd_iff_emod_eq_zero, ← dvd_neg]
    have hsub : -(n % N - n) = N * (n / N) := by omega
    rw [hsub]
  have hquot : (0 ≤ n ∧ n < N ∧ n / N = 0) ∨ (n < 0 ∧ n / N = -1) ∨ (N ≤ n ∧ n / N = 1) := by
    rcases lt_or_ge n 0 with hneg | hpos
    · refine .inr (.inl ⟨hneg, ?_⟩)
      exact ((Int.ediv_emod_unique (r := n + N) hN).mpr ⟨by omega, by omega, by omega⟩).1
    · rcases lt_or_ge n N with hlt | hge
      · exact .inl ⟨hpos, hlt, Int.ediv_eq_zero_of_lt hpos hlt⟩
      · refine .inr (.inr ⟨hge, ?_⟩)
        exact ((Int.ediv_emod_unique (r := n - N) hN).mpr ⟨by omega, by omega, by omega⟩).1
  rw [hdiff]
  rcases hquot with ⟨hpos, hlt, h⟩ | ⟨hneg, h⟩ | ⟨hge, h⟩
  · rw [h, mul_zero]
    exact iff_of_true (dvd_zero m) (.inl ⟨hpos, hlt⟩)
  · rw [h, mul_neg_one, dvd_neg]
    exact ⟨.inr, fun h' => h'.resolve_left fun h' => absurd h'.1 (not_le.mpr hneg)⟩
  · rw [h, mul_one]
    exact ⟨.inr, fun h' => h'.resolve_left fun h' => absurd h'.2 (not_lt.mpr hge)⟩

/-! ## The loop of `clamp` -/

section Loop

variable {mx nx r : BitVec 32} {elemSize width : Nat}

/-- Where the loop ends: in the last texel, at the same offset. -/
def clampTarget (elemSize width nx : Nat) : Nat :=
  min (nx / elemSize) (width - 1) * elemSize + nx % elemSize

theorem clampTarget_of_lt (h : nx.toNat < width * elemSize) :
    clampTarget elemSize width nx.toNat = nx.toNat := by
  have hdiv : nx.toNat / elemSize < width := Nat.div_lt_of_lt_mul (by rwa [mul_comm] at h)
  unfold clampTarget
  rw [min_eq_left (by omega), Nat.div_add_mod']

theorem clampTarget_lt (hpos : 0 < elemSize) (hw : 0 < width) (n : Nat) :
    clampTarget elemSize width n < width * elemSize := by
  have hmod := Nat.mod_lt n hpos
  have hle : (min (n / elemSize) (width - 1) + 1) * elemSize ≤ width * elemSize :=
    Nat.mul_le_mul_right _ (by omega)
  rw [add_mul, one_mul] at hle
  unfold clampTarget
  omega

theorem clampTarget_sub (hpos : 0 < elemSize) (hw : 0 < width) {n : Nat} (h : width * elemSize ≤ n) :
    clampTarget elemSize width (n - elemSize) = clampTarget elemSize width n := by
  have hdiv : width ≤ n / elemSize := (Nat.le_div_iff_mul_le hpos).mpr h
  have hone : elemSize ≤ n := le_trans (Nat.le_mul_of_pos_left _ hw) h
  have hdiv' := Nat.div_eq_sub_div hpos hone
  unfold clampTarget
  rw [← Nat.mod_eq_sub_mod hone, min_eq_right (by omega), min_eq_right (by omega)]

theorem toNat_sub_elemSize (hw : 0 < width) (hmx : mx.toNat = width * elemSize) (h : mx ≤ nx) :
    elemSize ≤ nx.toNat ∧ (nx - BitVec.ofNat 32 elemSize).toNat = nx.toNat - elemSize := by
  have hle : width * elemSize ≤ nx.toNat := hmx ▸ h
  have hone : elemSize ≤ nx.toNat := le_trans (Nat.le_mul_of_pos_left _ hw) hle
  have hlt := nx.isLt
  refine ⟨hone, ?_⟩
  rw [BitVec.toNat_sub_of_le, BitVec.toNat_ofNat, Nat.mod_eq_of_lt (by omega)]
  show (BitVec.ofNat 32 elemSize).toNat ≤ nx.toNat
  rw [BitVec.toNat_ofNat, Nat.mod_eq_of_lt (by omega)]
  exact hone

theorem clampLoop_toNat (hpos : 0 < elemSize) (hw : 0 < width) (hmx : mx.toNat = width * elemSize)
    {fuel : Nat} (h : clampLoop mx elemSize fuel nx = some r) :
    r.toNat = clampTarget elemSize width nx.toNat := by
  induction fuel generalizing nx with
  | zero => cases h
  | succ fuel ih =>
    unfold clampLoop at h
    split at h
    · next hle =>
      have hle' : width * elemSize ≤ nx.toNat := hmx ▸ hle
      rw [ih h, (toNat_sub_elemSize hw hmx hle).2, clampTarget_sub hpos hw hle']
    · next hlt =>
      obtain rfl := Option.some.inj h
      have hlt' : ¬ width * elemSize ≤ nx.toNat := hmx ▸ hlt
      exact (clampTarget_of_lt (not_le.mp hlt')).symm

theorem clampLoop_terminates (hpos : 0 < elemSize) (hw : 0 < width) (hmx : mx.toNat = width * elemSize)
    {fuel : Nat} (h : nx.toNat < fuel) : ∃ r, clampLoop mx elemSize fuel nx = some r := by
  induction fuel generalizing nx with
  | zero => exact absurd h (Nat.not_lt_zero _)
  | succ fuel ih =>
    unfold clampLoop
    split
    · next hle =>
      obtain ⟨hone, hsub⟩ := toNat_sub_elemSize hw hmx hle
      exact ih (by omega)
    · exact ⟨nx, rfl⟩

end Loop

/-! ## The address functions -/

namespace Texture

variable {t : Texture} {x y : BitVec 32} {mode : TexMode} {ofst : Nat} {v : BitVec 32}

theorem row_pos (t : Texture) : 0 < t.width * t.elemSize := Nat.mul_pos t.width_pos t.elemSize_pos

theorem row_lt (t : Texture) : t.width * t.elemSize < 2 ^ 31 := by
  have h := t.size_lt
  have hle : t.width * t.elemSize * 1 ≤ t.width * t.elemSize * t.height :=
    Nat.mul_le_mul_left _ t.height_pos
  have hcomm : t.width * t.height * t.elemSize = t.width * t.elemSize * t.height :=
    Nat.mul_right_comm ..
  omega

theorem height_lt (t : Texture) : t.height < 2 ^ 31 := by
  have h := t.size_lt
  have hle : 1 * t.height ≤ t.width * t.elemSize * t.height := Nat.mul_le_mul_right _ t.row_pos
  have hcomm : t.width * t.height * t.elemSize = t.width * t.elemSize * t.height :=
    Nat.mul_right_comm ..
  omega

theorem width_lt (t : Texture) : t.width < 2 ^ 31 := by
  have h := t.row_lt
  have hle : t.width * 1 ≤ t.width * t.elemSize := Nat.mul_le_mul_left _ t.elemSize_pos
  omega

theorem toNat_mx (t : Texture) : t.mx.toNat = t.width * t.elemSize := by
  have h := t.row_lt
  unfold mx
  rw [BitVec.toNat_ofNat, Nat.mod_eq_of_lt (by omega)]

theorem toNat_my (t : Texture) : t.my.toNat = t.height := by
  have h := t.height_lt
  unfold my
  rw [BitVec.toNat_ofNat, Nat.mod_eq_of_lt (by omega)]

theorem toNat_addr {nx ny : BitVec 32} (hx : nx.toNat < t.width * t.elemSize)
    (hy : ny.toNat < t.height) :
    (nx + t.mx * ny).toNat = nx.toNat + t.width * t.elemSize * ny.toNat := by
  have h := t.size_lt
  have hcomm : t.width * t.height * t.elemSize = t.width * t.elemSize * t.height :=
    Nat.mul_right_comm ..
  have hrow : t.width * t.elemSize * (ny.toNat + 1) ≤ t.width * t.elemSize * t.height :=
    Nat.mul_le_mul_left _ hy
  rw [mul_add, mul_one] at hrow
  rw [BitVec.toNat_add, BitVec.toNat_mul, toNat_mx]
  rw [Nat.mod_eq_of_lt (a := t.width * t.elemSize * ny.toNat) (by omega), Nat.mod_eq_of_lt (by omega)]

theorem addr_inj {m : Int} {nx ny nx' ny' : Int} (hx : 0 ≤ nx ∧ nx < m) (hx' : 0 ≤ nx' ∧ nx' < m) :
    nx + m * ny = nx' + m * ny' ↔ nx = nx' ∧ ny = ny' := by
  constructor
  · intro h
    have hmod := congrArg (· % m) h
    simp only [Int.add_mul_emod_self_left, Int.emod_eq_of_lt hx.1 hx.2,
      Int.emod_eq_of_lt hx'.1 hx'.2] at hmod
    refine ⟨hmod, ?_⟩
    have hm : m ≠ 0 := by omega
    rw [hmod] at h
    exact mul_left_cancel₀ hm (add_left_cancel h)
  · rintro ⟨rfl, rfl⟩
    rfl

theorem row_emod {w e : Nat} (x : Int) (h : ofst < e) :
    (x * e + ofst) % (w * e) = x % w * e + ofst := by
  have he : (0 : Int) < e := by omega
  rcases Nat.eq_zero_or_pos w with rfl | hw
  · simp
  · have hlow := Int.emod_nonneg x (show (w : Int) ≠ 0 by omega)
    have hhigh := Int.emod_lt_of_pos x (show (0 : Int) < w by omega)
    have hdiv := Int.emod_add_mul_ediv x w
    have hsplit : x * e + ofst = x % w * e + ofst + w * e * (x / w) := by
      nth_rewrite 1 [← hdiv]
      ring
    have hlt : x % w * e + ofst < w * e := by
      have hstep : (x % w + 1) * e ≤ w * e := mul_le_mul_of_nonneg_right (by omega) he.le
      rw [add_mul, one_mul] at hstep
      omega
    have hnonneg : 0 ≤ x % w * e + ofst := by positivity
    rw [hsplit, Int.add_mul_emod_self_left, Int.emod_eq_of_lt hnonneg hlt]

theorem wrap_axis_iff {m : BitVec 32} {n : Int} (hlow : -2 ^ 32 ≤ m.toNat + n)
    (hhigh : m.toNat + n < 2 * 2 ^ 32) : (((m + BitVec.ofInt 32 n) % m).toNat : Int) = n % m.toNat ↔
      (0 ≤ m.toNat + n ∧ m.toNat + n < 2 ^ 32) ∨ m.toNat ∣ 2 ^ 32 := by
  have hcast : (((m + BitVec.ofInt 32 n) % m).toNat : Int) = (m.toNat + n) % 2 ^ 32 % m.toNat := by
    rw [BitVec.toNat_umod, BitVec.toNat_add, BitVec.toNat_ofInt]
    have hnonneg := Int.emod_nonneg n (show (2 ^ 32 : Int) ≠ 0 by decide)
    push_cast
    rw [Int.toNat_of_nonneg (by exact_mod_cast hnonneg)]
    norm_num
  have hmod : (m.toNat + n) % (m.toNat : Int) = n % m.toNat := by simp
  have hdvd : (m.toNat : Int) ∣ 2 ^ 32 ↔ m.toNat ∣ 2 ^ 32 := by exact_mod_cast Iff.rfl
  rw [hcast, ← hmod, emod_emod_eq_iff (by decide) hlow hhigh, hdvd]

theorem toNat_ofInt_cases {n : Int} (hlow : -2 ^ 32 ≤ n) (hhigh : n < 2 * 2 ^ 32) :
    (0 ≤ n ∧ n < 2 ^ 32 ∧ ((BitVec.ofInt 32 n).toNat : Int) = n) ∨
      (n < 0 ∧ ((BitVec.ofInt 32 n).toNat : Int) = n + 2 ^ 32) ∨
      (2 ^ 32 ≤ n ∧ ((BitVec.ofInt 32 n).toNat : Int) = n - 2 ^ 32) := by
  have hnonneg := Int.emod_nonneg n (show (2 ^ 32 : Int) ≠ 0 by decide)
  rw [BitVec.toNat_ofInt]
  push_cast
  rw [Int.toNat_of_nonneg (by exact_mod_cast hnonneg)]
  omega

theorem position_inj {e : Nat} {q q' r r' : Int} (hr : 0 ≤ r ∧ r < e) (hr' : 0 ≤ r' ∧ r' < e) :
    q * e + r = q' * e + r' ↔ q = q' ∧ r = r' := by
  rw [add_comm, mul_comm, add_comm (q' * e), mul_comm q', addr_inj hr hr', and_comm]

theorem offset_iff {e ofst u : Nat} {x c : Int} (hofst : ofst < e) (hu : (u : Int) = x * e + ofst + c) :
    ((u % e : Nat) : Int) = ofst ↔ (e : Int) ∣ c := by
  have hself : (ofst : Int) = ofst % e := (Int.emod_eq_of_lt (by omega) (by omega)).symm
  have hsub : x * e + ofst + c - ofst = x * e + c := by ring
  rw [Int.natCast_emod, hu]
  nth_rewrite 2 [hself]
  rw [Int.emod_eq_emod_iff_emod_sub_eq_zero, ← Int.dvd_iff_emod_eq_zero, hsub,
    dvd_add_right (dvd_mul_left _ _)]

theorem clamp_row_iff (t : Texture) {x : Int} (hofst : ofst < t.elemSize)
    (hlow : -2 ^ 31 ≤ x * t.elemSize + ofst) (hhigh : x * t.elemSize + ofst < 2 ^ 31 + 2 * t.elemSize) :
    (clampTarget t.elemSize t.width (BitVec.ofInt 32 (x * t.elemSize + ofst)).toNat : Int) =
        TexMode.clamp.fold t.width x * t.elemSize + ofst ↔ t.RightX .clamp (x * t.elemSize + ofst) := by
  have he := t.elemSize_pos
  have hw := t.width_pos
  have hrow := t.row_lt
  have hone : t.elemSize ≤ t.width * t.elemSize := Nat.le_mul_of_pos_left _ hw
  generalize hu : (BitVec.ofInt 32 (x * t.elemSize + ofst)).toNat = u
  have hcases := toNat_ofInt_cases (n := x * t.elemSize + ofst) (by omega) (by omega)
  rw [hu] at hcases
  -- The texel and the offset in it are compared separately.
  have htarget :
      (clampTarget t.elemSize t.width u : Int) = TexMode.clamp.fold t.width x * t.elemSize + ofst ↔
      ((min (u / t.elemSize) (t.width - 1) : Nat) : Int) = TexMode.clamp.fold t.width x ∧
        ((u % t.elemSize : Nat) : Int) = ofst := by
    have hmod := Nat.mod_lt u he
    unfold clampTarget
    push_cast
    exact position_inj (by omega) (by omega)
  have hdvd : (t.elemSize : Int) ∣ 2 ^ 32 ↔ t.elemSize ∣ 2 ^ 32 := by exact_mod_cast Iff.rfl
  rw [htarget]
  unfold TexMode.fold RightX
  dsimp only
  rcases hcases with ⟨hpos, hlt, hu⟩ | ⟨hneg, hu⟩ | ⟨hge, hu⟩
  · have hquot : ((u / t.elemSize : Nat) : Int) = x := by
      push_cast
      exact ((Int.ediv_emod_unique (r := ofst) (show (0 : Int) < t.elemSize by omega)).mpr
        ⟨by rw [hu]; ring, by omega, by omega⟩).1
    have hoffset := offset_iff (x := x) (c := 0) hofst (show (u : Int) = _ by omega)
    have hx : 0 ≤ x := by
      rw [← hquot]
      exact Int.natCast_nonneg _
    refine iff_of_true ⟨?_, hoffset.mpr (dvd_zero _)⟩ (.inl ⟨hpos, hlt⟩)
    omega
  · -- To the left of the texture: the last texel of the row is taken.
    have hquot : t.width ≤ u / t.elemSize := by
      rw [Nat.le_div_iff_mul_le he]
      omega
    have hx : x < 0 := by
      by_contra hx
      have := mul_nonneg (not_lt.mp hx) (Int.natCast_nonneg t.elemSize)
      omega
    rw [offset_iff hofst hu, hdvd]
    omega
  · have hwidth : t.width = 1 := by
      by_contra hne
      have htwo : 2 * t.elemSize ≤ t.width * t.elemSize := Nat.mul_le_mul_right _ (by omega)
      omega
    rw [offset_iff (x := x) (c := -2 ^ 32) hofst (show (u : Int) = _ by omega), dvd_neg, hdvd, hwidth]
    refine ⟨fun h => .inr ⟨rfl, h.2⟩, fun h => ⟨?_, ?_⟩⟩
    · rw [Nat.sub_self, Nat.min_zero, Nat.cast_one, sub_self]
      omega
    · exact (h.resolve_left fun h => absurd h.2 (not_lt.mpr hge)).2

theorem clamp_column_iff (t : Texture) {y : Int} (hlow : -2 ^ 31 ≤ y) (hhigh : y < 2 ^ 31) :
    (((if t.my ≤ BitVec.ofInt 32 y then t.my - 1
      else BitVec.ofInt 32 y : BitVec 32).toNat : Nat) : Int) =
      TexMode.clamp.fold t.height y ↔ t.RightY .clamp y := by
  have hh := t.height_pos
  have hlt := t.height_lt
  have hcases := toNat_ofInt_cases (n := y) (by omega) (by omega)
  have hpred : (t.my - 1).toNat = t.height - 1 := by
    rw [BitVec.toNat_sub_of_le, toNat_my]
    · rfl
    · show 1 ≤ t.my.toNat
      rw [toNat_my]
      exact hh
  have hle : t.my ≤ BitVec.ofInt 32 y ↔ t.height ≤ (BitVec.ofInt 32 y).toNat := by
    rw [BitVec.le_def, toNat_my]
  unfold TexMode.fold RightY
  dsimp only
  split
  · next h =>
    rw [hle] at h
    rw [hpred]
    omega
  · next h =>
    rw [hle] at h
    omega

/-- What an address function returns for the position `b` in a row and the row `y`. -/
structure Selects (t : Texture) (mode : TexMode) (b y : Int) (nx ny : BitVec 32) : Prop where
  nx_lt : nx.toNat < t.width * t.elemSize
  ny_lt : ny.toNat < t.height
  returns : ∃ fuel, bLim (.ofInt 32 b) (.ofInt 32 y) t.mx t.my t.elemSize mode fuel =
    some (nx + t.mx * ny)
  unique : ∀ fuel a, bLim (.ofInt 32 b) (.ofInt 32 y) t.mx t.my t.elemSize mode fuel = some a →
    a = nx + t.mx * ny

theorem bLim_spec (t : Texture) (mode : TexMode) {x y : Int} (hofst : ofst < t.elemSize)
    (hlow : -2 ^ 31 ≤ x * t.elemSize + ofst) (hhigh : x * t.elemSize + ofst < 2 ^ 31 + 2 * t.elemSize)
    (hylow : -2 ^ 31 ≤ y) (hyhigh : y < 2 ^ 31) :
    ∃ nx ny, t.Selects mode (x * t.elemSize + ofst) y nx ny ∧
      ((nx.toNat : Int) = mode.fold t.width x * t.elemSize + ofst ↔
        t.RightX mode (x * t.elemSize + ofst)) ∧
      ((ny.toNat : Int) = mode.fold t.height y ↔ t.RightY mode y) := by
  have hrow := t.row_lt
  have hrowpos := t.row_pos
  have hheight := t.height_lt
  have hheightpos := t.height_pos
  have hone : t.elemSize ≤ t.width * t.elemSize := Nat.le_mul_of_pos_left _ t.width_pos
  cases mode with
  | wrap =>
    have hx := wrap_axis_iff (m := t.mx) (n := x * t.elemSize + ofst) (by omega)
        (by rw [toNat_mx]; omega)
    have hy := wrap_axis_iff (m := t.my) (n := y) (by omega) (by rw [toNat_my]; omega)
    refine ⟨_, _, ⟨?_, ?_, ⟨0, rfl⟩, fun _ a h => (Option.some.inj h).symm⟩, ?_, ?_⟩
    · rw [BitVec.toNat_umod, toNat_mx]
      exact Nat.mod_lt _ t.row_pos
    · rw [BitVec.toNat_umod, toNat_my]
      exact Nat.mod_lt _ t.height_pos
    · rw [toNat_mx] at hx
      push_cast at hx
      rw [row_emod x hofst] at hx
      exact hx
    · rw [toNat_my] at hy
      refine hy.trans ?_
      unfold RightY
      dsimp only
      have hlt : (t.height : Int) + y < 2 ^ 32 := by omega
      simp only [hlt, and_true]
  | clamp =>
    obtain ⟨fuel, nx, hnx⟩ : ∃ fuel nx,
        clampLoop t.mx t.elemSize fuel (.ofInt 32 (x * t.elemSize + ofst)) = some nx :=
      ⟨_, clampLoop_terminates t.elemSize_pos t.width_pos t.toNat_mx (Nat.lt_succ_self _)⟩
    have htarget := clampLoop_toNat t.elemSize_pos t.width_pos t.toNat_mx hnx
    refine ⟨nx, if t.my ≤ .ofInt 32 y then t.my - 1 else .ofInt 32 y, ⟨?_, ?_, ?_, ?_⟩, ?_,
      clamp_column_iff t hylow hyhigh⟩
    · rw [htarget]
      exact clampTarget_lt t.elemSize_pos t.width_pos _
    · split
      · rw [BitVec.toNat_sub_of_le, toNat_my]
        · exact Nat.sub_lt t.height_pos Nat.one_pos
        · show 1 ≤ t.my.toNat
          rw [toNat_my]
          exact t.height_pos
      · next h =>
        rw [BitVec.le_def, toNat_my] at h
        exact not_le.mp h
    · refine ⟨fuel, ?_⟩
      unfold bLim clamp
      dsimp only
      rw [hnx]
      rfl
    · intro fuel a h
      obtain ⟨nx', hnx', h⟩ := Option.bind_eq_some_iff.mp h
      have hsame : nx' = nx := by
        apply BitVec.eq_of_toNat_eq
        rw [htarget]
        exact clampLoop_toNat t.elemSize_pos t.width_pos t.toNat_mx hnx'
      rw [hsame] at h
      exact (Option.some.inj h).symm
    · rw [htarget]
      exact clamp_row_iff t hofst hlow hhigh

/-! ## The other code -/

section Texels

variable {n : Nat} {x : BitVec 32}

theorem toNat_width (hn : n < 2 ^ 31) : (BitVec.ofNat 32 n).toNat = n := by
  rw [BitVec.toNat_ofNat, Nat.mod_eq_of_lt (by omega)]

theorem toNat_width_sub_one (hpos : 0 < n) (hn : n < 2 ^ 31) :
    (BitVec.ofNat 32 n - 1).toNat = n - 1 := by
  rw [BitVec.toNat_sub_of_le, toNat_width hn]
  · rfl
  · show 1 ≤ (BitVec.ofNat 32 n).toNat
    rw [toNat_width hn]
    exact hpos

theorem toInt_of_lt (h : v.toNat < 2 ^ 31) : v.toInt = v.toNat :=
  BitVec.toInt_eq_toNat_of_lt (by omega)

theorem slt_zero_of_lt (h : v.toNat < 2 ^ 31) : v.slt 0 = false := by
  rw [BitVec.slt_eq_decide, toInt_of_lt h]
  exact decide_eq_false (by simp)

theorem toNat_cases (x : BitVec 32) : (0 ≤ x.toInt ∧ (x.toNat : Int) = x.toInt ∧ x.toNat < 2 ^ 31) ∨
      (x.toInt < 0 ∧ (x.toNat : Int) = x.toInt + 2 ^ 32 ∧ 2 ^ 31 ≤ x.toNat) := by
  have hlt := x.isLt
  rw [BitVec.toInt_eq_toNat_cond]
  split <;> omega

theorem tex1D_clamp_iff (hpos : 0 < n) (hn : n < 2 ^ 31) :
    (tex1D x .clamp (.ofNat 32 n)).toInt = TexMode.clamp.fold n x.toInt ↔ 0 ≤ x.toInt ∨ n = 1 := by
  have hpred := toNat_width_sub_one hpos hn
  have hcases := toNat_cases x
  have hlt : (if BitVec.ofNat 32 n - 1 < x then BitVec.ofNat 32 n - 1 else x).toNat =
      min (n - 1) x.toNat := by
    split
    · next h =>
      rw [BitVec.lt_def, hpred] at h
      omega
    · next h =>
      rw [BitVec.lt_def, hpred] at h
      omega
  unfold tex1D TexMode.fold
  dsimp only
  rw [slt_zero_of_lt (by omega), if_neg Bool.false_ne_true, toInt_of_lt (by omega), hlt]
  omega

theorem tex1D_wrap_iff (hpos : 0 < n) (hn : n < 2 ^ 31) :
    (tex1D x .wrap (.ofNat 32 n)).toInt = TexMode.wrap.fold n x.toInt ↔ 0 ≤ x.toInt ∨ n ∣ 2 ^ 32 := by
  have hlow := BitVec.le_toInt x
  have hhigh := BitVec.toInt_lt (x := x)
  have hmod := Nat.mod_lt x.toNat hpos
  have hcases := toNat_cases x
  have hcast : ((x.toNat % n : Nat) : Int) = x.toInt % 2 ^ 32 % n := by
    rw [Int.natCast_emod, show (x.toNat : Int) = x.toInt % 2 ^ 32 by omega]
  have hdvd : (n : Int) ∣ 2 ^ 32 ↔ n ∣ 2 ^ 32 := by exact_mod_cast Iff.rfl
  have hnat : (x % BitVec.ofNat 32 n).toNat = x.toNat % n := by
    rw [BitVec.toNat_umod, toNat_width hn]
  unfold tex1D TexMode.fold
  dsimp only
  rw [toInt_of_lt (by omega), hnat, hcast, emod_emod_eq_iff (by decide) (by omega) (by omega), hdvd]
  have hlt : x.toInt < 2 ^ 32 := by omega
  simp only [hlt, and_true]

theorem tex2D_clamp (hpos : 0 < n) (hn : n < 2 ^ 31) :
    (tex2D x .clamp (.ofNat 32 n)).toInt = TexMode.clamp.fold n x.toInt := by
  have hpred := toNat_width_sub_one hpos hn
  have hwidth : (BitVec.ofNat 32 n).toInt = n := by
    rw [toInt_of_lt (by rw [toNat_width hn]; exact hn), toNat_width hn]
  have hlow : (if x.slt 0 then 0 else x).toInt = max 0 x.toInt := by
    have hslt : x.slt 0 = decide (x.toInt < 0) := BitVec.slt_eq_decide
    rw [hslt]
    by_cases h : x.toInt < 0
    · rw [decide_eq_true h, if_pos rfl, max_eq_left h.le]
      rfl
    · rw [decide_eq_false h, if_neg Bool.false_ne_true, max_eq_right (not_lt.mp h)]
  unfold tex2D TexMode.fold
  dsimp only
  generalize (if x.slt 0 then 0 else x) = v at hlow ⊢
  rw [BitVec.sle_eq_decide, hwidth, hlow]
  by_cases h : (n : Int) ≤ max 0 x.toInt
  · rw [decide_eq_true h, if_pos rfl, toInt_of_lt (by omega), hpred]
    omega
  · rw [decide_eq_false h, if_neg Bool.false_ne_true, hlow]
    omega

theorem tex2D_wrap (hpos : 0 < n) (hn : n < 2 ^ 31) :
    tex2D x .wrap (.ofNat 32 n) = tex1D x .wrap (.ofNat 32 n) := by
  have hmod := Nat.mod_lt x.toNat hpos
  have hnat : (x % BitVec.ofNat 32 n).toNat = x.toNat % n := by
    rw [BitVec.toNat_umod, toNat_width hn]
  unfold tex2D tex1D
  dsimp only
  rw [slt_zero_of_lt (by omega), if_neg Bool.false_ne_true]

end Texels

theorem fold_bounds (mode : TexMode) {n : Nat} (hpos : 0 < n) (x : Int) :
    0 ≤ mode.fold n x ∧ mode.fold n x < n := by
  cases mode with
  | wrap => exact ⟨Int.emod_nonneg x (by omega), Int.emod_lt_of_pos x (by omega)⟩
  | clamp =>
    unfold TexMode.fold
    dsimp only
    omega

theorem position_bounds {w e : Nat} {q : Int} (hq : 0 ≤ q ∧ q < w) (h : ofst < e) :
    0 ≤ q * e + ofst ∧ q * e + ofst < (w * e : Nat) := by
  have hmul := mul_nonneg hq.1 (Int.natCast_nonneg e)
  have hle : (q + 1) * e ≤ w * e := mul_le_mul_of_nonneg_right (by omega) (Int.natCast_nonneg e)
  rw [add_mul, one_mul] at hle
  push_cast
  omega

theorem toInt32_ok {n : Int} (h : toInt32 n = .ok v) : -2 ^ 31 ≤ n ∧ n < 2 ^ 31 := by
  unfold toInt32 at h
  split at h
  · assumption
  · cases h

theorem linearAddr_eq (t : Texture) (mode : TexMode) (fuel ofst : Nat) (dx dy : Bool) (x y : BitVec 32)
    (hx : -2 ^ 31 ≤ x.toInt * t.elemSize ∧ x.toInt * t.elemSize < 2 ^ 31)
    (hy : y.toInt + dy.toNat < 2 ^ 31) : t.linearAddr mode fuel x y ofst dx dy =
      .ok (bLim (.ofInt 32 ((x.toInt + dx.toNat) * t.elemSize + ofst))
        (.ofInt 32 (y.toInt + dy.toNat)) t.mx t.my t.elemSize mode fuel) := by
  have hylow := BitVec.le_toInt y
  have hposition : BitVec.ofInt 32 (x.toInt * t.elemSize) + BitVec.ofNat 32 ofst +
      BitVec.ofNat 32 (dx.toNat * t.elemSize) =
        .ofInt 32 ((x.toInt + dx.toNat) * t.elemSize + ofst) := by
    rw [← BitVec.ofInt_natCast, ← BitVec.ofInt_natCast, ← BitVec.ofInt_add, ← BitVec.ofInt_add]
    push_cast
    congr 1
    ring
  unfold linearAddr toInt32
  rw [if_pos hx, if_pos ⟨by omega, hy⟩, ← hposition]
  rfl

theorem linear_right_iff (t : Texture) (mode : TexMode) (ofst : Fin t.elemSize) (dx dy : Bool)
    (x y : BitVec 32) : t.Right (.linear mode ofst dx dy) x y ↔
      t.RightWhen (.linear mode ofst dx dy) x y := by
  have hofst := ofst.isLt
  have hylow := BitVec.le_toInt y
  have hdx := dx.toNat_le
  have hdy := dy.toNat_le
  by_cases hno : (-2 ^ 31 ≤ x.toInt * t.elemSize ∧ x.toInt * t.elemSize < 2 ^ 31) ∧
      y.toInt + dy.toNat < 2 ^ 31
  · obtain ⟨hx, hy⟩ := hno
    have hstep : (dx.toNat : Int) * t.elemSize ≤ 1 * t.elemSize :=
      mul_le_mul_of_nonneg_right (by omega) (Int.natCast_nonneg _)
    have hstep' := mul_nonneg (Int.natCast_nonneg dx.toNat) (Int.natCast_nonneg t.elemSize)
    have hexpand := add_mul x.toInt dx.toNat t.elemSize
    obtain ⟨nx, ny, hsel, hX, hY⟩ := t.bLim_spec mode (x := x.toInt + dx.toNat)
      (y := y.toInt + dy.toNat) hofst (by omega) (by omega) (by omega) hy
    -- The address is right if both parts of the position are.
    have haddr : ((nx + t.mx * ny).toNat : Int) = t.texelAddr (mode.fold t.width (x.toInt + dx.toNat))
        (mode.fold t.height (y.toInt + dy.toNat)) ofst ↔
          t.RightX mode ((x.toInt + dx.toNat) * t.elemSize + ofst) ∧
            t.RightY mode (y.toInt + dy.toNat) := by
      have hposition := position_bounds (fold_bounds mode t.width_pos (x.toInt + dx.toNat)) hofst
      have hnx := hsel.nx_lt
      rw [toNat_addr hsel.nx_lt hsel.ny_lt, ← hX, ← hY]
      unfold texelAddr
      push_cast at hposition ⊢
      exact addr_inj (by omega) hposition
    refine Iff.trans ?_ (haddr.trans ?_)
    · constructor
      · rintro ⟨fuel, a, ha, hvalue⟩
        rw [linearAddr_eq t mode fuel ofst dx dy x y hx hy] at ha
        rw [← hsel.unique fuel a (Except.ok.inj ha)]
        exact hvalue
      · intro hvalue
        obtain ⟨fuel, hfuel⟩ := hsel.returns
        refine ⟨fuel, _, ?_, hvalue⟩
        rw [linearAddr_eq t mode fuel ofst dx dy x y hx hy, hfuel]
    · exact ⟨fun h => ⟨⟨hx.1, hx.2, hy⟩, h⟩, fun h => h.2⟩
  · refine iff_of_false ?_ fun h => hno ⟨⟨h.1.1, h.1.2.1⟩, h.1.2.2⟩
    rintro ⟨fuel, a, ha, -⟩
    obtain ⟨x', hx', ha⟩ := bind_eq_ok.mp ha
    obtain ⟨y', hy', -⟩ := bind_eq_ok.mp ha
    exact hno ⟨toInt32_ok hx', (toInt32_ok hy').2⟩

/-- **Texture borders.** For every texture, coordinates and place where they are handled, the loop of
`clamp` ends, and the texel that is selected is the right one exactly when `RightWhen` holds. -/
theorem texel_right_iff (t : Texture) (c : TexCode t) (x y : BitVec 32) :
    (∀ nx, ∃ fuel r, clampLoop t.mx t.elemSize fuel nx = some r) ∧
      (t.Right c x y ↔ t.RightWhen c x y) := by
  constructor
  · intro nx
    exact ⟨_, clampLoop_terminates t.elemSize_pos t.width_pos t.toNat_mx (Nat.lt_succ_self nx.toNat)⟩
  · cases c with
    | linear mode ofst dx dy => exact linear_right_iff t mode ofst dx dy x y
    | oneD mode =>
      cases mode with
      | wrap => exact tex1D_wrap_iff t.width_pos t.width_lt
      | clamp => exact tex1D_clamp_iff t.width_pos t.width_lt
    | twoD modeX modeY =>
      have hwrap : ∀ {n : Nat} {v : BitVec 32}, 0 < n → n < 2 ^ 31 → ∀ mode : TexMode,
          ((tex2D v mode (.ofNat 32 n)).toInt = mode.fold n v.toInt ↔
            (mode = .wrap → 0 ≤ v.toInt ∨ n ∣ 2 ^ 32)) := by
        intro n v hpos hn mode
        cases mode with
        | clamp => exact iff_of_true (tex2D_clamp hpos hn) fun h => by cases h
        | wrap =>
          rw [tex2D_wrap hpos hn, tex1D_wrap_iff hpos hn]
          exact ⟨fun h _ => h, fun h => h rfl⟩
      exact and_congr (hwrap t.width_pos t.width_lt modeX) (hwrap t.height_pos t.height_lt modeY)

end Texture

/-- A row of three texels of four bytes. -/
def threeTexels : Texture where
  width := 3
  height := 1
  elemSize := 4
  width_pos := by decide
  height_pos := by decide
  elemSize_pos := by decide
  size_lt := by decide

/-- The texel to the left of the texture: `clamp` and the code of `GEOM_MODIFIER_1D` take the last
one, and the wrapped coordinate is 0 where 2 is due. -/
theorem not_right_left :
    ¬ threeTexels.Right (.linear .clamp ⟨0, threeTexels.elemSize_pos⟩ false false) (-1) 0 ∧
      ¬ threeTexels.Right (.oneD .clamp) (-1) 0 ∧ ¬ threeTexels.Right (.oneD .wrap) (-1) 0 := by
  have hclamp : ¬ (tex1D (-1) .clamp 3).toInt = TexMode.clamp.fold 3 (-1) := by decide
  have hwrap : ¬ (tex1D (-1) .wrap 3).toInt = TexMode.wrap.fold 3 (-1) := by decide
  refine ⟨?_, hclamp, hwrap⟩
  rw [Texture.linear_right_iff]
  rintro ⟨-, h | h, -⟩
  · exact absurd h.1 (by decide)
  · exact absurd h.1 (by decide)

end GpgpuSimRuby.Ptx
