import GpgpuSimRuby.Ptx.TextureBorders

/-!
# Tiles of a texture

`gpgpu_ptx_sim_bindTextureToArray`, which divides a texture into tiles of a line of the texture
cache, and the address that `tex_impl` gives a texel of a 2D texture for its timing. The numbers are
unsigned, and none but the last address can overflow.
-/

namespace GpgpuSimRuby.Ptx

/-- The line sizes that are supported. -/
inductive TexLine where
  | b16 | b32 | b64 | b128 | b256
  deriving DecidableEq, Repr

namespace TexLine

def bytes : TexLine → Nat
  | b16 => 16
  | b32 => 32
  | b64 => 64
  | b128 => 128
  | b256 => 256

/-- `Tx` before the texel size is taken into account. -/
def baseTx : TexLine → Nat
  | b16 => 4
  | b32 => 8
  | b64 => 8
  | b128 => 16
  | b256 => 16

end TexLine

inductive TileFault where
  | divide
  deriving DecidableEq, Repr

/-- `intLOGB2`. -/
def intLOGB2 (v : Nat) : Nat :=
  let shift := (if v &&& 0xFFFF0000 ≠ 0 then 1 else 0) <<< 4
  let v := v >>> shift
  let r := shift
  let shift := (if v &&& 0xFF00 ≠ 0 then 1 else 0) <<< 3
  let v := v >>> shift
  let r := r ||| shift
  let shift := (if v &&& 0xF0 ≠ 0 then 1 else 0) <<< 2
  let v := v >>> shift
  let r := r ||| shift
  let shift := (if v &&& 0xC ≠ 0 then 1 else 0) <<< 1
  let v := v >>> shift
  let r := r ||| shift
  let shift := (if v &&& 0x2 ≠ 0 then 1 else 0) <<< 0
  r ||| shift

/-- The loop that halves `Tx`. -/
def shrinkTx (tx r : Nat) : Nat := if r = 0 then tx else shrinkTx (tx >>> 1) (r >>> 2)
termination_by r
decreasing_by
  rw [Nat.shiftRight_eq_div_pow]
  omega

/-- `textureInfo`. -/
structure TexInfo where
  tx : Nat
  ty : Nat
  txNumbits : Nat
  tyNumbits : Nat
  texelSize : Nat
  texelSizeNumbits : Nat
  deriving DecidableEq, Repr

/-- `gpgpu_ptx_sim_bindTextureToArray`. -/
def bindTextureToArray (line : TexLine) (texelSize : Nat) : Except TileFault TexInfo :=
  let tx := shrinkTx line.baseTx (texelSize >>> 2)
  if tx * texelSize = 0 then .error .divide
  else
    let ty := line.bytes / (tx * texelSize)
    .ok {
      tx := tx
      ty := ty
      txNumbits := intLOGB2 tx
      tyNumbits := intLOGB2 ty
      texelSize := texelSize
      texelSizeNumbits := intLOGB2 texelSize }

/-- `last_eaddr` of a fetch from a 2D texture. `x` is in bytes. -/
def TexInfo.effectiveAddress (i : TexInfo) (texArrayBase : BitVec 32) (width x y : Nat) :
    Except TileFault (BitVec 32) :=
  let xBlockCoord := x >>> (i.txNumbits + i.texelSizeNumbits)
  let yBlockCoord := y >>> i.tyNumbits
  if i.tx = 0 ∨ i.ty = 0 ∨ i.texelSize = 0 then .error .divide
  else
    let memreqindex := (yBlockCoord * width / i.tx + xBlockCoord) <<< 6
    let blockoffset := x % (i.tx * i.texelSize) + (y % i.ty) <<< (i.txNumbits + i.texelSizeNumbits)
    .ok (texArrayBase + BitVec.ofNat 32 (memreqindex + blockoffset))

/-! ## Tilings -/

/-- A texture whose texels have a power of two of bytes, and the line size. -/
structure TiledTexture extends Texture where
  line : TexLine
  texelBits : Nat
  elemSize_eq : elemSize = 2 ^ texelBits

/-- A texel, by its column and row. -/
structure Texel (t : TiledTexture) where
  i : Nat
  j : Nat
  i_lt : i < t.width
  j_lt : j < t.height

namespace TiledTexture

variable (t : TiledTexture)

/-- The tile of a texel. -/
def tile (info : TexInfo) (p : Texel t) : Nat × Nat := (p.i / info.tx, p.j / info.ty)

/-- The bytes of a texel, counted from the beginning of the array. -/
def Occupies (addr : Texel t → BitVec 32) (base : BitVec 32) (p : Texel t) (b : Nat) : Prop :=
  (addr p - base).toNat ≤ b ∧ b < (addr p - base).toNat + t.elemSize

/-- Different texels have different bytes, and each tile has a line of its own. -/
def Right (base : BitVec 32) : Prop :=
  ∃ info addr, bindTextureToArray t.line t.elemSize = .ok info ∧
    (∀ p : Texel t, info.effectiveAddress base t.width (p.i * t.elemSize) p.j = .ok (addr p)) ∧
    (∀ p q b, t.Occupies addr base p b → t.Occupies addr base q b → p = q) ∧
    ∃ block : Nat × Nat → Nat, (∀ p b, t.Occupies addr base p b → b / t.line.bytes = block (t.tile info p)) ∧
      ∀ p q, block (t.tile info p) = block (t.tile info q) → t.tile info p = t.tile info q

/-- There is one tile only, or a line is not longer than the 64 bytes of the address and the tiles
of a row fill it or there is one row of them, and there are no more tiles than addresses for them.
-/
def RightWhen : Prop :=
  ∃ info, bindTextureToArray t.line t.elemSize = .ok info ∧ info.ty ≠ 0 ∧
    ((t.width ≤ info.tx ∧ t.height ≤ info.ty) ∨
      (t.line.bytes ≤ 64 ∧ (info.tx ∣ t.width ∨ t.height ≤ info.ty) ∧
        (t.width + info.tx - 1) / info.tx * ((t.height + info.ty - 1) / info.ty) ≤ 2 ^ 26))

end TiledTexture

/-! ## The sizes of a tile -/

theorem intLOGB2_two_pow {k : Nat} (hk : k < 32) : intLOGB2 (2 ^ k) = k := by
  interval_cases k <;> rfl

theorem shrinkTx_zero (tx : Nat) : shrinkTx tx 0 = tx := by
  rw [shrinkTx, if_pos rfl]

theorem shrinkTx_of_ne {tx r : Nat} (h : r ≠ 0) : shrinkTx tx r = shrinkTx (tx / 2) (r / 4) := by
  rw [shrinkTx, if_neg h, Nat.shiftRight_eq_div_pow, Nat.shiftRight_eq_div_pow]

theorem shrinkTx_two_pow (tx k : Nat) : shrinkTx tx (2 ^ k / 4) = tx / 2 ^ (k / 2) := by
  induction k using Nat.twoStepInduction generalizing tx with
  | zero => exact (shrinkTx_zero tx).trans (Nat.div_one tx).symm
  | one => exact (shrinkTx_zero tx).trans (Nat.div_one tx).symm
  | more k ih =>
    have hfour : 2 ^ (k + 2) / 4 = 2 ^ k := by
      rw [pow_add]
      exact Nat.mul_div_cancel _ (by decide)
    have hhalf : (k + 2) / 2 = k / 2 + 1 := by omega
    rw [hfour, shrinkTx_of_ne (by positivity), ih, Nat.div_div_eq_div_mul, hhalf, pow_succ, mul_comm]

/-- The sizes of a tile are powers of two, and a tile fills a line. -/
structure Sizes (line : TexLine) (k : Nat) (info : TexInfo) (a h : Nat) : Prop where
  tx : info.tx = 2 ^ a
  ty : info.ty = 2 ^ h
  texelSize : info.texelSize = 2 ^ k
  txNumbits : info.txNumbits = a
  tyNumbits : info.tyNumbits = h
  texelSizeNumbits : info.texelSizeNumbits = k
  line : line.bytes = 2 ^ (a + k) * 2 ^ h

theorem TexLine.exists_pow (line : TexLine) :
    ∃ c l, line.baseTx = 2 ^ c ∧ line.bytes = 2 ^ l ∧ c ≤ 4 ∧ l ≤ 8 := by
  cases line with
  | b16 => exact ⟨2, 4, rfl, rfl, by decide, by decide⟩
  | b32 => exact ⟨3, 5, rfl, rfl, by decide, by decide⟩
  | b64 => exact ⟨3, 6, rfl, rfl, by decide, by decide⟩
  | b128 => exact ⟨4, 7, rfl, rfl, by decide, by decide⟩
  | b256 => exact ⟨4, 8, rfl, rfl, by decide, by decide⟩

theorem sizes_of_bind {line : TexLine} {k : Nat} {info : TexInfo}
    (hbind : bindTextureToArray line (2 ^ k) = .ok info) (hty : info.ty ≠ 0) :
    ∃ a h, Sizes line k info a h := by
  obtain ⟨c, l, hc, hl, hc4, hl8⟩ := line.exists_pow
  have hshift : 2 ^ k >>> 2 = 2 ^ k / 4 := Nat.shiftRight_eq_div_pow ..
  unfold bindTextureToArray at hbind
  dsimp only at hbind
  rw [hshift, shrinkTx_two_pow, hc, hl] at hbind
  split at hbind
  · cases hbind
  · next hne =>
    obtain rfl := Except.ok.inj hbind
    dsimp only at hty
    have hk : k / 2 ≤ c := by
      by_contra hlt
      have hzero : 2 ^ c / 2 ^ (k / 2) = 0 :=
        Nat.div_eq_of_lt (Nat.pow_lt_pow_right (by decide) (not_le.mp hlt))
      exact hne (by rw [hzero, Nat.zero_mul])
    have htx : 2 ^ c / 2 ^ (k / 2) = 2 ^ (c - k / 2) := Nat.pow_div hk (by decide)
    rw [htx, ← pow_add] at hty
    have hfit : c - k / 2 + k ≤ l := by
      by_contra hlt
      exact hty (Nat.div_eq_of_lt (Nat.pow_lt_pow_right (by decide) (not_le.mp hlt)))
    refine ⟨c - k / 2, l - (c - k / 2 + k), ?_⟩
    constructor
    · exact htx
    · show 2 ^ l / (2 ^ c / 2 ^ (k / 2) * 2 ^ k) = _
      rw [htx, ← pow_add, Nat.pow_div hfit (by decide)]
    · rfl
    · show intLOGB2 (2 ^ c / 2 ^ (k / 2)) = _
      rw [htx, intLOGB2_two_pow (by omega)]
    · show intLOGB2 (2 ^ l / (2 ^ c / 2 ^ (k / 2) * 2 ^ k)) = _
      rw [htx, ← pow_add, Nat.pow_div hfit (by decide), intLOGB2_two_pow (by omega)]
    · exact intLOGB2_two_pow (by omega)
    · rw [hl, ← pow_add]
      congr 1
      omega

/-! ## Addresses -/

section Addresses

variable {line : TexLine} {k a h : Nat} {info : TexInfo} {base : BitVec 32} {width i j : Nat}

/-- The number of a tile, in the order of the addresses. -/
def TexInfo.tileIndex (info : TexInfo) (width : Nat) (tile : Nat × Nat) : Nat :=
  tile.2 * width / info.tx + tile.1

/-- Where a texel is in its tile. -/
def TexInfo.tileOffset (info : TexInfo) (i j : Nat) : Nat :=
  (i % info.tx + info.tx * (j % info.ty)) * info.texelSize

theorem effectiveAddress_eq (hs : Sizes line k info a h) :
    info.effectiveAddress base width (i * info.texelSize) j = .ok (base +
      BitVec.ofNat 32 (info.tileIndex width (i / info.tx, j / info.ty) * 64 + info.tileOffset i j)) := by
  have hcolumn : (i * 2 ^ k) >>> (a + k) = i / 2 ^ a := by
    rw [Nat.shiftRight_eq_div_pow, pow_add, Nat.mul_div_mul_right _ _ (by positivity)]
  have hoffset : i * 2 ^ k % (2 ^ a * 2 ^ k) + (j % 2 ^ h) <<< (a + k) =
      (i % 2 ^ a + 2 ^ a * (j % 2 ^ h)) * 2 ^ k := by
    rw [Nat.mul_mod_mul_right, Nat.shiftLeft_eq, pow_add]
    ring
  have hpos : ¬ (info.tx = 0 ∨ info.ty = 0 ∨ info.texelSize = 0) := by
    rw [hs.tx, hs.ty, hs.texelSize]
    simp
  unfold TexInfo.effectiveAddress TexInfo.tileIndex TexInfo.tileOffset
  dsimp only
  rw [if_neg hpos, hs.txNumbits, hs.tyNumbits, hs.texelSizeNumbits, hs.tx, hs.ty, hs.texelSize, hcolumn,
    hoffset, Nat.shiftRight_eq_div_pow, Nat.shiftLeft_eq]

theorem tileOffset_lt (hs : Sizes line k info a h) (i j : Nat) :
    info.tileOffset i j + info.texelSize ≤ line.bytes := by
  have hx : i % 2 ^ a < 2 ^ a := Nat.mod_lt _ (by positivity)
  have hy : j % 2 ^ h < 2 ^ h := Nat.mod_lt _ (by positivity)
  have hrow : 2 ^ a * (j % 2 ^ h + 1) ≤ 2 ^ a * 2 ^ h := Nat.mul_le_mul_left _ hy
  have hnumber : i % 2 ^ a + 2 ^ a * (j % 2 ^ h) + 1 ≤ 2 ^ a * 2 ^ h := by
    rw [mul_add, mul_one] at hrow
    omega
  unfold TexInfo.tileOffset
  rw [hs.tx, hs.ty, hs.texelSize, hs.line]
  calc (i % 2 ^ a + 2 ^ a * (j % 2 ^ h)) * 2 ^ k + 2 ^ k
      = (i % 2 ^ a + 2 ^ a * (j % 2 ^ h) + 1) * 2 ^ k := by ring
    _ ≤ 2 ^ a * 2 ^ h * 2 ^ k := Nat.mul_le_mul_right _ hnumber
    _ = 2 ^ (a + k) * 2 ^ h := by ring

theorem tileOffset_inj {i' j' b : Nat} (hs : Sizes line k info a h) (hi : i / info.tx = i' / info.tx)
    (hj : j / info.ty = j' / info.ty)
    (hb : info.tileOffset i j ≤ b ∧ b < info.tileOffset i j + info.texelSize)
    (hb' : info.tileOffset i' j' ≤ b ∧ b < info.tileOffset i' j' + info.texelSize) : i = i' ∧ j = j' := by
  have hpos : 0 < info.texelSize := by
    rw [hs.texelSize]
    positivity
  have hnumber : ∀ n, n * info.texelSize ≤ b ∧ b < n * info.texelSize + info.texelSize →
    b / info.texelSize = n := by
    intro n hn
    exact Nat.div_eq_of_lt_le hn.1 (by rw [Nat.succ_mul]; exact hn.2)
  have hsame : i % info.tx + info.tx * (j % info.ty) = i' % info.tx + info.tx * (j' % info.ty) :=
    (hnumber _ hb).symm.trans (hnumber _ hb')
  have htx : 0 < info.tx := by
    rw [hs.tx]
    positivity
  have hx := congrArg (· % info.tx) hsame
  have hy := congrArg (· / info.tx) hsame
  simp only [Nat.add_mul_mod_self_left, Nat.mod_mod, Nat.add_mul_div_left _ _ htx,
    Nat.div_eq_of_lt (Nat.mod_lt _ htx), zero_add] at hx hy
  constructor
  · rw [← Nat.div_add_mod i info.tx, ← Nat.div_add_mod i' info.tx, hi, hx]
  · rw [← Nat.div_add_mod j info.ty, ← Nat.div_add_mod j' info.ty, hj, hy]

end Addresses

namespace TiledTexture

variable {t : TiledTexture} {info : TexInfo} {a h : Nat} {base : BitVec 32}

/-- The address of a texel. -/
def addr (info : TexInfo) (base : BitVec 32) (p : Texel t) : BitVec 32 :=
  base + BitVec.ofNat 32 (info.tileIndex t.width (t.tile info p) * 64 + info.tileOffset p.i p.j)

theorem effectiveAddress_texel (hs : Sizes t.line t.texelBits info a h) (p : Texel t) :
    info.effectiveAddress base t.width (p.i * t.elemSize) p.j = .ok (addr info base p) := by
  have hsize : t.elemSize = info.texelSize := by rw [hs.texelSize, t.elemSize_eq]
  rw [hsize]
  exact effectiveAddress_eq hs

theorem toNat_addr_sub (p : Texel t) : (addr info base p - base).toNat =
    (info.tileIndex t.width (t.tile info p) * 64 + info.tileOffset p.i p.j) % 2 ^ 32 := by
  unfold addr
  rw [add_sub_cancel_left, BitVec.toNat_ofNat]

theorem right_of_lines (hbind : bindTextureToArray t.line t.elemSize = .ok info)
    (hs : Sizes t.line t.texelBits info a h) (block : Nat × Nat → Nat)
    (haddr : ∀ p : Texel t, (addr info base p - base).toNat =
      block (t.tile info p) * t.line.bytes + info.tileOffset p.i p.j)
    (hinj : ∀ p q, block (t.tile info p) = block (t.tile info q) → t.tile info p = t.tile info q) :
    t.Right base := by
  have hsize : t.elemSize = info.texelSize := by rw [hs.texelSize, t.elemSize_eq]
  have hline : ∀ p b, t.Occupies (addr info base) base p b → b / t.line.bytes = block (t.tile info p) := by
    intro p b hb
    have hlt := tileOffset_lt hs p.i p.j
    unfold Occupies at hb
    rw [haddr p, hsize] at hb
    apply Nat.div_eq_of_lt_le
    · omega
    · rw [Nat.succ_mul]
      omega
  refine ⟨info, addr info base, hbind, effectiveAddress_texel hs, ?_, block, hline, hinj⟩
  intro p q b hp hq
  have hsame := (hline p b hp).symm.trans (hline q b hq)
  have htile := hinj p q hsame
  have hx : p.i / info.tx = q.i / info.tx := congrArg Prod.fst htile
  have hy : p.j / info.ty = q.j / info.ty := congrArg Prod.snd htile
  unfold Occupies at hp hq
  rw [haddr p, hsize] at hp
  rw [haddr q, hsize, ← hsame] at hq
  obtain ⟨hi, hj⟩ := tileOffset_inj (b := b - block (t.tile info p) * t.line.bytes) hs hx hy (by omega)
    (by omega)
  cases p
  cases q
  simp only at hi hj
  subst hi hj
  rfl

theorem lt_tiles_iff {q m n : Nat} (hn : 0 < n) : q < (m + n - 1) / n ↔ q * n < m := by
  rw [Nat.lt_iff_add_one_le, Nat.le_div_iff_mul_le hn, add_mul, one_mul]
  omega

theorem tiles_mul {n : Nat} (hn : 0 < n) (w : Nat) : (n * w + n - 1) / n = w := by
  apply Nat.div_eq_of_lt_le
  · rw [mul_comm]
    omega
  · rw [Nat.succ_mul, mul_comm]
    omega

theorem tiles_of_le {m n : Nat} (hm : 0 < m) (h : m ≤ n) : (m + n - 1) / n = 1 := by
  apply Nat.div_eq_of_lt_le <;> omega

theorem tileIndex_spec (hs : Sizes t.line t.texelBits info a h)
    (hfill : info.tx ∣ t.width ∨ t.height ≤ info.ty) :
    (∀ p : Texel t, info.tileIndex t.width (t.tile info p) <
      (t.width + info.tx - 1) / info.tx * ((t.height + info.ty - 1) / info.ty)) ∧
    ∀ p q : Texel t, info.tileIndex t.width (t.tile info p) = info.tileIndex t.width (t.tile info q) →
      t.tile info p = t.tile info q := by
  have htx : 0 < info.tx := by rw [hs.tx]; positivity
  have hty : 0 < info.ty := by rw [hs.ty]; positivity
  -- A tile of a texel is within the rows and columns.
  have hcolumn : ∀ p : Texel t, p.i / info.tx < (t.width + info.tx - 1) / info.tx := fun p =>
    (lt_tiles_iff htx).mpr (lt_of_le_of_lt (Nat.div_mul_le_self _ _) p.i_lt)
  have hrow : ∀ p : Texel t, p.j / info.ty < (t.height + info.ty - 1) / info.ty := fun p =>
    (lt_tiles_iff hty).mpr (lt_of_le_of_lt (Nat.div_mul_le_self _ _) p.j_lt)
  rcases hfill with ⟨w, hw⟩ | hone
  · have hindex : ∀ p : Texel t,
      info.tileIndex t.width (t.tile info p) = p.j / info.ty * w + p.i / info.tx := by
      intro p
      unfold TexInfo.tileIndex tile
      rw [hw, Nat.mul_left_comm, Nat.mul_div_cancel_left _ htx]
    have hw' : (t.width + info.tx - 1) / info.tx = w := by
      rw [hw]
      exact tiles_mul htx w
    rw [hw'] at hcolumn ⊢
    constructor
    · intro p
      rw [hindex]
      have hstep : (p.j / info.ty + 1) * w ≤ (t.height + info.ty - 1) / info.ty * w :=
        Nat.mul_le_mul_right _ (hrow p)
      have hlt := hcolumn p
      rw [add_mul, one_mul] at hstep
      rw [mul_comm w]
      omega
    · intro p q hpq
      rw [hindex, hindex] at hpq
      have hwpos : 0 < w := Nat.zero_lt_of_lt (hcolumn p)
      have hx := congrArg (· % w) hpq
      have hy := congrArg (· / w) hpq
      simp only [Nat.mul_add_mod_self_right, Nat.mod_eq_of_lt (hcolumn p), Nat.mod_eq_of_lt (hcolumn q)] at hx
      simp only [Nat.mul_comm _ w, Nat.mul_add_div hwpos, Nat.div_eq_of_lt (hcolumn p),
        Nat.div_eq_of_lt (hcolumn q), Nat.add_zero] at hy
      exact Prod.ext hx hy
  · have hzero : ∀ p : Texel t, p.j / info.ty = 0 := fun p =>
      Nat.div_eq_of_lt (lt_of_lt_of_le p.j_lt hone)
    have hindex : ∀ p : Texel t, info.tileIndex t.width (t.tile info p) = p.i / info.tx := by
      intro p
      unfold TexInfo.tileIndex tile
      rw [hzero, Nat.zero_mul, Nat.zero_div, Nat.zero_add]
    constructor
    · intro p
      rw [hindex]
      have hpos := Nat.zero_lt_of_lt (hrow p)
      exact lt_of_lt_of_le (hcolumn p) (Nat.le_mul_of_pos_right _ hpos)
    · intro p q hpq
      rw [hindex, hindex] at hpq
      exact Prod.ext hpq ((hzero p).trans (hzero q).symm)

theorem right_of_rightWhen (base : BitVec 32) (h : t.RightWhen) : t.Right base := by
  obtain ⟨info, hbind, hty, hfits⟩ := h
  have hbind' := hbind
  rw [t.elemSize_eq] at hbind'
  obtain ⟨a, h, hs⟩ := sizes_of_bind hbind' hty
  have htx : 0 < info.tx := by rw [hs.tx]; positivity
  have hpos : 0 < info.texelSize := by rw [hs.texelSize]; positivity
  rcases hfits with ⟨hwidth, hheight⟩ | ⟨hline, hfill, hcount⟩
  · -- The only tile begins at the first address.
    have htile : ∀ p : Texel t, t.tile info p = (0, 0) := fun p =>
      Prod.ext (Nat.div_eq_of_lt (lt_of_lt_of_le p.i_lt hwidth))
        (Nat.div_eq_of_lt (lt_of_lt_of_le p.j_lt hheight))
    apply right_of_lines hbind hs (fun _ => 0)
    · intro p
      have hlt := tileOffset_lt hs p.i p.j
      have hline : t.line.bytes ≤ 256 := by cases t.line <;> decide
      have hindex : info.tileIndex t.width (t.tile info p) = 0 := by
        rw [htile]
        unfold TexInfo.tileIndex
        simp
      rw [toNat_addr_sub, hindex, Nat.mod_eq_of_lt (by omega), Nat.zero_mul, Nat.zero_mul]
    · intro p q _
      rw [htile, htile]
  · obtain ⟨hlt, hinj⟩ := tileIndex_spec hs hfill
    obtain ⟨m, hm⟩ : t.line.bytes ∣ 64 := by
      revert hline
      cases t.line <;> decide
    have hmpos : 0 < m := Nat.pos_of_ne_zero fun h => by simp [h] at hm
    apply right_of_lines hbind hs fun tile => info.tileIndex t.width tile * m
    · intro p
      have hindex := hlt p
      have hoffset := tileOffset_lt hs p.i p.j
      rw [toNat_addr_sub, Nat.mod_eq_of_lt (by omega), mul_assoc, mul_comm m, ← hm]
    · intro p q hpq
      exact hinj p q (Nat.eq_of_mul_eq_mul_right hmpos hpq)

/-! ## Tiles that share a line -/

theorem corner (base : BitVec 32) (hs : Sizes t.line t.texelBits info a h) {p : Texel t} {x y : Nat}
    (hi : p.i = info.tx * x)
    (hj : p.j = info.ty * y) : t.tile info p = (x, y) ∧
      (addr info base p - base).toNat = (y * t.width / info.tx + x) * 64 % 2 ^ 32 := by
  have htx : 0 < info.tx := by rw [hs.tx]; positivity
  have hty : 0 < info.ty := by rw [hs.ty]; positivity
  have htile : t.tile info p = (x, y) := by
    unfold tile
    rw [hi, hj, Nat.mul_div_cancel_left _ htx, Nat.mul_div_cancel_left _ hty]
  have hoffset : info.tileOffset p.i p.j = 0 := by
    unfold TexInfo.tileOffset
    rw [hi, hj, Nat.mul_mod_right, Nat.mul_mod_right]
    simp
  refine ⟨htile, ?_⟩
  rw [toNat_addr_sub, htile, hoffset, Nat.add_zero]
  rfl

/-- Tiles whose first texels are in one line are the same. -/
def CornersApart (t : TiledTexture) (info : TexInfo) : Prop :=
  ∀ x y x' y', info.tx * x < t.width → info.ty * y < t.height → info.tx * x' < t.width →
    info.ty * y' < t.height → (y * t.width / info.tx + x) * 64 % 2 ^ 32 / t.line.bytes =
      (y' * t.width / info.tx + x') * 64 % 2 ^ 32 / t.line.bytes → x = x' ∧ y = y'

theorem CornersApart.fill (hc : CornersApart t info) : info.tx ∣ t.width ∨ t.height ≤ info.ty := by
  have hwidth := t.width_pos
  have hheight := t.height_pos
  by_contra hfill
  rw [not_or, not_le] at hfill
  have hpart : info.tx * (t.width / info.tx) < t.width := by
    apply lt_of_le_of_ne (Nat.mul_div_le _ _)
    intro heq
    exact hfill.1 ⟨_, heq.symm⟩
  have h := hc (t.width / info.tx) 0 0 1 hpart (by omega) (by omega) (by omega) ?_
  · exact absurd h.2 (by decide)
  · rw [Nat.zero_mul, Nat.zero_div, zero_add, one_mul, add_zero]

theorem CornersApart.line (hc : CornersApart t info)
    (htwo : ¬ (t.width ≤ info.tx ∧ t.height ≤ info.ty)) : t.line.bytes ≤ 64 := by
  have hwidth := t.width_pos
  have hheight := t.height_pos
  by_contra hline
  rcases lt_or_ge info.tx t.width with hwide | hnarrow
  · have h := hc 0 0 1 0 (by omega) (by omega) (by omega) (by omega) ?_
    · exact absurd h.1 (by decide)
    · rw [Nat.zero_mul, Nat.zero_div, Nat.div_eq_of_lt (by omega), Nat.div_eq_of_lt (by omega)]
  · have hone : 1 * t.width / info.tx ≤ 1 := by
      rw [one_mul]
      exact Nat.div_le_of_le_mul (by omega)
    have h := hc 0 0 0 1 (by omega) (by omega) (by omega) (by omega) ?_
    · exact absurd h.2 (by decide)
    · rw [Nat.zero_mul, Nat.zero_div, Nat.div_eq_of_lt (by omega), Nat.div_eq_of_lt (by omega)]

theorem CornersApart.count (hc : CornersApart t info) (htx : 0 < info.tx) (hty : 0 < info.ty) :
    (t.width + info.tx - 1) / info.tx * ((t.height + info.ty - 1) / info.ty) ≤ 2 ^ 26 := by
  have hwidth := t.width_pos
  have hheight := t.height_pos
  by_contra hcount
  rw [not_le] at hcount
  rcases hc.fill with ⟨w, hw⟩ | hone
  · have hwpos : 0 < w := Nat.pos_of_ne_zero fun h => by
      rw [h, mul_zero] at hw
      omega
    rw [hw, tiles_mul htx] at hcount
    have hx : info.tx * (2 ^ 26 % w) < t.width := by
      rw [hw]
      exact Nat.mul_lt_mul_of_pos_left (Nat.mod_lt _ hwpos) htx
    have hy : info.ty * (2 ^ 26 / w) < t.height := by
      rw [mul_comm, ← lt_tiles_iff hty]
      exact Nat.div_lt_of_lt_mul hcount
    have h := hc (2 ^ 26 % w) (2 ^ 26 / w) 0 0 hx hy (by omega) (by omega) ?_
    · have hdiv := Nat.div_add_mod (2 ^ 26) w
      rw [h.1, h.2, mul_zero, add_zero] at hdiv
      exact absurd hdiv (by decide)
    · have hindex : 2 ^ 26 / w * t.width / info.tx + 2 ^ 26 % w = 2 ^ 26 := by
        rw [hw, Nat.mul_left_comm, Nat.mul_div_cancel_left _ htx, mul_comm]
        exact Nat.div_add_mod (2 ^ 26) w
      rw [hindex, Nat.zero_mul, Nat.zero_div]
      rfl
  · rw [tiles_of_le hheight hone, mul_one, lt_tiles_iff htx] at hcount
    have h := hc (2 ^ 26) 0 0 0 (by omega) (by omega) (by omega) (by omega) ?_
    · exact absurd h.1 (by decide)
    · rw [Nat.zero_mul, Nat.zero_div, Nat.zero_add]
      rfl

theorem rightWhen_of_right (h : t.Right base) : t.RightWhen := by
  obtain ⟨info, addr', hbind, heff, -, block, hblock, hinj⟩ := h
  have hbind' := hbind
  rw [t.elemSize_eq] at hbind'
  have hty : info.ty ≠ 0 := by
    intro hzero
    have hfault := heff ⟨0, 0, t.width_pos, t.height_pos⟩
    unfold TexInfo.effectiveAddress at hfault
    dsimp only at hfault
    rw [if_pos (.inr (.inl hzero))] at hfault
    cases hfault
  obtain ⟨a, h, hs⟩ := sizes_of_bind hbind' hty
  have htx : 0 < info.tx := by rw [hs.tx]; positivity
  have hfirst : ∀ p, (addr info base p - base).toNat / t.line.bytes = block (t.tile info p) := by
    intro p
    apply hblock
    unfold Occupies
    rw [Except.ok.inj ((heff p).symm.trans (effectiveAddress_texel hs p))]
    exact ⟨le_rfl, Nat.lt_add_of_pos_right t.elemSize_pos⟩
  have hcorners : CornersApart t info := by
    intro x y x' y' hx hy hx' hy' heq
    obtain ⟨htile, haddr⟩ := corner base hs (p := ⟨info.tx * x, info.ty * y, hx, hy⟩) rfl rfl
    obtain ⟨htile', haddr'⟩ := corner base hs (p := ⟨info.tx * x', info.ty * y', hx', hy'⟩) rfl rfl
    rw [← haddr, ← haddr', hfirst, hfirst] at heq
    have hpair := hinj _ _ heq
    rw [htile, htile'] at hpair
    exact Prod.mk.inj hpair
  refine ⟨info, hbind, hty, ?_⟩
  by_cases hsingle : t.width ≤ info.tx ∧ t.height ≤ info.ty
  · exact .inl hsingle
  · exact .inr ⟨hcorners.line hsingle, hcorners.fill, hcorners.count htx (Nat.pos_of_ne_zero hty)⟩

/-- **Texture tiling.** For every line size, texel size and texture, different texels have different
bytes and each tile has a line of its own exactly when `RightWhen` holds. -/
theorem tiling_right_iff (t : TiledTexture) (base : BitVec 32) : t.Right base ↔ t.RightWhen :=
  ⟨rightWhen_of_right, right_of_rightWhen base⟩

end TiledTexture

/-- A square texture of texels of four bytes. -/
def squareTexture (line : TexLine) (n : Nat) (hpos : 0 < n) (hn : n * n * 4 < 2 ^ 31) : TiledTexture where
  width := n
  height := n
  elemSize := 4
  width_pos := hpos
  height_pos := hpos
  elemSize_pos := Nat.zero_lt_succ 3
  size_lt := hn
  line := line
  texelBits := 2
  elemSize_eq := rfl

theorem bind_four (line : TexLine) : bindTextureToArray line 4 = .ok {
    tx := line.baseTx / 2
    ty := line.bytes / (line.baseTx / 2 * 4)
    txNumbits := intLOGB2 (line.baseTx / 2)
    tyNumbits := intLOGB2 (line.bytes / (line.baseTx / 2 * 4))
    texelSize := 4
    texelSizeNumbits := 2 } := by
  have htx : shrinkTx line.baseTx (4 >>> 2) = line.baseTx / 2 := shrinkTx_two_pow line.baseTx 2
  unfold bindTextureToArray
  rw [htx]
  cases line <;> rfl

/-- Lines of 64 bytes and rows of five texels, whose tiles have four by four; and lines of 128 bytes. -/
theorem not_right_tiles : ¬ (squareTexture .b64 5 (by decide) (by decide)).Right 0 ∧
    ¬ (squareTexture .b128 64 (by decide) (by decide)).Right 0 := by
  constructor
  · intro h
    obtain ⟨info, hbind, -, hfits⟩ := TiledTexture.rightWhen_of_right h
    obtain rfl := Except.ok.inj ((bind_four .b64).symm.trans hbind)
    exact absurd hfits (by decide)
  · intro h
    obtain ⟨info, hbind, -, hfits⟩ := TiledTexture.rightWhen_of_right h
    obtain rfl := Except.ok.inj ((bind_four .b128).symm.trans hbind)
    exact absurd hfits (by decide)

end GpgpuSimRuby.Ptx
