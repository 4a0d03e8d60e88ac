import GpgpuSimRuby.Ptx.IntegerInstructions

/-!
# Width locality

Whether bits above the width of its type, which an earlier instruction has left in a register, can
change the result of an instruction: two executions are compared whose sources agree on the low bits.
-/

namespace GpgpuSimRuby.Ptx

open Value

/-- The values agree on the `w` lowest bits. -/
def AgreeOn (w : Nat) (x y : Value) : Prop := x.setWidth w = y.setWidth w

instance (w : Nat) (x y : Value) : Decidable (AgreeOn w x y) :=
  inferInstanceAs (Decidable (x.setWidth w = y.setWidth w))

/-- The results agree on the `n` lowest bits, or are the same fault. -/
def ResultAgree (n : Nat) (r r' : Result) : Prop := r.map (·.setWidth n) = r'.map (·.setWidth n)

namespace IntOp

/-- The width of the third source: the addend of a wide `mad` is as wide as its product, and the third
operand of a `slct` has 32 bits. -/
def thirdWidth (op : IntOp) (ty : ScalarType) : Nat :=
  match op, ty with
  | mad .wide, .S16 | mad .wide, .U16 | slct _, .B16 | slct _, .U16 => 32
  | mad .wide, .S32 | mad .wide, .U32 => 64
  | _, _ => ty.width

/-- The comparisons that are made on more bits than the type has. -/
def ComparesBeyond (ty : ScalarType) (cmp : Cmp) : Prop :=
  match ty with
  | .B16 | .B32 => cmp ∈ [Cmp.EQ, .NE]
  | .S8 => cmp ∈ [Cmp.EQ, .NE, .LT, .LE, .GT, .GE]
  | .U8 => cmp ∈ [Cmp.EQ, .NE, .LT, .LE, .GT, .GE, .LO, .LS, .HI, .HS]
  | _ => False

/-- The instructions that read bits above the width of their type. -/
def ReadsBeyond (op : IntOp) (ty : ScalarType) : Prop :=
  match op with
  | rem => ty.width < 64
  | set cmp abs _ => abs = false ∧ ComparesBeyond ty cmp
  | setp cmp => ComparesBeyond ty cmp
  | _ => False

/-- The sources of two executions agree: the first two on the width of the type, the third on `third`
bits. -/
def SourcesAgree (op : IntOp) (ty : ScalarType) (third : Nat) (i : IntInst) (regs regs' : Reg → Value) :
    Prop :=
  AgreeOn ty.width (regs i.src1) (regs' i.src1) ∧
    (2 ≤ op.arity → AgreeOn ty.width (regs i.src2) (regs' i.src2)) ∧
      (3 ≤ op.arity → AgreeOn third (regs i.src3) (regs' i.src3))

/-- On register files whose sources agree, instructions leave destinations that agree on the bits of
the result, or stop at the same fault. -/
def LocalAt (fp : FloatConversions) (op : IntOp) (ty : ScalarType) (third : Nat) : Prop :=
  ∀ (i : IntInst) (regs regs' : Reg → Value), i.op = op → i.type = ty →
    op.SourcesAgree ty third i regs regs' →
      (i.exec fp regs).map (fun r => (r i.dst).setWidth (op.resultWidth ty)) =
        (i.exec fp regs').map (fun r => (r i.dst).setWidth (op.resultWidth ty))

/-- Only the bits within the width of the type matter. -/
def WidthLocal (fp : FloatConversions) (op : IntOp) (ty : ScalarType) : Prop :=
  op.LocalAt fp ty ty.width

/-- Only the bits within the widths of the operands matter. -/
def OperandLocal (fp : FloatConversions) (op : IntOp) (ty : ScalarType) : Prop :=
  op.LocalAt fp ty (op.thirdWidth ty)

end IntOp

/-! ## Members -/

section Agree

variable {w v : Nat} {x x' y y' : Value}

theorem AgreeOn.mono (h : AgreeOn w x x') (hv : v ≤ w) : AgreeOn v x x' := by
  have hset := congrArg (BitVec.setWidth v) h
  rwa [BitVec.setWidth_setWidth_of_le _ hv, BitVec.setWidth_setWidth_of_le _ hv] at hset

theorem AgreeOn.eq (h : AgreeOn 64 x x') : x = x' := by
  unfold AgreeOn at h
  rwa [BitVec.setWidth_eq, BitVec.setWidth_eq] at h

theorem and_mask (n : Nat) (x : Value) : x &&& BitVec.ofNat 64 (2 ^ n - 1) = (x.setWidth n).setWidth 64 := by
  apply BitVec.eq_of_getLsbD_eq
  intro i hi
  rw [BitVec.getLsbD_and, BitVec.getLsbD_ofNat, BitVec.getLsbD_setWidth, BitVec.getLsbD_setWidth,
    Nat.testBit_two_pow_sub_one]
  simp [hi, Bool.and_comm]

theorem AgreeOn.mask (h : AgreeOn w x x') :
    x &&& BitVec.ofNat 64 (2 ^ w - 1) = x' &&& BitVec.ofNat 64 (2 ^ w - 1) := by
  rw [and_mask, and_mask, h]

theorem AgreeOn.mask8 (h : AgreeOn 8 x x') : x &&& 0xFF = x' &&& 0xFF := h.mask

theorem AgreeOn.mask16 (h : AgreeOn 16 x x') : x &&& 0xFFFF = x' &&& 0xFFFF := h.mask

theorem AgreeOn.mask32 (h : AgreeOn 32 x x') : x &&& 0xFFFFFFFF = x' &&& 0xFFFFFFFF := h.mask

theorem AgreeOn.and (h : AgreeOn w x x') (h' : AgreeOn w y y') : AgreeOn w (x &&& y) (x' &&& y') := by
  unfold AgreeOn at *
  rw [BitVec.setWidth_and, BitVec.setWidth_and, h, h']

theorem AgreeOn.or (h : AgreeOn w x x') (h' : AgreeOn w y y') : AgreeOn w (x ||| y) (x' ||| y') := by
  unfold AgreeOn at *
  rw [BitVec.setWidth_or, BitVec.setWidth_or, h, h']

theorem AgreeOn.xor (h : AgreeOn w x x') (h' : AgreeOn w y y') : AgreeOn w (x ^^^ y) (x' ^^^ y') := by
  unfold AgreeOn at *
  rw [BitVec.setWidth_xor, BitVec.setWidth_xor, h, h']

end Agree

/-! ## Instructions that read members of their width -/

section Local

variable {ty : ScalarType} {a a' b b' c c' : Value} {n : Nat} {rounding : Rounding}

theorem notImpl_congr (ha : AgreeOn ty.width a a') : notImpl ty a = notImpl ty a' := by
  cases ty with
  | B64 => rw [AgreeOn.eq ha]
  | B16 | B32 =>
    unfold AgreeOn ScalarType.width at ha
    simp only [notImpl, ha]
  | S8 | S16 | S32 | S64 | U8 | U16 | U32 | U64 | B8 => rfl

section

variable (ha : AgreeOn ty.width a a') (hb : AgreeOn ty.width b b')
include ha hb

theorem addImpl_congr : addImpl ty a b = addImpl ty a' b' := by
  cases ty with
  | S8 | U8 => simp only [addImpl, AgreeOn.mask8 ha, AgreeOn.mask8 hb]
  | S16 | U16 => simp only [addImpl, AgreeOn.mask16 ha, AgreeOn.mask16 hb]
  | S32 | U32 => simp only [addImpl, AgreeOn.mask32 ha, AgreeOn.mask32 hb]
  | S64 | U64 => rw [AgreeOn.eq ha, AgreeOn.eq hb]
  | B8 | B16 | B32 | B64 => rfl

theorem subImpl_congr : subImpl ty a b = subImpl ty a' b' := by
  cases ty with
  | S8 | U8 | B8 => simp only [subImpl, AgreeOn.mask8 ha, AgreeOn.mask8 hb]
  | S16 | U16 | B16 => simp only [subImpl, AgreeOn.mask16 ha, AgreeOn.mask16 hb]
  | S32 | U32 | B32 => simp only [subImpl, AgreeOn.mask32 ha, AgreeOn.mask32 hb]
  | S64 | U64 | B64 => rw [AgreeOn.eq ha, AgreeOn.eq hb]

theorem mulImpl_congr {mode : MulMode} : mulImpl ty a b mode = mulImpl ty a' b' mode := by
  cases ty with
  | S16 | U16 | S32 | U32 =>
    unfold AgreeOn ScalarType.width at ha hb
    simp only [mulImpl, ha, hb]
  | S64 | U64 => rw [AgreeOn.eq ha, AgreeOn.eq hb]
  | S8 | U8 | B8 | B16 | B32 | B64 => rfl

theorem madImpl_congr {mode : MulMode}
    (hc : AgreeOn ((IntOp.mad mode).thirdWidth ty) c c') :
    madImpl ty a b c mode = madImpl ty a' b' c' mode := by
  cases ty with
  | S16 | U16 =>
    unfold AgreeOn ScalarType.width at ha hb
    cases mode with
    | wide =>
      have hc : c.setWidth 32 = c'.setWidth 32 := hc
      simp only [madImpl, selectMode, ha, hb, hc]
    | hi | lo | none =>
      have hc : c.setWidth 16 = c'.setWidth 16 := hc
      simp only [madImpl, selectMode, ha, hb, hc]
  | S32 | U32 =>
    unfold AgreeOn ScalarType.width at ha hb
    cases mode with
    | wide =>
      have hc : c = c' := AgreeOn.eq hc
      simp only [madImpl, selectMode, ha, hb, hc]
    | hi | lo | none =>
      have hc : c.setWidth 32 = c'.setWidth 32 := hc
      simp only [madImpl, selectMode, ha, hb, hc]
  | S64 | U64 =>
    have hc : c = c' := by
      cases mode <;> exact AgreeOn.eq hc
    rw [AgreeOn.eq ha, AgreeOn.eq hb, hc]
  | S8 | U8 | B8 | B16 | B32 | B64 => rfl

theorem divImpl_congr : divImpl ty a b = divImpl ty a' b' := by
  cases ty with
  | S64 | U64 | B64 => rw [AgreeOn.eq ha, AgreeOn.eq hb]
  | S8 | S16 | S32 | U8 | U16 | U32 | B8 | B16 | B32 =>
    unfold AgreeOn ScalarType.width at ha hb
    simp only [divImpl, ha, hb]

theorem maxImpl_congr : maxImpl ty a b = maxImpl ty a' b' := by
  cases ty with
  | S64 | U64 => rw [AgreeOn.eq ha, AgreeOn.eq hb]
  | S16 | S32 | U16 | U32 =>
    unfold AgreeOn ScalarType.width at ha hb
    simp only [maxImpl, ha, hb]
  | S8 | U8 | B8 | B16 | B32 | B64 => rfl

theorem minImpl_congr : minImpl ty a b = minImpl ty a' b' := by
  cases ty with
  | S64 | U64 => rw [AgreeOn.eq ha, AgreeOn.eq hb]
  | S16 | S32 | U16 | U32 =>
    unfold AgreeOn ScalarType.width at ha hb
    simp only [minImpl, ha, hb]
  | S8 | U8 | B8 | B16 | B32 | B64 => rfl

theorem shlImpl_congr : shlImpl ty a b = shlImpl ty a' b' := by
  cases ty with
  | B64 | U64 => rw [AgreeOn.eq ha, AgreeOn.eq hb]
  | B16 | U16 | B32 | U32 =>
    unfold AgreeOn ScalarType.width at ha hb
    simp only [shlImpl, ha, hb]
  | S8 | S16 | S32 | S64 | U8 | B8 => rfl

theorem shrImpl_congr : shrImpl ty a b = shrImpl ty a' b' := by
  cases ty with
  | B64 | U64 | S64 => rw [AgreeOn.eq ha, AgreeOn.eq hb]
  | B16 | U16 | S16 | B32 | U32 | S32 =>
    unfold AgreeOn ScalarType.width at ha hb
    simp only [shrImpl, ha, hb]
  | S8 | U8 | B8 => rfl

theorem slctImpl_congr {cType : SlctType}
    (hc : AgreeOn ((IntOp.slct cType).thirdWidth ty) c c') :
    slctImpl ty a b c cType = slctImpl ty a' b' c' cType := by
  have ht : 32 ≤ (IntOp.slct cType).thirdWidth ty → atLeastZero c cType = atLeastZero c' cType := by
    intro hle
    have h32 : c.setWidth 32 = c'.setWidth 32 := hc.mono hle
    cases cType <;> simp only [atLeastZero, h32]
  cases ty with
  | B64 | U64 => simp only [slctImpl, AgreeOn.eq ha, AgreeOn.eq hb, ht (show 32 ≤ 64 by decide)]
  | B16 | U16 | B32 | U32 =>
    unfold AgreeOn ScalarType.width at ha hb
    simp only [slctImpl, ha, hb, ht (show 32 ≤ 32 by decide)]
  | S8 | S16 | S32 | S64 | U8 | B8 => rfl

end

/-! ## Comparisons -/

theorem cmpBits_of_notMem {cmp : Cmp} (h : cmp ∉ [Cmp.EQ, .NE]) (x y : BitVec n) :
    cmpBits cmp x y = .error .typeMismatch := by
  cases cmp <;> first | rfl | exact absurd (by decide) h

theorem cmpSigned_of_notMem {cmp : Cmp} (h : cmp ∉ [Cmp.EQ, .NE, .LT, .LE, .GT, .GE])
    (x y : BitVec n) : cmpSigned cmp x y = .error .typeMismatch := by
  cases cmp <;> first | rfl | exact absurd (by decide) h

theorem cmpUnsigned_of_notMem {cmp : Cmp}
    (h : cmp ∉ [Cmp.EQ, .NE, .LT, .LE, .GT, .GE, .LO, .LS, .HI, .HS]) (x y : BitVec n) :
    cmpUnsigned cmp x y = .error .typeMismatch := by
  cases cmp <;> first | rfl | exact absurd (by decide) h

theorem cmpOp_congr {cmp : Cmp} (hcmp : ¬ IntOp.ComparesBeyond ty cmp)
    (ha : AgreeOn ty.width a a') (hb : AgreeOn ty.width b b') : cmpOp ty a b cmp = cmpOp ty a' b' cmp := by
  cases ty with
  | S64 | U64 | B64 => rw [AgreeOn.eq ha, AgreeOn.eq hb]
  | S16 | U16 | S32 | U32 =>
    unfold AgreeOn ScalarType.width at ha hb
    simp only [cmpOp, ha, hb]
  | B8 => rfl
  | S8 =>
    show cmpSigned cmp a.u16 b.u16 = cmpSigned cmp a'.u16 b'.u16
    rw [cmpSigned_of_notMem hcmp, cmpSigned_of_notMem hcmp]
  | U8 =>
    show cmpUnsigned cmp a.u16 b.u16 = cmpUnsigned cmp a'.u16 b'.u16
    rw [cmpUnsigned_of_notMem hcmp, cmpUnsigned_of_notMem hcmp]
  | B16 =>
    have hfault : ∀ a b, cmpOp .B16 a b cmp = .error .typeMismatch := by
      intro a b
      show (cmpBits cmp a.u16 b.u16 >>= fun _ => _) = _
      rw [cmpBits_of_notMem hcmp a.u16]
      rfl
    rw [hfault, hfault]
  | B32 =>
    have hfault : ∀ a b, cmpOp .B32 a b cmp = .error .typeMismatch := by
      intro a b
      show (cmpBits cmp a.u32 b.u32 >>= fun _ => _) = _
      rw [cmpBits_of_notMem hcmp a.u32]
      rfl
    rw [hfault, hfault]

theorem setAbs_agree (ha : AgreeOn ty.width a a') :
    (setAbs ty a = .error .typeMismatch ∧ setAbs ty a' = .error .typeMismatch) ∨
      ∃ x x', setAbs ty a = .ok x ∧ setAbs ty a' = .ok x' ∧ AgreeOn ty.width x x' := by
  cases ty with
  | S8 | U8 | B8 | B16 | B32 | B64 => exact .inl ⟨rfl, rfl⟩
  | U16 | U32 | U64 => exact .inr ⟨a, a', rfl, rfl, ha⟩
  | S64 =>
    rw [AgreeOn.eq ha]
    exact .inr ⟨_, _, rfl, rfl, rfl⟩
  | S16 =>
    refine .inr ⟨_, _, rfl, rfl, AgreeOn.or (ha.and rfl) ?_⟩
    have ha : a.u16 = a'.u16 := ha
    rw [ha]
    rfl
  | S32 =>
    refine .inr ⟨_, _, rfl, rfl, AgreeOn.or (ha.and rfl) ?_⟩
    have ha : a.u32 = a'.u32 := ha
    rw [ha]
    rfl

theorem setImpl_congr {cmp : Cmp} {abs : Bool} {result : SetType}
    (hcmp : ¬ (abs = false ∧ IntOp.ComparesBeyond ty cmp))
    (ha : AgreeOn ty.width a a') (hb : AgreeOn ty.width b b') :
    setImpl ty a b cmp abs result = setImpl ty a' b' cmp abs result := by
  unfold setImpl
  cases abs with
  | false =>
    have hno : ¬ IntOp.ComparesBeyond ty cmp := fun h => hcmp ⟨rfl, h⟩
    simp only [Bool.false_eq_true, if_false]
    show (cmpOp ty a b cmp >>= fun t => _) = cmpOp ty a' b' cmp >>= fun t => _
    rw [cmpOp_congr hno ha hb]
  | true =>
    simp only [if_true]
    rcases setAbs_agree ha with ⟨h, h'⟩ | ⟨x, x', h, h', hx⟩
    · rw [h, h']
      rfl
    · rw [h, h']
      show (cmpOp ty x b cmp >>= fun t => _) = cmpOp ty x' b' cmp >>= fun t => _
      -- the types that have an absolute value are compared on their width
      have hno : ¬ IntOp.ComparesBeyond ty cmp := by
        cases ty with
        | S8 | U8 | B16 | B32 => cases h
        | S16 | S32 | S64 | U16 | U32 | U64 | B8 | B64 => exact id
      rw [cmpOp_congr hno hx hb]

/-! ## Conversions -/

theorem chop_congr {w : Nat} (ha : AgreeOn w a a') : chop a w = chop a' w := by
  unfold chop
  split
  · rw [AgreeOn.mask8 ha]
  · rw [AgreeOn.mask16 ha]
  · rw [AgreeOn.mask32 ha]
  · rw [AgreeOn.eq ha]
  · rfl

theorem sext_congr {w : Nat} (ha : AgreeOn w a a') : sext a w = sext a' w := by
  unfold sext
  rw [chop_congr ha]

theorem sexd_congr {w v : Nat} (ha : AgreeOn w a a') : sexd a w v = sexd a' w v := by
  unfold sexd
  rw [chop_congr ha]

theorem zext_congr {w : Nat} (ha : AgreeOn w a a') : zext a w = zext a' w := chop_congr ha

theorem s2f_congr {w v : Nat} {fp : FloatConversions} (ha : AgreeOn w a a') :
    s2f a w v fp rounding = s2f a' w v fp rounding := by
  unfold s2f
  rw [sext_congr ha]

theorem u2f_congr {w v : Nat} {fp : FloatConversions} (ha : AgreeOn w a a') :
    u2f a w v fp rounding = u2f a' w v fp rounding := by
  unfold u2f
  rw [zext_congr ha]

theorem cvtNeg_agree (ha : AgreeOn ty.width a a') : AgreeOn ty.width (cvtNeg a ty) (cvtNeg a' ty) := by
  cases ty with
  | S64 | U64 | B64 =>
    rw [AgreeOn.eq ha]
    rfl
  | S8 | U8 | B8 =>
    refine AgreeOn.or (ha.and rfl) ?_
    have ha : a.u8 = a'.u8 := ha
    rw [ha]
    rfl
  | S16 | U16 | B16 =>
    refine AgreeOn.or (ha.and rfl) ?_
    have ha : a.u16 = a'.u16 := ha
    rw [ha]
    rfl
  | S32 | U32 | B32 =>
    refine AgreeOn.or (ha.and rfl) ?_
    have ha : a.u32 = a'.u32 := ha
    rw [ha]
    rfl

/-- Where `g_cvt_fn` changes nothing the widths are the same, and where it chops the result is not
wider. -/
theorem gCvtFn_width (ty : ScalarType) (toType : CvtType) :
    ((gCvtFn[ty.fmt]?).bind (·[toType.fmt]?) = some .NULL → toType.width = ty.width) ∧
      ((gCvtFn[ty.fmt]?).bind (·[toType.fmt]?) = some .chop → toType.width ≤ ty.width) := by
  cases toType with
  | int ty' => cases ty <;> cases ty' <;> decide
  | F32 => cases ty <;> decide
  | F64 => cases ty <;> decide

theorem cvtImpl_agree {fp : FloatConversions} {neg : Bool} {toType : CvtType} (ha : AgreeOn ty.width a a') :
    ResultAgree toType.width (cvtImpl a fp rounding ty neg toType)
      (cvtImpl a' fp rounding ty neg toType) := by
  have hx : AgreeOn ty.width (if neg then cvtNeg a ty else a) (if neg then cvtNeg a' ty else a') := by
    cases neg with
    | false => exact ha
    | true => exact cvtNeg_agree ha
  obtain ⟨hnull, hchop⟩ := gCvtFn_width ty toType
  unfold cvtImpl
  dsimp only
  generalize (if neg then cvtNeg a ty else a) = x at hx ⊢
  generalize (if neg then cvtNeg a' ty else a') = x' at hx ⊢
  cases hfn : (gCvtFn[ty.fmt]?).bind (·[toType.fmt]?) with
  | none => rfl
  | some fn =>
    cases fn with
    | NULL =>
      have hw := hnull hfn
      show Except.ok _ = Except.ok _
      rw [hw]
      exact congrArg Except.ok hx
    | chop => exact congrArg _ (chop_congr (hx.mono (hchop hfn)))
    | sext => exact congrArg _ (sext_congr hx)
    | sexd => exact congrArg _ (sexd_congr hx)
    | zext => exact congrArg _ (zext_congr hx)
    | s2f => exact congrArg _ (s2f_congr hx)
    | u2f => exact congrArg _ (u2f_congr hx)

/-- **Locality of one value.** Instructions that do not read beyond the width of their type compute
results that agree from operands that agree. -/
theorem value_agree {fp : FloatConversions} {op : IntOp} (h : ¬ op.ReadsBeyond ty)
    (ha : AgreeOn ty.width a a') (hb : 2 ≤ op.arity → AgreeOn ty.width b b')
    (hc : 3 ≤ op.arity → AgreeOn (op.thirdWidth ty) c c') :
    ResultAgree (op.resultWidth ty) (op.value fp ty a b c) (op.value fp ty a' b' c') := by
  cases op with
  | add => exact congrArg _ (addImpl_congr ha (hb le_rfl))
  | sub => exact congrArg _ (subImpl_congr ha (hb le_rfl))
  | mul mode => exact congrArg _ (mulImpl_congr ha (hb le_rfl))
  | mad mode => exact congrArg _ (madImpl_congr ha (hb (show 2 ≤ 3 by decide)) (hc le_rfl))
  | div => exact congrArg _ (divImpl_congr ha (hb le_rfl))
  | rem =>
    have hw : ty.width = 64 := by
      have h : ¬ ty.width < 64 := h
      cases ty <;> first | rfl | exact absurd (by decide) h
    rw [hw] at ha hb
    show ResultAgree _ (remImpl a b) (remImpl a' b')
    rw [ha.eq, (hb le_rfl).eq]
    rfl
  | and => exact congrArg Except.ok (ha.and (hb le_rfl))
  | or => exact congrArg Except.ok (ha.or (hb le_rfl))
  | xor => exact congrArg Except.ok (ha.xor (hb le_rfl))
  | not => exact congrArg _ (notImpl_congr ha)
  | shl => exact congrArg _ (shlImpl_congr ha (hb le_rfl))
  | shr => exact congrArg _ (shrImpl_congr ha (hb le_rfl))
  | min => exact congrArg _ (minImpl_congr ha (hb le_rfl))
  | max => exact congrArg _ (maxImpl_congr ha (hb le_rfl))
  | set cmp abs result => exact congrArg _ (setImpl_congr h ha (hb le_rfl))
  | setp cmp =>
    show ResultAgree _ (setpImpl ty a b cmp) (setpImpl ty a' b' cmp)
    unfold setpImpl
    rw [cmpOp_congr h ha (hb le_rfl)]
    rfl
  | selp =>
    -- the predicate is the lowest bit of the third operand
    have hc : AgreeOn 1 c c' := (hc le_rfl).mono (by cases ty <;> decide)
    have hmask : c &&& 1 = c' &&& 1 := hc.mask
    show ResultAgree _ (selpImpl a b c) (selpImpl a' b' c')
    unfold selpImpl
    rw [hmask]
    split
    · exact congrArg Except.ok ha
    · exact congrArg Except.ok (hb (by decide))
  | slct cType => exact congrArg _ (slctImpl_congr ha (hb (show 2 ≤ 3 by decide)) (hc le_rfl))
  | cvt neg toType rounding => exact cvtImpl_agree ha

end Local

/-! ## Executions -/

namespace IntOp

variable {fp : FloatConversions} {op : IntOp} {ty : ScalarType} {third : Nat}

theorem exec_map (i : IntInst) (regs : Reg → Value) (n : Nat) :
    (i.exec fp regs).map (fun r => (r i.dst).setWidth n) =
      (i.op.value fp i.type (regs i.src1) (regs i.src2) (regs i.src3)).map (·.setWidth n) := by
  unfold IntInst.exec
  cases i.op.value fp i.type (regs i.src1) (regs i.src2) (regs i.src3) with
  | error e => rfl
  | ok x =>
    show Except.ok ((Function.update regs i.dst x i.dst).setWidth n) = _
    rw [Function.update_self]
    rfl

theorem localAt_iff : op.LocalAt fp ty third ↔ ∀ a a' b b' c c', AgreeOn ty.width a a' →
    (2 ≤ op.arity → AgreeOn ty.width b b') → (3 ≤ op.arity → AgreeOn third c c') →
      ResultAgree (op.resultWidth ty) (op.value fp ty a b c) (op.value fp ty a' b' c') := by
  constructor
  · intro h a a' b b' c c' ha hb hc
    -- a register for each operand
    have hexec := h ⟨op, ty, "d", "a", "b", "c"⟩
      (fun r => if r = "a" then a else if r = "b" then b else c)
      (fun r => if r = "a" then a' else if r = "b" then b' else c') rfl rfl ⟨ha, hb, hc⟩
    rw [exec_map, exec_map] at hexec
    exact hexec
  · rintro h i regs regs' rfl rfl ⟨ha, hb, hc⟩
    rw [exec_map, exec_map]
    exact h _ _ _ _ _ _ ha hb hc

theorem not_localAt_of_values {a a' b b' : Value} (ha : AgreeOn ty.width a a') (hb : AgreeOn ty.width b b')
    (hne : ¬ ResultAgree (op.resultWidth ty) (op.value fp ty a b 0) (op.value fp ty a' b' 0)) :
    ¬ op.LocalAt fp ty third := by
  rw [localAt_iff]
  intro hlocal
  exact hne (hlocal a a' b b' 0 0 ha (fun _ => hb) (fun _ => rfl))

theorem exists_cmpOp_ne {cmp : Cmp} (h : ComparesBeyond ty cmp) :
    ∃ a a' b b' t, AgreeOn ty.width a a' ∧ AgreeOn ty.width b b' ∧ cmpOp ty a b cmp = .ok t ∧
      cmpOp ty a' b' cmp = .ok !t := by
  cases ty with
  | B16 | B32 =>
    have h : cmp ∈ [Cmp.EQ, .NE] := h
    refine ⟨0x100000000, 0, 0, 0, cmp == .NE, by decide, by decide, ?_⟩
    cases cmp <;> first | exact absurd h (by decide) | decide
  | S8 =>
    have h : cmp ∈ [Cmp.EQ, .NE, .LT, .LE, .GT, .GE] := h
    -- the operand whose ninth bit is set has to be the one that the comparison is not true of
    cases cmp <;> first
      | exact absurd h (by decide)
      | exact ⟨0x100, 0, 0, 0, false, by decide, by decide, by decide, by decide⟩
      | exact ⟨0x100, 0, 0, 0, true, by decide, by decide, by decide, by decide⟩
      | exact ⟨0, 0, 0x100, 0, true, by decide, by decide, by decide, by decide⟩
      | exact ⟨0, 0, 0x100, 0, false, by decide, by decide, by decide, by decide⟩
  | U8 =>
    have h : cmp ∈ [Cmp.EQ, .NE, .LT, .LE, .GT, .GE, .LO, .LS, .HI, .HS] := h
    cases cmp <;> first
      | exact absurd h (by decide)
      | exact ⟨0x100, 0, 0, 0, false, by decide, by decide, by decide, by decide⟩
      | exact ⟨0x100, 0, 0, 0, true, by decide, by decide, by decide, by decide⟩
      | exact ⟨0, 0, 0x100, 0, true, by decide, by decide, by decide, by decide⟩
      | exact ⟨0, 0, 0x100, 0, false, by decide, by decide, by decide, by decide⟩
  | S16 | S32 | S64 | U16 | U32 | U64 | B8 | B64 => exact h.elim

theorem exists_rem_ne (h : ty.width < 64) :
    ∃ a a', AgreeOn ty.width a a' ∧ ¬ ResultAgree ty.width (remImpl a 3) (remImpl a' 3) := by
  refine ⟨BitVec.ofNat 64 (2 ^ ty.width), 0, ?_, ?_⟩
  · cases ty <;> decide
  · intro he
    cases ty <;> first
      | exact absurd h (by decide)
      | exact absurd (Except.ok.inj he) (by decide)

theorem not_localAt_of_readsBeyond (h : op.ReadsBeyond ty) : ¬ op.LocalAt fp ty third := by
  cases op with
  | rem =>
    obtain ⟨a, a', ha, hne⟩ := exists_rem_ne h
    exact not_localAt_of_values ha rfl hne
  | setp cmp =>
    obtain ⟨a, a', b, b', t, ha, hb, hr, hr'⟩ := exists_cmpOp_ne h
    apply not_localAt_of_values ha hb
    show ¬ ResultAgree 4 (setpImpl ty a b cmp) (setpImpl ty a' b' cmp)
    unfold setpImpl
    rw [hr, hr']
    cases t <;> exact fun he => absurd (Except.ok.inj he) (by decide)
  | set cmp abs result =>
    obtain ⟨rfl, h⟩ := h
    obtain ⟨a, a', b, b', t, ha, hb, hr, hr'⟩ := exists_cmpOp_ne h
    apply not_localAt_of_values ha hb
    show ¬ ResultAgree 32 (cmpOp ty a b cmp >>= fun t => .ok (setResult result t))
      (cmpOp ty a' b' cmp >>= fun t => .ok (setResult result t))
    rw [hr, hr']
    cases t <;> cases result <;> exact fun he => absurd (Except.ok.inj he) (by decide)
  | add | sub | mul | mad | div | and | or | xor | not | shl | shr | min | max | selp | slct | cvt =>
    exact h.elim

theorem not_localAt_of_third {c c' : Value} (hc : AgreeOn third c c')
    (hne : ¬ ResultAgree (op.resultWidth ty) (op.value fp ty 1 0 c) (op.value fp ty 1 0 c')) :
    ¬ op.LocalAt fp ty third := by
  rw [localAt_iff]
  intro hlocal
  exact hne (hlocal 1 1 0 0 c c' rfl (fun _ => rfl) (fun _ => hc))

theorem not_widthLocal_of_thirdWidth (h : ty.width < op.thirdWidth ty) : ¬ op.WidthLocal fp ty := by
  cases op with
  | mad mode =>
    cases mode with
    | wide =>
      have hc : AgreeOn ty.width (BitVec.ofNat 64 (2 ^ ty.width)) 0 := by
        cases ty <;> decide
      apply not_localAt_of_third hc
      intro he
      cases ty <;> first
        | exact absurd h (by decide)
        | exact absurd (Except.ok.inj he) (by decide)
    | hi | lo | none => exact absurd h (by cases ty <;> decide)
  | slct cType =>
    -- the sign bit of the third operand
    cases ty with
    | B16 | U16 =>
      have hc : AgreeOn 16 0xBF800000 0 := by decide
      apply not_localAt_of_third hc
      intro he
      cases cType <;> exact absurd (Except.ok.inj he) (by decide)
    | S8 | S16 | S32 | S64 | U8 | U32 | U64 | B8 | B32 | B64 => exact absurd h (lt_irrefl _)
  | add | sub | mul | div | rem | and | or | xor | not | shl | shr | min | max | set | setp | selp
    | cvt => exact absurd h (lt_irrefl _)

/-- **Width locality.** Bits above the width of the type influence no result, except of the instructions
that read beyond it and of those whose third source is wider. Of these the bits above the width of the
third source do not. -/
theorem widthLocal_iff (fp : FloatConversions) (op : IntOp) (ty : ScalarType) :
    (op.WidthLocal fp ty ↔ ¬ op.ReadsBeyond ty ∧ ¬ ty.width < op.thirdWidth ty) ∧
      (op.OperandLocal fp ty ↔ ¬ op.ReadsBeyond ty) := by
  have hlocal : ¬ op.ReadsBeyond ty → op.OperandLocal fp ty := by
    intro h
    apply localAt_iff.mpr
    intro a a' b b' c c' ha hb hc
    exact value_agree h ha hb hc
  have hle : ty.width ≤ op.thirdWidth ty := by
    cases op with
    | mad mode => cases mode <;> cases ty <;> decide
    | slct cType => cases cType <;> cases ty <;> decide
    | add | sub | mul | div | rem | and | or | xor | not | shl | shr | min | max | set | setp | selp
      | cvt => exact le_rfl
  refine ⟨⟨fun h => ⟨fun hb => not_localAt_of_readsBeyond hb h,
    fun ht => not_widthLocal_of_thirdWidth ht h⟩, ?_⟩,
    ⟨fun h hb => not_localAt_of_readsBeyond hb h, hlocal⟩⟩
  rintro ⟨hb, ht⟩
  have hthird : op.thirdWidth ty = ty.width := le_antisymm (not_lt.mp ht) hle
  show op.LocalAt fp ty ty.width
  rw [← hthird]
  exact hlocal hb

end IntOp

/-- Conversions that are all zero. -/
def FloatConversions.zero : FloatConversions where
  int2float _ _ := 0
  uint2float _ _ := 0
  ll2float _ _ := 0
  ull2float _ := 0
  int2double _ := 0
  uint2double _ := 0
  ll2double _ := 0
  ull2double _ := 0

/-- An addition of 32 bits leaves its carry in the register, and a comparison of 32 bits reads it. -/
theorem not_widthLocal_setp_B32 :
    addImpl .U32 0xFFFFFFFF 1 = .ok 0x100000000 ∧ ¬ (IntOp.setp .EQ).WidthLocal .zero .B32 := by
  constructor
  · decide
  · intro h
    have hexec := h ⟨.setp .EQ, .B32, "p", "r1", "r2", "r3"⟩
      (fun r => if r = "r1" then 0x100000000 else 0) (fun _ => 0) rfl rfl
      ⟨by decide, fun _ => by decide, fun _ => by decide⟩
    exact absurd (Except.ok.inj hexec) (by decide)

end GpgpuSimRuby.Ptx
