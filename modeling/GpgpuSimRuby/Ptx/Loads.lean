import GpgpuSimRuby.Ptx.CallStack
import GpgpuSimRuby.Ptx.Conversion

/-!
# Loads

`ld_exec` for the integer and bit-size types. A load of one register extends the sign of some types,
and a load of a vector that of none.
-/

namespace GpgpuSimRuby.Ptx

open Value

/-- The bytes of a value, the lowest one first. -/
def ofBytes : List Byte → Value
  | [] => 0
  | b :: bytes => b.setWidth 64 ||| ofBytes bytes <<< 8

/-- The types that registers are declared with. -/
inductive RegType where
  | pred
  | int (ty : ScalarType)
  | F16 | F32 | F64
  deriving DecidableEq, Repr

/-- `get_operand_nbits`. -/
def RegType.nbits : RegType → Nat
  | pred => 1
  | int ty => ty.width
  | F16 => 16
  | F32 => 32
  | F64 => 64

/-- A destination register. -/
structure LdReg where
  name : Reg
  type : RegType
  deriving DecidableEq, Repr

/-- `V2_TYPE` to `V4_TYPE`. -/
inductive VectorSpec where
  | V2 | V3 | V4
  deriving DecidableEq, Repr

def VectorSpec.count : VectorSpec → Nat
  | V2 => 2
  | V3 => 3
  | V4 => 4

inductive LdDst where
  | reg (r : LdReg)
  | vector (spec : VectorSpec) (regs : List LdReg)
  deriving DecidableEq, Repr

/-- `sign_extend`. -/
def signExtend (data : Value) (srcSize : Nat) (dst : LdReg) : Value :=
  let dstSize := dst.type.nbits
  if dstSize ≤ srcSize then data
  else if ((1 : Value) <<< (srcSize - 1)) &&& data = 0 then data
  else data ||| (((1 : Value) <<< (dstSize - srcSize)) - 1) <<< srcSize

/-- `ld` and `ldu`. -/
structure LdInst where
  type : ScalarType
  space : MemorySpace
  kind : ParamKind
  dst : LdDst
  deriving DecidableEq, Repr

namespace LdInst

variable (i : LdInst) (mems : Memory → Addr → Byte)

/-- What is read for the element `k`, in a register that was zero. -/
def read (loc : Location) (k : Nat) : Value :=
  ofBytes (readBytes (mems loc.mem) (loc.addr + BitVec.ofNat 32 (k * i.type.width / 8)) (i.type.width / 8))

/-- A load of one register. -/
def scalar (loc : Location) (k : Nat) (dst : LdReg) : Value :=
  let data := i.read mems loc k
  if i.type = .S16 ∨ i.type = .S32 then signExtend data i.type.width dst else data

/-- `set_vector_operand_values`. -/
def setVector (regs : List LdReg) (data : List Value) : List (LdReg × Value) := regs.zip data

/-- The registers that a load from a location writes. -/
def load (loc : Location) : List (LdReg × Value) :=
  match i.dst with
  | .reg r => [(r, i.scalar mems loc 0 r)]
  | .vector spec regs =>
    let data := i.read mems loc
    match spec with
    | .V2 => setVector regs [data 0, data 1, data 1, data 1]
    | .V3 => setVector regs [data 0, data 1, data 2, data 2]
    | .V4 => setVector regs [data 0, data 1, data 2, data 3]

/-- `ld_exec`. -/
def ldExec (t : AddrThread) (src : Value) : Except AddrFault (List (LdReg × Value)) := do
  let loc ← t.access i.space i.kind src
  .ok (i.load mems loc)

/-- What is loaded is the value in memory, extended to the width of the register; and what is loaded
to an element of a vector is what the load of its address alone would leave. -/
def Right (writes : List (LdReg × Value)) (loc : Location) : Prop :=
  match i.dst with
  | .reg r => i.type.width ≤ r.type.nbits → ∃ d, writes = [(r, d)] ∧
    d.setWidth r.type.nbits = BitVec.ofInt r.type.nbits (i.type.toInt (i.read mems loc 0))
  | .vector spec regs => ∀ k < spec.count, ∀ r, regs[k]? = some r → i.type.width ≤ r.type.nbits →
    writes[k]? = some (r, i.scalar mems loc k r)

/-- A load that is executed leaves what it is to leave. -/
def LoadsRight (t : AddrThread) (src : Value) : Prop :=
  ∀ loc, t.access i.space i.kind src = .ok loc →
    ∃ writes, i.ldExec mems t src = .ok writes ∧ i.Right mems writes loc

/-- Neither a negative 8-bit value for a wider register, nor a vector with a negative element for a
wider register. -/
def RightWhen (loc : Location) : Prop :=
  match i.dst with
  | .reg r => i.type = .S8 → 8 < r.type.nbits → (i.read mems loc 0).getLsbD 7 = false
  | .vector spec regs => ∀ k < spec.count, ∀ r, regs[k]? = some r → (i.type = .S16 ∨ i.type = .S32) →
    i.type.width < r.type.nbits → (i.read mems loc k).getLsbD (i.type.width - 1) = false

end LdInst

/-! ## Bytes -/

section Bytes

variable {bytes : List Byte} {j : Nat}

theorem getLsbD_ofBytes (h : 8 * bytes.length ≤ j) : (ofBytes bytes).getLsbD j = false := by
  induction bytes generalizing j with
  | nil => exact BitVec.getLsbD_zero
  | cons b bytes ih =>
    rw [List.length_cons] at h
    unfold ofBytes
    rw [BitVec.getLsbD_or, BitVec.getLsbD_setWidth, BitVec.getLsbD_shiftLeft, ih (by omega),
      BitVec.getLsbD_of_ge b j (by omega), Bool.and_false, Bool.and_false]
    rfl

theorem LdInst.getLsbD_read (i : LdInst) (mems : Memory → Addr → Byte) (loc : Location) (k : Nat)
    (h : i.type.width ≤ j) : (i.read mems loc k).getLsbD j = false := by
  apply getLsbD_ofBytes
  rw [length_readBytes]
  omega

end Bytes

/-! ## Extension -/

section Extension

variable {x : Value} {w n : Nat} {ty : ScalarType} {r : LdReg}

theorem RegType.nbits_le (ty : RegType) : ty.nbits ≤ 64 := by
  cases ty with
  | int ty => exact ty.width_le
  | pred | F16 | F32 | F64 => decide

theorem bit_and_eq_zero_iff (hw : w < 64) : ((1 : Value) <<< w) &&& x = 0 ↔ x.getLsbD w = false := by
  have hbit : ∀ j, ((1 : Value) <<< w &&& x).getLsbD j = (decide (j = w) && x.getLsbD w) := by
    intro j
    rw [BitVec.getLsbD_and, BitVec.getLsbD_shiftLeft]
    have hone : ∀ k, (1 : Value).getLsbD k = decide (k = 0) := fun k => by simp [BitVec.getLsbD_one]
    rw [hone]
    by_cases hj : j = w
    · rw [hj]
      simp [hw]
    · have hne : ¬ (w ≤ j ∧ j - w = 0) := by omega
      grind
  constructor
  · intro h
    have hzero := hbit w
    rw [h] at hzero
    simpa using hzero.symm
  · intro h
    apply BitVec.eq_of_getLsbD_eq
    intro j hj
    rw [hbit, h, Bool.and_false]
    simp

theorem getLsbD_mask (hn : n < 64) {j : Nat} (hj : j < 64) :
    ((((1 : Value) <<< n) - 1) <<< w).getLsbD j = (decide (w ≤ j) && decide (j < w + n)) := by
  have hlow : ((1 : Value) <<< n) - 1 = BitVec.ofNat 64 (2 ^ n - 1) := by
    apply BitVec.eq_of_toNat_eq
    have hpos : 0 < 2 ^ n := by positivity
    have hlt : 2 ^ n < 2 ^ 64 := Nat.pow_lt_pow_right (by decide) hn
    have hone : ((1 : Value) <<< n).toNat = 2 ^ n := by
      rw [BitVec.toNat_shiftLeft, Nat.shiftLeft_eq]
      show 1 * 2 ^ n % 2 ^ 64 = 2 ^ n
      omega
    rw [BitVec.toNat_sub, hone, BitVec.toNat_ofNat]
    show (2 ^ 64 - 1 + 2 ^ n) % 2 ^ 64 = _
    omega
  rw [hlow, BitVec.getLsbD_shiftLeft, BitVec.getLsbD_ofNat, Nat.testBit_two_pow_sub_one]
  grind

theorem setWidth_signExtend (hpos : 0 < w) (hlt : w < r.type.nbits)
    (hzero : ∀ j, w ≤ j → x.getLsbD j = false) :
    (signExtend x w r).setWidth r.type.nbits = (x.setWidth w).signExtend r.type.nbits := by
  have hle := r.type.nbits_le
  have hmsb : (x.setWidth w).msb = x.getLsbD (w - 1) := by
    rw [BitVec.msb_eq_getLsbD_last, BitVec.getLsbD_setWidth, decide_eq_true (by omega), Bool.true_and]
  apply BitVec.eq_of_getLsbD_eq
  intro j hj
  rw [BitVec.getLsbD_setWidth, decide_eq_true hj, Bool.true_and, BitVec.getLsbD_signExtend,
    decide_eq_true hj, Bool.true_and, hmsb]
  unfold signExtend
  dsimp only
  rw [if_neg (not_le.mpr hlt)]
  cases hbit : x.getLsbD (w - 1) with
  | false =>
    rw [if_pos ((bit_and_eq_zero_iff (by omega)).mpr hbit)]
    split
    · next h => rw [BitVec.getLsbD_setWidth, decide_eq_true h, Bool.true_and]
    · next h => exact hzero j (not_lt.mp h)
  | true =>
    have hset : ¬ ((1 : Value) <<< (w - 1)) &&& x = 0 := by
      rw [bit_and_eq_zero_iff (by omega), hbit]
      exact Bool.false_ne_true.symm
    rw [if_neg hset, BitVec.getLsbD_or, getLsbD_mask (by omega) (by omega)]
    split
    · next h =>
      rw [BitVec.getLsbD_setWidth, decide_eq_true h, decide_eq_false (by omega)]
      simp
    · next h =>
      rw [decide_eq_true (by omega), decide_eq_true (by omega)]
      simp

theorem signExtend_eq_self_iff (hpos : 0 < w) (hzero : ∀ j, w ≤ j → x.getLsbD j = false) :
    signExtend x w r = x ↔ (w < r.type.nbits → x.getLsbD (w - 1) = false) := by
  have hle := r.type.nbits_le
  unfold signExtend
  dsimp only
  by_cases hlt : w < r.type.nbits
  · rw [if_neg (not_le.mpr hlt)]
    cases hbit : x.getLsbD (w - 1) with
    | false =>
      rw [if_pos ((bit_and_eq_zero_iff (by omega)).mpr hbit)]
      exact iff_of_true rfl fun _ => rfl
    | true =>
      have hset : ¬ ((1 : Value) <<< (w - 1)) &&& x = 0 := by
        rw [bit_and_eq_zero_iff (by omega), hbit]
        exact Bool.false_ne_true.symm
      rw [if_neg hset]
      refine iff_of_false ?_ fun h => Bool.false_ne_true (h hlt).symm
      intro h
      have hat := congrArg (BitVec.getLsbD · w) h
      simp only [BitVec.getLsbD_or, hzero w le_rfl] at hat
      rw [getLsbD_mask (by omega) (by omega), decide_eq_true le_rfl, decide_eq_true (by omega)] at hat
      exact absurd hat (by decide)
  · rw [if_pos (not_lt.mp hlt)]
    exact iff_of_true rfl fun h => absurd h hlt

theorem toNat_of_zero_above (hw : w ≤ 64) (hzero : ∀ j, w ≤ j → x.getLsbD j = false) :
    x.toNat = (x.setWidth w).toNat := by
  have hback : x = (x.setWidth w).setWidth 64 := by
    apply BitVec.eq_of_getLsbD_eq
    intro j hj
    rw [BitVec.getLsbD_setWidth, BitVec.getLsbD_setWidth, decide_eq_true hj, Bool.true_and]
    by_cases hjw : j < w
    · rw [decide_eq_true hjw, Bool.true_and]
    · rw [hzero j (not_lt.mp hjw), Bool.and_false]
  calc x.toNat = ((x.setWidth w).setWidth 64).toNat := congrArg BitVec.toNat hback
    _ = (x.setWidth w).toNat := BitVec.toNat_setWidth_of_le hw

theorem setWidth_eq_iff_of_lt (hlt : ty.width < n) (hzero : ∀ j, ty.width ≤ j → x.getLsbD j = false) :
    x.setWidth n = BitVec.ofInt n (ty.toInt x) ↔ (ty.isSigned = true → x.getLsbD (ty.width - 1) = false) := by
  have hnat := toNat_of_zero_above ty.width_le hzero
  have hpos : 0 < ty.width := by cases ty <;> decide
  have hmsb : (x.setWidth ty.width).msb = x.getLsbD (ty.width - 1) := by
    rw [BitVec.msb_eq_getLsbD_last, BitVec.getLsbD_setWidth, decide_eq_true (by omega), Bool.true_and]
  rw [setWidth_eq_ofInt_iff, hnat]
  unfold ScalarType.toInt
  cases ty.isSigned with
  | false =>
    rw [if_neg Bool.false_ne_true]
    exact iff_of_true rfl fun h => absurd h Bool.false_ne_true
  | true =>
    rw [if_pos rfl, BitVec.toInt_eq_msb_cond, hmsb]
    cases x.getLsbD (ty.width - 1) with
    | false =>
      rw [if_neg Bool.false_ne_true]
      exact iff_of_true rfl fun _ => rfl
    | true =>
      rw [if_pos rfl]
      refine iff_of_false ?_ fun h => Bool.false_ne_true (h rfl).symm
      intro h
      -- The two values differ by the modulus of the type, which is smaller than that of the register.
      have hdvd : (2 : Int) ^ n ∣ 2 ^ ty.width := by
        have := Int.modEq_iff_dvd.mp h.symm
        rw [sub_sub_cancel] at this
        exact_mod_cast this
      have hle := Int.le_of_dvd (by positivity) hdvd
      exact absurd (pow_lt_pow_right₀ (by decide : (1 : Int) < 2) hlt) (not_lt.mpr hle)

end Extension

/-! ## The results -/

namespace LdInst

variable {i : LdInst} {mems : Memory → Addr → Byte} {loc : Location} {k : Nat} {r : LdReg}

theorem scalar_eq_iff (h : i.type.width ≤ r.type.nbits) : (i.scalar mems loc k r).setWidth r.type.nbits =
        BitVec.ofInt r.type.nbits (i.type.toInt (i.read mems loc k)) ↔
      (i.type = .S8 → 8 < r.type.nbits → (i.read mems loc k).getLsbD 7 = false) := by
  have hzero : ∀ j, i.type.width ≤ j → (i.read mems loc k).getLsbD j = false := fun j hj =>
    i.getLsbD_read mems loc k hj
  have hpos : 0 < i.type.width := by cases i.type <;> decide
  have hle := r.type.nbits_le
  unfold scalar
  dsimp only
  generalize i.read mems loc k = x at hzero ⊢
  generalize i.type = ty at *
  rcases h.eq_or_lt with heq | hlt
  · -- A register of the type's width is not extended.
    have hself : (if ty = .S16 ∨ ty = .S32 then signExtend x ty.width r else x) = x := by
      split
      · exact (signExtend_eq_self_iff hpos hzero).mpr fun hlt => absurd hlt (by omega)
      · rfl
    rw [hself]
    refine iff_of_true (setWidth_eq_ofInt_toInt heq.ge) ?_
    rintro rfl hlt
    exact absurd hlt (not_lt.mpr heq.ge)
  · by_cases hty : ty = .S16 ∨ ty = .S32
    · rw [if_pos hty, setWidth_signExtend hpos hlt hzero]
      refine iff_of_true ?_ ?_
      · have hsigned : ty.isSigned = true := by
          rcases hty with rfl | rfl <;> rfl
        unfold ScalarType.toInt
        rw [if_pos hsigned]
        rfl
      · rintro rfl
        rcases hty with hty | hty <;> cases hty
    · rw [if_neg hty, setWidth_eq_iff_of_lt hlt hzero]
      cases ty with
      | S8 => exact ⟨fun h' _ _ => h' rfl, fun h' _ => h' rfl hlt⟩
      | S16 => exact absurd (.inl rfl) hty
      | S32 => exact absurd (.inr rfl) hty
      | S64 => exact absurd hlt (not_lt.mpr hle)
      | U8 | U16 | U32 | U64 | B8 | B16 | B32 | B64 =>
        exact iff_of_true (fun h' => absurd h' Bool.false_ne_true) fun h' => by cases h'

/-- The element of a vector is what a load of its address alone leaves, unless that extends a sign. -/
theorem read_eq_scalar_iff : i.read mems loc k = i.scalar mems loc k r ↔
    ((i.type = .S16 ∨ i.type = .S32) → i.type.width < r.type.nbits →
      (i.read mems loc k).getLsbD (i.type.width - 1) = false) := by
  have hpos : 0 < i.type.width := by cases i.type <;> decide
  unfold scalar
  dsimp only
  by_cases hty : i.type = .S16 ∨ i.type = .S32
  · rw [if_pos hty, eq_comm, signExtend_eq_self_iff hpos fun j hj => i.getLsbD_read mems loc k hj]
    exact ⟨fun h _ => h, fun h => h hty⟩
  · rw [if_neg hty]
    exact iff_of_true rfl fun h => absurd h hty

theorem load_vector_getElem {spec : VectorSpec} {regs : List LdReg} (hdst : i.dst = .vector spec regs)
    (hk : k < spec.count) (hr : regs[k]? = some r) : (i.load mems loc)[k]? = some (r, i.read mems loc k) := by
  unfold load setVector
  rw [hdst]
  cases spec with
  | V2 =>
    have hk : k < 2 := hk
    interval_cases k <;> simp [List.getElem?_zip_eq_some, hr]
  | V3 =>
    have hk : k < 3 := hk
    interval_cases k <;> simp [List.getElem?_zip_eq_some, hr]
  | V4 =>
    have hk : k < 4 := hk
    interval_cases k <;> simp [List.getElem?_zip_eq_some, hr]

theorem load_right_iff : i.Right mems (i.load mems loc) loc ↔ i.RightWhen mems loc := by
  unfold Right RightWhen
  cases hdst : i.dst with
  | reg r =>
    have hload : i.load mems loc = [(r, i.scalar mems loc 0 r)] := by
      unfold load
      rw [hdst]
    rw [hload]
    dsimp only
    constructor
    · intro h hty hlt
      obtain ⟨d, hd, hvalue⟩ := h (by rw [hty]; exact hlt.le)
      cases hd
      exact (scalar_eq_iff (by rw [hty]; exact hlt.le)).mp hvalue hty hlt
    · intro h hle
      exact ⟨_, rfl, (scalar_eq_iff hle).mpr h⟩
  | vector spec regs =>
    dsimp only
    constructor
    · intro h k hk r hr hty hlt
      have hwrite := h k hk r hr hlt.le
      rw [load_vector_getElem hdst hk hr] at hwrite
      exact read_eq_scalar_iff.mp (Prod.mk.inj (Option.some.inj hwrite)).2 hty hlt
    · intro h k hk r hr hle
      rw [load_vector_getElem hdst hk hr, read_eq_scalar_iff.mpr (h k hk r hr)]

/-- **Loads.** For every type, destination, address and memory, a load leaves what it is to leave
exactly when `RightWhen` holds of the location. -/
theorem loadsRight_iff (i : LdInst) (mems : Memory → Addr → Byte) (t : AddrThread) (src : Value) :
    i.LoadsRight mems t src ↔
      ∀ loc, t.access i.space i.kind src = .ok loc → i.RightWhen mems loc := by
  have hexec : ∀ loc, t.access i.space i.kind src = .ok loc →
      i.ldExec mems t src = .ok (i.load mems loc) := by
    intro loc h
    unfold ldExec
    rw [h]
    rfl
  constructor
  · intro h loc hloc
    obtain ⟨writes, hwrites, hright⟩ := h loc hloc
    obtain rfl := Except.ok.inj ((hexec loc hloc).symm.trans hwrites)
    exact load_right_iff.mp hright
  · intro h loc hloc
    exact ⟨_, hexec loc hloc, load_right_iff.mpr (h loc hloc)⟩

/-- A load to 32-bit registers of a memory that is full of ones. -/
def ofOnes (type : ScalarType) (dst : LdDst) : LdInst where
  type := type
  space := .global
  kind := .other
  dst := dst

/-- `ld.s8` of -1 leaves 255, and `ld.v2.s16` of twice -1 leaves 65535 in its registers. -/
theorem not_loadsRight_negative :
    ¬ (ofOnes .S8 (.reg ⟨"r", .int .S32⟩)).LoadsRight (fun _ _ => 0xFF) calledThread 0 ∧
      ¬ (ofOnes .S16 (.vector .V2 [⟨"r", .int .S32⟩, ⟨"s", .int .S32⟩])).LoadsRight (fun _ _ => 0xFF)
        calledThread 0 := by
  constructor
  · intro h
    obtain ⟨writes, hwrites, hright⟩ := h ⟨.global, .global, 0⟩ rfl
    obtain rfl := Except.ok.inj hwrites
    have hbit := load_right_iff.mp hright rfl (by decide)
    exact absurd hbit (by decide)
  · intro h
    obtain ⟨writes, hwrites, hright⟩ := h ⟨.global, .global, 0⟩ rfl
    obtain rfl := Except.ok.inj hwrites
    have hbit := load_right_iff.mp hright 0 (by decide) _ rfl (.inl rfl) (by decide)
    exact absurd hbit (by decide)

end LdInst

end GpgpuSimRuby.Ptx
