import GpgpuSimRuby.Ptx.ConditionCodes
import GpgpuSimRuby.Library.RippleCarry

/-!
# Multi-word addition

`add` with the destination `$p|$r` leaves a carry in the predicate, which `addp` takes as its third
source. What a chain of them computes is compared with the sum of the two numbers.
-/

namespace GpgpuSimRuby.Ptx

open Library Value

/-! ## Addition with flags -/

/-- The overflow in `add_impl` and `addp_impl`, where `sign` is the sign bit of the type. -/
def addOverflowAt (sign a b data : Value) : Value :=
  if (a &&& sign) - (b &&& sign) = 0 then (if (a &&& sign) - (data &&& sign) = 0 then 0 else 1) else 0

def addOverflow (ty : ScalarType) (a b data : Value) : Value :=
  match ty with
  | .S8 => addOverflowAt 0x80 a b data
  | .S16 => addOverflowAt 0x8000 a b data
  | .S32 => addOverflowAt 0x80000000 a b data
  | _ => 0

def addCarry (ty : ScalarType) (data : Value) : Value :=
  match ty with
  | .S8 | .U8 => (data &&& 0x100) >>> 8
  | .S16 | .U16 => (data &&& 0x10000) >>> 16
  | .S32 | .U32 => (data &&& 0x100000000) >>> 32
  | _ => 0

/-- `addp_impl`. The carry flag is added as it stands in the predicate. -/
def addpImpl (ty : ScalarType) (a b c : Value) : Result :=
  match ty with
  | .S8 | .U8 => .ok ((a &&& 0xFF) + (b &&& 0xFF) + ofMember (c.pred &&& 0x4))
  | .S16 | .U16 => .ok ((a &&& 0xFFFF) + (b &&& 0xFFFF) + ofMember (c.pred &&& 0x4))
  | .S32 | .U32 => .ok ((a &&& 0xFFFFFFFF) + (b &&& 0xFFFFFFFF) + ofMember (c.pred &&& 0x4))
  | .S64 | .U64 => .ok (a + b + ofMember (c.pred &&& 0x4))
  | .B8 | .B16 | .B32 | .B64 => .error .typeMismatch

/-- An addition with the destination `$p|$r`. -/
structure WordAdd where
  dst : DoubleDst
  src1 : Reg
  src2 : Reg

section

variable (ty : ScalarType) (w : WordAdd) (regs : Regs)

/-- What `add_impl` and `addp_impl` end with. -/
def finishAdd (data : Value) : Except ExecFault Regs :=
  setOperandValueFlags regs w.dst ty data (addOverflow ty (regs w.src1) (regs w.src2) data)
    (addCarry ty data)

/-- `add_impl` with the destination `$p|$r`. -/
def addDouble : Except ExecFault Regs := do
  let data ← addImpl ty (regs w.src1) (regs w.src2)
  finishAdd ty w regs data

/-- `addp_impl`. -/
def addpDouble (src3 : Reg) : Except ExecFault Regs := do
  let data ← addpImpl ty (regs w.src1) (regs w.src2) (regs src3)
  finishAdd ty w regs data

end

/-! ## Chains -/

/-- The first addition leaves the sources of the second, and the second its result. -/
def WordAdd.Apart (v w : WordAdd) : Prop :=
  v.dst.reg ≠ w.dst.reg ∧ v.dst.reg ≠ w.dst.pred ∧ v.dst.reg ≠ w.src1 ∧ v.dst.reg ≠ w.src2 ∧
    v.dst.pred ≠ w.src1 ∧ v.dst.pred ≠ w.src2

/-- An `add` for the lowest word and an `addp` for each other one. -/
structure AddChain where
  first : WordAdd
  rest : List WordAdd
  apart : (first :: rest).Pairwise WordAdd.Apart

/-- Each `addp` takes the carry of the addition before it. -/
def addpChain (ty : ScalarType) : Reg → List WordAdd → Regs → Except ExecFault Regs
  | _, [], regs => .ok regs
  | carry, w :: ws, regs => do
    let regs ← addpDouble ty w regs carry
    addpChain ty w.dst.pred ws regs

/-- The predicate that is written last. -/
def lastPred : Reg → List WordAdd → Reg
  | carry, [] => carry
  | _, w :: ws => lastPred w.dst.pred ws

/-- The carry flag of a predicate. -/
def carryFlag (x : Value) : Nat := ((x.pred >>> 2) &&& 1).toNat

namespace AddChain

variable (chain : AddChain) (ty : ScalarType) (regs : Regs)

def words : List WordAdd := chain.first :: chain.rest

def exec : Except ExecFault Regs := do
  let regs ← addDouble ty chain.first regs
  addpChain ty chain.first.dst.pred chain.rest regs

/-- The number of which the members `u32` of some registers are the words, lowest first. -/
def value (reg : WordAdd → Reg) : Nat :=
  Nat.ofDigits (2 ^ 32) (chain.words.map fun w => (regs (reg w)).u32.toNat)

/-- The carry flag of the last addition. -/
def carryOut : Nat := carryFlag (regs (lastPred chain.first.dst.pred chain.rest))

end AddChain

/-- The types of 32 bits that `add` takes. -/
def wordType (signed : Bool) : ScalarType := if signed then .S32 else .U32

/-! ## One addition -/

section Step

variable {w : WordAdd} {regs : Regs}

theorem toNat_pred_and (x : Value) : (ofMember (x.pred &&& 0x4)).toNat = 4 * carryFlag x := by
  have hall : ∀ p : BitVec 4, (ofMember (p &&& 0x4)).toNat = 4 * ((p >>> 2) &&& 1).toNat := by decide
  exact hall x.pred

theorem carryFlag_le (x : Value) : carryFlag x ≤ 1 := by
  have hall : ∀ p : BitVec 4, ((p >>> 2) &&& 1).toNat ≤ 1 := by decide
  exact hall x.pred

theorem carryFlag_of_flagBits {x : Value} {zero sign carry overflow : Bool}
    (h : x.pred = flagBits zero sign carry overflow) : carryFlag x = carry.toNat := by
  unfold carryFlag
  rw [h]
  cases zero <;> cases sign <;> cases carry <;> cases overflow <;> rfl

theorem addOverflowAt_eq (sign a b data : Value) :
    ∃ o : Bool, addOverflowAt sign a b data = if o = true then 1 else 0 := by
  unfold addOverflowAt
  split
  · split
    · exact ⟨false, rfl⟩
    · exact ⟨true, rfl⟩
  · exact ⟨false, rfl⟩

theorem addOverflow_eq (ty : ScalarType) (a b data : Value) :
    ∃ o : Bool, addOverflow ty a b data = if o = true then 1 else 0 := by
  cases ty with
  | S8 | S16 | S32 => exact addOverflowAt_eq _ a b data
  | S64 | U8 | U16 | U32 | U64 | B8 | B16 | B32 | B64 => exact ⟨false, rfl⟩

theorem addCarry_eq (signed : Bool) (data : Value) :
    addCarry (wordType signed) data = if data.getLsbD 32 = true then 1 else 0 := by
  have hbit : (data &&& BitVec.twoPow 64 32) >>> 32 = if data.getLsbD 32 = true then 1 else 0 := by
    rw [BitVec.and_twoPow]
    cases data.getLsbD 32 <;> rfl
  cases signed <;> exact hbit

theorem finishAdd_ok (signed : Bool) (w : WordAdd) (regs : Regs) {data : Value} {s : Nat}
    (hs : data.toNat = s) : ∃ regs', finishAdd (wordType signed) w regs data = .ok regs' ∧
      (regs' w.dst.reg).u32.toNat = s % 2 ^ 32 ∧ carryFlag (regs' w.dst.pred) = s / 2 ^ 32 % 2 ∧
      ∀ r, r ≠ w.dst.pred → r ≠ w.dst.reg → regs' r = regs r := by
  have hw : (wordType signed).width ≤ 32 := by cases signed <;> exact le_rfl
  obtain ⟨o, ho⟩ := addOverflow_eq (wordType signed) (regs w.src1) (regs w.src2) data
  unfold finishAdd
  rw [ho, addCarry_eq]
  obtain ⟨regs', hok, hflags, hreg, hframe⟩ :=
    setOperandValueFlags_ok hw regs w.dst data o (data.getLsbD 32)
  refine ⟨regs', hok, ?_, ?_, hframe⟩
  · rw [hreg, BitVec.toNat_setWidth, hs]
  · rw [carryFlag_of_flagBits hflags, BitVec.getLsbD, hs, Nat.toNat_testBit]

theorem toNat_wordSum (a b k : Value) (hk : k.toNat ≤ 4) :
    ((a &&& 0xFFFFFFFF) + (b &&& 0xFFFFFFFF) + k).toNat = a.u32.toNat + b.u32.toNat + k.toNat := by
  have ha : (a &&& 0xFFFFFFFF).toNat = a.u32.toNat :=
    (congrArg BitVec.toNat (and_mask 32 a)).trans (toNat_ofMember (by decide) a.u32)
  have hb : (b &&& 0xFFFFFFFF).toNat = b.u32.toNat :=
    (congrArg BitVec.toNat (and_mask 32 b)).trans (toNat_ofMember (by decide) b.u32)
  have hlta := a.u32.isLt
  have hltb := b.u32.isLt
  rw [BitVec.toNat_add, BitVec.toNat_add, ha, hb]
  omega

/-- The adder that `addp` is: the carry comes in with weight four, and one bit of it goes out. -/
def wordAdder : Adder := fun c x y => ((x + y + 4 * c) % 2 ^ 32, (x + y + 4 * c) / 2 ^ 32 % 2)

/-- A word is added as the adder does it. -/
def Adds (w : WordAdd) (regs regs' : Regs) (c : Nat) : Prop :=
  ((regs' w.dst.reg).u32.toNat, carryFlag (regs' w.dst.pred)) =
      wordAdder c (regs w.src1).u32.toNat (regs w.src2).u32.toNat ∧
    ∀ r, r ≠ w.dst.pred → r ≠ w.dst.reg → regs' r = regs r

theorem addDouble_ok (signed : Bool) (w : WordAdd) (regs : Regs) :
    ∃ regs', addDouble (wordType signed) w regs = .ok regs' ∧ Adds w regs regs' 0 := by
  have hdata : addImpl (wordType signed) (regs w.src1) (regs w.src2) =
      .ok ((regs w.src1 &&& 0xFFFFFFFF) + (regs w.src2 &&& 0xFFFFFFFF)) := by
    cases signed <;> rfl
  have hsum := toNat_wordSum (regs w.src1) (regs w.src2) 0 (by decide)
  rw [add_zero] at hsum
  obtain ⟨regs', hok, hword, hcarry, hframe⟩ := finishAdd_ok signed w regs hsum
  unfold addDouble
  rw [hdata]
  exact ⟨regs', hok, Prod.ext hword hcarry, hframe⟩

theorem addpDouble_ok (signed : Bool) (w : WordAdd) (regs : Regs) (src3 : Reg) :
    ∃ regs', addpDouble (wordType signed) w regs src3 = .ok regs' ∧
      Adds w regs regs' (carryFlag (regs src3)) := by
  have hdata : addpImpl (wordType signed) (regs w.src1) (regs w.src2) (regs src3) =
      .ok ((regs w.src1 &&& 0xFFFFFFFF) + (regs w.src2 &&& 0xFFFFFFFF) +
        ofMember ((regs src3).pred &&& 0x4)) := by
    cases signed <;> rfl
  have hk := toNat_pred_and (regs src3)
  have hle := carryFlag_le (regs src3)
  have hsum := toNat_wordSum (regs w.src1) (regs w.src2) (ofMember ((regs src3).pred &&& 0x4)) (by omega)
  rw [hk] at hsum
  obtain ⟨regs', hok, hword, hcarry, hframe⟩ := finishAdd_ok signed w regs hsum
  unfold addpDouble
  rw [hdata]
  exact ⟨regs', hok, Prod.ext hword hcarry, hframe⟩

end Step

/-! ## A chain of additions -/

section Chain

/-- The words of the sources. -/
def sourceWords (ws : List WordAdd) (regs : Regs) : List (Nat × Nat) :=
  ws.map fun w => ((regs w.src1).u32.toNat, (regs w.src2).u32.toNat)

/-- The words of the results, and the carry flag of the last addition. -/
def resultWords (carry : Reg) (ws : List WordAdd) (regs : Regs) : List Nat × Nat :=
  (ws.map fun w => (regs w.dst.reg).u32.toNat, carryFlag (regs (lastPred carry ws)))

/-- The words are added as a chain of adders does it. -/
def ChainAdds (carry : Reg) (ws : List WordAdd) (regs regs' : Regs) (c : Nat) : Prop :=
  resultWords carry ws regs' = adderChain wordAdder c (sourceWords ws regs) ∧
    ∀ r, (∀ w ∈ ws, r ≠ w.dst.pred ∧ r ≠ w.dst.reg) → regs' r = regs r

theorem Adds.cons {w : WordAdd} {ws : List WordAdd} {carry : Reg} {regs regs₁ regs' : Regs} {c : Nat}
    (hadds : Adds w regs regs₁ c) (hapart : ∀ v ∈ ws, w.Apart v)
    (hrest : ChainAdds w.dst.pred ws regs₁ regs' (carryFlag (regs₁ w.dst.pred))) :
    ChainAdds carry (w :: ws) regs regs' c := by
  obtain ⟨hword, hframe⟩ := hadds
  obtain ⟨hwords, hframes⟩ := hrest
  -- The sources of the other additions are as they were.
  have hsources : sourceWords ws regs₁ = sourceWords ws regs := by
    refine List.map_congr_left fun v hv => ?_
    obtain ⟨-, -, h₁, h₂, h₁', h₂'⟩ := hapart v hv
    rw [hframe v.src1 h₁'.symm h₁.symm, hframe v.src2 h₂'.symm h₂.symm]
  -- The first result is not overwritten.
  have hfirst : regs' w.dst.reg = regs₁ w.dst.reg := by
    refine hframes _ fun v hv => ?_
    obtain ⟨hreg, hpred, -⟩ := hapart v hv
    exact ⟨hpred, hreg⟩
  rw [hsources] at hwords
  constructor
  · show ((regs' w.dst.reg).u32.toNat :: (resultWords w.dst.pred ws regs').1,
      (resultWords w.dst.pred ws regs').2) = _
    rw [hwords, hfirst, ← show _ = carryFlag _ from congrArg Prod.snd hword.symm,
      show (regs₁ w.dst.reg).u32.toNat = _ from congrArg Prod.fst hword]
    rfl
  · intro r hr
    obtain ⟨hpred, hreg⟩ := hr w List.mem_cons_self
    rw [hframes r fun v hv => hr v (List.mem_cons_of_mem w hv), hframe r hpred hreg]

theorem addpChain_ok (signed : Bool) {ws : List WordAdd} (hapart : ws.Pairwise WordAdd.Apart)
    (carry : Reg) (regs : Regs) : ∃ regs', addpChain (wordType signed) carry ws regs = .ok regs' ∧
      ChainAdds carry ws regs regs' (carryFlag (regs carry)) := by
  induction ws generalizing carry regs with
  | nil => exact ⟨regs, rfl, rfl, fun _ _ => rfl⟩
  | cons w ws ih =>
    obtain ⟨hw, hws⟩ := List.pairwise_cons.mp hapart
    obtain ⟨regs₁, hok, hadds⟩ := addpDouble_ok signed w regs carry
    obtain ⟨regs', hok', hrest⟩ := ih hws w.dst.pred regs₁
    refine ⟨regs', ?_, Adds.cons hadds hw hrest⟩
    rw [addpChain, hok, ok_bind, hok']

namespace AddChain

variable (chain : AddChain)

theorem exec_ok (signed : Bool) (regs : Regs) : ∃ regs', chain.exec (wordType signed) regs = .ok regs' ∧
      ChainAdds chain.first.dst.pred chain.words regs regs' 0 := by
  obtain ⟨hfirst, hrest⟩ := List.pairwise_cons.mp chain.apart
  obtain ⟨regs₁, hok, hadds⟩ := addDouble_ok signed chain.first regs
  obtain ⟨regs', hok', hchain⟩ := addpChain_ok signed hrest chain.first.dst.pred regs₁
  refine ⟨regs', ?_, Adds.cons hadds hfirst hchain⟩
  rw [exec, hok, ok_bind, hok']

theorem wordAdder_one_ne (x y : Nat) : (wordAdder 1 x y).1 ≠ (fullAdder (2 ^ 32) 1 x y).1 := by
  show (x + y + 4 * 1) % 2 ^ 32 ≠ (x + y + 1) % 2 ^ 32
  omega

theorem wordAdder_zero {x y : Nat} (hx : x < 2 ^ 32) (hy : y < 2 ^ 32) :
    wordAdder 0 x y = fullAdder (2 ^ 32) 0 x y := by
  unfold wordAdder fullAdder
  exact Prod.ext rfl (by show (x + y) / 2 ^ 32 % 2 = (x + y) / 2 ^ 32; omega)

/-- **Multi-word addition.** An `add` and a chain of `addp` of any length, of signed or unsigned words,
leave the words of the sum and its carry exactly when no word but the last has a carry: `addp` adds a
carry as four. -/
theorem exec_eq_sum_iff (signed : Bool) (regs : Regs) :
    (∃ regs', chain.exec (wordType signed) regs = .ok regs' ∧
      chain.value regs' (·.dst.reg) =
        (chain.value regs (·.src1) + chain.value regs (·.src2)) % 2 ^ (32 * chain.words.length) ∧
      chain.carryOut regs' =
        (chain.value regs (·.src1) + chain.value regs (·.src2)) / 2 ^ (32 * chain.words.length)) ↔
      ∀ w ∈ chain.words.dropLast, (regs w.src1).u32.toNat + (regs w.src2).u32.toNat < 2 ^ 32 := by
  obtain ⟨regs', hok, hwords, -⟩ := chain.exec_ok signed regs
  have hlt : ∀ d ∈ sourceWords chain.words regs, d.1 < 2 ^ 32 ∧ d.2 < 2 ^ 32 := by
    intro d hd
    obtain ⟨w, -, rfl⟩ := List.mem_map.mp hd
    exact ⟨BitVec.isLt _, BitVec.isLt _⟩
  have hlen : (sourceWords chain.words regs).length = chain.words.length := List.length_map _
  have hresult := eq_adderChain_iff (sourceWords chain.words regs)
    (resultWords chain.first.dst.pred chain.words regs').1 (chain.carryOut regs')
    (by decide : 1 < 2 ^ 32) (by rw [hlen]; exact List.length_map _) fun r hr => by
      obtain ⟨w, -, rfl⟩ := List.mem_map.mp hr
      exact BitVec.isLt _
  have hsum : adderChain wordAdder 0 (sourceWords chain.words regs) =
      adderChain (fullAdder (2 ^ 32)) 0 (sourceWords chain.words regs) ↔
        ∀ d ∈ (sourceWords chain.words regs).dropLast, d.1 + d.2 < 2 ^ 32 :=
    adderChain_eq_iff (fun d hd => wordAdder_zero (hlt d hd).1 (hlt d hd).2)
      (fun d _ => wordAdder_one_ne d.1 d.2) hlt
  rw [show ((resultWords chain.first.dst.pred chain.words regs').1, chain.carryOut regs') = _ from hwords,
    hsum, hlen, ← pow_mul] at hresult
  have hfst : (sourceWords chain.words regs).map Prod.fst =
      chain.words.map fun w => (regs w.src1).u32.toNat := List.map_map
  have hsnd : (sourceWords chain.words regs).map Prod.snd =
      chain.words.map fun w => (regs w.src2).u32.toNat := List.map_map
  have hdrop : (sourceWords chain.words regs).dropLast = sourceWords chain.words.dropLast regs :=
    List.map_dropLast.symm
  rw [hfst, hsnd, hdrop, sourceWords, List.forall_mem_map] at hresult
  rw [← hresult]
  constructor
  · rintro ⟨r, hr, h⟩
    obtain rfl : regs' = r := Except.ok.inj (hok.symm.trans hr)
    exact h
  · exact fun h => ⟨regs', hok, h⟩

theorem p0_ne_r0 : "$p0" ≠ "$r0" := by decide

theorem p0_ne_r1 : "$p0" ≠ "$r1" := by decide

/-- `$r1:$r0 = $r3:$r2 + $r5:$r4`. -/
def twoWords : AddChain where
  first := ⟨⟨"$p0", "$r0", p0_ne_r0⟩, "$r2", "$r4"⟩
  rest := [⟨⟨"$p0", "$r1", p0_ne_r1⟩, "$r3", "$r5"⟩]
  apart := by
    refine List.pairwise_cons.mpr ⟨fun w hw => ?_, List.pairwise_singleton _ _⟩
    obtain rfl := List.mem_singleton.mp hw
    unfold WordAdd.Apart
    decide

/-- The largest word and one. -/
def carryOutOfFirst : Regs := fun r => if r = "$r2" then 0xFFFFFFFF else if r = "$r4" then 1 else 0

/-- The second word is four in place of one. -/
theorem exec_twoWords :
    (twoWords.exec .U32 carryOutOfFirst).toOption.map (fun regs' =>
        (twoWords.value regs' (·.dst.reg), ( regs' "$r1").u32)) = some (4 * 2 ^ 32, 4) ∧
      (twoWords.value carryOutOfFirst (·.src1) + twoWords.value carryOutOfFirst (·.src2)) %
        2 ^ (32 * twoWords.words.length) = 2 ^ 32 := by
  decide +kernel

end AddChain

end Chain

end GpgpuSimRuby.Ptx
