import GpgpuSimRuby.Ptx.RegisterUse
import GpgpuSimRuby.Shader.Scoreboard

/-!
# Decoded registers

`pre_decode`: the registers that the scoreboard checks an instruction for. Operands are told apart
by their position, and each kind has places of its own.

* The architectural registers, which only the operand collector uses, are left out.
-/

namespace GpgpuSimRuby.Ptx

open Shader

/-- The register numbers of an `inst_t`. -/
structure DecodedRegs where
  out : Fin 4 → BitVec 31
  ins : Fin 4 → BitVec 31
  pred : BitVec 31
  ar1 : BitVec 31
  ar2 : BitVec 31

/-- `reg_num`, or 0 where there is no symbol. -/
def regNum (s : Option OpSymbol) : BitVec 31 := s.elim 0 OpSymbol.regNum

namespace PtxInst

variable (i : PtxInst)

def hasMemoryRead : Bool :=
  i.opcode = .LD || i.opcode = .LDU || i.opcode = .TEX ||
    i.operands.tail.any OperandInfo.isMemoryOperand2

def hasMemoryWrite : Bool := i.opcode = .ST || i.operands.head?.any OperandInfo.isMemoryOperand2

def accessesMemory : Bool := i.hasMemoryRead || i.hasMemoryWrite

/-- The places of the elements of a vector. -/
def vectorPlaces (o : OperandInfo) (places : Fin 4 → BitVec 31) : Fin 4 → BitVec 31 := fun r =>
  (o.vecSymbol r).elim (places r) OpSymbol.regNum

/-- A destination. -/
def decodeDst (o : OperandInfo) : Fin 4 → BitVec 31 :=
  if o.isReg then fun r => if r.val = 0 then regNum o.getSymbol else 0
  else if o.isVector then vectorPlaces o fun _ => 0
  else fun _ => 0

/-- A scalar source goes to the place `m`, which is one of the first three. -/
def scalarPlace (m : Nat) (n : BitVec 31) (ins : Fin 4 → BitVec 31) : Fin 4 → BitVec 31 := fun r =>
  if r.val = m ∧ m < 3 then n else ins r

/-- The loop over the sources. -/
def decodeSources : List OperandInfo → Nat → (Fin 4 → BitVec 31) → Fin 4 → BitVec 31
  | [], _, ins => ins
  | o :: os, m, ins =>
    if o.isReg then decodeSources os (m + 1) (scalarPlace m (regNum o.getSymbol) ins)
    else if o.isVector then decodeSources os (m + 4) (vectorPlaces o ins)
    else decodeSources os m ins

/-- A memory operand sets the places of its address registers. -/
def decodeAddress (o : OperandInfo) (ar : BitVec 31 × BitVec 31) : BitVec 31 × BitVec 31 :=
  if o.isMemoryOperand then
    if o.isMemoryOperand2 then
      if o.doubleOperandType = 0 ∨ o.doubleOperandType = 3 then (regNum o.getSymbol, ar.2)
      else if o.doubleOperandType = 1 ∨ o.doubleOperandType = 2 then
        (regNum (o.vecSymbol 0), regNum (o.vecSymbol 1))
      else ar
    else if o.immediateAddress then ar
    else if o.getSymbol.any OpSymbol.isReg then (regNum o.getSymbol, ar.2)
    else ar
  else ar

/-- The loop over the memory operands. -/
def decodeAddresses : List OperandInfo → BitVec 31 × BitVec 31 → BitVec 31 × BitVec 31
  | [], ar => ar
  | o :: os, ar => decodeAddresses os (decodeAddress o ar)

def sources : List OperandInfo := if i.opcode.hasDst then i.operands.tail else i.operands

/-- `pre_decode`. -/
def preDecode : DecodedRegs :=
  let ar := if i.accessesMemory then decodeAddresses i.operands (0, 0) else (0, 0)
  { out := if i.opcode.hasDst then i.operands.head?.elim (fun _ => 0) decodeDst else fun _ => 0
    ins := decodeSources i.sources 0 fun _ => 0
    pred := regNum i.pred
    ar1 := ar.1
    ar2 := ar.2 }

/-! ## Places

What stands at the places in the end, by the shape of the operands alone. -/

/-- The length of the longest vector. -/
def vectorLength : List OperandInfo → Nat
  | [] => 0
  | o :: os => if !o.isReg && o.isVector then max o.getVectNelem (vectorLength os) else vectorLength os

/-- The sources that keep their places: of the first three only scalars, behind a vector none, and
nothing that a later vector covers. -/
def keptSources : List OperandInfo → Nat → List OpSymbol
  | [], _ => []
  | o :: os, m =>
    if o.isReg then
      (if m < 3 ∧ vectorLength os ≤ m then o.getSymbol.toList else []) ++ keptSources os (m + 1)
    else if o.isVector then (o.elements.take 4).drop (vectorLength os) ++ keptSources os (m + 4)
    else keptSources os m

/-- The first address register of a memory operand, if the operand sets the place of it. -/
def firstAddress (o : OperandInfo) : Option (Option OpSymbol) :=
  if o.isMemoryOperand then
    if o.isMemoryOperand2 then
      if o.doubleOperandType = 0 ∨ o.doubleOperandType = 3 then some o.getSymbol
      else if o.doubleOperandType = 1 ∨ o.doubleOperandType = 2 then some (o.vecSymbol 0)
      else none
    else if o.immediateAddress then none
    else if o.getSymbol.any OpSymbol.isReg then some o.getSymbol
    else none
  else none

/-- The second one, of an operand with two. -/
def secondAddress (o : OperandInfo) : Option (Option OpSymbol) :=
  if o.isMemoryOperand then
    if o.isMemoryOperand2 then
      if o.doubleOperandType = 1 ∨ o.doubleOperandType = 2 then some (o.vecSymbol 1) else none
    else none
  else none

/-- The registers of the last memory operands. -/
def keptAddresses (os : List OperandInfo) : List OpSymbol :=
  ((os.filterMap firstAddress).getLast?.join).toList ++
    ((os.filterMap secondAddress).getLast?.join).toList

/-- The registers that have a place among the inputs. -/
def placedIns : List OpSymbol :=
  keptSources i.sources 0 ++ i.pred.toList ++ if i.accessesMemory then keptAddresses i.operands else []

/-- The registers of a destination. -/
def dstRegs (o : OperandInfo) : List OpSymbol :=
  if o.isReg then o.getSymbol.toList else if o.isVector then o.elements.take 4 else []

/-- The registers that have a place among the outputs. -/
def placedOuts : List OpSymbol := if i.opcode.hasDst then i.operands.head?.elim [] dstRegs else []

section Lemmas

variable {o : OperandInfo} {os : List OperandInfo} {m k : Nat} {n : BitVec 31} {ins : Fin 4 → BitVec 31}

theorem regNum_eq_iff {s : Option OpSymbol} (hn : n ≠ 0) :
    regNum s = n ↔ ∃ t ∈ s.toList, t.regNum = n := by
  cases s with
  | none =>
    constructor
    · intro h
      exact absurd h.symm hn
    · rintro ⟨t, ht, -⟩
      cases ht
  | some t => simp [regNum]

theorem mem_take_drop {l : List OpSymbol} {s : OpSymbol} :
    s ∈ (l.take 4).drop k ↔ ∃ r : Fin 4, k ≤ r.val ∧ l[r.val]? = some s := by
  rw [List.mem_iff_getElem?]
  constructor
  · rintro ⟨j, hj⟩
    rw [List.getElem?_drop, List.getElem?_take] at hj
    split at hj
    case isTrue hlt => exact ⟨⟨k + j, hlt⟩, Nat.le_add_right k j, hj⟩
    case isFalse => cases hj
  · rintro ⟨r, hk, hr⟩
    refine ⟨r.val - k, ?_⟩
    rw [List.getElem?_drop, List.getElem?_take, if_pos (by omega), Nat.add_sub_cancel' hk, hr]

theorem exists_vectorPlaces : (∃ r : Fin 4, vectorPlaces o ins r = n ∧ k ≤ r.val) ↔
    (∃ s ∈ (o.elements.take 4).drop k, s.regNum = n) ∨
      ∃ r : Fin 4, ins r = n ∧ max o.getVectNelem k ≤ r.val := by
  constructor
  · rintro ⟨r, hr, hk⟩
    unfold vectorPlaces OperandInfo.vecSymbol at hr
    cases hs : o.elements[r.val]? with
    | none =>
      rw [hs] at hr
      exact .inr ⟨r, hr, max_le (List.getElem?_eq_none_iff.mp hs) hk⟩
    | some s =>
      rw [hs] at hr
      exact .inl ⟨s, mem_take_drop.mpr ⟨r, hk, hs⟩, hr⟩
  · rintro (⟨s, hs, hn⟩ | ⟨r, hr, hle⟩)
    · obtain ⟨r, hk, hs⟩ := mem_take_drop.mp hs
      refine ⟨r, ?_, hk⟩
      unfold vectorPlaces OperandInfo.vecSymbol
      rw [hs]
      exact hn
    · obtain ⟨hlen, hk⟩ := max_le_iff.mp hle
      refine ⟨r, ?_, hk⟩
      unfold vectorPlaces OperandInfo.vecSymbol
      rw [List.getElem?_eq_none_iff.mpr hlen]
      exact hr

theorem exists_scalarPlace {x : BitVec 31} (hn : n ≠ 0) (hfree : ∀ r : Fin 4, m ≤ r.val → ins r = 0) :
    (∃ r : Fin 4, scalarPlace m x ins r = n ∧ k ≤ r.val) ↔
      (m < 3 ∧ k ≤ m) ∧ x = n ∨ ∃ r : Fin 4, ins r = n ∧ k ≤ r.val := by
  constructor
  · rintro ⟨r, hr, hk⟩
    unfold scalarPlace at hr
    split at hr
    case isTrue h => exact .inl ⟨⟨h.2, h.1 ▸ hk⟩, hr⟩
    case isFalse => exact .inr ⟨r, hr, hk⟩
  · rintro (⟨⟨hm, hk⟩, hx⟩ | ⟨r, hr, hk⟩)
    · refine ⟨⟨m, by omega⟩, ?_, hk⟩
      unfold scalarPlace
      rw [if_pos ⟨rfl, hm⟩, hx]
    · refine ⟨r, ?_, hk⟩
      unfold scalarPlace
      rw [if_neg, hr]
      rintro ⟨hrm, -⟩
      exact hn (hr.symm.trans (hfree r hrm.ge))

theorem exists_decodeSources (hn : n ≠ 0) (hfree : ∀ r : Fin 4, m ≤ r.val → ins r = 0) :
    (∃ r, decodeSources os m ins r = n) ↔
      (∃ s ∈ keptSources os m, s.regNum = n) ∨ ∃ r : Fin 4, ins r = n ∧ vectorLength os ≤ r.val := by
  induction os generalizing m ins with
  | nil =>
    unfold decodeSources keptSources vectorLength
    simp
  | cons o os ih =>
    rw [decodeSources, keptSources]
    by_cases hreg : o.isReg
    · -- a scalar
      have hlength : vectorLength (o :: os) = vectorLength os := by simp [vectorLength, hreg]
      have hfree' : ∀ r : Fin 4, m + 1 ≤ r.val → scalarPlace m (regNum o.getSymbol) ins r = 0 := by
        intro r hr
        unfold scalarPlace
        rw [if_neg (by omega)]
        exact hfree r (by omega)
      rw [if_pos hreg, if_pos hreg, ih hfree', exists_scalarPlace hn hfree, hlength]
      by_cases hplace : m < 3 ∧ vectorLength os ≤ m
      · rw [if_pos hplace, and_iff_right hplace, regNum_eq_iff hn]
        simp only [List.mem_append, or_and_right, exists_or]
        exact or_left_comm.trans or_assoc.symm
      · rw [if_neg hplace, List.nil_append, iff_false_intro hplace, false_and, false_or]
    rw [if_neg hreg, if_neg hreg]
    by_cases hvec : o.isVector
    · -- a vector
      have hlength : vectorLength (o :: os) = max o.getVectNelem (vectorLength os) := by
        simp [vectorLength, hreg, hvec]
      have hfree' : ∀ r : Fin 4, m + 4 ≤ r.val → vectorPlaces o ins r = 0 := by
        intro r hr
        exact absurd r.isLt (by omega)
      rw [if_pos hvec, if_pos hvec, ih hfree', exists_vectorPlaces, hlength]
      simp only [List.mem_append, or_and_right, exists_or]
      exact or_left_comm.trans or_assoc.symm
    · have hlength : vectorLength (o :: os) = vectorLength os := by simp [vectorLength, hvec]
      rw [if_neg hvec, if_neg hvec, hlength]
      exact ih hfree

theorem exists_decodeDst (hn : n ≠ 0) : (∃ r, decodeDst o r = n) ↔ ∃ s ∈ dstRegs o, s.regNum = n := by
  unfold decodeDst dstRegs
  split
  case isTrue =>
    rw [← regNum_eq_iff hn]
    constructor
    · rintro ⟨r, hr⟩
      dsimp only at hr
      split at hr
      case isTrue => exact hr
      case isFalse => exact absurd hr.symm hn
    · intro h
      exact ⟨0, h⟩
  case isFalse =>
  split
  case isTrue =>
    have h : (∃ r : Fin 4, vectorPlaces o (fun _ => 0) r = n ∧ 0 ≤ r.val) ↔ _ := exists_vectorPlaces
    simp only [Nat.zero_le, and_true, List.drop_zero] at h
    rw [h, or_iff_left]
    rintro ⟨_, h0, -⟩
    exact hn h0.symm
  case isFalse =>
    constructor
    · rintro ⟨_, h0⟩
      exact absurd h0.symm hn
    · rintro ⟨s, hs, -⟩
      cases hs

theorem decodeAddress_eq (ar : BitVec 31 × BitVec 31) : decodeAddress o ar =
    ((firstAddress o).elim ar.1 regNum, (secondAddress o).elim ar.2 regNum) := by
  unfold decodeAddress firstAddress secondAddress
  by_cases hmem : o.isMemoryOperand
  · by_cases hmem2 : o.isMemoryOperand2
    · by_cases hone : o.doubleOperandType = 0 ∨ o.doubleOperandType = 3
      · have htwo : ¬ (o.doubleOperandType = 1 ∨ o.doubleOperandType = 2) := by omega
        simp only [hmem, hmem2, hone, htwo, if_true, if_false, Option.elim_some, Option.elim_none]
      · simp only [hmem, hmem2, hone, if_true, if_false]
        split <;> rfl
    · simp only [hmem, hmem2, if_true, Bool.false_eq_true, if_false, Option.elim_none]
      split_ifs <;> rfl
  · simp only [hmem, Bool.false_eq_true, if_false, Option.elim_none]

theorem decodeAddresses_eq (ar : BitVec 31 × BitVec 31) : decodeAddresses os ar =
    ((os.filterMap firstAddress).getLast?.elim ar.1 regNum,
      (os.filterMap secondAddress).getLast?.elim ar.2 regNum) := by
  induction os generalizing ar with
  | nil => rfl
  | cons o os ih =>
    have hstep : ∀ (f : OperandInfo → Option (Option OpSymbol)) (x : BitVec 31),
        ((o :: os).filterMap f).getLast?.elim x regNum =
          (os.filterMap f).getLast?.elim ((f o).elim x regNum) regNum := by
      intro f x
      rw [List.filterMap_cons]
      cases hf : f o with
      | none => rfl
      | some s =>
        dsimp only
        rw [List.getLast?_cons]
        cases (os.filterMap f).getLast? with
        | none => rfl
        | some t => rfl
    rw [decodeAddresses, ih, decodeAddress_eq, hstep, hstep]

theorem elim_eq_join (s : Option (Option OpSymbol)) : s.elim 0 regNum = regNum s.join := by
  cases s with
  | none => rfl
  | some t => rfl

end Lemmas

end PtxInst

namespace DecodedRegs

variable (d : DecodedRegs)

/-- `in[0..3]`, `pred`, `ar1` and `ar2`. -/
def inputs : List (BitVec 31) := (List.finRange 4).map d.ins ++ [d.pred, d.ar1, d.ar2]

/-- `out[0..3]`. -/
def outputs : List (BitVec 31) := (List.finRange 4).map d.out

/-- The instruction as the scoreboard sees it. -/
def warpInst {nWarps : Nat} (warpId : Fin nWarps) (isLoad : Bool) (space : MemorySpace) :
    Scoreboard.WarpInst nWarps where
  warpId
  out r := (d.out r).setWidth 32
  ins r := (d.ins r).setWidth 32
  pred := d.pred.setWidth 32
  ar1 := d.ar1.setWidth 32
  ar2 := d.ar2.setWidth 32
  isLoad
  space

end DecodedRegs

namespace PtxInst

variable {i : PtxInst} {n : BitVec 31}

theorem mem_inputs (hn : n ≠ 0) : n ∈ i.preDecode.inputs ↔ ∃ s ∈ i.placedIns, s.regNum = n := by
  have hsources : (∃ r, decodeSources i.sources 0 (fun _ => 0) r = n) ↔
      ∃ s ∈ keptSources i.sources 0, s.regNum = n := by
    rw [exists_decodeSources hn fun _ _ => rfl, or_iff_left]
    rintro ⟨_, h0, -⟩
    exact hn h0.symm
  have haddresses : (n = i.preDecode.ar1 ∨ n = i.preDecode.ar2) ↔
      ∃ s ∈ (if i.accessesMemory then keptAddresses i.operands else []), s.regNum = n := by
    unfold preDecode
    dsimp only
    split
    case isTrue =>
      rw [decodeAddresses_eq, elim_eq_join, elim_eq_join, eq_comm, regNum_eq_iff hn, @eq_comm _ n,
        regNum_eq_iff hn, keptAddresses]
      simp only [List.mem_append, or_and_right, exists_or]
    case isFalse => simpa using hn
  have hpred : n = i.preDecode.pred ↔ ∃ s ∈ i.pred.toList, s.regNum = n := by
    rw [eq_comm]
    exact regNum_eq_iff hn
  have hins : n ∈ (List.finRange 4).map i.preDecode.ins ↔
      ∃ r, decodeSources i.sources 0 (fun _ => 0) r = n := by
    simp [preDecode]
  unfold DecodedRegs.inputs placedIns
  rw [List.mem_append, List.mem_cons, List.mem_cons, List.mem_singleton, hins, hsources, hpred,
    haddresses]
  simp only [List.mem_append, or_and_right, exists_or, or_assoc]

theorem mem_outputs (hn : n ≠ 0) : n ∈ i.preDecode.outputs ↔ ∃ s ∈ i.placedOuts, s.regNum = n := by
  have houts : n ∈ i.preDecode.outputs ↔ ∃ r, i.preDecode.out r = n := by
    simp [DecodedRegs.outputs]
  rw [houts]
  unfold preDecode placedOuts
  dsimp only
  split
  case isTrue =>
    cases i.operands.head? with
    | none => simpa using hn.symm
    | some o => exact exists_decodeDst hn
  case isFalse => simpa using hn.symm

/-! ## Hazards -/

variable (i) (returnVar : Option (OpSymbol × OpSymbol))

/-- The registers that the instruction may read are among the inputs and those that it may write
among the outputs, and the scoreboard sees every hazard with an instruction that has reserved one of
them. -/
structure DecodesAll : Prop where
  reads : ∀ s ∈ (i.ptxExecInst returnVar).reads, s.regNum ≠ 0 → s.regNum ∈ i.preDecode.inputs
  writes : ∀ s ∈ (i.ptxExecInst returnVar).writes, s.regNum ≠ 0 → s.regNum ∈ i.preDecode.outputs
  detects : ∀ (nWarps : Nat) (board : Scoreboard.Tables nWarps) (wid : Fin nWarps) (isLoad : Bool)
    (space : MemorySpace), ∀ s ∈ (i.ptxExecInst returnVar).reads ++ (i.ptxExecInst returnVar).writes,
      s.regNum ≠ 0 → s.regNum.setWidth 32 ∈ board.regTable wid →
        board.checkCollision wid (i.preDecode.warpInst wid isLoad space) = true

/-- Every register that the instruction may read is also one of its guard, of the sources that keep
their places or of the last memory operand, and every register that it may write is one of its
destination. -/
structure HasPlaces : Prop where
  reads : ∀ s ∈ (i.ptxExecInst returnVar).reads, s.regNum ≠ 0 → ∃ t ∈ i.placedIns, t.regNum = s.regNum
  writes : ∀ s ∈ (i.ptxExecInst returnVar).writes, s.regNum ≠ 0 → ∃ t ∈ i.placedOuts,
    t.regNum = s.regNum

variable {i}

theorem setWidth_pos {n : BitVec 31} (hn : n ≠ 0) : 0 < n.setWidth 32 ∧ 0 < (n.setWidth 32).toInt := by
  have hlt := n.isLt
  have hpos : 0 < n.toNat := Nat.pos_of_ne_zero fun h => hn (BitVec.eq_of_toNat_eq h)
  have hwidth : (n.setWidth 32).toNat = n.toNat := by
    rw [BitVec.toNat_setWidth]
    exact Nat.mod_eq_of_lt (by omega)
  constructor
  · rw [BitVec.lt_def, hwidth]
    exact hpos
  · rw [BitVec.toInt_eq_toNat_of_lt (by rw [hwidth]; omega), hwidth]
    exact Int.natCast_pos.mpr hpos

theorem mem_regs {nWarps : Nat} (wid : Fin nWarps) (isLoad : Bool) (space : MemorySpace)
    {d : DecodedRegs}
    {n : BitVec 31} (hn : n ≠ 0) (h : n ∈ d.inputs ++ d.outputs) :
    n.setWidth 32 ∈ (d.warpInst wid isLoad space).regs := by
  obtain ⟨hpos, hint⟩ := setWidth_pos hn
  unfold Scoreboard.WarpInst.regs Scoreboard.WarpInst.outs Scoreboard.WarpInst.places
  rw [List.mem_append, List.mem_append]
  rcases List.mem_append.mp h with hin | hout
  · rcases List.mem_append.mp hin with hin | haddress
    · left
      right
      obtain ⟨r, hr, hrn⟩ := List.mem_map.mp hin
      apply List.mem_filter.mpr
      exact ⟨List.mem_map.mpr ⟨r, hr, congrArg (BitVec.setWidth 32) hrn⟩, decide_eq_true hpos⟩
    · right
      apply List.mem_filter.mpr
      refine ⟨?_, decide_eq_true hint⟩
      rw [List.mem_cons, List.mem_cons, List.mem_singleton] at haddress ⊢
      rcases haddress with rfl | rfl | rfl
      · exact .inl rfl
      · exact .inr (.inl rfl)
      · exact .inr (.inr rfl)
  · left
    left
    obtain ⟨r, hr, hrn⟩ := List.mem_map.mp hout
    have hrn' : (d.warpInst wid isLoad space).out r = n.setWidth 32 := congrArg (BitVec.setWidth 32) hrn
    apply List.mem_map.mpr
    refine ⟨r, List.mem_filter.mpr ⟨hr, ?_⟩, hrn'⟩
    rw [hrn']
    exact decide_eq_true hpos

theorem checkCollision_of_mem {nWarps : Nat} {board : Scoreboard.Tables nWarps} {wid : Fin nWarps}
    (isLoad : Bool)
    (space : MemorySpace) {d : DecodedRegs} {n : BitVec 31} (hn : n ≠ 0) (h : n ∈ d.inputs ++ d.outputs)
    (hreserved : n.setWidth 32 ∈ board.regTable wid) :
    board.checkCollision wid (d.warpInst wid isLoad space) = true := by
  unfold Scoreboard.Tables.checkCollision
  rw [List.any_eq_true]
  exact ⟨n.setWidth 32, mem_regs wid isLoad space hn h, decide_eq_true hreserved⟩

/-- **Every register is decoded, and every hazard seen, exactly if every register has a place**: a
register is read as the guard, as one of the first three sources or an element of a vector that no
later vector covers, or as an address of the last memory operand of an instruction that `pre_decode`
takes for one that accesses memory; and it is written through the first operand of an instruction
that the table of the opcodes gives a destination. -/
theorem decodesAll_iff (i : PtxInst) (returnVar : Option (OpSymbol × OpSymbol)) :
    i.DecodesAll returnVar ↔ i.HasPlaces returnVar := by
  constructor
  · intro h
    constructor
    · intro s hs hn
      exact (mem_inputs hn).mp (h.reads s hs hn)
    · intro s hs hn
      exact (mem_outputs hn).mp (h.writes s hs hn)
  · intro h
    have hreads : ∀ s ∈ (i.ptxExecInst returnVar).reads, s.regNum ≠ 0 → s.regNum ∈ i.preDecode.inputs :=
      fun s hs hn => (mem_inputs hn).mpr (h.reads s hs hn)
    have hwrites :
        ∀ s ∈ (i.ptxExecInst returnVar).writes, s.regNum ≠ 0 → s.regNum ∈ i.preDecode.outputs :=
      fun s hs hn => (mem_outputs hn).mpr (h.writes s hs hn)
    refine ⟨hreads, hwrites, fun nWarps board wid isLoad space s hs hn hreserved => ?_⟩
    apply checkCollision_of_mem isLoad space hn _ hreserved
    rcases List.mem_append.mp hs with hs | hs
    · exact List.mem_append_left _ (hreads s hs hn)
    · exact List.mem_append_right _ (hwrites s hs hn)

instance : Decidable (i.HasPlaces returnVar) :=
  decidable_of_iff ((∀ s ∈ (i.ptxExecInst returnVar).reads,
      s.regNum ≠ 0 → ∃ t ∈ i.placedIns, t.regNum = s.regNum) ∧
      ∀ s ∈ (i.ptxExecInst returnVar).writes, s.regNum ≠ 0 → ∃ t ∈ i.placedOuts, t.regNum = s.regNum)
    ⟨fun h => ⟨h.1, h.2⟩, fun h => ⟨h.reads, h.writes⟩⟩

/-- `%r<n>`. -/
def register (n : BitVec 31) : OpSymbol := ⟨"%r" ++ toString n.toNat, .variable .reg, n, 4⟩

/-- An instruction on scalars, of a type that one register holds. -/
def scalarInst (opcode : PtxOp) (operands : List OperandInfo) : PtxInst where
  opcode
  operands
  pred := none
  type := .single
  type2 := .single
  vectorSpec := none
  isCas := false
  isBallot := false
  hasReturn := false
  callee := ⟨false, [], false⟩

/-- A load has places for all of its registers, its guard and its address among them. -/
example : { scalarInst .LD [.ofSymbol (register 1), .memory (register 2)] with
    pred := some (register 3) }.HasPlaces none := by decide

/-- `atom.global.add.u32 %r1, [%r2], %r3`. -/
def atomAdd : PtxInst :=
  scalarInst .ATOM [.ofSymbol (register 1), .memory (register 2), .ofSymbol (register 3)]

/-- The address of an atomic instruction is read but not decoded. -/
theorem not_decodesAll_atom : ¬ ∀ i returnVar, DecodesAll i returnVar := by
  intro h
  have hread := (h atomAdd none).reads (register 2) (by decide) (by decide)
  exact absurd hread (by decide)

end PtxInst

end GpgpuSimRuby.Ptx
