import GpgpuSimRuby.Ptx.BlockEdges
import GpgpuSimRuby.Ptx.Postdominators

/-!
# Reconvergence points

The table from branch to reconvergence point of a function, which `get_reconvergence_pairs` fills from
the basic blocks, and `get_converge_point`, which looks a PC up in it. The number of entries is kept in
the function and the table in `g_rpts`, both from the first look-up on.

A block has an entry if it ends in a `BRA`, with a guard or without one.
-/

open Function (update update_self update_of_ne)

namespace GpgpuSimRuby.Ptx

open Library

/-- A reconvergence PC. `RECONVERGE_RETURN_PC` and `NO_BRANCH_DIVERGENCE` are the two last addresses,
where no code is. -/
inductive ConvergePoint where
  | noBranchDivergence
  | returnPC
  | pc (n : Nat)
  deriving DecidableEq, Repr

/-- A `gpgpu_recon_t`. -/
structure ReconPoint where
  sourcePC : Nat
  targetPC : ConvergePoint
  sourceInst : Nat
  targetInst : Option Nat
  deriving DecidableEq, Repr

/-- The assertion, and what would go wrong in the arrays and pointers. -/
inductive ReconFault where
  | pcToFinfo
  | wildPointer
  | heapOverflow
  deriving DecidableEq, Repr

/-- A function after the analysis: its code, where that has been put, its basic blocks and their
`immediatepostdominator_id`s. -/
structure FunctionInfo where
  code : Function
  assembled : Assembled
  basicBlocks : BasicBlocks
  immediatepostdominatorId : Nat → Option Nat

namespace FunctionInfo

variable (fn : FunctionInfo)

/-- `get_PC` of the instruction at a position. -/
def getPC (p : Nat) : Except ReconFault Nat :=
  match fn.assembled.placed p with
  | some (pc, _) => .ok pc
  | none => .error .wildPointer

/-- The block ends in a `BRA`. -/
def EndsInBra (blk : BasicBlock) : Prop :=
  (fn.code.inst? blk.ptxEnd).map Inst.opcode = some .BRA

instance (blk : BasicBlock) : Decidable (fn.EndsInBra blk) := inferInstanceAs (Decidable (_ = _))

/-- `get_num_reconvergence_pairs`, where `num` is `num_reconvergence_pairs`. -/
def getNumReconvergencePairs (num : Nat) : Nat :=
  if num = 0 then fn.basicBlocks.blocks.countP (fn.EndsInBra ·) else num

/-- `target_pc` and `target_inst` of the block with number `b`. The exit block has no `ptx_begin`. -/
def target (b : Nat) : Except ReconFault (ConvergePoint × Option Nat) :=
  match fn.immediatepostdominatorId b with
  | none => .error .wildPointer
  | some d =>
    match fn.basicBlocks.blocks[d]? with
    | some blk => do
      let pc ← fn.getPC blk.ptxBegin
      .ok (.pc pc, some blk.ptxBegin)
    | none => if d = fn.basicBlocks.exitId then .ok (.returnPC, none) else .error .wildPointer

/-- The entry of a block. -/
def reconPoint (b : Nat) (blk : BasicBlock) : Except ReconFault ReconPoint := do
  let sourcePC ← fn.getPC blk.ptxEnd
  let target ← fn.target b
  .ok ⟨sourcePC, target.1, blk.ptxEnd, target.2⟩

/-- The loop of `get_reconvergence_pairs` from block `b` on. -/
def reconPoints : Nat → List BasicBlock → Except ReconFault (List ReconPoint)
  | _, [] => .ok []
  | b, blk :: blocks =>
    if fn.EndsInBra blk then do
      let point ← fn.reconPoint b blk
      let rest ← reconPoints (b + 1) blocks
      .ok (point :: rest)
    else reconPoints (b + 1) blocks

/-- `get_reconvergence_pairs` into an array of `num` entries. -/
def getReconvergencePairs (num : Nat) : Except ReconFault (List ReconPoint) := do
  let points ← fn.reconPoints 0 fn.basicBlocks.blocks
  assert (points.length ≤ num) .heapOverflow
  .ok points

end FunctionInfo

/-- What the look-ups keep: `num_reconvergence_pairs` of the functions, and `g_rpts`. -/
structure ReconTables where
  numReconvergencePairs : FuncId → Nat
  rpts : FuncId → Option (List ReconPoint)

def ReconTables.init : ReconTables := ⟨fun _ => 0, fun _ => none⟩

/-- `find_reconvergence_points`. It prints the source instruction of every entry of the array. -/
def findReconvergencePoints (fn : FunctionInfo) (fid : FuncId) (t : ReconTables) :
    Except ReconFault (List ReconPoint × ReconTables) :=
  match t.rpts fid with
  | some points => .ok (points, t)
  | none => do
    let num := fn.getNumReconvergencePairs (t.numReconvergencePairs fid)
    let points ← fn.getReconvergencePairs num
    assert (num ≤ points.length) .wildPointer
    .ok (points, {
      numReconvergencePairs := update t.numReconvergencePairs fid num
      rpts := update t.rpts fid (some points) })

/-- The search of `get_converge_point` in the entries of a function. -/
def lookUp (pc : Nat) (points : List ReconPoint) : ConvergePoint :=
  match points.find? (·.sourcePC = pc) with
  | some point => point.targetPC
  | none => .noBranchDivergence

/-- `get_converge_point`. -/
def getConvergePoint (finfo : Nat → Option FuncId) (infos : FuncId → FunctionInfo) (pc : Nat)
    (t : ReconTables) : Except ReconFault (ConvergePoint × ReconTables) :=
  match finfo pc with
  | none => .error .pcToFinfo
  | some fid => do
    let found ← findReconvergencePoints (infos fid) fid t
    .ok (lookUp pc found.1, found.2)

/-- The tables after any number of look-ups. -/
inductive LookedUp (finfo : Nat → Option FuncId) (infos : FuncId → FunctionInfo) : ReconTables → Prop
  | init : LookedUp finfo infos .init
  | look {t pc r} : LookedUp finfo infos t → getConvergePoint finfo infos pc t = .ok r →
      LookedUp finfo infos r.2

/-! ## The table -/

section Table

variable {fn : FunctionInfo} {fid : FuncId} {t : ReconTables} {b : Nat} {blocks : List BasicBlock}
  {points : List ReconPoint} {point : ReconPoint}

theorem length_reconPoints (h : fn.reconPoints b blocks = .ok points) :
    points.length = blocks.countP (fn.EndsInBra ·) := by
  induction blocks generalizing b points with
  | nil =>
    obtain rfl := Except.ok.inj h
    rfl
  | cons blk blocks ih =>
    unfold FunctionInfo.reconPoints at h
    by_cases hbra : fn.EndsInBra blk
    · rw [if_pos hbra] at h
      obtain ⟨x, -, h⟩ := bind_eq_ok.mp h
      obtain ⟨rest, hrest, h⟩ := bind_eq_ok.mp h
      obtain rfl := Except.ok.inj h
      rw [List.countP_cons_of_pos (by simpa using hbra), List.length_cons, ih hrest]
    · rw [if_neg hbra] at h
      rw [List.countP_cons_of_neg (by simpa using hbra), ih h]

theorem mem_reconPoints (h : fn.reconPoints b blocks = .ok points) :
    point ∈ points ↔ ∃ (k : Nat) (blk : BasicBlock), blocks[k]? = some blk ∧ fn.EndsInBra blk ∧
      fn.reconPoint (b + k) blk = .ok point := by
  induction blocks generalizing b points with
  | nil =>
    obtain rfl := Except.ok.inj h
    simp
  | cons blk blocks ih =>
    have hshift : ∀ rest, fn.reconPoints (b + 1) blocks = .ok rest → (point ∈ rest ↔
        ∃ (k : Nat) (blk' : BasicBlock), (blk :: blocks)[k + 1]? = some blk' ∧ fn.EndsInBra blk' ∧
          fn.reconPoint (b + (k + 1)) blk' = .ok point) := by
      intro rest hrest
      rw [ih hrest]
      simp only [List.getElem?_cons_succ, show ∀ k, b + 1 + k = b + (k + 1) by omega]
    unfold FunctionInfo.reconPoints at h
    by_cases hbra : fn.EndsInBra blk
    · rw [if_pos hbra] at h
      obtain ⟨x, hx, h⟩ := bind_eq_ok.mp h
      obtain ⟨rest, hrest, h⟩ := bind_eq_ok.mp h
      obtain rfl := Except.ok.inj h
      rw [List.mem_cons, hshift rest hrest]
      constructor
      · rintro (rfl | ⟨k, hk⟩)
        · exact ⟨0, blk, rfl, hbra, hx⟩
        · exact ⟨k + 1, hk⟩
      · rintro ⟨k, blk', hk, hbra', hpoint⟩
        cases k with
        | zero =>
          obtain rfl := Option.some.inj hk
          exact .inl (Except.ok.inj (hpoint.symm.trans hx))
        | succ k => exact .inr ⟨k, blk', hk, hbra', hpoint⟩
    · rw [if_neg hbra] at h
      rw [hshift points h]
      constructor
      · rintro ⟨k, hk⟩
        exact ⟨k + 1, hk⟩
      · rintro ⟨k, blk', hk, hbra', hpoint⟩
        cases k with
        | zero =>
          obtain rfl := Option.some.inj hk
          exact absurd hbra' hbra
        | succ k => exact ⟨k, blk', hk, hbra', hpoint⟩

theorem exists_reconPoints (h : ∀ (k : Nat) (blk : BasicBlock), blocks[k]? = some blk →
    fn.EndsInBra blk → ∃ point, fn.reconPoint (b + k) blk = .ok point) :
    ∃ points, fn.reconPoints b blocks = .ok points := by
  induction blocks generalizing b with
  | nil => exact ⟨[], rfl⟩
  | cons blk blocks ih =>
    obtain ⟨rest, hrest⟩ := ih (b := b + 1) fun k blk' hk hbra => by
      rw [show b + 1 + k = b + (k + 1) by omega]
      exact h (k + 1) blk' hk hbra
    unfold FunctionInfo.reconPoints
    by_cases hbra : fn.EndsInBra blk
    · obtain ⟨point, hpoint⟩ := h 0 blk rfl hbra
      rw [Nat.add_zero] at hpoint
      rw [if_pos hbra, hpoint, ok_bind, hrest, ok_bind]
      exact ⟨_, rfl⟩
    · rw [if_neg hbra]
      exact ⟨rest, hrest⟩

/-- What the look-ups have kept is right. -/
def ReconTables.Ok (infos : FuncId → FunctionInfo) (t : ReconTables) : Prop :=
  ∀ fid, (t.numReconvergencePairs fid = 0 ∨ t.numReconvergencePairs fid =
      (infos fid).basicBlocks.blocks.countP ((infos fid).EndsInBra ·)) ∧
    ∀ points, t.rpts fid = some points →
      (infos fid).reconPoints 0 (infos fid).basicBlocks.blocks = .ok points

variable {infos : FuncId → FunctionInfo}

theorem getNumReconvergencePairs_eq (h : t.Ok infos) (fid : FuncId) :
    (infos fid).getNumReconvergencePairs (t.numReconvergencePairs fid) =
      (infos fid).basicBlocks.blocks.countP ((infos fid).EndsInBra ·) := by
  unfold FunctionInfo.getNumReconvergencePairs
  rcases (h fid).1 with h0 | hcount
  · exact if_pos h0
  · split
    · rfl
    · exact hcount

theorem findReconvergencePoints_ok (h : t.Ok infos) {r : List ReconPoint × ReconTables}
    (hr : findReconvergencePoints (infos fid) fid t = .ok r) :
    (infos fid).reconPoints 0 (infos fid).basicBlocks.blocks = .ok r.1 ∧ r.2.Ok infos := by
  unfold findReconvergencePoints at hr
  cases hrpts : t.rpts fid with
  | some points =>
    rw [hrpts] at hr
    obtain rfl := Except.ok.inj hr
    exact ⟨(h fid).2 points hrpts, h⟩
  | none =>
    rw [hrpts] at hr
    obtain ⟨points, hpoints, hr⟩ := bind_eq_ok.mp hr
    obtain ⟨_, -, hr⟩ := bind_eq_ok.mp hr
    obtain rfl := Except.ok.inj hr
    obtain ⟨points', hpoints', hp⟩ := bind_eq_ok.mp hpoints
    obtain ⟨_, -, hp⟩ := bind_eq_ok.mp hp
    obtain rfl := Except.ok.inj hp
    refine ⟨hpoints', fun gid => ⟨?_, fun points hg => ?_⟩⟩
    · by_cases hgf : gid = fid
      · subst hgf
        right
        show update t.numReconvergencePairs gid _ gid = _
        rw [update_self]
        exact getNumReconvergencePairs_eq h gid
      · show update t.numReconvergencePairs fid _ gid = 0 ∨
          update t.numReconvergencePairs fid _ gid = _
        rw [update_of_ne hgf]
        exact (h gid).1
    · have hg : update t.rpts fid (some points') gid = some points := hg
      by_cases hgf : gid = fid
      · subst hgf
        rw [update_self] at hg
        obtain rfl := Option.some.inj hg
        exact hpoints'
      · rw [update_of_ne hgf] at hg
        exact (h gid).2 points hg

/-- **Look-ups** keep the tables right. -/
theorem LookedUp.ok {finfo : Nat → Option FuncId} (h : LookedUp finfo infos t) : t.Ok infos := by
  induction h with
  | init => exact fun fid => ⟨.inl rfl, fun points h => by cases h⟩
  | @look t pc r _ hr ih =>
    unfold getConvergePoint at hr
    cases hf : finfo pc with
    | none =>
      rw [hf] at hr
      cases hr
    | some fid =>
      rw [hf] at hr
      obtain ⟨found, hfound, hr⟩ := bind_eq_ok.mp hr
      obtain rfl := Except.ok.inj hr
      exact (findReconvergencePoints_ok ih hfound).2

theorem getConvergePoint_eq {finfo : Nat → Option FuncId} {pc : Nat} (h : t.Ok infos)
    (hf : finfo pc = some fid)
    (hpoints : (infos fid).reconPoints 0 (infos fid).basicBlocks.blocks = .ok points) :
    ∃ r, getConvergePoint finfo infos pc t = .ok r ∧ r.1 = lookUp pc points := by
  have hfind : ∃ r, findReconvergencePoints (infos fid) fid t = .ok r := by
    unfold findReconvergencePoints
    cases hrpts : t.rpts fid with
    | some points' => exact ⟨_, rfl⟩
    | none =>
      have hlen := length_reconPoints hpoints
      have hnum := getNumReconvergencePairs_eq h fid
      dsimp only
      unfold FunctionInfo.getReconvergencePairs
      rw [hpoints, ok_bind, assert_pos (by omega), ok_bind, ok_bind, assert_pos (by omega), ok_bind]
      exact ⟨_, rfl⟩
  obtain ⟨r, hr⟩ := hfind
  obtain ⟨hr₁, -⟩ := findReconvergencePoints_ok h hr
  obtain rfl := Except.ok.inj (hr₁.symm.trans hpoints)
  unfold getConvergePoint
  rw [hf]
  exact ⟨(lookUp pc r.1, r.2), by simp only [hr, ok_bind], rfl⟩

end Table

/-! ## What is found -/

/-- The function has been assembled and analysed. Its graph has the edges of `connect_basic_blocks`,
except where `connect_break_targets` has changed them. -/
structure Analysed (code : FuncId → Function) (s : Program) (fid : FuncId) (fn : FunctionInfo)
    (g : Cfg) : Prop where
  code_eq : fn.code = code fid
  assembled : s.funcs fid = some fn.assembled
  blocks : (code fid).createBasicBlocks = .ok fn.basicBlocks
  connected : ∃ ids, fn.basicBlocks.connectBasicBlocks (code fid) fid fn.assembled = .ok ids ∧
    ∀ b d : Fin g.size, (∀ q i, (code fid).LastInst fn.basicBlocks b q i → i.opcode ≠ .BREAK) →
      (d ∈ g.successorIds b ↔ d.val ∈ ids.getD b ∅)
  size : g.size = fn.basicBlocks.blocks.length + 1
  ipdoms : ∃ fuel D ipdom num, g.findPostdominators fuel = some D ∧
    g.findIpostdominators D = .ok (ipdom, num) ∧
    ∀ b : Fin g.size, fn.immediatepostdominatorId b = (ipdom b).map Fin.val

/-- The first instruction of a block. -/
def Function.FirstOf (f : Function) (c : BasicBlocks) (b q : Nat) (i : Inst) : Prop :=
  f.inst? q = some i ∧ c.bb q = some b ∧ ∀ r j, f.inst? r = some j → c.bb r = some b → q ≤ r

/-- Reconvergence at block `d`: at the PC of its first instruction, or after the return. -/
def ReconvergesAt (fn : FunctionInfo) (d : Nat) (r : ConvergePoint) : Prop :=
  (d = fn.basicBlocks.exitId ∧ r = .returnPC) ∨
    ∃ q i pc n, fn.code.FirstOf fn.basicBlocks d q i ∧ fn.assembled.placed q = some (pc, n) ∧
      r = .pc pc

section Analysed

variable {code : FuncId → Function} {fresh : FuncId → Nat → Slot} {s : Program} {fid : FuncId}
  {fn : FunctionInfo} {g : Cfg} {b q : Nat} {i : Inst} {blk : BasicBlock}

theorem Analysed.wellCut (h : Analysed code s fid fn g) : (code fid).WellCut fn.basicBlocks := by
  obtain ⟨ids, hids, -⟩ := h.connected
  exact wellCut_of_connected h.blocks (by rw [hids]; intro h; cases h)

theorem Analysed.good (hinv : Program.Inv code fresh s) (h : Analysed code s fid fn g) :
    Program.Good (code fid) fid (fresh fid) s fn.assembled :=
  hinv.good fid _ h.assembled

theorem Analysed.target (hinv : Program.Inv code fresh s) (h : Analysed code s fid fn g)
    {b : Fin g.size} (hb : b.val < fn.basicBlocks.blocks.length) :
    ∃ (d : Fin g.size) (x : ConvergePoint × Option Nat), fn.target b = .ok x ∧
      ReconvergesAt fn d x.1 ∧ ((∃ l, Path g.Edge g.exit b l) → g.Ipdom d b) := by
  obtain ⟨fuel, D, ipdom, num, hD, hfind, heq⟩ := h.ipdoms
  have hne : b ≠ g.exit := by
    intro heq
    have := h.size
    have hval : b.val = g.size - 1 := congrArg Fin.val heq
    omega
  obtain ⟨d, hd, hreach⟩ := Cfg.findIpostdominators_spec hD hfind hne
  have hid : fn.immediatepostdominatorId b = some d.val := by rw [heq, hd]; rfl
  have hwell := h.wellCut
  have hgood := h.good hinv
  refine ⟨d, ?_⟩
  unfold FunctionInfo.target
  simp only [hid]
  by_cases hlt : d.val < fn.basicBlocks.blocks.length
  · have hblk := List.getElem?_eq_getElem hlt
    have hspans := hwell.spans _ _ hblk
    obtain ⟨⟨j, hj⟩, -, hbb⟩ := hspans.begins
    have hplaced := (hgood.insn _ j hj).1
    have hpc : fn.getPC (fn.basicBlocks.blocks[d.val]).ptxBegin =
        .ok (fn.assembled.startPC + (code fid).offset (fn.basicBlocks.blocks[d.val]).ptxBegin) := by
      unfold FunctionInfo.getPC
      rw [hplaced]
    simp only [hblk, hpc, ok_bind]
    refine ⟨_, rfl, .inr ⟨_, j, _, _, ⟨?_, hbb, ?_⟩, hplaced, rfl⟩, hreach⟩
    · rw [h.code_eq]
      exact hj
    · intro r i hi hr
      rw [h.code_eq] at hi
      exact (hspans.between r i (Function.lt_length hi) hi hr).1
  · have hexit : d.val = fn.basicBlocks.exitId := by
      have := d.isLt
      have := h.size
      unfold BasicBlocks.exitId
      omega
    rw [List.getElem?_eq_none (by omega)]
    exact ⟨_, if_pos hexit, .inl ⟨hexit, rfl⟩, hreach⟩

theorem Analysed.endsInBra_iff (h : Analysed code s fid fn g)
    (hi : (code fid).inst? blk.ptxEnd = some i) : fn.EndsInBra blk ↔ i.opcode = .BRA := by
  unfold FunctionInfo.EndsInBra
  rw [h.code_eq, hi]
  simp

theorem Analysed.reconPoint (hinv : Program.Inv code fresh s) (h : Analysed code s fid fn g)
    (hblk : fn.basicBlocks.blocks[b]? = some blk) : ∃ x, fn.target b = .ok x ∧ fn.reconPoint b blk =
      .ok ⟨fn.assembled.startPC + (code fid).offset blk.ptxEnd, x.1, blk.ptxEnd, x.2⟩ := by
  have hb := (List.getElem?_eq_some_iff.mp hblk).1
  obtain ⟨d, x, hx, -⟩ := h.target hinv (b := ⟨b, by rw [h.size]; omega⟩) hb
  obtain ⟨⟨i, hi⟩, -⟩ := (h.wellCut.spans b blk hblk).ends
  refine ⟨x, hx, ?_⟩
  have hpc : fn.getPC blk.ptxEnd = .ok (fn.assembled.startPC + (code fid).offset blk.ptxEnd) := by
    unfold FunctionInfo.getPC
    rw [((h.good hinv).insn _ i hi).1]
  have hx : fn.target b = .ok x := hx
  unfold FunctionInfo.reconPoint
  rw [hpc, ok_bind, hx, ok_bind]

theorem Analysed.table (hinv : Program.Inv code fresh s) (h : Analysed code s fid fn g) :
    ∃ points, fn.reconPoints 0 fn.basicBlocks.blocks = .ok points ∧
      ∀ point, point ∈ points ↔ ∃ (b : Nat) (blk : BasicBlock) (x : ConvergePoint × Option Nat),
        fn.basicBlocks.blocks[b]? = some blk ∧ fn.EndsInBra blk ∧ fn.target b = .ok x ∧
          point = ⟨fn.assembled.startPC + (code fid).offset blk.ptxEnd, x.1, blk.ptxEnd, x.2⟩ := by
  obtain ⟨points, hpoints⟩ : ∃ points, fn.reconPoints 0 fn.basicBlocks.blocks = .ok points := by
    apply exists_reconPoints
    intro k blk hk _
    obtain ⟨x, -, hx⟩ := h.reconPoint hinv hk
    exact ⟨_, by rw [Nat.zero_add]; exact hx⟩
  refine ⟨points, hpoints, fun point => ?_⟩
  rw [mem_reconPoints hpoints]
  constructor
  · rintro ⟨k, blk, hk, hbra, hpoint⟩
    rw [Nat.zero_add] at hpoint
    obtain ⟨x, hx, hx'⟩ := h.reconPoint hinv hk
    exact ⟨k, blk, x, hk, hbra, hx, Except.ok.inj (hpoint.symm.trans hx')⟩
  · rintro ⟨k, blk, x, hk, hbra, hx, rfl⟩
    obtain ⟨x', hx₁, hx₂⟩ := h.reconPoint hinv hk
    obtain rfl := Except.ok.inj (hx.symm.trans hx₁)
    exact ⟨k, blk, hk, hbra, by rw [Nat.zero_add]; exact hx₂⟩

variable {infos : FuncId → FunctionInfo} {t : ReconTables} {pc n : Nat}

theorem Analysed.getConvergePoint_eq (hinv : Program.Inv code fresh s)
    (h : Analysed code s fid (infos fid) g) (ht : LookedUp s.finfo infos t) {points : List ReconPoint}
    (hpoints : (infos fid).reconPoints 0 (infos fid).basicBlocks.blocks = .ok points)
    (hi : (code fid).inst? q = some i) (hplaced : (infos fid).assembled.placed q = some (pc, n)) :
    pc = (infos fid).assembled.startPC + (code fid).offset q ∧
      ∃ r, getConvergePoint s.finfo infos pc t = .ok r ∧ r.1 = lookUp pc points := by
  obtain ⟨hplaced', -, -, hfinfo⟩ := (h.good hinv).insn q i hi
  obtain ⟨rfl, -⟩ := Prod.mk.inj (Option.some.inj (hplaced.symm.trans hplaced'))
  exact ⟨rfl, Ptx.getConvergePoint_eq ht.ok hfinfo hpoints⟩

theorem Analysed.getConvergePoint_bra (infos : FuncId → FunctionInfo) (hinv : Program.Inv code fresh s)
    (h : Analysed code s fid (infos fid) g) (ht : LookedUp s.finfo infos t) {b : Fin g.size}
    (hlast : (code fid).LastInst (infos fid).basicBlocks b q i) (hop : i.opcode = .BRA)
    (hplaced : (infos fid).assembled.placed q = some (pc, n)) :
    ∃ r, ∃ d : Fin g.size, getConvergePoint s.finfo infos pc t = .ok r ∧
      ReconvergesAt (infos fid) d r.1 ∧ ((∃ l, Path g.Edge g.exit b l) → g.Ipdom d b) := by
  have hwell := h.wellCut
  obtain ⟨points, hpoints, hmem⟩ := h.table hinv
  have hi := hlast.1
  obtain ⟨b', hb', hlt⟩ := hwell.bb q i hi
  obtain rfl := Option.some.inj (hlast.2.1.symm.trans hb')
  have hblk := List.getElem?_eq_getElem hlt
  obtain ⟨rfl, -⟩ := (hwell.lastInst_iff hblk).mp hlast
  obtain ⟨rfl, r, hr, hval⟩ := h.getConvergePoint_eq hinv ht hpoints hi hplaced
  obtain ⟨d, x, hx, hrec, hreach⟩ := h.target hinv hlt
  refine ⟨r, d, hr, ?_, hreach⟩
  have hentry : (⟨_, x.1, _, x.2⟩ : ReconPoint) ∈ points :=
    (hmem _).mpr ⟨b, _, x, hblk, (h.endsInBra_iff hi).mpr hop, hx, rfl⟩
  unfold lookUp at hval
  cases hfind : points.find? (·.sourcePC = (infos fid).assembled.startPC +
      (code fid).offset ((infos fid).basicBlocks.blocks[b.val]).ptxEnd) with
  | none =>
    have := List.find?_eq_none.mp hfind _ hentry
    simp at this
  | some point =>
    -- an entry with the same PC is that of the same block
    obtain ⟨c, blk, y, hc, -, hy, rfl⟩ := (hmem point).mp (List.mem_of_find?_eq_some hfind)
    have heq := List.find?_some hfind
    simp only [decide_eq_true_eq] at heq
    obtain ⟨⟨j, hj⟩, -, hbb⟩ := (hwell.spans c blk hc).ends
    have hpos := Function.offset_injective hj hi (by omega)
    rw [hpos, hb'] at hbb
    obtain rfl := Option.some.inj hbb
    obtain rfl := Except.ok.inj (hx.symm.trans hy)
    rw [hfind] at hval
    rw [hval]
    exact hrec

theorem Analysed.getConvergePoint_other (hinv : Program.Inv code fresh s)
    (h : Analysed code s fid (infos fid) g) (ht : LookedUp s.finfo infos t)
    (hi : (code fid).inst? q = some i) (hop : i.opcode ≠ .BRA)
    (hplaced : (infos fid).assembled.placed q = some (pc, n)) :
    ∃ r, getConvergePoint s.finfo infos pc t = .ok r ∧ r.1 = .noBranchDivergence := by
  obtain ⟨points, hpoints, hmem⟩ := h.table hinv
  obtain ⟨rfl, r, hr, hval⟩ := h.getConvergePoint_eq hinv ht hpoints hi hplaced
  refine ⟨r, hr, ?_⟩
  rw [hval]
  unfold lookUp
  cases hfind : points.find? (·.sourcePC = (infos fid).assembled.startPC + (code fid).offset q) with
  | none => rfl
  | some point =>
    obtain ⟨c, blk, y, hc, hbra, -, rfl⟩ := (hmem point).mp (List.mem_of_find?_eq_some hfind)
    have heq := List.find?_some hfind
    simp only [decide_eq_true_eq] at heq
    obtain ⟨⟨j, hj⟩, -⟩ := (h.wellCut.spans c blk hc).ends
    have hpos := Function.offset_injective hj hi (by omega)
    rw [← hpos] at hi
    exact absurd ((h.endsInBra_iff hi).mp hbra) hop

end Analysed

/-- **The reconvergence table.** After any look-ups, in every function that has been assembled and
analysed, the PC of a `BRA` at the end of a block is looked up to the first instruction of the block's
immediate postdominator, or to after the return where that is the exit block. The PC of any other
instruction, but for a predicated `BREAK`, is looked up to no divergence. -/
theorem getConvergePoint_exact (code : FuncId → Function) (fresh : FuncId → Nat → Slot)
    (calls : List FuncId) (infos : FuncId → FunctionInfo) {s : Program} {g : Cfg}
    {t : ReconTables} {fid : FuncId}
    (hs : Program.init.assembleAll code fresh calls = .ok s)
    (h : Analysed code s fid (infos fid) g) (ht : LookedUp s.finfo infos t) :
    (∀ (b : Fin g.size) q i pc n,
      (code fid).LastInst (infos fid).basicBlocks b q i → i.opcode = .BRA →
        (infos fid).assembled.placed q = some (pc, n) →
        ∃ r, ∃ d : Fin g.size, getConvergePoint s.finfo infos pc t = .ok r ∧
          ReconvergesAt (infos fid) d r.1 ∧ ((∃ l, Path g.Edge g.exit b l) → g.Ipdom d b)) ∧
      ∀ q i pc n, (code fid).inst? q = some i → i.opcode ≠ .BRA →
        ¬ (i.opcode = .BREAK ∧ i.hasPred) → (infos fid).assembled.placed q = some (pc, n) →
        ∃ r, getConvergePoint s.finfo infos pc t = .ok r ∧ r.1 = .noBranchDivergence := by
  have hinv := Program.inv_init.assembleAll hs
  constructor
  · intro b q i pc n hlast hop hplaced
    exact h.getConvergePoint_bra infos hinv ht hlast hop hplaced
  · intro q i pc n hi hop _ hplaced
    exact h.getConvergePoint_other hinv ht hi hop hplaced

/-- `bra end; end: exit`. -/
def jumpFunction : Function where
  items := [.inst { opcode := .BRA, target := "end" }, .label "end", .inst { opcode := .EXIT }]
  labels_nodup := by decide

/-- Its blocks come one after the other. -/
def jumpCfg : Cfg where
  size := 3
  two_le := by decide
  successorIds b := if b = 0 then {1} else if b = 1 then {2} else ∅

theorem reachesExit_jumpCfg : jumpCfg.ReachesExit := by
  have h2 : Path jumpCfg.Edge jumpCfg.exit (2 : Fin 3) [(2 : Fin 3)] := .done
  have h1 : Path jumpCfg.Edge jumpCfg.exit (1 : Fin 3) [(1 : Fin 3), (2 : Fin 3)] :=
    .step (show (2 : Fin 3) ∈ ({2} : Finset (Fin 3)) from Finset.mem_singleton_self _) h2
  have h0 : Path jumpCfg.Edge jumpCfg.exit (0 : Fin 3) [(0 : Fin 3), (1 : Fin 3), (2 : Fin 3)] :=
    .step (show (1 : Fin 3) ∈ ({1} : Finset (Fin 3)) from Finset.mem_singleton_self _) h1
  have hall : ∀ b : Fin 3, b = 0 ∨ b = 1 ∨ b = 2 := by decide
  intro b
  rcases hall b with rfl | rfl | rfl
  · exact ⟨_, h0⟩
  · exact ⟨_, h1⟩
  · exact ⟨_, h2⟩

theorem exists_analysed_jump : ∃ s fn,
    Program.init.assembleAll (fun _ => jumpFunction) (fun _ _ => none) [0] = .ok s ∧
      Analysed (fun _ => jumpFunction) s 0 fn jumpCfg ∧ fn.assembled.placed 0 = some (0, 0) ∧
      fn.assembled.placed 2 = some (8, 8) ∧
      jumpFunction.LastInst fn.basicBlocks 0 0 { opcode := .BRA, target := "end" } := by
  obtain ⟨N, D, hfuel, -, ipdom, hfind, -⟩ := Cfg.postdominators_exact jumpCfg reachesExit_jumpCfg
  refine ⟨_, ⟨jumpFunction, _, _, fun b => if h : b < jumpCfg.size then (ipdom ⟨b, h⟩).map Fin.val
    else none⟩, rfl, ⟨rfl, rfl, rfl, ⟨_, rfl, ?_⟩, rfl, N, D, ipdom, _, hfuel N le_rfl, hfind, ?_⟩,
    rfl, rfl, rfl, rfl, ?_⟩
  · have hall : ∀ b d : Fin 3,
        d ∈ (if b = 0 then {1} else if b = 1 then {2} else ∅ : Finset (Fin 3)) ↔
          d.val ∈ [({1} : Finset Nat), {2}].getD b ∅ := by decide
    intro b d _
    exact hall b d
  · intro b
    exact dif_pos b.isLt
  · intro r j hj hr
    have hlt : r < 3 := Function.lt_length hj
    interval_cases r
    · exact le_rfl
    · cases hj
    · cases hr

/-- The unpredicated branch is in the table. -/
theorem getConvergePoint_jump : ∃ s fn r,
    Program.init.assembleAll (fun _ => jumpFunction) (fun _ _ => none) [0] = .ok s ∧
      Analysed (fun _ => jumpFunction) s 0 fn jumpCfg ∧ fn.assembled.placed 0 = some (0, 0) ∧
      getConvergePoint s.finfo (fun _ => fn) 0 .init = .ok r ∧ r.1 ≠ .noBranchDivergence := by
  obtain ⟨s, fn, hs, h, hplaced, -, hlast⟩ := exists_analysed_jump
  obtain ⟨r, d, hr, hrec⟩ : ∃ r, ∃ d : Fin 3,
      getConvergePoint s.finfo (fun _ => fn) 0 .init = .ok r ∧ ReconvergesAt fn d r.1 := by
    have hinv := Program.inv_init.assembleAll hs
    obtain ⟨r, d, hr, hrec, -⟩ :=
      Analysed.getConvergePoint_bra (fun _ => fn) hinv h .init (b := (0 : Fin 3)) hlast rfl hplaced
    exact ⟨r, d, hr, hrec⟩
  refine ⟨s, fn, r, hs, h, hplaced, hr, ?_⟩
  rcases hrec with ⟨-, hrec⟩ | ⟨_, _, _, _, -, -, hrec⟩
  · rw [hrec]
    exact ConvergePoint.noConfusion
  · rw [hrec]
    exact ConvergePoint.noConfusion

/-- The exit behind it is not. -/
theorem getConvergePoint_exact_jump : ∃ s fn r,
    Program.init.assembleAll (fun _ => jumpFunction) (fun _ _ => none) [0] = .ok s ∧
      getConvergePoint s.finfo (fun _ => fn) 8 .init = .ok r ∧ r.1 = .noBranchDivergence := by
  obtain ⟨s, fn, hs, h, -, hplaced, -⟩ := exists_analysed_jump
  obtain ⟨r, hr, hnone⟩ := (getConvergePoint_exact (fun _ => jumpFunction) (fun _ _ => none) [0]
    (fun _ => fn) hs h .init).2 2 _ 8 8 rfl (by decide) (by decide) hplaced
  exact ⟨s, fn, r, hs, hr, hnone⟩

end GpgpuSimRuby.Ptx
