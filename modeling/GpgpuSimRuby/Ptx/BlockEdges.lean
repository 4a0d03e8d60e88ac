import GpgpuSimRuby.Ptx.BasicBlocks
import GpgpuSimRuby.Ptx.InstructionTables

/-!
# The edges between basic blocks

`connect_basic_blocks` of `ptx_ir.cc`, which finds the blocks after a block by the places of its last
instruction and of the branch label in `m_instr_mem`. It looks at the opcode only, and treats a `brx`
and an instruction with `.exit` like any other.

The instruction after a predicated return or exit is looked for one slot behind it, where an instruction
of four or eight bytes has a hole, so that this edge is always lost.
-/

namespace GpgpuSimRuby.Ptx

open Library Ptx.Function

/-- The opcodes with an edge to the exit block. -/
def Inst.Returns (i : Inst) : Prop := i.opcode = .RETP ∨ i.opcode = .RET ∨ i.opcode = .EXIT

/-- A `BRA` without a guard. -/
def Inst.Jumps (i : Inst) : Prop := i.opcode = .BRA ∧ ¬ i.hasPred

/-- A thread can go on behind it: it has a guard, or is no branch and does not leave. -/
def Inst.GoesOn (i : Inst) : Prop :=
  i.hasPred ∨ (i.opcode ≠ .BRA ∧ i.opcode ≠ .BRX ∧ ¬ i.Returns ∧ ¬ i.isExit)

instance (i : Inst) : Decidable i.Returns := inferInstanceAs (Decidable (_ ∨ _ ∨ _))
instance (i : Inst) : Decidable i.Jumps := inferInstanceAs (Decidable (_ ∧ _))

/-- A slot of `m_instr_mem`. Behind the code nothing has been written, and what is read there is no
instruction of the function. -/
def Assembled.slot (a : Assembled) (f : Function) (index : Nat) : Except AssembleFault Slot :=
  if index < f.codeSize then .ok (a.instrMem index) else .error .wildPointer

namespace BasicBlocks

variable (c : BasicBlocks)

/-- The `bb_id` of the exit block. -/
def exitId : Nat := c.blocks.length

/-- `get_bb` of the instruction in a slot. -/
def getBb (fid : FuncId) : Slot → Except AssembleFault Nat
  | some (g, p) =>
    match c.bb p with
    | some b => if g = fid then .ok b else .error .wildPointer
    | none => .error .wildPointer
  | none => .error .wildPointer

variable (f : Function) (fid : FuncId) (a : Assembled)

/-- The successors of a block that ends in a return or exit. -/
def returnIds (i : Inst) (index : Nat) : Except AssembleFault (Finset Nat) :=
  if i.hasPred then
    let nextAddr := index + 1
    if nextAddr < a.instrMemSize then do
      let slot ← a.slot f nextAddr
      if slot = none then .ok {c.exitId}
      else do
        let next ← c.getBb fid slot
        .ok {c.exitId, next}
    else .ok {c.exitId}
  else .ok {c.exitId}

/-- The block that a branch goes to; `labels[..]` of an unknown name is `0`. -/
def targetIds (i : Inst) : Except AssembleFault (Finset Nat) :=
  if i.opcode = .BRA then do
    let slot ← a.slot f ((a.labels i.target).getD 0)
    let target ← c.getBb fid slot
    .ok {target}
  else .ok ∅

/-- The next block, if the block does not end in an unpredicated branch. -/
def nextIds (i : Inst) (index : Nat) : Except AssembleFault (Finset Nat) :=
  if i.Jumps then .ok ∅
  else do
    let slot ← a.slot f (index + i.size.bytes)
    let next ← c.getBb fid slot
    .ok {next}

/-- One turn of the loop. A label has no place in the instruction memory. -/
def connectBlock (blk : BasicBlock) : Except AssembleFault (Finset Nat) :=
  match f.inst? blk.ptxEnd, a.placed blk.ptxEnd with
  | some i, some (_, index) =>
    if i.Returns then c.returnIds f fid a i index
    else do
      let target ← c.targetIds f fid a i
      let next ← c.nextIds f fid a i index
      .ok (target ∪ next)
  | _, _ => .error .wildPointer

/-- The loop over the blocks. -/
def connectFrom : List BasicBlock → Except AssembleFault (List (Finset Nat))
  | [] => .ok []
  | blk :: blocks => do
    let successorIds ← c.connectBlock f fid a blk
    let rest ← connectFrom blocks
    .ok (successorIds :: rest)

/-- `function_info::connect_basic_blocks`: `successor_ids` of the blocks. -/
def connectBasicBlocks : Except AssembleFault (List (Finset Nat)) := c.connectFrom f fid a c.blocks

end BasicBlocks

/-! ## What threads can execute next -/

namespace Function

/-- Where a thread can be after the instruction at `q`: at an instruction, or out of the function. The
option `.exit` works after the opcode, so that a branch with it leaves, and where `brx` goes is in a
register. -/
inductive Next (f : Function) (q : Nat) (i : Inst) : Option Nat → Prop
  | branch {r} : i.opcode = .BRA → ¬ i.isExit → f.LabelOf i.target r → Next f q i (some r)
  | indirect {r j} : i.opcode = .BRX → ¬ i.isExit → f.inst? r = some j → Next f q i (some r)
  | fallThrough {r j} : i.GoesOn → f.FirstInst (q + 1) r j → Next f q i (some r)
  | leave : i.Returns ∨ i.isExit → Next f q i none

/-- The last instruction of a block. -/
def LastInst (f : Function) (c : BasicBlocks) (b q : Nat) (i : Inst) : Prop :=
  f.inst? q = some i ∧ c.bb q = some b ∧ ∀ r j, f.inst? r = some j → c.bb r = some b → r ≤ q

/-- The block in which a thread is. -/
def blockOf (c : BasicBlocks) : Option Nat → Option Nat
  | some r => c.bb r
  | none => some c.exitId

/-- Every block has a last instruction, and its successors are the blocks that a thread can execute
after that. -/
def EdgesExact (f : Function) (fid : FuncId) (a : Assembled) : Prop :=
  ∃ c successorIds, f.createBasicBlocks = .ok c ∧ c.connectBasicBlocks f fid a = .ok successorIds ∧
    ∀ b < c.blocks.length, ∃ q i, f.LastInst c b q i ∧
      ∀ d, d ∈ successorIds.getD b ∅ ↔ ∃ next, f.Next q i next ∧ blockOf c next = some d

/-- The instruction at `p` is the last of its block: no instruction follows on it directly, or it is one
that ends a block, which goes unseen at the very beginning. -/
def Final (f : Function) (p : Nat) (i : Inst) : Prop := f.inst? (p + 1) = none ∨ i.EndsBlock ∧ p ≠ 0

/-- What the edges depend on. -/
structure EdgesOk (f : Function) : Prop where
  /-- The function does not begin with two labels. -/
  oneLabel : ¬ f.TwoLabelsFirst
  /-- Code does not run off its end. -/
  stops : ∃ p i, f.inst? p = some i ∧ (∀ k, p < k → f.inst? k = none) ∧ (i.Returns ∨ i.Jumps)
  /-- Behind the label of a branch there is code. -/
  targets : ∀ p i, f.inst? p = some i → f.Final p i → i.opcode = .BRA → ∃ r, f.LabelOf i.target r
  /-- There is no code behind a predicated return or exit. -/
  returns : ∀ p i, f.inst? p = some i → f.Final p i → i.Returns → i.hasPred →
    ∀ k, p < k → f.inst? k = none
  /-- Only returns and exits have the option `.exit`. -/
  exits : ∀ p i, f.inst? p = some i → f.Final p i → i.isExit → i.Returns
  /-- No block ends in a `brx`. -/
  direct : ∀ p i, f.inst? p = some i → f.Final p i → i.opcode ≠ .BRX

end Function

/-! ## The places in the instruction memory -/

section Places

variable {f : Function} {fid : FuncId} {fresh : Nat → Slot} {s : Program} {a : Assembled}
  {c : BasicBlocks} {e p q r b : Nat} {i j : Inst}

theorem slot_of_firstInst (hg : Program.Good f fid fresh s a) (h : f.FirstInst p q i) :
    a.slot f (f.offset p) = .ok (some (fid, q)) := by
  unfold Assembled.slot
  rw [← h.offset_eq, if_pos (offset_lt_codeSize h.inst), (hg.insn q i h.inst).2.2.1]

theorem slot_of_end (h : ∀ k, p ≤ k → f.inst? k = none) : a.slot f (f.offset p) = .error .wildPointer := by
  unfold Assembled.slot
  rw [if_neg]
  intro hlt
  obtain ⟨q, i, hq⟩ := exists_inst_of_offset_lt hlt
  have hi := hq.inst
  rw [h q hq.le] at hi
  cases hi

theorem slot_hole (hg : Program.Good f fid fresh s a) (hi : f.inst? e = some i) :
    a.slot f (f.offset e + 1) = .ok none := by
  have hfour : f.offset e + 4 ≤ f.codeSize := by
    have hle := offset_add_le hi (lt_length hi)
    have hsize : 4 ≤ i.size.bytes := by
      cases i.size <;> decide
    unfold codeSize
    omega
  unfold Assembled.slot
  rw [if_pos (by omega)]
  cases hslot : a.instrMem (f.offset e + 1) with
  | none => rfl
  | some x =>
    obtain ⟨-, j, -, heq⟩ := hg.memElse _ x (by omega) hslot
    have h₁ := f.offset_mod e
    have h₂ := f.offset_mod x.2
    omega

theorem getBb_eq (hb : c.bb q = some b) : c.getBb fid (some (fid, q)) = .ok b := by
  unfold BasicBlocks.getBb
  simp only [hb]
  exact if_pos trivial

section

variable (hg : Program.Good f fid fresh s a)
include hg

/-- What a slot of the code gives is a block of the function. -/
theorem getBb_lt (hc : f.WellCut c) {index d : Nat} {slot : Slot}
    (hslot : a.slot f index = .ok slot) (hd : c.getBb fid slot = .ok d) : d < c.blocks.length := by
  cases slot with
  | none => cases hd
  | some x =>
    have hmem : index < f.codeSize ∧ a.instrMem index = some x := by
      unfold Assembled.slot at hslot
      split at hslot
      · exact ⟨‹_›, Except.ok.inj hslot⟩
      · cases hslot
    obtain ⟨hfid, j, hj, -⟩ := hg.memElse index x hmem.1 hmem.2
    obtain ⟨b, hb, hlt⟩ := hc.bb x.2 j hj
    have heq : c.getBb fid (some x) = .ok b := by
      rw [← hfid]
      exact getBb_eq hb
    rwa [← Except.ok.inj (heq.symm.trans hd)]

theorem lt_of_mem_targetIds (hc : f.WellCut c) {ids : Finset Nat}
    {d : Nat} (h : c.targetIds f fid a i = .ok ids) (hd : d ∈ ids) : d < c.blocks.length := by
  unfold BasicBlocks.targetIds at h
  split at h
  · obtain ⟨slot, hslot, h⟩ := bind_eq_ok.mp h
    obtain ⟨t, ht, h⟩ := bind_eq_ok.mp h
    obtain rfl := Except.ok.inj h
    obtain rfl := Finset.mem_singleton.mp hd
    exact getBb_lt hg hc hslot ht
  · obtain rfl := Except.ok.inj h
    cases hd

theorem lt_of_mem_nextIds (hc : f.WellCut c) {ids : Finset Nat}
    {d index : Nat} (h : c.nextIds f fid a i index = .ok ids) (hd : d ∈ ids) :
    d < c.blocks.length := by
  unfold BasicBlocks.nextIds at h
  split at h
  · obtain rfl := Except.ok.inj h
    cases hd
  · obtain ⟨slot, hslot, h⟩ := bind_eq_ok.mp h
    obtain ⟨t, ht, h⟩ := bind_eq_ok.mp h
    obtain rfl := Except.ok.inj h
    obtain rfl := Finset.mem_singleton.mp hd
    exact getBb_lt hg hc hslot ht

/-- **The lost edge.** A block that ends in a return or exit gets the exit block as its only successor,
with a guard or without one. -/
theorem returnIds_eq (hi : f.inst? e = some i) :
    c.returnIds f fid a i (f.offset e) = .ok {c.exitId} := by
  unfold BasicBlocks.returnIds
  dsimp only
  split
  · split
    · rw [slot_hole hg hi, ok_bind, if_pos rfl]
    · rfl
  · rfl

theorem targetIds_eq (hop : i.opcode = .BRA)
    (hr : f.LabelOf i.target r) (hb : c.bb r = some b) : c.targetIds f fid a i = .ok {b} := by
  obtain ⟨p, j, hp, hfirst⟩ := hr
  have hlabel : a.labels i.target = some (f.offset p) :=
    (hg.labels i.target (f.offset p)).mpr ⟨p, (List.getElem?_eq_some_iff.mp hp).1, hp, rfl⟩
  unfold BasicBlocks.targetIds
  rw [if_pos hop, hlabel, Option.getD_some, slot_of_firstInst hg hfirst, ok_bind, getBb_eq hb, ok_bind]

theorem targetIds_of_no_label (hc : f.WellCut c)
    (hi : f.inst? e = some i) (hop : i.opcode = .BRA) (hno : ¬ ∃ r, f.LabelOf i.target r) :
    c.targetIds f fid a i = .error .wildPointer ∨
      ∃ r j b, f.FirstInst 0 r j ∧ c.bb r = some b ∧ c.targetIds f fid a i = .ok {b} := by
  unfold BasicBlocks.targetIds
  rw [if_pos hop]
  cases hlabel : a.labels i.target with
  | none =>
    obtain ⟨r, j, hr⟩ := exists_inst_of_offset_lt
      (Nat.lt_of_le_of_lt (f.offset_mono (Nat.zero_le e)) (offset_lt_codeSize hi))
    obtain ⟨b, hb, -⟩ := hc.bb r j hr.inst
    refine .inr ⟨r, j, b, hr, hb, ?_⟩
    have hslot := slot_of_firstInst hg hr
    rw [offset_zero] at hslot
    rw [Option.getD_none, hslot, ok_bind, getBb_eq hb, ok_bind]
  | some index =>
    obtain ⟨p, hplt, hp, rfl⟩ := (hg.labels i.target index).mp hlabel
    left
    rw [Option.getD_some, slot_of_end, error_bind]
    intro k hk
    cases hik : f.inst? k with
    | none => rfl
    | some j =>
      have hlt : f.offset p < f.codeSize :=
        Nat.lt_of_le_of_lt (offset_mono hk) (offset_lt_codeSize hik)
      obtain ⟨q, j', hq⟩ := exists_inst_of_offset_lt hlt
      exact absurd ⟨q, p, j', hp, hq⟩ hno

theorem nextIds_eq (hi : f.inst? e = some i) (hjump : ¬ i.Jumps)
    (hr : f.FirstInst (e + 1) r j) (hb : c.bb r = some b) : c.nextIds f fid a i (f.offset e) = .ok {b} := by
  unfold BasicBlocks.nextIds
  rw [if_neg hjump, ← offset_inst hi, slot_of_firstInst hg hr, ok_bind, getBb_eq hb, ok_bind]

end

theorem nextIds_of_end (hi : f.inst? e = some i) (hjump : ¬ i.Jumps) (hend : ∀ k, e < k → f.inst? k = none) :
    c.nextIds f fid a i (f.offset e) = .error .wildPointer := by
  unfold BasicBlocks.nextIds
  rw [if_neg hjump, ← offset_inst hi, slot_of_end fun k hk => hend k hk, error_bind]

theorem nextIds_jump (hjump : i.Jumps) (index : Nat) : c.nextIds f fid a i index = .ok ∅ :=
  if_pos hjump

end Places

/-! ## The successors of a block -/

/-- What the edges of the block that ends in the instruction at `e` depend on. -/
structure Function.BlockOk (f : Function) (e : Nat) (i : Inst) : Prop where
  returns : i.Returns → i.hasPred → ∀ k, e < k → f.inst? k = none
  stops : ¬ i.Returns → ¬ i.Jumps → ∃ r j, f.FirstInst (e + 1) r j
  targets : i.opcode = .BRA → ∃ r, f.LabelOf i.target r
  exits : i.isExit → i.Returns
  direct : i.opcode ≠ .BRX

/-- The block gets as successors what a thread can execute after its last instruction. -/
def Function.BlockExact (f : Function) (fid : FuncId) (a : Assembled) (c : BasicBlocks)
    (blk : BasicBlock) (i : Inst) : Prop :=
  ∃ successorIds, c.connectBlock f fid a blk = .ok successorIds ∧
    ∀ d, d ∈ successorIds ↔ ∃ next, f.Next blk.ptxEnd i next ∧ blockOf c next = some d

section Block

variable {f : Function} {fid : FuncId} {fresh : Nat → Slot} {s : Program} {a : Assembled}
  {c : BasicBlocks} {b r : Nat} {i j : Inst} {blk : BasicBlock}

theorem Inst.Returns.opcode_ne (h : i.Returns) : i.opcode ≠ .BRA := by
  rcases h with h | h | h <;> simp [h]

theorem exists_firstInst_succ {e k : Nat} (hi : f.inst? k = some i) (hlt : e < k) :
    ∃ r j, f.FirstInst (e + 1) r j := by
  apply exists_inst_of_offset_lt
  exact Nat.lt_of_le_of_lt (offset_mono hlt) (offset_lt_codeSize hi)

theorem Function.WellCut.next_ne (hc : f.WellCut c) (hblk : c.blocks[b]? = some blk)
    (hr : f.FirstInst (blk.ptxEnd + 1) r j) : c.bb r ≠ some b := by
  intro hb
  have := ((hc.spans b blk hblk).between r j (lt_length hr.inst) hr.inst hb).2
  have := hr.le
  omega

theorem connectBlock_eq (hg : Program.Good f fid fresh s a) (hi : f.inst? blk.ptxEnd = some i) :
    c.connectBlock f fid a blk =
      if i.Returns then c.returnIds f fid a i (f.offset blk.ptxEnd)
      else (do
        let target ← c.targetIds f fid a i
        let next ← c.nextIds f fid a i (f.offset blk.ptxEnd)
        .ok (target ∪ next)) := by
  unfold BasicBlocks.connectBlock
  simp only [hi, (hg.insn _ i hi).1]

theorem Inst.GoesOn.hasPred (h : i.GoesOn) (hret : i.Returns) : i.hasPred := by
  rcases h with hpred | ⟨-, -, hno, -⟩
  · exact hpred
  · exact absurd hret hno

theorem Inst.GoesOn.not_jumps (h : i.GoesOn) : ¬ i.Jumps := by
  rintro ⟨hop, hno⟩
  rcases h with hpred | ⟨hne, -⟩
  · exact hno hpred
  · exact hne hop

theorem Function.BlockOk.goesOn {e : Nat} (h : f.BlockOk e i) (hret : ¬ i.Returns) (hjump : ¬ i.Jumps) :
    i.GoesOn := by
  by_cases hpred : i.hasPred
  · exact .inl hpred
  · exact .inr ⟨fun hop => hjump ⟨hop, hpred⟩, h.direct, hret, fun hexit => hret (h.exits hexit)⟩

/-- Code comes after a block whose edges have been found. -/
theorem exists_firstInst_of_nextIds {e : Nat} {ids : Finset Nat} (hi : f.inst? e = some i)
    (hjump : ¬ i.Jumps) (h : c.nextIds f fid a i (f.offset e) = .ok ids) :
    ∃ r j, f.FirstInst (e + 1) r j := by
  by_contra hno
  rw [nextIds_of_end hi hjump] at h
  · cases h
  · intro k hk
    cases hik : f.inst? k with
    | none => rfl
    | some j => exact absurd (exists_firstInst_succ hik hk) hno

section

variable (hg : Program.Good f fid fresh s a)
include hg

/-- The block has the edges of the branch and to the next block, where it has none to the exit block. -/
theorem exits_of_exact (hc : f.WellCut c)
    (hi : f.inst? blk.ptxEnd = some i) (h : f.BlockExact fid a c blk i) (hexit : i.isExit) :
    i.Returns := by
  obtain ⟨ids, hids, hmem⟩ := h
  by_contra hret
  rw [connectBlock_eq hg hi, if_neg hret] at hids
  obtain ⟨target, htarget, hids⟩ := bind_eq_ok.mp hids
  obtain ⟨next, hnext, hids⟩ := bind_eq_ok.mp hids
  obtain rfl := Except.ok.inj hids
  have hin := (hmem c.exitId).mpr ⟨none, .leave (.inr hexit), rfl⟩
  have hlt : c.exitId < c.blocks.length := by
    rcases Finset.mem_union.mp hin with hin | hin
    · exact lt_of_mem_targetIds hg hc htarget hin
    · exact lt_of_mem_nextIds hg hc hnext hin
  exact absurd hlt (Nat.lt_irrefl _)

/-- A `brx` can go back to itself, and the block after its own is the only one it has an edge to. -/
theorem direct_of_exact (hc : f.WellCut c)
    (hblk : c.blocks[b]? = some blk) (hi : f.inst? blk.ptxEnd = some i)
    (h : f.BlockExact fid a c blk i) : i.opcode ≠ .BRX := by
  intro hop
  have hret : ¬ i.Returns := by
    rintro (hret | hret | hret) <;> rw [hop] at hret <;> cases hret
  have hbra : i.opcode ≠ .BRA := by
    rw [hop]
    decide
  have hjump : ¬ i.Jumps := fun hjump => hbra hjump.1
  have hexit : ¬ i.isExit := fun hexit => hret (exits_of_exact hg hc hi h hexit)
  obtain ⟨ids, hids, hmem⟩ := h
  rw [connectBlock_eq hg hi, if_neg hret] at hids
  unfold BasicBlocks.targetIds at hids
  rw [if_neg hbra, ok_bind] at hids
  obtain ⟨next, hnext, hids⟩ := bind_eq_ok.mp hids
  obtain rfl := Except.ok.inj hids
  obtain ⟨r, j, hr⟩ := exists_firstInst_of_nextIds hi hjump hnext
  obtain ⟨d, hd, -⟩ := hc.bb r j hr.inst
  rw [nextIds_eq hg hi hjump hr hd] at hnext
  obtain rfl := Except.ok.inj hnext
  obtain ⟨-, -, hbe⟩ := (hc.spans b blk hblk).ends
  have hin := (hmem b).mpr ⟨_, .indirect hop hexit hi, hbe⟩
  rw [Finset.empty_union] at hin
  obtain rfl := Finset.mem_singleton.mp hin
  exact hc.next_ne hblk hr hd

theorem blockOk_of_exact (hc : f.WellCut c)
    (hblk : c.blocks[b]? = some blk) (hi : f.inst? blk.ptxEnd = some i)
    (h : f.BlockExact fid a c blk i) : f.BlockOk blk.ptxEnd i := by
  have hexits := exits_of_exact hg hc hi h
  have hdirect := direct_of_exact hg hc hblk hi h
  obtain ⟨ids, hids, hmem⟩ := h
  rw [connectBlock_eq hg hi] at hids
  refine ⟨?_, ?_, ?_, hexits, hdirect⟩
  · intro hret hpred k hk
    rw [if_pos hret, returnIds_eq hg hi] at hids
    obtain rfl := Except.ok.inj hids
    cases hik : f.inst? k with
    | none => rfl
    | some j =>
      obtain ⟨r, j', hr⟩ := exists_firstInst_succ hik hk
      obtain ⟨d, hd, hlt⟩ := hc.bb r j' hr.inst
      have hin := (hmem d).mpr ⟨some r, .fallThrough (.inl hpred) hr, hd⟩
      obtain rfl := Finset.mem_singleton.mp hin
      exact absurd hlt (Nat.lt_irrefl _)
  · intro hret hjump
    rw [if_neg hret] at hids
    obtain ⟨target, -, hids⟩ := bind_eq_ok.mp hids
    obtain ⟨next, hnext, -⟩ := bind_eq_ok.mp hids
    exact exists_firstInst_of_nextIds hi hjump hnext
  · intro hop
    by_contra hno
    have hret : ¬ i.Returns := fun hret => hret.opcode_ne hop
    rw [if_neg hret] at hids
    rcases targetIds_of_no_label hg hc hi hop hno with herr | ⟨r₀, j₀, d, hfirst, hd, htarget⟩
    · rw [herr, error_bind] at hids
      cases hids
    · -- the first block has been taken for the target
      rw [htarget, ok_bind] at hids
      obtain ⟨next, -, hids⟩ := bind_eq_ok.mp hids
      obtain rfl := Except.ok.inj hids
      obtain ⟨n, hn, hnd⟩ := (hmem d).mp (Finset.mem_union_left _ (Finset.mem_singleton_self d))
      cases hn with
      | branch _ _ hlabel => exact hno ⟨_, hlabel⟩
      | indirect hbrx => exact hdirect hbrx
      | leave hleave => exact hret (hleave.elim id hexits)
      | fallThrough _ hr =>
        have hnd : c.bb _ = some d := hnd
        obtain ⟨b', hb', -⟩ := hc.bb _ i hi
        obtain ⟨⟨i', hi'⟩, -, hbe⟩ := (hc.spans b blk hblk).ends
        have hfle : r₀ ≤ blk.ptxEnd := by
          by_contra hgt
          obtain ⟨name, hname⟩ := hfirst.labels blk.ptxEnd (Nat.zero_le _) (by omega)
          rw [inst?_eq_none_of_label hname] at hi
          cases hi
        have hrle := hr.le
        -- the end of the block lies between the two instructions, which are in one block
        have hle₁ : d ≤ b := by
          rcases Nat.eq_or_lt_of_le hfle with heq | hlt
          · rw [heq, hbe] at hd
            exact (Option.some.inj hd).ge
          · exact hc.mono r₀ blk.ptxEnd j₀ i d b hlt hfirst.inst hi hd hbe
        have hle₂ : b ≤ d := hc.mono blk.ptxEnd _ i _ b d (by omega) hi hr.inst hbe hnd
        obtain rfl : d = b := by omega
        exact hc.next_ne hblk hr hnd

theorem exact_of_blockOk (hc : f.WellCut c)
    (hi : f.inst? blk.ptxEnd = some i) (h : f.BlockOk blk.ptxEnd i) : f.BlockExact fid a c blk i := by
  unfold BlockExact
  rw [connectBlock_eq hg hi]
  by_cases hret : i.Returns
  · rw [if_pos hret, returnIds_eq hg hi]
    refine ⟨_, rfl, fun d => ?_⟩
    rw [Finset.mem_singleton]
    constructor
    · rintro rfl
      exact ⟨none, .leave (.inl hret), rfl⟩
    · rintro ⟨n, hn, hd⟩
      cases hn with
      | branch hop => exact absurd hop hret.opcode_ne
      | indirect hop => exact absurd hop h.direct
      | leave _ => exact (Option.some.inj hd).symm
      | fallThrough hgo hr =>
        have hnone := h.returns hret (hgo.hasPred hret) _ hr.le
        rw [hr.inst] at hnone
        cases hnone
  rw [if_neg hret]
  have hexit : ¬ i.isExit := fun hexit => hret (h.exits hexit)
  have hleave : ¬ (i.Returns ∨ i.isExit) := fun hleave => hleave.elim hret hexit
  by_cases hjump : i.Jumps
  · obtain ⟨r, hr⟩ := h.targets hjump.1
    have hlabel := hr
    obtain ⟨p, j, hp, hfirst⟩ := hlabel
    obtain ⟨d, hd, -⟩ := hc.bb r j hfirst.inst
    rw [targetIds_eq hg hjump.1 hr hd, nextIds_jump hjump]
    refine ⟨_, rfl, fun d' => ?_⟩
    rw [Finset.union_empty, Finset.mem_singleton]
    constructor
    · rintro rfl
      exact ⟨some r, .branch hjump.1 hexit hr, hd⟩
    · rintro ⟨n, hn, hd'⟩
      cases hn with
      | branch _ _ hr' =>
        obtain ⟨p', j', hp', hfirst'⟩ := hr'
        obtain rfl := label_unique hp hp'
        obtain rfl := hfirst.unique hfirst'
        exact Option.some.inj (hd'.symm.trans hd)
      | indirect hop => exact absurd hop h.direct
      | leave hleave' => exact absurd hleave' hleave
      | fallThrough hgo => exact absurd hjump hgo.not_jumps
  obtain ⟨rn, jn, hrn⟩ := h.stops hret hjump
  obtain ⟨dn, hdn, -⟩ := hc.bb rn jn hrn.inst
  have hfall : ∀ d', (∃ r j, f.FirstInst (blk.ptxEnd + 1) r j ∧ c.bb r = some d') ↔ d' = dn := by
    intro d'
    constructor
    · rintro ⟨r, j, hr, hd'⟩
      obtain rfl := hr.unique hrn
      exact Option.some.inj (hd'.symm.trans hdn)
    · rintro rfl
      exact ⟨rn, jn, hrn, hdn⟩
  rw [nextIds_eq hg hi hjump hrn hdn]
  by_cases hop : i.opcode = .BRA
  · obtain ⟨r, hr⟩ := h.targets hop
    have hlabel := hr
    obtain ⟨p, j, hp, hfirst⟩ := hlabel
    obtain ⟨d, hd, -⟩ := hc.bb r j hfirst.inst
    rw [targetIds_eq hg hop hr hd]
    refine ⟨_, rfl, fun d' => ?_⟩
    rw [Finset.mem_union, Finset.mem_singleton, Finset.mem_singleton]
    constructor
    · rintro (rfl | rfl)
      · exact ⟨some r, .branch hop hexit hr, hd⟩
      · exact ⟨some rn, .fallThrough (h.goesOn hret hjump) hrn, hdn⟩
    · rintro ⟨n, hn, hd'⟩
      cases hn with
      | branch _ _ hr' =>
        obtain ⟨p', j', hp', hfirst'⟩ := hr'
        obtain rfl := label_unique hp hp'
        obtain rfl := hfirst.unique hfirst'
        exact .inl (Option.some.inj (hd'.symm.trans hd))
      | indirect hbrx => exact absurd hbrx h.direct
      | leave hleave' => exact absurd hleave' hleave
      | fallThrough _ hr' => exact .inr ((hfall d').mp ⟨_, _, hr', hd'⟩)
  · unfold BasicBlocks.targetIds
    rw [if_neg hop]
    refine ⟨_, rfl, fun d' => ?_⟩
    rw [Finset.empty_union, Finset.mem_singleton]
    constructor
    · rintro rfl
      exact ⟨some rn, .fallThrough (h.goesOn hret hjump) hrn, hdn⟩
    · rintro ⟨n, hn, hd'⟩
      cases hn with
      | branch hop' => exact absurd hop' hop
      | indirect hbrx => exact absurd hbrx h.direct
      | leave hleave' => exact absurd hleave' hleave
      | fallThrough _ hr' => exact (hfall d').mp ⟨_, _, hr', hd'⟩

end

end Block

/-! ## All blocks -/

section Blocks

variable {f : Function} {fid : FuncId} {fresh : Nat → Slot} {s : Program} {a : Assembled}
  {c : BasicBlocks} {b p q : Nat} {i j : Inst} {blk : BasicBlock}

/-- A block ends at an instruction if a leader comes next, or nothing at all. -/
def Function.EndsAt (f : Function) (e : Nat) : Prop :=
  (∃ l, f.LeaderAfter e l) ∨ ∀ k, e < k → f.inst? k = none

theorem label_of_none {r : Nat} (hr : f.inst? r = some i) (hpr : p < r) (h : f.inst? p = none) :
    ∃ name, f.items[p]? = some (.label name) := by
  have hlt : p < f.items.length := hpr.trans (lt_length hr)
  have hget := List.getElem?_eq_getElem hlt
  cases hit : f.items[p] with
  | label name => exact ⟨name, hit ▸ hget⟩
  | inst j =>
    rw [inst?_eq_some.mpr (hit ▸ hget)] at h
    cases h

theorem Function.Final.endsAt (hi : f.inst? p = some i) (h : f.Final p i) : f.EndsAt p := by
  by_cases hmore : ∃ k j, p < k ∧ f.inst? k = some j
  · obtain ⟨k, j, hk, hj⟩ := hmore
    have hlen := lt_length hj
    refine .inl ⟨p + 1, Nat.lt_succ_self p, ?_, fun m _ _ => by omega, k, j, hk, hj⟩
    rcases h with hnone | ⟨hend, hp⟩
    · have hne : p + 1 ≠ k := by
        rintro rfl
        rw [hnone] at hj
        cases hj
      obtain ⟨name, hname⟩ := label_of_none hj (by omega) hnone
      exact .inl ⟨⟨name, hname⟩, .inr ⟨i, Nat.succ_pos p, hi⟩⟩
    · exact isLeader_of_endsBlock hi hend (Nat.pos_of_ne_zero hp) (by omega)
  · right
    intro k hk
    cases hik : f.inst? k with
    | none => rfl
    | some j => exact absurd ⟨k, j, hk, hik⟩ hmore

theorem Function.EndsAt.final (hi : f.inst? p = some i) (h : f.EndsAt p) : f.Final p i := by
  rcases h with ⟨l, hlt, hleader, hnone, -⟩ | hnone
  · rcases Nat.eq_or_lt_of_le (Nat.succ_le_of_lt hlt) with rfl | hgt
    · by_cases hend : i.EndsBlock ∧ p ≠ 0
      · exact .inr hend
      · have hnot : ¬ i.EndsBlock ∨ p = 0 := by
          rw [← not_not (a := p = 0)]
          exact not_and_or.mp hend
        obtain ⟨name, hname⟩ := (isLeader_iff_label hi hnot).mp hleader
        exact .inl (inst?_eq_none_of_label hname)
    · exact .inl (hnone _ (Nat.lt_succ_self p) hgt)
  · exact .inl (hnone _ (Nat.lt_succ_self p))

theorem Function.WellCut.lastInst_iff (hc : f.WellCut c) (hblk : c.blocks[b]? = some blk) :
    f.LastInst c b q i ↔ q = blk.ptxEnd ∧ f.inst? q = some i := by
  obtain ⟨⟨i', hi'⟩, hlt, hbe⟩ := (hc.spans b blk hblk).ends
  constructor
  · rintro ⟨hi, hb, hlast⟩
    have hle := ((hc.spans b blk hblk).between q i (lt_length hi) hi hb).2
    have hge := hlast _ i' hi' hbe
    exact ⟨by omega, hi⟩
  · rintro ⟨rfl, hi⟩
    exact ⟨hi, hbe, fun r j hj hr => ((hc.spans b blk hblk).between r j (lt_length hj) hj hr).2⟩

theorem connectFrom_get {blocks : List BasicBlock} {ids : List (Finset Nat)}
    (h : c.connectFrom f fid a blocks = .ok ids) (hblk : blocks[b]? = some blk) :
    ∃ succ, c.connectBlock f fid a blk = .ok succ ∧ ids[b]? = some succ := by
  induction blocks generalizing ids b with
  | nil => cases hblk
  | cons blk' blocks ih =>
    obtain ⟨x, hx, h⟩ := bind_eq_ok.mp h
    obtain ⟨rest, hrest, h⟩ := bind_eq_ok.mp h
    obtain rfl := Except.ok.inj h
    cases b with
    | zero =>
      obtain rfl := Option.some.inj hblk
      exact ⟨x, hx, rfl⟩
    | succ b =>
      obtain ⟨succ, hsucc, hget⟩ := ih hrest hblk
      exact ⟨succ, hsucc, hget⟩

theorem exists_connectFrom {blocks : List BasicBlock}
    (h : ∀ blk ∈ blocks, ∃ succ, c.connectBlock f fid a blk = .ok succ) :
    ∃ ids, c.connectFrom f fid a blocks = .ok ids := by
  induction blocks with
  | nil => exact ⟨[], rfl⟩
  | cons blk blocks ih =>
    obtain ⟨x, hx⟩ := h blk List.mem_cons_self
    obtain ⟨rest, hrest⟩ := ih fun blk' hmem => h blk' (List.mem_cons_of_mem blk hmem)
    refine ⟨x :: rest, ?_⟩
    unfold BasicBlocks.connectFrom
    rw [hx, ok_bind, hrest, ok_bind]

theorem edgesExact_iff_blocks (f : Function) (fid : FuncId) (a : Assembled)
    (hcut : ∀ c, f.createBasicBlocks = .ok c → c.connectBasicBlocks f fid a ≠ .error .wildPointer →
      f.WellCut c) : f.EdgesExact fid a ↔ ∃ c, f.createBasicBlocks = .ok c ∧ f.WellCut c ∧
      ∀ (b : Nat) (blk : BasicBlock), c.blocks[b]? = some blk → ∃ i, f.inst? blk.ptxEnd = some i ∧
        f.BlockExact fid a c blk i := by
  constructor
  · rintro ⟨c, ids, hc, hids, hall⟩
    have hwell := hcut c hc (by rw [hids]; intro h; cases h)
    refine ⟨c, hc, hwell, fun b blk hblk => ?_⟩
    obtain ⟨succ, hsucc, hget⟩ := connectFrom_get hids hblk
    obtain ⟨q, i, hlast, hmem⟩ := hall b (List.getElem?_eq_some_iff.mp hblk).1
    obtain ⟨rfl, hi⟩ := (hwell.lastInst_iff hblk).mp hlast
    rw [List.getD_eq_getElem?_getD, hget, Option.getD_some] at hmem
    exact ⟨i, hi, succ, hsucc, hmem⟩
  · rintro ⟨c, hc, hwell, hall⟩
    obtain ⟨ids, hids⟩ : ∃ ids, c.connectFrom f fid a c.blocks = .ok ids := by
      apply exists_connectFrom
      intro blk hmem
      obtain ⟨b, hblk⟩ := List.getElem?_of_mem hmem
      obtain ⟨i, -, succ, hsucc, -⟩ := hall b blk hblk
      exact ⟨succ, hsucc⟩
    refine ⟨c, ids, hc, hids, fun b hb => ?_⟩
    have hblk := List.getElem?_eq_getElem hb
    obtain ⟨i, hi, succ, hsucc, hmem⟩ := hall b _ hblk
    obtain ⟨succ', hsucc', hget⟩ := connectFrom_get hids hblk
    obtain rfl := Except.ok.inj (hsucc.symm.trans hsucc')
    refine ⟨_, i, (hwell.lastInst_iff hblk).mpr ⟨rfl, hi⟩, ?_⟩
    rw [List.getD_eq_getElem?_getD, hget, Option.getD_some]
    exact hmem

theorem connectBasicBlocks_twoLabels (hblk : ∃ blk, c.blocks[0]? = some blk ∧ blk.ptxEnd = 0)
    (htwo : f.TwoLabelsFirst) : c.connectBasicBlocks f fid a = .error .wildPointer := by
  obtain ⟨blk, hblk, hend⟩ := hblk
  obtain ⟨⟨name, hname⟩, -⟩ := htwo
  unfold BasicBlocks.connectBasicBlocks
  cases hblocks : c.blocks with
  | nil =>
    rw [hblocks] at hblk
    cases hblk
  | cons blk' blocks =>
    rw [hblocks] at hblk
    obtain rfl := Option.some.inj hblk
    unfold BasicBlocks.connectFrom BasicBlocks.connectBlock
    rw [hend, inst?_eq_none_of_label hname]
    rfl

theorem wellCut_of_connected (hc : f.createBasicBlocks = .ok c)
    (hids : c.connectBasicBlocks f fid a ≠ .error .wildPointer) : f.WellCut c := by
  have htwo : ¬ f.TwoLabelsFirst := by
    intro htwo
    exact hids (connectBasicBlocks_twoLabels (f.createBasicBlocks_twoLabels htwo hc) htwo)
  have hfirst : f.findNextRealInstruction 0 < f.items.length := by
    obtain ⟨_, hfirst, -⟩ := bind_eq_ok.mp hc
    exact assert_eq_ok.mp hfirst
  obtain ⟨c', hc', hwell⟩ := createBasicBlocks_spec hfirst htwo
  obtain rfl := Except.ok.inj (hc.symm.trans hc')
  exact hwell

/-- **The edges of a function** in terms of its instructions. -/
theorem Program.Good.edgesExact_iff_edgesOk (hg : Program.Good f fid fresh s a) :
    f.EdgesExact fid a ↔ f.EdgesOk := by
  rw [edgesExact_iff_blocks f fid a fun c hc hids => wellCut_of_connected hc hids]
  constructor
  · rintro ⟨c, hc, hwell, hall⟩
    have hok : ∀ e i, f.inst? e = some i → f.EndsAt e → f.BlockOk e i := by
      intro e i hi hend
      obtain ⟨b, blk, hblk, rfl⟩ := hwell.complete e i hi hend
      obtain ⟨i', hi', hexact⟩ := hall b blk hblk
      obtain rfl := Option.some.inj (hi.symm.trans hi')
      exact blockOk_of_exact hg hwell hblk hi hexact
    constructor
    · intro htwo
      obtain ⟨blk, hblk, hend⟩ := f.createBasicBlocks_twoLabels htwo hc
      obtain ⟨i, hi, -⟩ := hall 0 blk hblk
      obtain ⟨⟨name, hname⟩, -⟩ := htwo
      rw [hend, inst?_eq_none_of_label hname] at hi
      cases hi
    · -- the last of all instructions ends a block
      have hlast : ∃ e i, f.inst? e = some i ∧ ∀ k, e < k → f.inst? k = none := by
        obtain ⟨_, hfirst, -⟩ := bind_eq_ok.mp hc
        obtain ⟨i, hi⟩ := firstInst_findNextRealInstruction (assert_eq_ok.mp hfirst)
        obtain ⟨n, hn⟩ := Nat.exists_eq_add_of_lt (lt_length hi.inst)
        have hmax := Nat.findGreatest_spec (P := fun k => (f.inst? k).isSome)
          (lt_length hi.inst).le (by rw [hi.inst]; rfl)
        obtain ⟨j, hj⟩ := Option.isSome_iff_exists.mp hmax
        refine ⟨_, j, hj, fun k hk => ?_⟩
        cases hik : f.inst? k with
        | none => rfl
        | some j' =>
          have := Nat.findGreatest_is_greatest hk (lt_length hik).le
          rw [hik] at this
          exact absurd rfl this
      obtain ⟨e, i, hi, hend⟩ := hlast
      have hblock := hok e i hi (.inr hend)
      refine ⟨e, i, hi, hend, ?_⟩
      by_contra hno
      obtain ⟨r, j, hr⟩ := hblock.stops (fun h => hno (.inl h)) fun h => hno (.inr h)
      have := hr.inst
      rw [hend r hr.le] at this
      cases this
    · intro p i hi hlast
      exact (hok p i hi (hlast.endsAt hi)).targets
    · intro p i hi hlast
      exact (hok p i hi (hlast.endsAt hi)).returns
    · intro p i hi hlast
      exact (hok p i hi (hlast.endsAt hi)).exits
    · intro p i hi hlast
      exact (hok p i hi (hlast.endsAt hi)).direct
  · intro h
    obtain ⟨p, i, hi, hend, hstop⟩ := h.stops
    have hfirst : f.findNextRealInstruction 0 < f.items.length := by
      by_contra hge
      obtain ⟨name, hname⟩ := (f.nextReal 0).labels p (Nat.zero_le p)
        (by have := lt_length hi; omega)
      rw [inst?_eq_none_of_label hname] at hi
      cases hi
    obtain ⟨c, hc, hwell⟩ := createBasicBlocks_spec hfirst h.oneLabel
    refine ⟨c, hc, hwell, fun b blk hblk => ?_⟩
    obtain ⟨⟨j, hj⟩, -⟩ := (hwell.spans b blk hblk).ends
    have hends : f.EndsAt blk.ptxEnd := hwell.ends b blk hblk
    refine ⟨j, hj, exact_of_blockOk hg hwell hj ⟨?_, ?_, ?_, ?_, ?_⟩⟩
    · exact h.returns _ j hj (hends.final hj)
    · intro hret hjump
      rcases hends with ⟨l, hlt, -, -, r, j', hlr, hj'⟩ | hnone
      · exact exists_firstInst_succ hj' (by omega)
      · -- the last instruction of the function does not let threads through
        exfalso
        have heq : blk.ptxEnd = p := by
          rcases Nat.lt_trichotomy blk.ptxEnd p with hlt | heq | hgt
          · rw [hnone p hlt] at hi
            cases hi
          · exact heq
          · rw [hend _ hgt] at hj
            cases hj
        rw [heq, hi] at hj
        obtain rfl := Option.some.inj hj
        rcases hstop with hstop | hstop
        · exact hret hstop
        · exact hjump hstop
    · exact h.targets _ j hj (hends.final hj)
    · exact h.exits _ j hj (hends.final hj)
    · exact h.direct _ j hj (hends.final hj)

end Blocks

/-- **The edges of the basic blocks.** In an assembled function the successors that
`connect_basic_blocks` gives the blocks are those that some thread can execute next, exactly when the
function does not begin with two labels, stays in its code, has no code behind a predicated return or
exit, and no other block ends in an instruction with `.exit` and none in a `brx`. -/
theorem edgesExact_iff (code : FuncId → Function) (fresh : FuncId → Nat → Slot)
    (calls : List FuncId) {s : Program} {fid : FuncId} {a : Assembled}
    (hs : Program.init.assembleAll code fresh calls = .ok s) (ha : s.funcs fid = some a) :
    (code fid).EdgesExact fid a ↔ (code fid).EdgesOk :=
  ((Program.inv_init.assembleAll hs).good fid a ha).edgesExact_iff_edgesOk

/-- `loop: @p bra loop; exit`. -/
def loopFunction : Function where
  items := [.label "loop", .inst { opcode := .BRA, hasPred := true, target := "loop" },
    .inst { opcode := .EXIT }]
  labels_nodup := by decide

theorem edgesOk_loopFunction : loopFunction.EdgesOk where
  oneLabel := by
    rintro ⟨-, name, h⟩
    cases h
  stops := by
    refine ⟨2, _, rfl, fun k hk => ?_, .inl (by decide)⟩
    cases hi : loopFunction.inst? k with
    | none => rfl
    | some j =>
      have : k < 3 := lt_length hi
      omega
  targets p i hi _ hop := by
    have hp : p < 3 := lt_length hi
    interval_cases p
    · cases hi
    · obtain rfl := Option.some.inj hi
      exact ⟨1, 0, _, rfl, (FirstInst.self rfl).of_label rfl⟩
    · obtain rfl := Option.some.inj hi
      cases hop
  returns p i hi _ hret hpred := by
    have hp : p < 3 := lt_length hi
    interval_cases p
    · cases hi
    · obtain rfl := Option.some.inj hi
      exact absurd hret (by decide)
    · obtain rfl := Option.some.inj hi
      cases hpred
  exits p i hi _ hexit := by
    have hp : p < 3 := lt_length hi
    interval_cases p
    · cases hi
    · obtain rfl := Option.some.inj hi
      cases hexit
    · obtain rfl := Option.some.inj hi
      cases hexit
  direct p i hi _ := by
    have hp : p < 3 := lt_length hi
    interval_cases p
    · cases hi
    · obtain rfl := Option.some.inj hi
      decide
    · obtain rfl := Option.some.inj hi
      decide

/-- The loop has the edges it should have. -/
theorem edgesExact_iff_loopFunction : ∃ s a,
    Program.init.assembleAll (fun _ => loopFunction) (fun _ _ => none) [0] = .ok s ∧
      s.funcs 0 = some a ∧ loopFunction.EdgesExact 0 a :=
  ⟨_, _, rfl, rfl, (edgesExact_iff (fun _ => loopFunction) (fun _ _ => none) [0] rfl rfl).mpr
    edgesOk_loopFunction⟩

/-- `mov; @p exit; exit`. -/
def guardedExit : Function where
  items := [.inst { opcode := .OTHER }, .inst { opcode := .EXIT, hasPred := true },
    .inst { opcode := .EXIT }]
  labels_nodup := by decide

/-- The block that ends in the predicated exit has no edge to the block with the other one. -/
theorem edgesExact_guardedExit : ∃ s a,
    Program.init.assembleAll (fun _ => guardedExit) (fun _ _ => none) [0] = .ok s ∧
      s.funcs 0 = some a ∧ ¬ guardedExit.EdgesExact 0 a := by
  refine ⟨_, _, rfl, rfl, fun h => ?_⟩
  have hinv : Program.Inv (fun _ => guardedExit) (fun _ _ => none) _ :=
    Program.inv_init.assembleAll (show Program.init.assembleAll _ _ [0] = _ from rfl)
  have hok := (hinv.good 0 _ rfl).edgesExact_iff_edgesOk.mp h
  have hnone := hok.returns 1 _ rfl (.inr (by decide)) (by decide) rfl 2 (by decide)
  cases hnone

end GpgpuSimRuby.Ptx
