import GpgpuSimRuby.Ptx.Assemble

/-!
# The instruction tables

What the later phases rely on when they index the two instruction tables, and what it depends on: the
slots of `m_instr_mem` behind the last instruction are never written, so that they are empty only if
the allocator hands them out empty.
-/

namespace GpgpuSimRuby.Ptx

open Library

/-- The layout of all functions that have been assembled. -/
structure LaidOut (code : FuncId → Function) (s : Program) : Prop where
  /-- The PC ranges of two functions are disjoint. -/
  disjoint : ∀ f g a b, f ≠ g → s.funcs f = some a → s.funcs g = some b →
    a.startPC + (code f).codeSize ≤ b.startPC ∨ b.startPC + (code g).codeSize ≤ a.startPC
  /-- Each starts on a multiple of `MAX_INST_SIZE`. -/
  aligned : ∀ f a, s.funcs f = some a → a.startPC % maxInstSize = 0
  /-- Every instruction is in both tables, in its function's range and at its index. -/
  insts : ∀ f a p i, s.funcs f = some a → (code f).inst? p = some i → ∃ pc index,
    a.placed p = some (pc, index) ∧ s.pcToInstruction pc = some (f, p) ∧
      a.getInstruction pc = some (f, p) ∧ a.instrMem index = some (f, p) ∧
      a.startPC ≤ pc ∧ index = pc - a.startPC ∧
      pc + i.size.bytes ≤ a.startPC + (code f).codeSize
  /-- Every other slot of `s_g_pc_to_insn` is empty. -/
  insnsElse : ∀ pc f p, s.pcToInstruction pc = some (f, p) →
    ∃ a index, s.funcs f = some a ∧ a.placed p = some (pc, index)
  /-- Every other slot of `m_instr_mem` is empty. -/
  instrMemElse : ∀ f a j g p, s.funcs f = some a → j < a.instrMemSize →
    a.instrMem j = some (g, p) → g = f ∧ ∃ pc, a.placed p = some (pc, j)
  /-- A branch label has the PC of the first instruction after it. -/
  labels : ∀ f a p i, s.funcs f = some a → (code f).inst? p = some i → i.HasLabel →
    ∃ q pc index, (code f).LabelOf i.target q ∧ a.placed q = some (pc, index) ∧
      a.addresses i.target = some pc

/-- The slots behind the last instruction have been handed out empty. -/
def TailsEmpty (code : FuncId → Function) (fresh : FuncId → Nat → Slot) (s : Program) : Prop :=
  ∀ f a, s.funcs f = some a → ∀ j, (code f).codeSize ≤ j → j < a.instrMemSize → fresh f j = none

section

variable {code : FuncId → Function} {fresh : FuncId → Nat → Slot} {s : Program}

theorem Function.codeSize_lt (f : Function) : f.codeSize < maxInstSize * (f.items.length + 1) := by
  have hle : ∀ items : List Item, (items.map Item.size).sum ≤ 8 * items.length := by
    intro items
    induction items with
    | nil => exact le_rfl
    | cons it items ih =>
      have : it.size ≤ 8 := by
        cases it with
        | label => exact Nat.zero_le _
        | inst i => exact i.size.bytes_le
      rw [List.map_cons, List.sum_cons, List.length_cons]
      omega
  have hall := hle (f.items.take f.items.length)
  rw [List.take_length] at hall
  unfold codeSize offset maxInstSize
  rw [List.take_length]
  omega

theorem Program.pcToInstruction_eq_some {pc : Nat} {r : InstRef} :
    s.pcToInstruction pc = some r ↔ s.insns[pc]? = some (some r) := by
  unfold pcToInstruction
  cases s.insns[pc]? with
  | none => simp
  | some slot => simp

theorem Program.Inv.laidOut (h : Inv code fresh s)
    (hfollowed : ∀ fid, (code fid).Followed) (ht : TailsEmpty code fresh s) :
    LaidOut code s where
  disjoint f g a b hne ha hb := h.disjoint f g a b hne ha hb
  aligned f a ha := (h.good f a ha).aligned
  insts f a p i ha hi := by
    obtain ⟨hplaced, hinsn, hmem, -⟩ := (h.good f a ha).insn p i hi
    have hlt := Function.offset_lt_codeSize hi
    have hsize := (code f).codeSize_lt
    refine ⟨_, _, hplaced, pcToInstruction_eq_some.mpr hinsn, ?_, hmem, by omega, by omega, ?_⟩
    · unfold Assembled.getInstruction
      rw [(h.good f a ha).size, if_pos ⟨by omega, by omega⟩, Nat.add_sub_cancel_left]
      exact hmem
    · have := Function.offset_add_le hi (Function.lt_length hi)
      unfold Function.codeSize
      omega
  insnsElse pc f p hpc := by
    obtain ⟨a, i, ha, hi, rfl⟩ := h.insnsElse pc (f, p) (pcToInstruction_eq_some.mp hpc)
    exact ⟨a, _, ha, ((h.good f a ha).insn p i hi).1⟩
  instrMemElse f a j g p ha hj hr := by
    by_cases hcode : j < (code f).codeSize
    · obtain ⟨hg, i, hi, rfl⟩ := (h.good f a ha).memElse j (g, p) hcode hr
      exact ⟨hg, _, ((h.good f a ha).insn p i hi).1⟩
    · rw [(h.good f a ha).memTail j (by omega), ht f a ha j (by omega) hj] at hr
      cases hr
  labels f a p i ha hi hlabel := by
    obtain ⟨q, hq, haddr⟩ := (h.good f a ha).addresses (hfollowed f) p i hi hlabel
    have hlabelOf := hq
    obtain ⟨_, j, _, hfirst⟩ := hlabelOf
    exact ⟨q, _, _, hq, ((h.good f a ha).insn q j hfirst.inst).1, haddr⟩

theorem Program.Inv.tailsEmpty (h : Inv code fresh s) (hl : LaidOut code s) : TailsEmpty code fresh s := by
  intro f a ha j hcode hj
  by_contra hne
  obtain ⟨⟨g, p⟩, hr⟩ := Option.ne_none_iff_exists'.mp hne
  rw [← (h.good f a ha).memTail j hcode] at hr
  obtain ⟨-, pc, hplaced⟩ := hl.instrMemElse f a j g p ha hj hr
  obtain ⟨i, hi, rfl⟩ := (h.good f a ha).placedElse p pc j hplaced
  have := Function.offset_lt_codeSize hi
  omega

end

/-- **Instruction layout.** A sequence of calls of `ptx_assemble` stops only at a branch whose label
does not appear, and lays out all instructions and labels as the later phases expect, exactly when the
slots of `m_instr_mem` behind the last instructions were empty in the first place. -/
theorem laidOut_iff (code : FuncId → Function) (fresh : FuncId → Nat → Slot)
    (calls : List FuncId) (hfollowed : ∀ fid, (code fid).Followed) :
    (∀ e, Program.init.assembleAll code fresh calls = .error e → e = .branchLabel) ∧
      ∀ s, Program.init.assembleAll code fresh calls = .ok s →
        (LaidOut code s ↔ TailsEmpty code fresh s) := by
  constructor
  · intro e he
    exact Program.inv_init.assembleAll_error hfollowed he
  · intro s hs
    have h := Program.inv_init.assembleAll hs
    exact ⟨h.tailsEmpty, h.laidOut hfollowed⟩

/-- A function that only exits. -/
def exitFunction : Function where
  items := [.inst { opcode := .EXIT }]
  labels_nodup := by decide

theorem exitFunction_followed : exitFunction.Followed := by
  simp [Function.Followed, exitFunction]

/-- In empty memory its table is as it should be. -/
theorem laidOut_iff_exitFunction : ∃ s,
    Program.init.assembleAll (fun _ => exitFunction) (fun _ _ => none) [0] = .ok s ∧
      LaidOut (fun _ => exitFunction) s :=
  ⟨_, rfl, ((laidOut_iff (fun _ => exitFunction) (fun _ _ => none) [0]
    fun _ => exitFunction_followed).2 _ rfl).mpr fun _ _ _ _ _ _ => rfl⟩

/-- Memory in which a pointer is left behind at slot `8`. -/
def dirtyMemory (_ : FuncId) (j : Nat) : Slot := if j = 8 then some (1, 0) else none

/-- In used memory the slot after the last instruction is not empty. -/
theorem laidOut_dirtyMemory : ∃ s,
    Program.init.assembleAll (fun _ => exitFunction) dirtyMemory [0] = .ok s ∧
      ¬ LaidOut (fun _ => exitFunction) s := by
  refine ⟨_, rfl, fun h => ?_⟩
  obtain ⟨hg, -⟩ := h.instrMemElse 0 _ 8 1 0 rfl (by decide) rfl
  exact absurd hg (by decide)

end GpgpuSimRuby.Ptx
