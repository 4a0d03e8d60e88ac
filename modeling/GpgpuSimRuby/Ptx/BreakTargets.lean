import GpgpuSimRuby.Ptx.BlockEdges
import GpgpuSimRuby.Ptx.Dominators

/-!
# The targets of breaks

The loop of `ptx_assemble` that gives the blocks which end in a `break` their successors:
`find_dominators`, `find_idominators` and `connect_break_targets` until nothing changes, where
`connect_break_targets` looks for the last `breakaddr` up the dominator tree, in `find_break_target`.

* The search stops at a block without an immediate dominator and does not look into it.
* `insn_addr` is unsigned. Below `0` it is behind all of the instruction memory.
* The loops have a fuel, which is shared by those inside one round.
-/

namespace GpgpuSimRuby.Ptx

open Library

/-- What can go wrong in the loop: in the code, in the analysis of the dominators (that there is an
entry block, and what `find_idominators` asserts), and that no `breakaddr` is found. -/
inductive BreakFault where
  | code (e : AssembleFault)
  | entryBlock
  | dominators (e : DomAssertion)
  | noBreakaddr
  | running
  deriving DecidableEq, Repr

namespace BasicBlocks

/-- A `bb_id`. The last one is that of the exit block. -/
abbrev Id (c : BasicBlocks) := Fin (c.blocks.length + 1)

/-- `successor_ids` of all blocks. -/
abbrev Graph (c : BasicBlocks) := c.Id → Finset c.Id

variable (c : BasicBlocks)

/-- The graph with the `successor_ids` of a list, none for the exit block. -/
def graph (successorIds : List (Finset Nat)) : c.Graph :=
  fun b => Finset.univ.filter fun d => d.val ∈ successorIds.getD b ∅

variable (f : Function) (fid : FuncId) (a : Assembled)

/-- One turn of the reverse search: `rest` is what comes out of the turns after it. -/
def lookAt (insnAddr : Nat) (rest : Except BreakFault (Option Inst)) :
    Except BreakFault (Option Inst) := do
  let slot ← (a.slot f insnAddr).mapError .code
  match slot with
  | none => rest
  | some (g, p) =>
    match f.inst? p with
    | some i =>
      if g = fid then (if i.opcode = .BREAKADDR then .ok (some i) else rest)
      else .error (.code .wildPointer)
    | none => .error (.code .wildPointer)

/-- The reverse search through a block, whose first instruction has the index `ptxBegin`, from
`insn_addr` on. -/
def searchBack (ptxBegin : Nat) : Nat → Except BreakFault (Option Inst)
  | 0 =>
    if ptxBegin ≤ 0 then lookAt f fid a 0 (.error (.code .wildPointer)) else .ok none
  | insnAddr + 1 =>
    if ptxBegin ≤ insnAddr + 1 then lookAt f fid a (insnAddr + 1) (searchBack ptxBegin insnAddr)
    else .ok none

/-- The search in a block. The exit block has neither a first nor a last instruction. -/
def searchBlock (b : c.Id) : Except BreakFault (Option Inst) :=
  match c.blocks[b.val]? with
  | some blk =>
    match a.placed blk.ptxBegin, a.placed blk.ptxEnd with
    | some (_, first), some (_, last) => searchBack f fid a first last
    | _, _ => .error (.code .wildPointer)
  | none => .error (.code .wildPointer)

/-- `function_info::find_break_target` from block `b` on. -/
def findBreakTarget (immediatedominatorId : c.Id → Option c.Id) :
    Nat → c.Id → Except BreakFault Inst
  | 0, _ => .error .running
  | fuel + 1, b =>
    match immediatedominatorId b with
    | none => .error .noBreakaddr
    | some d => do
      let found ← c.searchBlock f fid a b
      match found with
      | some i => .ok i
      | none => findBreakTarget immediatedominatorId fuel d

/-- `get_bb` of the instruction in a slot. -/
def bbOf (slot : Slot) : Except BreakFault c.Id := do
  let b ← (c.getBb fid slot).mapError .code
  if h : b < c.blocks.length + 1 then .ok ⟨b, h⟩ else .error (.code .wildPointer)

/-- `m_instr_mem[index]->get_bb()`. -/
def bbAt (index : Nat) : Except BreakFault c.Id := do
  let slot ← (a.slot f index).mapError .code
  c.bbOf fid slot

/-- The successors of a block that ends in the `break` at `q`, which is at `index`. -/
def breakIds (immediatedominatorId : c.Id → Option c.Id) (fuel q : Nat) (i : Inst) (index : Nat) :
    Except BreakFault (Finset c.Id) := do
  let breakBb ← c.bbOf fid (some (fid, q))
  let target ← c.findBreakTarget f fid a immediatedominatorId fuel breakBb
  let targetBb ← c.bbAt f fid a ((a.labels target.target).getD 0)
  if i.hasPred then do
    let nextBb ← c.bbAt f fid a (index + i.size.bytes)
    .ok {targetBb, nextBb}
  else .ok {targetBb}

/-- One turn of the loop over the blocks: `successor_ids`, and `modified`. -/
def connectBreak (immediatedominatorId : c.Id → Option c.Id) (fuel : Nat) (b : c.Id)
    (s : c.Graph × Bool) : Except BreakFault (c.Graph × Bool) :=
  match c.blocks[b.val]? with
  | some blk =>
    match f.inst? blk.ptxEnd, a.placed blk.ptxEnd with
    | some i, some (_, index) =>
      if i.opcode = .BREAK then do
        let ids ← c.breakIds f fid a immediatedominatorId fuel blk.ptxEnd i index
        .ok (Function.update s.1 b ids, s.2 || decide (s.1 b ≠ ids))
      else .ok s
    | _, _ => .ok s
  | none => .ok s

/-- The loop over the blocks. -/
def connectBreaks (immediatedominatorId : c.Id → Option c.Id) (fuel : Nat) :
    List c.Id → c.Graph × Bool → Except BreakFault (c.Graph × Bool)
  | [], s => .ok s
  | b :: blocks, s => do
    let s ← c.connectBreak f fid a immediatedominatorId fuel b s
    connectBreaks immediatedominatorId fuel blocks s

/-- `function_info::connect_break_targets`. -/
def connectBreakTargets (immediatedominatorId : c.Id → Option c.Id) (fuel : Nat) (g : c.Graph) :
    Except BreakFault (c.Graph × Bool) :=
  c.connectBreaks f fid a immediatedominatorId fuel (List.finRange _) (g, false)

/-- `find_dominators` and `find_idominators`, where `old` is `immediatedominator_id` from the round
before. -/
def analyseDominators (fuel : Nat) (g : c.Graph) (old : c.Id → Option c.Id) :
    Except BreakFault (c.Id → Option c.Id) :=
  if h : 2 ≤ c.blocks.length + 1 then
    match Cfg.findDominators ⟨_, h, g⟩ fuel with
    | none => .error .running
    | some dominatorIds => (Cfg.findIdominators ⟨_, h, g⟩ dominatorIds old).mapError .dominators
  else .error .entryBlock

/-- The loop of `ptx_assemble`: the graph in the end, and `immediatedominator_id`. -/
def breakRounds (fuel : Nat) :
    Nat → c.Graph × (c.Id → Option c.Id) → Except BreakFault (c.Graph × (c.Id → Option c.Id))
  | 0, _ => .error .running
  | rounds + 1, s => do
    let idom ← c.analyseDominators fuel s.1 s.2
    let r ← c.connectBreakTargets f fid a idom fuel s.1
    if r.2 then breakRounds fuel rounds (r.1, idom) else .ok (r.1, idom)

end BasicBlocks

/-! ## The reverse search -/

namespace BasicBlocks

/-- The block ends in the `break` at `q`. -/
def EndsInBreak (f : Function) (c : BasicBlocks) (b : c.Id) (q : Nat) (i : Inst) : Prop :=
  ∃ blk, c.blocks[b.val]? = some blk ∧ blk.ptxEnd = q ∧ f.inst? q = some i ∧ i.opcode = .BREAK

/-- The `breakaddr` at `q` is in the block. -/
def BreakaddrIn (f : Function) (c : BasicBlocks) (b : c.Id) (q : Nat) (i : Inst) : Prop :=
  f.inst? q = some i ∧ c.bb q = some b.val ∧ i.opcode = .BREAKADDR

/-- The block contains a `breakaddr`. -/
def HasBreakaddr (f : Function) (c : BasicBlocks) (b : c.Id) : Prop := ∃ q i, BreakaddrIn f c b q i

/-- The last `breakaddr` of the block. -/
def LastBreakaddr (f : Function) (c : BasicBlocks) (b : c.Id) (i : Inst) : Prop :=
  ∃ q, BreakaddrIn f c b q i ∧ ∀ r j, BreakaddrIn f c b r j → r ≤ q

end BasicBlocks

section Search

variable {f : Function} {fid : FuncId} {fresh : Nat → Slot} {s : Program} {a : Assembled}
  {c : BasicBlocks} {p q r addr first : Nat} {i j : Inst} {blk : BasicBlock}

theorem slot_cases (hg : Program.Good f fid fresh s a) (h : addr < f.codeSize) :
    (∃ q i, f.inst? q = some i ∧ addr = f.offset q ∧ a.slot f addr = .ok (some (fid, q))) ∨
      (∀ q i, f.inst? q = some i → addr ≠ f.offset q) ∧ a.slot f addr = .ok none := by
  unfold Assembled.slot
  rw [if_pos h]
  cases hslot : a.instrMem addr with
  | none =>
    refine .inr ⟨?_, rfl⟩
    rintro q i hi rfl
    rw [(hg.insn q i hi).2.2.1] at hslot
    cases hslot
  | some x =>
    obtain ⟨hx, i, hi, heq⟩ := hg.memElse addr x h hslot
    exact .inl ⟨x.2, i, hi, heq, by rw [← hx]⟩

theorem lookAt_eq (hg : Program.Good f fid fresh s a) (h : addr < f.codeSize)
    (rest : Except BreakFault (Option Inst)) :
    (∃ q i, f.inst? q = some i ∧ addr = f.offset q ∧ i.opcode = .BREAKADDR ∧
      BasicBlocks.lookAt f fid a addr rest = .ok (some i)) ∨
    (∀ q i, f.inst? q = some i → addr = f.offset q → i.opcode ≠ .BREAKADDR) ∧
      BasicBlocks.lookAt f fid a addr rest = rest := by
  unfold BasicBlocks.lookAt
  rcases slot_cases hg h with ⟨q, i, hi, heq, hslot⟩ | ⟨hno, hslot⟩
  · rw [hslot, Except.mapError, ok_bind]
    simp only [hi, if_pos]
    by_cases hop : i.opcode = .BREAKADDR
    · rw [if_pos hop]
      exact .inl ⟨q, i, hi, heq, hop, rfl⟩
    · rw [if_neg hop]
      refine .inr ⟨?_, rfl⟩
      intro r j hj hr
      obtain rfl := Function.offset_injective hi hj (heq.symm.trans hr)
      obtain rfl := Option.some.inj (hi.symm.trans hj)
      exact hop
  · rw [hslot, Except.mapError, ok_bind]
    exact .inr ⟨fun q i hi heq => absurd heq (hno q i hi), rfl⟩

/-- **The reverse search** finds the last `breakaddr` between two places, if it does not begin at the
very first one. -/
theorem searchBack_spec (hg : Program.Good f fid fresh s a) (hfirst : 0 < first) (h : addr < f.codeSize) :
    (∃ q i, f.inst? q = some i ∧ i.opcode = .BREAKADDR ∧ first ≤ f.offset q ∧ f.offset q ≤ addr ∧
      (∀ r j, f.inst? r = some j → j.opcode = .BREAKADDR → f.offset r ≤ addr → r ≤ q) ∧
      BasicBlocks.searchBack f fid a first addr = .ok (some i)) ∨
    (∀ r j, f.inst? r = some j → j.opcode = .BREAKADDR → first ≤ f.offset r → ¬ f.offset r ≤ addr) ∧
      BasicBlocks.searchBack f fid a first addr = .ok none := by
  induction addr with
  | zero =>
    refine .inr ⟨fun r j _ _ hle h0 => by omega, ?_⟩
    unfold BasicBlocks.searchBack
    exact if_neg (by omega)
  | succ addr ih =>
    unfold BasicBlocks.searchBack
    by_cases hle : first ≤ addr + 1
    swap
    · exact .inr ⟨fun r j _ _ hr h0 => by omega, if_neg hle⟩
    rw [if_pos hle]
    rcases lookAt_eq hg h (BasicBlocks.searchBack f fid a first addr) with
      ⟨q, i, hi, heq, hop, hlook⟩ | ⟨hno, hlook⟩
    · refine .inl ⟨q, i, hi, hop, by omega, by omega, ?_, hlook⟩
      intro r j hj _ hr
      by_contra hlt
      have := Function.offset_lt hi (Nat.lt_of_not_le hlt)
      omega
    · rw [hlook]
      have hskip : ∀ r j, f.inst? r = some j → j.opcode = .BREAKADDR → f.offset r ≤ addr + 1 →
          f.offset r ≤ addr := by
        intro r j hj hop hr
        have hne : addr + 1 ≠ f.offset r := fun heq => hno r j hj heq hop
        omega
      rcases ih (by omega) with ⟨q, i, hi, hop, hq, hqa, hlast, hfound⟩ | ⟨hnone, hfound⟩
      · exact .inl ⟨q, i, hi, hop, hq, by omega,
          fun r j hj hop hr => hlast r j hj hop (hskip r j hj hop hr), hfound⟩
      · exact .inr ⟨fun r j hj hop hr hra => hnone r j hj hop hr (hskip r j hj hop hra), hfound⟩

theorem offset_ptxBegin_pos (hc : f.WellCut c) {b : Nat} (hb : 0 < b)
    (hblk : c.blocks[b]? = some blk) : 0 < f.offset blk.ptxBegin := by
  have hlen := (List.getElem?_eq_some_iff.mp hblk).1
  have h0 := List.getElem?_eq_getElem (show 0 < c.blocks.length by omega)
  obtain ⟨⟨i₀, hi₀⟩, -, hb₀⟩ := (hc.spans 0 _ h0).begins
  obtain ⟨⟨i, hi⟩, -, hbb⟩ := (hc.spans b blk hblk).begins
  rcases Nat.lt_trichotomy blk.ptxBegin c.blocks[0].ptxBegin with hlt | heq | hgt
  · have := hc.mono _ _ i i₀ b 0 hlt hi hi₀ hbb hb₀
    omega
  · rw [heq, hb₀] at hbb
    have := Option.some.inj hbb
    omega
  · have := Function.offset_lt hi₀ hgt
    omega

/-- **The search in a block** other than the entry finds its last `breakaddr`. -/
theorem searchBlock_spec (hg : Program.Good f fid fresh s a) (hc : f.WellCut c) {b : c.Id}
    (hb : b ≠ 0) (hblk : c.blocks[b.val]? = some blk) :
    (∃ i, BasicBlocks.LastBreakaddr f c b i ∧ c.searchBlock f fid a b = .ok (some i)) ∨
      ¬ BasicBlocks.HasBreakaddr f c b ∧ c.searchBlock f fid a b = .ok none := by
  have hspan := hc.spans b.val blk hblk
  obtain ⟨⟨i₁, hi₁⟩, -, hb₁⟩ := hspan.begins
  obtain ⟨⟨i₂, hi₂⟩, -, hb₂⟩ := hspan.ends
  have hpos : 0 < b.val := Nat.pos_of_ne_zero fun h0 => hb (Fin.ext h0)
  have hsearch : c.searchBlock f fid a b =
      BasicBlocks.searchBack f fid a (f.offset blk.ptxBegin) (f.offset blk.ptxEnd) := by
    unfold BasicBlocks.searchBlock
    simp only [hblk, (hg.insn _ i₁ hi₁).1, (hg.insn _ i₂ hi₂).1]
  -- the instructions of the block are those between its two ends
  have hin : ∀ q i, BasicBlocks.BreakaddrIn f c b q i →
      f.offset blk.ptxBegin ≤ f.offset q ∧ f.offset q ≤ f.offset blk.ptxEnd := by
    rintro q i ⟨hi, hbb, -⟩
    obtain ⟨hle₁, hle₂⟩ := hspan.between q i (Function.lt_length hi) hi hbb
    exact ⟨Function.offset_mono hle₁, Function.offset_mono hle₂⟩
  have hinv : ∀ q i, f.inst? q = some i → f.offset blk.ptxBegin ≤ f.offset q →
      f.offset q ≤ f.offset blk.ptxEnd → c.bb q = some b.val := by
    intro q i hi hle₁ hle₂
    have hq₁ : blk.ptxBegin ≤ q := by
      by_contra hlt
      have := Function.offset_lt hi (Nat.lt_of_not_le hlt)
      omega
    have hq₂ : q ≤ blk.ptxEnd := by
      by_contra hlt
      have := Function.offset_lt hi₂ (Nat.lt_of_not_le hlt)
      omega
    obtain ⟨d, hd, -⟩ := hc.bb q i hi
    have hge : b.val ≤ d := by
      rcases Nat.eq_or_lt_of_le hq₁ with heq | hlt
      · rw [← heq, hb₁] at hd
        exact (Option.some.inj hd).le
      · exact hc.mono _ q i₁ i b.val d hlt hi₁ hi hb₁ hd
    have hle : d ≤ b.val := by
      rcases Nat.eq_or_lt_of_le hq₂ with heq | hlt
      · rw [heq, hb₂] at hd
        exact (Option.some.inj hd).ge
      · exact hc.mono q _ i i₂ d b.val hlt hi hi₂ hd hb₂
    rw [hd, show d = b.val by omega]
  rw [hsearch]
  rcases searchBack_spec hg (offset_ptxBegin_pos hc hpos hblk) (Function.offset_lt_codeSize hi₂) with
    ⟨q, i, hi, hop, hq₁, hq₂, hlast, hfound⟩ | ⟨hnone, hfound⟩
  · refine .inl ⟨i, ⟨q, ⟨hi, hinv q i hi hq₁ hq₂, hop⟩, ?_⟩, hfound⟩
    intro r j hj
    exact hlast r j hj.1 hj.2.2 (hin r j hj).2
  · refine .inr ⟨?_, hfound⟩
    rintro ⟨q, i, hq⟩
    exact hnone q i hq.1 hq.2.2 (hin q i hq).1 (hin q i hq).2

theorem BasicBlocks.LastBreakaddr.unique {b : c.Id} (h : BasicBlocks.LastBreakaddr f c b i)
    (h' : BasicBlocks.LastBreakaddr f c b j) : i = j := by
  obtain ⟨q, hq, hlast⟩ := h
  obtain ⟨r, hr, hlast'⟩ := h'
  obtain rfl : q = r := Nat.le_antisymm (hlast' q i hq) (hlast r j hr)
  exact Option.some.inj (hq.1.symm.trans hr.1)

end Search

end GpgpuSimRuby.Ptx
