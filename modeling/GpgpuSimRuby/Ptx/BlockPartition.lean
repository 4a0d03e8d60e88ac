import GpgpuSimRuby.Ptx.BlockEdges

/-!
# Basic blocks as a partition

What `create_basic_blocks` should do: control enters a block at its first instruction, and leaves it
after its last.

* Any label may be the target of a branch: of `bra`, `brx`, `callp` and, by `breakaddr`, of `break`.
* `brx` is an indirect branch, and an instruction with the option `.exit` is an exit. The loop that
  collects the leaders treats both like any other instruction.
* That loop starts behind the first instruction.
-/

namespace GpgpuSimRuby.Ptx

open Library

namespace Function

variable {f : Function} {c : BasicBlocks} {b e p q r : Nat} {i j : Inst}
  {blk : BasicBlock} {name : String}

/-- An instruction after which control need not go on to the next one. -/
def Terminator (f : Function) (q : Nat) : Prop :=
  ∃ i, f.inst? q = some i ∧ (i.EndsBlock ∨ i.opcode = .BRX ∨ i.isExit)

/-- A block begins at `r`. -/
def BeginsBlock (c : BasicBlocks) (r : Nat) : Prop :=
  ∃ (b : Nat) (blk : BasicBlock), c.blocks[b]? = some blk ∧ blk.ptxBegin = r

/-- A block ends at `q`. -/
def FinishesBlock (c : BasicBlocks) (q : Nat) : Prop :=
  ∃ (b : Nat) (blk : BasicBlock), c.blocks[b]? = some blk ∧ blk.ptxEnd = q

/-- The instructions are in consecutive blocks, which are entered at the first and left after the last
instruction. -/
structure Partitioned (f : Function) (c : BasicBlocks) : Prop where
  bb : ∀ q i, f.inst? q = some i → ∃ b, c.bb q = some b ∧ b < c.blocks.length
  mono : ∀ q r i j b d, q < r → f.inst? q = some i → f.inst? r = some j →
    c.bb q = some b → c.bb r = some d → b ≤ d
  spans : ∀ (b : Nat) (blk : BasicBlock), c.blocks[b]? = some blk → blk.Spans f c.bb f.items.length b
  labels : ∀ name r, f.LabelOf name r → BeginsBlock c r
  next : ∀ q i r j, f.inst? q = some i → f.FirstInst (q + 1) r j → c.bb q = c.bb r ∨ BeginsBlock c r
  terminators : ∀ q, f.Terminator q → FinishesBlock c q

/-- When `create_basic_blocks` partitions the instructions: there are some, no two labels come before
them, and no instruction follows directly on a branch that the loop does not look at. -/
structure PartitionOk (f : Function) : Prop where
  hasInst : ∃ q i, f.inst? q = some i
  oneLabel : ¬ f.TwoLabelsFirst
  first : f.Terminator 0 → f.inst? 1 = none
  unseen : ∀ q i, f.inst? q = some i → i.opcode = .BRX ∨ i.isExit → ¬ i.EndsBlock →
    f.inst? (q + 1) = none

/-! ## Where blocks begin and end -/

theorem exists_inst_iff : (∃ q i, f.inst? q = some i) ↔ f.findNextRealInstruction 0 < f.items.length := by
  constructor
  · rintro ⟨q, i, hi⟩
    by_contra hge
    obtain ⟨name, hname⟩ := (f.nextReal 0).labels q (Nat.zero_le q) (by have := lt_length hi; omega)
    rw [inst?_eq_none_of_label hname] at hi
    cases hi
  · intro h
    obtain ⟨i, hi⟩ := firstInst_findNextRealInstruction h
    exact ⟨_, i, hi.inst⟩

theorem exists_last_before (hi : f.inst? q = some i) (hqr : q < r) :
    ∃ e j, f.inst? e = some j ∧ q ≤ e ∧ e < r ∧ ∀ k, e < k → k < r → f.inst? k = none := by
  induction r with
  | zero => exact absurd hqr (Nat.not_lt_zero q)
  | succ r ih =>
    cases hr : f.inst? r with
    | some j => exact ⟨r, j, hr, by omega, Nat.lt_succ_self r, fun k h1 h2 => by omega⟩
    | none =>
      have hne : q ≠ r := by
        rintro rfl
        rw [hr] at hi
        cases hi
      obtain ⟨e, j, hj, hqe, her, hnone⟩ := ih (by omega)
      refine ⟨e, j, hj, hqe, by omega, fun k h1 h2 => ?_⟩
      rcases Nat.eq_or_lt_of_le (Nat.le_of_lt_succ h2) with rfl | hlt
      · exact hr
      · exact hnone k h1 hlt

namespace WellCut

theorem beginsBlock (hc : f.WellCut c) (hr : f.inst? r = some i)
    (h : ∀ e j, f.inst? e = some j → e < r → (∀ k, e < k → k < r → f.inst? k = none) → f.EndsAt e) :
    BeginsBlock c r := by
  obtain ⟨b, hb, hlt⟩ := hc.bb r i hr
  have hblk := List.getElem?_eq_getElem hlt
  refine ⟨b, _, hblk, ?_⟩
  have hspan := hc.spans b _ hblk
  generalize c.blocks[b] = blk at hblk hspan
  obtain ⟨hle, -⟩ := hspan.between r i (lt_length hr) hr hb
  obtain ⟨⟨i₀, hi₀⟩, -, hb₀⟩ := hspan.begins
  rcases Nat.eq_or_lt_of_le hle with heq | hlt₀
  · exact heq
  · -- the instruction before `r` would be the last of the same block
    obtain ⟨e, j, hj, hbe, her, hnone⟩ := exists_last_before hi₀ hlt₀
    obtain ⟨d, blk', hblk', hend⟩ := hc.complete e j hj (h e j hj her hnone)
    have hd : c.bb e = some d := hend ▸ (hc.spans d blk' hblk').ends.2.2
    have hle₁ : d ≤ b := hc.mono e r j i d b her hj hr hd hb
    have hle₂ : b ≤ d := by
      rcases Nat.eq_or_lt_of_le hbe with heq | hlt'
      · rw [← heq, hb₀] at hd
        exact (Option.some.inj hd).le
      · exact hc.mono _ e i₀ j b d hlt' hi₀ hj hb₀ hd
    obtain rfl : d = b := by omega
    have := ((hc.spans d blk' hblk').between r i (lt_length hr) hr hb).2
    omega

theorem beginsBlock_of_label (hc : f.WellCut c) (h : f.LabelOf name r) : BeginsBlock c r := by
  obtain ⟨p, i, hp, hi⟩ := h
  apply hc.beginsBlock hi.inst
  intro e j hj her hnone
  refine Final.endsAt hj (.inl ?_)
  have hpr : p ≠ r := by
    rintro rfl
    have := hi.inst
    rw [inst?_eq_none_of_label hp] at this
    cases this
  have hple := hi.le
  have hep : e < p := by
    by_contra hge
    obtain ⟨name', hname⟩ := hi.labels e (by omega) her
    rw [inst?_eq_none_of_label hname] at hj
    cases hj
  rcases Nat.eq_or_lt_of_le (Nat.succ_le_of_lt (Nat.lt_of_lt_of_le hep hple)) with heq | hlt
  · omega
  · exact hnone (e + 1) (Nat.lt_succ_self e) hlt

theorem beginsBlock_of_ne (hc : f.WellCut c) (hq : f.inst? q = some i)
    (hr : f.FirstInst (q + 1) r j) (hne : c.bb q ≠ c.bb r) : BeginsBlock c r := by
  obtain ⟨b, hb, hlt⟩ := hc.bb r j hr.inst
  have hblk := List.getElem?_eq_getElem hlt
  refine ⟨b, _, hblk, ?_⟩
  have hspan := hc.spans b _ hblk
  generalize c.blocks[b] = blk at hblk hspan
  obtain ⟨hle, -⟩ := hspan.between r j (lt_length hr.inst) hr.inst hb
  obtain ⟨⟨i₀, hi₀⟩, -, hb₀⟩ := hspan.begins
  have hqr := hr.le
  rcases Nat.eq_or_lt_of_le hle with heq | hlt₀
  · exact heq
  · -- the block would begin before `q`, which would be in it
    have hbq : blk.ptxBegin ≤ q := by
      by_contra hgt
      obtain ⟨name, hname⟩ := hr.labels blk.ptxBegin (by omega) hlt₀
      rw [inst?_eq_none_of_label hname] at hi₀
      cases hi₀
    obtain ⟨d, hd, -⟩ := hc.bb q i hq
    have hle₁ : d ≤ b := hc.mono q r i j d b (by omega) hq hr.inst hd hb
    have hle₂ : b ≤ d := by
      rcases Nat.eq_or_lt_of_le hbq with heq | hlt'
      · rw [← heq, hb₀] at hd
        exact (Option.some.inj hd).le
      · exact hc.mono _ q i₀ i b d hlt' hi₀ hq hb₀ hd
    rw [hd, hb] at hne
    exact absurd (congrArg some (by omega : d = b)) hne

end WellCut

/-! ## The partition -/

theorem PartitionOk.endsAt (hok : f.PartitionOk) (h : f.Terminator q) : f.EndsAt q := by
  have hterm := h
  obtain ⟨i, hi, hterm⟩ := hterm
  apply Final.endsAt hi
  rcases Nat.eq_zero_or_pos q with rfl | hpos
  · exact .inl (hok.first h)
  · by_cases hend : i.EndsBlock
    · exact .inr ⟨hend, hpos.ne'⟩
    · exact .inl (hok.unseen q i hi (hterm.resolve_left hend) hend)

theorem WellCut.partitioned (hc : f.WellCut c) (hok : f.PartitionOk) : f.Partitioned c where
  bb := hc.bb
  mono := hc.mono
  spans := hc.spans
  labels _ _ h := hc.beginsBlock_of_label h
  next q i r j hi hr := by
    by_cases heq : c.bb q = c.bb r
    · exact .inl heq
    · exact .inr (hc.beginsBlock_of_ne hi hr heq)
  terminators q h := by
    obtain ⟨i, hi, hterm⟩ := h
    exact hc.complete q i hi (hok.endsAt ⟨i, hi, hterm⟩)

theorem WellCut.not_finishesBlock (hc : f.WellCut c) (hi : f.inst? q = some i)
    (hnot : ¬ i.EndsBlock ∨ q = 0) (hj : f.inst? (q + 1) = some j) : ¬ FinishesBlock c q := by
  rintro ⟨b, blk, hblk, rfl⟩
  rcases EndsAt.final hi (hc.ends b blk hblk) with hnone | ⟨hend, hne⟩
  · rw [hnone] at hj
    cases hj
  · exact hnot.elim (absurd hend) fun h => absurd h hne

theorem Partitioned.partitionOk (hc : f.createBasicBlocks = .ok c) (h : f.Partitioned c) : f.PartitionOk := by
  have hfirst : f.findNextRealInstruction 0 < f.items.length := by
    unfold createBasicBlocks at hc
    obtain ⟨_, hfirst, -⟩ := bind_eq_ok.mp hc
    exact assert_eq_ok.mp hfirst
  have htwo : ¬ f.TwoLabelsFirst := by
    intro htwo
    obtain ⟨blk, hblk, hend⟩ := createBasicBlocks_twoLabels htwo hc
    obtain ⟨⟨i, hi⟩, -⟩ := (h.spans 0 blk hblk).ends
    obtain ⟨⟨name, hname⟩, -⟩ := htwo
    rw [hend, inst?_eq_none_of_label hname] at hi
    cases hi
  obtain ⟨c', hc', hcut⟩ := createBasicBlocks_spec hfirst htwo
  obtain rfl := Except.ok.inj (hc.symm.trans hc')
  -- an instruction behind a branch that is not looked at stays in its block
  have key : ∀ q i, f.inst? q = some i → f.Terminator q → ¬ i.EndsBlock ∨ q = 0 →
      f.inst? (q + 1) = none := by
    intro q i hi hterm hnot
    cases hj : f.inst? (q + 1) with
    | none => rfl
    | some j => exact absurd (h.terminators q hterm) (hcut.not_finishesBlock hi hnot hj)
  constructor
  · exact exists_inst_iff.mpr hfirst
  · exact htwo
  · rintro ⟨i, hi, hterm⟩
    exact key 0 i hi ⟨i, hi, hterm⟩ (.inr rfl)
  · intro q i hi hterm hend
    exact key q i hi ⟨i, hi, .inr hterm⟩ (.inl hend)

/-- **Basic blocks.** `create_basic_blocks` partitions the instructions of a function into blocks that
control enters at the first and leaves after the last instruction if and only if there are
instructions, the function does not begin with two labels, and neither a terminator at the very
beginning nor one that the loop does not look for is directly followed by an instruction. -/
theorem createBasicBlocks_partitioned (f : Function) :
    (∃ c, f.createBasicBlocks = .ok c ∧ f.Partitioned c) ↔ f.PartitionOk := by
  constructor
  · rintro ⟨c, hc, h⟩
    exact h.partitionOk hc
  · intro hok
    obtain ⟨c, hc, hcut⟩ := createBasicBlocks_spec (exists_inst_iff.mp hok.hasInst) hok.oneLabel
    exact ⟨c, hc, hcut.partitioned hok⟩

/-- A function that begins with an `exit` on which an instruction follows. -/
def exitFirst : Function := ⟨[.inst { opcode := .EXIT }, .inst { opcode := .OTHER }], List.nodup_nil⟩

/-- Its `exit` is in the middle of a block. -/
theorem exitFirst_not_partitioned :
    ¬ ∃ c, exitFirst.createBasicBlocks = .ok c ∧ exitFirst.Partitioned c := by
  rintro ⟨c, hc, h⟩
  have hnone := (h.partitionOk hc).first ⟨_, rfl, .inl (by decide)⟩
  cases hnone

end Function

end GpgpuSimRuby.Ptx
