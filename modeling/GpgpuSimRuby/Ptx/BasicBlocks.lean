import GpgpuSimRuby.Ptx.Assemble

/-!
# Basic blocks

`create_basic_blocks` of `ptx_ir.cc`: one loop collects the leaders, a second one cuts the instructions
at them.

* An iterator is a position in `m_instructions`.
* The exit block, which is appended at the end and has no instructions, is the number of the blocks in
  front of it.
-/

open Function (update update_self update_of_ne)

namespace GpgpuSimRuby.Ptx

open Library

/-- The instructions after which a block ends. -/
def Inst.EndsBlock (i : Inst) : Prop :=
  i.opcode = .BRA ∨ i.opcode = .RET ∨ i.opcode = .EXIT ∨ i.opcode = .RETP ∨ i.opcode = .BREAK ∨
    (i.opcode = .CALL ∨ i.opcode = .CALLP) ∧ i.hasPred

instance (i : Inst) : Decidable i.EndsBlock :=
  inferInstanceAs (Decidable (_ ∨ _ ∨ _ ∨ _ ∨ _ ∨ _ ∧ _))

/-- A `basic_block_t` other than the exit block, with the positions of its first and last
instruction. -/
structure BasicBlock where
  ptxBegin : Nat
  ptxEnd : Nat
  deriving DecidableEq, Repr

/-- `m_basic_blocks` without the exit block, and `m_basic_block` of the instructions. -/
structure BasicBlocks where
  blocks : List BasicBlock
  bb : Nat → Option Nat

namespace Function

variable (f : Function)

/-- The loop that collects the leaders, from position `p` on. Every turn moves on. -/
def leadersFrom : Nat → Nat → List Nat
  | 0, _ => []
  | fuel + 1, p =>
    match f.items[p]? with
    | none => []
    | some (.label _) => p :: leadersFrom fuel (f.findNextRealInstruction (p + 1))
    | some (.inst i) =>
      if i.EndsBlock then
        (if p + 1 < f.items.length then [p + 1] else []) ++
          leadersFrom fuel (f.findNextRealInstruction (p + 1))
      else leadersFrom fuel (p + 1)

/-- The leaders after the first instruction, which is one in any case. -/
def leaders : List Nat := f.leadersFrom f.items.length 1

end Function

/-- What the loop that cuts the instructions works on: the blocks that are closed, `ptx_begin` of
`m_basic_blocks.back()`, `last_real_inst`, the leaders from `l` on, and `m_basic_block`. -/
structure Partition where
  closed : List BasicBlock
  ptxBegin : Nat
  lastRealInst : Nat
  leaders : List Nat
  bb : Nat → Option Nat

namespace Partition

variable (f : Function)

/-- A leader closes the block before it and opens the next one, unless it is a bogus trailing label. -/
def startBlock (p : Nat) (s : Partition) : Partition :=
  if s.leaders.head? = some p then
    let first := f.findNextRealInstruction p
    if first < f.items.length then
      { s with
        closed := s.closed ++ [⟨s.ptxBegin, s.lastRealInst⟩]
        ptxBegin := first
        lastRealInst := first
        leaders := s.leaders.tail }
    else { s with leaders := s.leaders.tail }
  else s

/-- `assign_bb`, with the rest of the turn. -/
def assignBb (p : Nat) (it : Item) (s : Partition) : Partition :=
  { s with
    bb := update s.bb p (some s.closed.length)
    lastRealInst := if it.isLabel then s.lastRealInst else p }

/-- The loop that cuts the instructions. -/
def cut : Nat → List Item → Partition → Partition
  | _, [], s => s
  | p, it :: items, s => cut (p + 1) items ((s.startBlock f p).assignBb p it)

end Partition

/-- `function_info::create_basic_blocks`. Without an instruction it follows the end of the list. -/
def Function.createBasicBlocks (f : Function) : Except AssembleFault BasicBlocks := do
  let first := f.findNextRealInstruction 0
  assert (first < f.items.length) .wildPointer
  let s := Partition.cut f 0 f.items {
    closed := []
    ptxBegin := first
    lastRealInst := 0
    leaders := f.leaders
    bb := fun _ => none }
  .ok ⟨s.closed ++ [⟨s.ptxBegin, s.lastRealInst⟩], s.bb⟩

/-! ## The leaders -/

namespace Function

variable {f : Function} {p q r k : Nat} {i j : Inst} {name : String}

/-- A position other than the first at which a block begins: a label after an instruction, a second
label at the beginning, or what comes after the end of a block. The first instruction never ends one. -/
def IsLeader (f : Function) (p : Nat) : Prop :=
  ((∃ name, f.items[p]? = some (.label name)) ∧ (p = 1 ∨ ∃ i, 0 < p ∧ f.inst? (p - 1) = some i)) ∨
    (2 ≤ p ∧ p < f.items.length ∧ ∃ i, f.inst? (p - 1) = some i ∧ i.EndsBlock)

theorem not_isLeader_zero : ¬ f.IsLeader 0 := by
  rintro (⟨-, h | ⟨i, h, -⟩⟩ | ⟨h, -⟩)
  · exact absurd h (by decide)
  · exact absurd h (by decide)
  · exact absurd h (by decide)

theorem IsLeader.lt_length (h : f.IsLeader p) : p < f.items.length := by
  rcases h with ⟨⟨name, h⟩, -⟩ | ⟨-, h, -⟩
  · exact (List.getElem?_eq_some_iff.mp h).1
  · exact h

theorem not_isLeader_of_label (hp : 0 < p) (h : f.items[p]? = some (.label name)) : ¬ f.IsLeader (p + 1) := by
  have hnone := inst?_eq_none_of_label h
  rintro (⟨-, h1 | ⟨i, -, hi⟩⟩ | ⟨-, -, i, hi, -⟩)
  · omega
  · rw [Nat.add_sub_cancel, hnone] at hi
    cases hi
  · rw [Nat.add_sub_cancel, hnone] at hi
    cases hi

theorem isLeader_iff_label (h : f.inst? p = some i) (hi : ¬ i.EndsBlock ∨ p = 0) :
    f.IsLeader (p + 1) ↔ ∃ name, f.items[p + 1]? = some (.label name) := by
  constructor
  · rintro (⟨hlabel, -⟩ | ⟨h2, -, j, hj, hend⟩)
    · exact hlabel
    · rw [Nat.add_sub_cancel, h] at hj
      obtain rfl := Option.some.inj hj
      rcases hi with hi | rfl
      · exact absurd hend hi
      · exact absurd h2 (by decide)
  · intro hlabel
    exact .inl ⟨hlabel, .inr ⟨i, Nat.succ_pos p, h⟩⟩

theorem isLeader_of_endsBlock (h : f.inst? p = some i) (hi : i.EndsBlock) (hp : 0 < p)
    (hlt : p + 1 < f.items.length) : f.IsLeader (p + 1) :=
  .inr ⟨by omega, hlt, i, h, hi⟩

/-! ## The loop that collects the leaders -/

/-- From `p` on the search goes over labels to `r`, which is an instruction or the end. -/
structure NextReal (f : Function) (p r : Nat) : Prop where
  le : p ≤ r
  labels : ∀ k, p ≤ k → k < r → ∃ name, f.items[k]? = some (.label name)
  stop : (∃ i, f.inst? r = some i) ∨ f.items.length ≤ r

/-- **`find_next_real_instruction`** finds it. -/
theorem nextReal (f : Function) (p : Nat) : f.NextReal p (f.findNextRealInstruction p) := by
  have key : ∀ (items : List Item) (p : Nat), (∀ k, items[k]? = f.items[p + k]?) →
      f.NextReal p (p + (items.takeWhile Item.isLabel).length) := by
    intro items
    induction items with
    | nil =>
      intro p hget
      refine ⟨Nat.le_add_right _ _, ?_, .inr ?_⟩
      · intro k hle hlt
        simp only [List.takeWhile_nil, List.length_nil] at hlt
        omega
      · have h0 := hget 0
        rw [List.getElem?_nil] at h0
        exact List.getElem?_eq_none_iff.mp h0.symm
    | cons it items ih =>
      intro p hget
      have hhead : f.items[p]? = some it := (hget 0).symm
      cases it with
      | inst i =>
        rw [List.takeWhile_cons_of_neg (by simp [Item.isLabel])]
        refine ⟨le_rfl, ?_, .inl ⟨i, inst?_eq_some.mpr hhead⟩⟩
        intro k hle hlt
        exact absurd hlt (by simpa using hle)
      | label name =>
        rw [List.takeWhile_cons_of_pos rfl, List.length_cons]
        have htail := ih (p + 1) fun k => by
          rw [show p + 1 + k = p + (k + 1) by omega, ← hget (k + 1), List.getElem?_cons_succ]
        rw [show p + 1 + (items.takeWhile Item.isLabel).length =
          p + ((items.takeWhile Item.isLabel).length + 1) by omega] at htail
        refine ⟨Nat.le_add_right _ _, ?_, htail.stop⟩
        intro k hle hlt
        rcases Nat.eq_or_lt_of_le hle with rfl | hlt'
        · exact ⟨name, hhead⟩
        · exact htail.labels k hlt' hlt
  exact key (f.items.drop p) p fun k => List.getElem?_drop

theorem NextReal.not_isLabel (h : f.NextReal p r) : ¬ ∃ name, f.items[r]? = some (.label name) := by
  rintro ⟨name, hname⟩
  rcases h.stop with ⟨i, hi⟩ | hr
  · rw [inst?_eq_none_of_label hname] at hi
    cases hi
  · rw [List.getElem?_eq_none hr] at hname
    cases hname

theorem NextReal.not_isLeader (h : f.NextReal p r) (hp : 0 < p) (hk : p < k) (hkr : k ≤ r) :
    ¬ f.IsLeader k := by
  obtain ⟨k, rfl⟩ := Nat.exists_eq_add_of_lt hk
  obtain ⟨name, hname⟩ := h.labels (p + k) (by omega) (by omega)
  exact not_isLeader_of_label (by omega) hname

theorem FirstInst.findNextRealInstruction_eq (h : f.FirstInst p q i) : f.findNextRealInstruction p = q := by
  have hnext := f.nextReal p
  rcases Nat.lt_trichotomy (f.findNextRealInstruction p) q with hlt | heq | hgt
  · obtain ⟨name, hname⟩ := h.labels _ hnext.le hlt
    exact absurd ⟨name, hname⟩ hnext.not_isLabel
  · exact heq
  · obtain ⟨name, hname⟩ := hnext.labels q h.le hgt
    have hinst := h.inst
    rw [inst?_eq_none_of_label hname] at hinst
    cases hinst

theorem firstInst_findNextRealInstruction (h : f.findNextRealInstruction p < f.items.length) :
    ∃ i, f.FirstInst p (f.findNextRealInstruction p) i := by
  have hnext := f.nextReal p
  rcases hnext.stop with ⟨i, hi⟩ | hlen
  · exact ⟨i, hnext.le, hi, hnext.labels⟩
  · omega

/-- **The loop** finds the leaders behind `p`, and `p` itself where it is a label. -/
theorem leadersFrom_spec {fuel : Nat} (hp : 0 < p) (hfuel : f.items.length ≤ p + fuel) :
    (f.leadersFrom fuel p).Pairwise (· < ·) ∧ ∀ q, q ∈ f.leadersFrom fuel p ↔
      (q = p ∧ ∃ name, f.items[p]? = some (.label name)) ∨ (p < q ∧ f.IsLeader q) := by
  induction fuel generalizing p with
  | zero =>
    refine ⟨List.Pairwise.nil, fun q => ?_⟩
    have hnone : f.items[p]? = none := List.getElem?_eq_none hfuel
    simp only [leadersFrom, List.not_mem_nil, hnone, false_iff]
    rintro (⟨-, name, h⟩ | ⟨hpq, h⟩)
    · cases h
    · have := h.lt_length
      omega
  | succ fuel ih =>
    have hnext := f.nextReal (p + 1)
    obtain ⟨hsorted, hmem⟩ := ih (p := f.findNextRealInstruction (p + 1))
      (by have := hnext.le; omega) (by have := hnext.le; omega)
    have hmem : ∀ q, q ∈ f.leadersFrom fuel (f.findNextRealInstruction (p + 1)) ↔
        f.findNextRealInstruction (p + 1) < q ∧ f.IsLeader q := by
      intro q
      rw [hmem]
      constructor
      · rintro (⟨-, h⟩ | h)
        · exact absurd h hnext.not_isLabel
        · exact h
      · exact .inr
    unfold leadersFrom
    cases hit : f.items[p]? with
    | none =>
      refine ⟨List.Pairwise.nil, fun q => ?_⟩
      simp only [List.not_mem_nil, false_iff]
      rintro (⟨-, name, h⟩ | ⟨hpq, h⟩)
      · cases h
      · have := h.lt_length
        have := List.getElem?_eq_none_iff.mp hit
        omega
    | some it =>
      cases it with
      | label name =>
        refine ⟨List.pairwise_cons.mpr ⟨fun q hq => ?_, hsorted⟩, fun q => ?_⟩
        · have := ((hmem q).mp hq).1
          have := hnext.le
          omega
        · rw [List.mem_cons, hmem]
          constructor
          · rintro (rfl | ⟨hlt, hq⟩)
            · exact .inl ⟨rfl, name, rfl⟩
            · have := hnext.le
              exact .inr ⟨by omega, hq⟩
          · rintro (⟨rfl, -⟩ | ⟨hlt, hq⟩)
            · exact .inl rfl
            · refine .inr ⟨?_, hq⟩
              by_contra hge
              rcases Nat.eq_or_lt_of_le hlt with rfl | hlt'
              · exact not_isLeader_of_label hp hit hq
              · exact hnext.not_isLeader (Nat.succ_pos p) hlt' (by omega) hq
      | inst i =>
        have hi := inst?_eq_some.mpr hit
        by_cases hend : i.EndsBlock
        · simp only [if_pos hend]
          constructor
          · split
            · refine List.pairwise_cons.mpr ⟨fun q hq => ?_, hsorted⟩
              have := ((hmem q).mp hq).1
              have := hnext.le
              omega
            · exact hsorted
          · intro q
            rw [List.mem_append, hmem]
            constructor
            · rintro (hq | ⟨hlt, hq⟩)
              · split at hq
                · next hlen =>
                  obtain rfl := List.mem_singleton.mp hq
                  exact .inr ⟨by omega, isLeader_of_endsBlock hi hend hp hlen⟩
                · exact absurd hq List.not_mem_nil
              · have := hnext.le
                exact .inr ⟨by omega, hq⟩
            · rintro (⟨-, name, h⟩ | ⟨hlt, hq⟩)
              · cases h
              · rcases Nat.eq_or_lt_of_le hlt with rfl | hlt'
                · left
                  rw [if_pos hq.lt_length]
                  exact List.mem_singleton_self _
                · refine .inr ⟨?_, hq⟩
                  by_contra hge
                  exact hnext.not_isLeader (Nat.succ_pos p) hlt' (by omega) hq
        · simp only [if_neg hend]
          obtain ⟨hsorted, hmem⟩ := ih (p := p + 1) (by omega) (by omega)
          refine ⟨hsorted, fun q => ?_⟩
          rw [hmem, ← isLeader_iff_label hi (.inl hend)]
          constructor
          · rintro (⟨rfl, hq⟩ | ⟨hlt, hq⟩)
            · exact .inr ⟨by omega, hq⟩
            · exact .inr ⟨by omega, hq⟩
          · rintro (⟨-, name, h⟩ | ⟨hlt, hq⟩)
            · cases h
            · rcases Nat.eq_or_lt_of_le hlt with rfl | hlt'
              · exact .inl ⟨rfl, hq⟩
              · exact .inr ⟨hlt', hq⟩

/-- The leaders from `p` on, in their order. -/
structure LeadersFrom (f : Function) (p : Nat) (leaders : List Nat) : Prop where
  sorted : leaders.Pairwise (· < ·)
  mem : ∀ q, q ∈ leaders ↔ p ≤ q ∧ f.IsLeader q

/-- **The leaders.** -/
theorem leaders_spec (f : Function) : f.LeadersFrom 0 f.leaders := by
  have hfuel : f.items.length ≤ 1 + f.items.length := by omega
  obtain ⟨hsorted, hmem⟩ := leadersFrom_spec Nat.one_pos hfuel
  refine ⟨hsorted, fun q => ?_⟩
  unfold leaders
  rw [hmem]
  constructor
  · rintro (⟨rfl, h⟩ | ⟨-, h⟩)
    · exact ⟨Nat.zero_le _, .inl ⟨h, .inl rfl⟩⟩
    · exact ⟨Nat.zero_le _, h⟩
  · rintro ⟨-, h⟩
    rcases Nat.lt_trichotomy q 1 with h0 | rfl | h1
    · obtain rfl : q = 0 := by omega
      exact absurd h not_isLeader_zero
    · refine .inl ⟨rfl, ?_⟩
      rcases h with ⟨h, -⟩ | ⟨h2, -⟩
      · exact h
      · exact absurd h2 (by decide)
    · exact .inr ⟨h1, h⟩

namespace LeadersFrom

variable {ls : List Nat}

theorem head?_eq (h : f.LeadersFrom p ls) : ls.head? = some p ↔ f.IsLeader p := by
  constructor
  · intro hhead
    exact ((h.mem p).mp (List.mem_of_mem_head? hhead)).2
  · intro hp
    have hmem := (h.mem p).mpr ⟨le_rfl, hp⟩
    cases ls with
    | nil => exact absurd hmem List.not_mem_nil
    | cons q ls =>
      have hq := ((h.mem q).mp List.mem_cons_self).1
      rcases List.mem_cons.mp hmem with rfl | hmem
      · rfl
      · have := (List.pairwise_cons.mp h.sorted).1 p hmem
        omega

theorem tail (h : f.LeadersFrom p ls) (hp : f.IsLeader p) : f.LeadersFrom (p + 1) ls.tail := by
  have hhead := h.head?_eq.mpr hp
  cases ls with
  | nil => cases hhead
  | cons q ls =>
    obtain rfl := Option.some.inj hhead
    obtain ⟨hlt, hsorted⟩ := List.pairwise_cons.mp h.sorted
    refine ⟨hsorted, fun k => ?_⟩
    constructor
    · intro hk
      exact ⟨hlt k hk, ((h.mem k).mp (List.mem_cons_of_mem q hk)).2⟩
    · rintro ⟨hle, hk⟩
      rcases List.mem_cons.mp ((h.mem k).mpr ⟨by omega, hk⟩) with rfl | hmem
      · omega
      · exact hmem

theorem skip (h : f.LeadersFrom p ls) (hp : ¬ f.IsLeader p) : f.LeadersFrom (p + 1) ls := by
  refine ⟨h.sorted, fun k => ?_⟩
  rw [h.mem]
  constructor
  · rintro ⟨hle, hk⟩
    rcases Nat.eq_or_lt_of_le hle with rfl | hlt
    · exact absurd hk hp
    · exact ⟨hlt, hk⟩
  · rintro ⟨hle, hk⟩
    exact ⟨by omega, hk⟩

end LeadersFrom

end Function

/-! ## The loop that cuts the instructions -/

/-- Among the first `n` positions, the instructions of block `b` start and end as `blk` says. -/
structure BasicBlock.Spans (f : Function) (bb : Nat → Option Nat) (n b : Nat) (blk : BasicBlock) :
    Prop where
  begins : (∃ i, f.inst? blk.ptxBegin = some i) ∧ blk.ptxBegin < n ∧ bb blk.ptxBegin = some b
  ends : (∃ i, f.inst? blk.ptxEnd = some i) ∧ blk.ptxEnd < n ∧ bb blk.ptxEnd = some b
  between : ∀ q i, q < n → f.inst? q = some i → bb q = some b → blk.ptxBegin ≤ q ∧ q ≤ blk.ptxEnd

/-- There is a leader right behind the instruction at `e`, and one more instruction. -/
def Function.LeaderAfter (f : Function) (e l : Nat) : Prop :=
  e < l ∧ f.IsLeader l ∧ (∀ k, e < k → k < l → f.inst? k = none) ∧ ∃ r i, l ≤ r ∧ f.inst? r = some i

/-- The function begins with two labels. -/
def Function.TwoLabelsFirst (f : Function) : Prop :=
  (∃ name, f.items[0]? = some (.label name)) ∧ ∃ name, f.items[1]? = some (.label name)

/-- The block that is being built has got instructions. -/
structure Partition.Open (f : Function) (p : Nat) (s : Partition) : Prop where
  spans : BasicBlock.Spans f s.bb p s.closed.length ⟨s.ptxBegin, s.lastRealInst⟩
  noInst : ∀ k, s.lastRealInst < k → k < p → f.inst? k = none

/-- The block that is being built has none yet, and the leaders from `m` on come after its first. -/
structure Partition.Fresh (f : Function) (p m : Nat) (s : Partition) : Prop where
  first : ∃ i, f.FirstInst p s.ptxBegin i
  noLeader : ∀ k, m ≤ k → k ≤ s.ptxBegin → ¬ f.IsLeader k
  unused : ∀ q i, q < p → f.inst? q = some i → s.bb q ≠ some s.closed.length

/-- What holds when the instructions before `p` are in their blocks, and the leaders before `m` have
been seen. -/
structure Partition.Inv (f : Function) (p m : Nat) (s : Partition) : Prop where
  leaders : f.LeadersFrom m s.leaders
  bb : ∀ q i, q < p → f.inst? q = some i → ∃ b, s.bb q = some b ∧ b ≤ s.closed.length
  mono : ∀ q r i j b c, q < r → r < p → f.inst? q = some i → f.inst? r = some j →
    s.bb q = some b → s.bb r = some c → b ≤ c
  spans : ∀ (b : Nat) (blk : BasicBlock), s.closed[b]? = some blk → blk.Spans f s.bb p b
  ends : ∀ (b : Nat) (blk : BasicBlock), s.closed[b]? = some blk → ∃ l, f.LeaderAfter blk.ptxEnd l
  complete : ∀ e l i, f.inst? e = some i → l < m → f.LeaderAfter e l →
    ∃ (b : Nat) (blk : BasicBlock), s.closed[b]? = some blk ∧ blk.ptxEnd = e
  current : s.Open f p ∨ s.Fresh f p m

section Cut

variable {f : Function} {p m b : Nat} {it : Item} {s : Partition} {blk : BasicBlock} {name : String}
  {i : Inst}

theorem getElem?_concat {α : Type} {l : List α} {x y : α} {k : Nat} (h : (l ++ [x])[k]? = some y) :
    l[k]? = some y ∨ k = l.length ∧ y = x := by
  rcases Nat.lt_or_ge k l.length with hlt | hge
  · rw [List.getElem?_append_left hlt] at h
    exact .inl h
  · rw [List.getElem?_append_right hge, List.getElem?_singleton] at h
    split at h
    · next h0 => exact .inr ⟨by omega, (Option.some.inj h).symm⟩
    · cases h

theorem Partition.startBlock_of_leader (hp : s.leaders.head? = some p)
    (hfirst : f.findNextRealInstruction p < f.items.length) :
    s.startBlock f p = {
      closed := s.closed ++ [⟨s.ptxBegin, s.lastRealInst⟩]
      ptxBegin := f.findNextRealInstruction p
      lastRealInst := f.findNextRealInstruction p
      leaders := s.leaders.tail
      bb := s.bb } := by
  unfold startBlock
  rw [if_pos hp]
  exact if_pos hfirst

theorem BasicBlock.Spans.succ (h : blk.Spans f s.bb p b) {c : Nat}
    (hc : f.inst? p = none ∨ c ≠ b) : blk.Spans f (update s.bb p (some c)) (p + 1) b := by
  have hold : ∀ q, q < p → update s.bb p (some c) q = s.bb q := by
    intro q hq
    exact update_of_ne (by omega) _ _
  refine ⟨⟨h.begins.1, by have := h.begins.2.1; omega, ?_⟩,
    ⟨h.ends.1, by have := h.ends.2.1; omega, ?_⟩, ?_⟩
  · rw [hold _ h.begins.2.1]
    exact h.begins.2.2
  · rw [hold _ h.ends.2.1]
    exact h.ends.2.2
  · intro q i hq hi hb
    rcases Nat.lt_succ_iff_lt_or_eq.mp hq with hq | rfl
    · rw [hold q hq] at hb
      exact h.between q i hq hi hb
    · rcases hc with hc | hc
      · rw [hc] at hi
        cases hi
      · rw [update_self] at hb
        exact absurd (Option.some.inj hb) hc

/-- **A leader** closes the block that is being built. -/
theorem Partition.Inv.startBlock (h : s.Inv f p p) (hit : f.items[p]? = some it) :
    (s.startBlock f p).Inv f p (p + 1) := by
  unfold Partition.startBlock
  by_cases hp : f.IsLeader p
  swap
  · rw [if_neg (mt h.leaders.head?_eq.mp hp)]
    refine { h with leaders := h.leaders.skip hp, complete := ?_, current := ?_ }
    · intro e l i hi hl hafter
      rcases Nat.lt_succ_iff_lt_or_eq.mp hl with hl | rfl
      · exact h.complete e l i hi hl hafter
      · exact absurd hafter.2.1 hp
    · rcases h.current with hopen | hfresh
      · exact .inl hopen
      · refine .inr { hfresh with noLeader := ?_ }
        intro k hle
        exact hfresh.noLeader k (by omega)
  rw [if_pos (h.leaders.head?_eq.mpr hp)]
  have hopen : s.Open f p := by
    rcases h.current with hopen | hfresh
    · exact hopen
    · obtain ⟨i, hi⟩ := hfresh.first
      exact absurd hp (hfresh.noLeader p le_rfl hi.le)
  have hpos : 0 < p := by
    rcases Nat.eq_zero_or_pos p with rfl | hpos
    · exact absurd hp Function.not_isLeader_zero
    · exact hpos
  dsimp only
  split
  · next hfirst =>
    obtain ⟨i, hi⟩ := Function.firstInst_findNextRealInstruction hfirst
    have hlast : f.LeaderAfter s.lastRealInst p :=
      ⟨hopen.spans.ends.2.1, hp, hopen.noInst, _, i, hi.le, hi.inst⟩
    constructor
    · exact h.leaders.tail hp
    · intro q j hq hj
      obtain ⟨b, hb, hle⟩ := h.bb q j hq hj
      refine ⟨b, hb, ?_⟩
      simp only [List.length_append, List.length_singleton]
      omega
    · exact h.mono
    · intro b blk hb
      rcases getElem?_concat hb with hb | ⟨rfl, rfl⟩
      · exact h.spans b blk hb
      · exact hopen.spans
    · intro b blk hb
      rcases getElem?_concat hb with hb | ⟨rfl, rfl⟩
      · exact h.ends b blk hb
      · exact ⟨p, hlast⟩
    · intro e l j hj hl hafter
      rcases Nat.lt_succ_iff_lt_or_eq.mp hl with hl | rfl
      · obtain ⟨b, blk, hb, hend⟩ := h.complete e l j hj hl hafter
        exact ⟨b, blk, by rw [List.getElem?_append_left (List.getElem?_eq_some_iff.mp hb).1]; exact hb,
          hend⟩
      · refine ⟨s.closed.length, _, List.getElem?_concat_length, ?_⟩
        -- both are the last instruction before the leader
        show s.lastRealInst = e
        obtain ⟨j', hj'⟩ := hopen.spans.ends.1
        rcases Nat.lt_trichotomy s.lastRealInst e with hlt | heq | hgt
        · rw [hopen.noInst e hlt hafter.1] at hj
          cases hj
        · exact heq
        · rw [hafter.2.2.1 s.lastRealInst hgt hlast.1] at hj'
          cases hj'
    · right
      refine ⟨⟨i, hi⟩, ?_, ?_⟩
      · intro k hk hkle
        exact (f.nextReal p).not_isLeader hpos hk hkle
      · intro q j hq hj hb
        obtain ⟨b, hb', hle⟩ := h.bb q j hq hj
        rw [hb', Option.some.injEq] at hb
        simp only [List.length_append, List.length_singleton] at hb
        omega
  · next hfirst =>
    -- a label at the end of the function
    refine { h with leaders := h.leaders.tail hp, complete := ?_,
                    current := .inl ⟨hopen.spans, hopen.noInst⟩ }
    intro e l j hj hl hafter
    rcases Nat.lt_succ_iff_lt_or_eq.mp hl with hl | rfl
    · exact h.complete e l j hj hl hafter
    · obtain ⟨r, i, hr, hi⟩ := hafter.2.2.2
      have hnext := f.nextReal l
      have hlt := Function.lt_length hi
      obtain ⟨name, hname⟩ := hnext.labels r hr (by omega)
      rw [Function.inst?_eq_none_of_label hname] at hi
      cases hi

theorem Partition.Inv.assignBb (h : s.Inv f p (p + 1)) (hit : f.items[p]? = some it) :
    (s.assignBb p it).Inv f (p + 1) (p + 1) := by
  have hclosed : ∀ (b : Nat) (blk : BasicBlock), s.closed[b]? = some blk → s.closed.length ≠ b := by
    intro b blk hb
    have := (List.getElem?_eq_some_iff.mp hb).1
    omega
  constructor
  · exact h.leaders
  · intro q j hq hj
    show ∃ b, update s.bb p (some s.closed.length) q = some b ∧ b ≤ s.closed.length
    rcases Nat.lt_succ_iff_lt_or_eq.mp hq with hq | rfl
    · rw [update_of_ne (by omega)]
      exact h.bb q j hq hj
    · exact ⟨_, update_self .., le_rfl⟩
  · intro q r i j b c hqr hr hi hj hb hc
    have hc : update s.bb p (some s.closed.length) r = some c := hc
    have hold : s.bb q = some b := by
      rw [← hb]
      exact (update_of_ne (by omega) _ _).symm
    rcases Nat.lt_succ_iff_lt_or_eq.mp hr with hr | rfl
    · rw [update_of_ne (by omega)] at hc
      exact h.mono q r i j b c hqr hr hi hj hold hc
    · rw [update_self] at hc
      obtain rfl := Option.some.inj hc
      obtain ⟨b', hb', hle⟩ := h.bb q i hqr hi
      obtain rfl := Option.some.inj (hold.symm.trans hb')
      exact hle
  · intro b blk hb
    exact (h.spans b blk hb).succ (.inr (hclosed b blk hb))
  · exact h.ends
  · exact h.complete
  · cases it with
    | label name =>
      have hnone := Function.inst?_eq_none_of_label hit
      rcases h.current with hopen | hfresh
      · refine .inl ⟨hopen.spans.succ (.inl hnone), ?_⟩
        intro k hlt hk
        rcases Nat.lt_succ_iff_lt_or_eq.mp hk with hk | rfl
        · exact hopen.noInst k hlt hk
        · exact hnone
      · obtain ⟨i, hi⟩ := hfresh.first
        have hne : p ≠ s.ptxBegin := by
          rintro rfl
          have := hi.inst
          rw [hnone] at this
          cases this
        refine .inr ⟨⟨i, by have := hi.le; show p + 1 ≤ s.ptxBegin; omega, hi.inst, ?_⟩,
          hfresh.noLeader, ?_⟩
        · intro k hle hlt
          exact hi.labels k (by omega) hlt
        · intro q j hq hj
          show update s.bb p (some s.closed.length) q ≠ some s.closed.length
          rcases Nat.lt_succ_iff_lt_or_eq.mp hq with hq | rfl
          · rw [update_of_ne (by omega)]
            exact hfresh.unused q j hq hj
          · rw [hnone] at hj
            cases hj
    | inst i =>
      have hi := Function.inst?_eq_some.mpr hit
      have hself : update s.bb p (some s.closed.length) p = some s.closed.length :=
        update_self ..
      refine .inl ⟨?_, fun k hlt hk => ?_⟩
      · rcases h.current with hopen | hfresh
        · have hbegin := hopen.spans.begins
          refine ⟨⟨hbegin.1, Nat.lt_succ_of_lt hbegin.2.1, ?_⟩, ⟨⟨i, hi⟩, Nat.lt_succ_self p, hself⟩, ?_⟩
          · show update s.bb p (some s.closed.length) s.ptxBegin = some s.closed.length
            rw [update_of_ne (Nat.ne_of_lt hbegin.2.1)]
            exact hbegin.2.2
          · intro q j hq hj hb
            have hb : update s.bb p (some s.closed.length) q = some s.closed.length := hb
            show s.ptxBegin ≤ q ∧ q ≤ p
            have hbp : s.ptxBegin < p := hbegin.2.1
            rcases Nat.lt_succ_iff_lt_or_eq.mp hq with hq | rfl
            · rw [update_of_ne (by omega)] at hb
              have := (hopen.spans.between q j hq hj hb).1
              exact ⟨this, by omega⟩
            · exact ⟨by omega, le_rfl⟩
        · obtain ⟨j, hj⟩ := hfresh.first
          have hbegin : s.ptxBegin = p := hj.unique (.self hi)
          refine ⟨⟨⟨i, ?_⟩, ?_, ?_⟩, ⟨⟨i, hi⟩, Nat.lt_succ_self p, hself⟩, ?_⟩
          · show f.inst? s.ptxBegin = some i
            rw [hbegin]
            exact hi
          · show s.ptxBegin < p + 1
            omega
          · show update s.bb p (some s.closed.length) s.ptxBegin = some s.closed.length
            rw [hbegin]
            exact hself
          · intro q j hq hj hb
            have hb : update s.bb p (some s.closed.length) q = some s.closed.length := hb
            show s.ptxBegin ≤ q ∧ q ≤ p
            rcases Nat.lt_succ_iff_lt_or_eq.mp hq with hq | rfl
            · rw [update_of_ne (by omega)] at hb
              exact absurd hb (hfresh.unused q j hq hj)
            · exact ⟨by omega, le_rfl⟩
      · have hlt : p < k := hlt
        omega

/-- **The loop** puts all instructions into their blocks. -/
theorem Partition.Inv.run (h : s.Inv f p p) (hp : p ≤ f.items.length) :
    (Partition.cut f p (f.items.drop p) s).Inv f f.items.length f.items.length := by
  obtain ⟨n, hn⟩ := Nat.exists_eq_add_of_le hp
  induction n generalizing p s with
  | zero =>
    have hlen : f.items.length = p := hn
    rw [← hlen, List.drop_length]
    exact hlen ▸ h
  | succ n ih =>
    have hlt : p < f.items.length := by omega
    rw [List.drop_eq_getElem_cons hlt]
    have hit := List.getElem?_eq_getElem hlt
    exact ih ((h.startBlock hit).assignBb hit) (by omega) (by omega)

end Cut

/-- The instructions are in their blocks: in which block each is, where a block begins and ends, and
after which instructions blocks end. -/
structure Function.WellCut (f : Function) (c : BasicBlocks) : Prop where
  bb : ∀ q i, f.inst? q = some i → ∃ b, c.bb q = some b ∧ b < c.blocks.length
  mono : ∀ q r i j b d, q < r → f.inst? q = some i → f.inst? r = some j →
    c.bb q = some b → c.bb r = some d → b ≤ d
  spans : ∀ (b : Nat) (blk : BasicBlock), c.blocks[b]? = some blk → blk.Spans f c.bb f.items.length b
  ends : ∀ (b : Nat) (blk : BasicBlock), c.blocks[b]? = some blk →
    (∃ l, f.LeaderAfter blk.ptxEnd l) ∨ ∀ k, blk.ptxEnd < k → f.inst? k = none
  complete : ∀ e i, f.inst? e = some i →
    (∃ l, f.LeaderAfter e l) ∨ (∀ k, e < k → f.inst? k = none) →
    ∃ (b : Nat) (blk : BasicBlock), c.blocks[b]? = some blk ∧ blk.ptxEnd = e

section Create

variable {f : Function} {c : BasicBlocks}

theorem Partition.inv_init (hfirst : f.findNextRealInstruction 0 < f.items.length)
    (htwo : ¬ f.TwoLabelsFirst) :
    Partition.Inv f 0 0 ⟨[], f.findNextRealInstruction 0, 0, f.leaders, fun _ => none⟩ where
  leaders := f.leaders_spec
  bb q _ hq := absurd hq (Nat.not_lt_zero q)
  mono _ r _ _ _ _ _ hr := absurd hr (Nat.not_lt_zero r)
  spans b blk h := by simp at h
  ends b blk h := by simp at h
  complete e l i _ hl := absurd hl (Nat.not_lt_zero l)
  current := by
    refine .inr ⟨Function.firstInst_findNextRealInstruction hfirst, ?_, fun q _ hq =>
      absurd hq (Nat.not_lt_zero q)⟩
    intro k _ hk hleader
    have hk : k ≤ f.findNextRealInstruction 0 := hk
    have hnext := f.nextReal 0
    rcases Nat.eq_zero_or_pos k with rfl | hpos
    · exact Function.not_isLeader_zero hleader
    obtain ⟨name₀, h₀⟩ := hnext.labels 0 le_rfl (by omega)
    rcases Nat.eq_or_lt_of_le hpos with rfl | hgt
    · -- the second position would be a label
      rcases hleader with ⟨hlabel, -⟩ | ⟨h2, -⟩
      · exact htwo ⟨⟨name₀, h₀⟩, hlabel⟩
      · exact absurd h2 (by decide)
    · obtain ⟨name₁, h₁⟩ := hnext.labels 1 (Nat.zero_le 1) (by omega)
      exact htwo ⟨⟨name₀, h₀⟩, name₁, h₁⟩

/-- **The basic blocks** of a function that has an instruction and does not begin with two labels. -/
theorem Function.createBasicBlocks_spec (hfirst : f.findNextRealInstruction 0 < f.items.length)
    (htwo : ¬ f.TwoLabelsFirst) : ∃ c, f.createBasicBlocks = .ok c ∧ f.WellCut c := by
  have h := (Partition.inv_init hfirst htwo).run (Nat.zero_le _)
  rw [List.drop_zero] at h
  unfold createBasicBlocks
  dsimp only
  rw [assert_pos hfirst, ok_bind]
  refine ⟨_, rfl, ?_⟩
  generalize Partition.cut f 0 f.items
    ⟨[], f.findNextRealInstruction 0, 0, f.leaders, fun _ => none⟩ = s at h ⊢
  have hopen : s.Open f f.items.length := by
    rcases h.current with hopen | hfresh
    · exact hopen
    · obtain ⟨i, hi⟩ := hfresh.first
      have := hi.le
      have := lt_length hi.inst
      omega
  have hlast : ∀ k, s.lastRealInst < k → f.inst? k = none := by
    intro k hk
    cases hi : f.inst? k with
    | none => rfl
    | some i =>
      rw [hopen.noInst k hk (lt_length hi)] at hi
      cases hi
  constructor
  · intro q i hi
    obtain ⟨b, hb, hle⟩ := h.bb q i (lt_length hi) hi
    refine ⟨b, hb, ?_⟩
    simp only [List.length_append, List.length_singleton]
    omega
  · intro q r i j b d hqr hi hj
    exact h.mono q r i j b d hqr (lt_length hj) hi hj
  · intro b blk hb
    rcases getElem?_concat hb with hb | ⟨rfl, rfl⟩
    · exact h.spans b blk hb
    · exact hopen.spans
  · intro b blk hb
    rcases getElem?_concat hb with hb | ⟨rfl, rfl⟩
    · exact .inl (h.ends b blk hb)
    · exact .inr hlast
  · intro e i hi hend
    rcases hend with ⟨l, hl⟩ | hnone
    · obtain ⟨b, blk, hb, hend⟩ := h.complete e l i hi hl.2.1.lt_length hl
      exact ⟨b, blk, by rw [List.getElem?_append_left (List.getElem?_eq_some_iff.mp hb).1]; exact hb,
        hend⟩
    · refine ⟨s.closed.length, _, List.getElem?_concat_length, ?_⟩
      -- both are the last instruction of the function
      show s.lastRealInst = e
      obtain ⟨j, hj⟩ := hopen.spans.ends.1
      rcases Nat.lt_trichotomy s.lastRealInst e with hlt | heq | hgt
      · rw [hlast e hlt] at hi
        cases hi
      · exact heq
      · rw [hnone s.lastRealInst hgt] at hj
        cases hj

theorem Partition.cut_closed (items : List Item) (p : Nat) (s : Partition) :
    s.closed <+: (Partition.cut f p items s).closed := by
  induction items generalizing p s with
  | nil => exact List.prefix_refl _
  | cons it items ih =>
    refine List.IsPrefix.trans ?_ (ih (p + 1) ((s.startBlock f p).assignBb p it))
    show s.closed <+: (s.startBlock f p).closed
    unfold Partition.startBlock
    split
    · dsimp only
      split
      · exact List.prefix_append _ _
      · exact List.prefix_refl _
    · exact List.prefix_refl _

theorem Function.createBasicBlocks_twoLabels (htwo : f.TwoLabelsFirst)
    (hc : f.createBasicBlocks = .ok c) : ∃ blk, c.blocks[0]? = some blk ∧ blk.ptxEnd = 0 := by
  unfold createBasicBlocks at hc
  obtain ⟨_, hfirst, hc⟩ := bind_eq_ok.mp hc
  have hfirst := assert_eq_ok.mp hfirst
  obtain rfl := Except.ok.inj hc
  obtain ⟨⟨name₀, h₀⟩, name₁, h₁⟩ := htwo
  obtain ⟨it₀, it₁, items, hitems⟩ : ∃ it₀ it₁ items, f.items = it₀ :: it₁ :: items := by
    cases hitems : f.items with
    | nil =>
      rw [hitems] at h₀
      cases h₀
    | cons it₀ rest =>
      cases rest with
      | nil =>
        rw [hitems] at h₁
        cases h₁
      | cons it₁ items => exact ⟨it₀, it₁, items, rfl⟩
  have hleader : f.IsLeader 1 := .inl ⟨⟨name₁, h₁⟩, .inl rfl⟩
  have hls := f.leaders_spec
  have hne : f.leaders.head? ≠ some 0 := mt hls.head?_eq.mp not_isLeader_zero
  have hhead : f.leaders.head? = some 1 := (hls.skip not_isLeader_zero).head?_eq.mpr hleader
  have hit₀ : it₀ = .label name₀ := by
    rw [hitems] at h₀
    exact Option.some.inj h₀
  -- the search from the second label comes to the same instruction
  have hsecond : f.findNextRealInstruction 1 < f.items.length := by
    have heq : f.findNextRealInstruction 0 = f.findNextRealInstruction 1 := by
      obtain ⟨i, hi⟩ := firstInst_findNextRealInstruction hfirst
      refine (FirstInst.findNextRealInstruction_eq (i := i) ⟨?_, hi.inst, ?_⟩).symm
      · rcases Nat.eq_zero_or_pos (f.findNextRealInstruction 0) with h0 | hpos
        · have := hi.inst
          rw [h0, inst?_eq_none_of_label h₀] at this
          cases this
        · exact hpos
      · intro k hle hlt
        exact hi.labels k (Nat.zero_le k) hlt
    rw [← heq]
    exact hfirst
  have hcut : ∃ s, (s.closed[0]?).map BasicBlock.ptxEnd = some 0 ∧
      Partition.cut f 0 f.items ⟨[], f.findNextRealInstruction 0, 0, f.leaders, fun _ => none⟩ =
        Partition.cut f 2 items s := by
    rw [hitems]
    refine ⟨_, ?_, rfl⟩
    have hstart : Partition.startBlock f 0
        ⟨[], f.findNextRealInstruction 0, 0, f.leaders, fun _ => none⟩ =
          ⟨[], f.findNextRealInstruction 0, 0, f.leaders, fun _ => none⟩ := if_neg hne
    rw [hstart, hit₀, Partition.startBlock_of_leader (p := 1) hhead hsecond]
    rfl
  obtain ⟨s, hs, hcut⟩ := hcut
  rw [hcut]
  obtain ⟨blk, hblk, hend⟩ := Option.map_eq_some_iff.mp hs
  refine ⟨blk, ?_, hend⟩
  have hlt := (List.getElem?_eq_some_iff.mp hblk).1
  have hpre := Partition.cut_closed (f := f) items 2 s
  obtain ⟨t, ht⟩ := hpre
  rw [← ht, List.append_assoc, List.getElem?_append_left hlt]
  exact hblk

end Create

end GpgpuSimRuby.Ptx
