import GpgpuSimRuby.Ptx.Postdominators

/-!
# Dominators of the basic blocks

`find_dominators` and `find_idominators` of `ptx_ir.cc`. They are like the functions for postdominators
with the edges turned round, except in two places.

* The blocks without predecessors lose their dominators in the end.
* `find_idominators` does not mind a block with an empty `Tmp_ids` if that has no predecessors, and does
  not change the `immediatedominator_id` it has from an earlier call.
-/

namespace GpgpuSimRuby.Ptx

open Library

/-- The assertion of `find_idominators`. -/
inductive DomAssertion where
  | numIdoms
  deriving DecidableEq, Repr

namespace Cfg

variable (g : Cfg)

/-- The entry block: `m_basic_blocks.front()`. -/
def entry : Fin g.size := ⟨0, by have := g.two_le; omega⟩

/-- `predecessor_ids`. They are changed wherever the `successor_ids` are. -/
def predecessorIds (b : Fin g.size) : Finset (Fin g.size) :=
  Finset.univ.filter fun a => b ∈ g.successorIds a

/-- The blocks from the one after the entry on. -/
def blocksForwards : List (Fin g.size) := (List.finRange g.size).filter (· ≠ g.entry)

/-- The set `T` of a round for block `h`: all blocks, intersected with the dominators of each
predecessor, and `h`. -/
def domTransfer (h : Fin g.size) (dominatorIds : Fin g.size → Finset (Fin g.size)) :
    Finset (Fin g.size) :=
  insert h (Finset.univ.filter fun x => ∀ s ∈ g.predecessorIds h, x ∈ dominatorIds s)

/-- All blocks for every block except the entry. -/
def initialDominatorIds (b : Fin g.size) : Finset (Fin g.size) :=
  if b = g.entry then {g.entry} else Finset.univ

/-- The loop at the end: no dominators for a block without predecessors. -/
def cleanDominatorIds (dominatorIds : Fin g.size → Finset (Fin g.size)) (b : Fin g.size) :
    Finset (Fin g.size) :=
  if b ≠ g.entry ∧ g.predecessorIds b = ∅ then ∅ else dominatorIds b

/-- `function_info::find_dominators`. -/
def findDominators (fuel : Nat) : Option (Fin g.size → Finset (Fin g.size)) :=
  (RoundRobin.solve g.domTransfer g.blocksForwards fuel g.initialDominatorIds).map
    g.cleanDominatorIds

section Idominators

variable (dominatorIds : Fin g.size → Finset (Fin g.size))

/-- `Tmp_ids` of a block after the loops. -/
def domTmpIds (n : Fin g.size) : Finset (Fin g.size) :=
  g.prune dominatorIds (List.finRange g.size) ((dominatorIds n).erase n)

/-- `immediatedominator_id`, the first of `Tmp_ids`; without one it stays as it was. -/
def immediatedominatorId (old : Fin g.size → Option (Fin g.size)) (n : Fin g.size) :
    Option (Fin g.size) :=
  ((List.finRange g.size).find? (· ∈ g.domTmpIds dominatorIds n)).or (old n)

/-- `num_idoms`. -/
def numIdoms : Nat := (Finset.univ.filter fun n => g.domTmpIds dominatorIds n ≠ ∅).card

/-- `num_nopred`. -/
def numNopred : Nat :=
  (Finset.univ.filter fun n => g.domTmpIds dominatorIds n = ∅ ∧ g.predecessorIds n = ∅).card

/-- `function_info::find_idominators`. -/
def findIdominators (old : Fin g.size → Option (Fin g.size)) :
    Except DomAssertion (Fin g.size → Option (Fin g.size)) := do
  assert (g.numIdoms dominatorIds = g.size - g.numNopred dominatorIds) .numIdoms
  .ok (g.immediatedominatorId dominatorIds old)

end Idominators

/-! ## Dominance -/

/-- The edges of the graph, turned round. -/
def BackEdge (v w : Fin g.size) : Prop := w ∈ g.predecessorIds v

/-- The block `d` lies on every path from the entry to `b`. The paths are read from their ends. -/
abbrev Dom (d b : Fin g.size) : Prop := Postdominates g.BackEdge g.entry d b

/-- The strict dominator of a block that all its others dominate. -/
abbrev Idom (d b : Fin g.size) : Prop := ImmediatePostdominator g.BackEdge g.entry d b

/-- There is a path from the entry to the block. -/
def Reached (b : Fin g.size) : Prop := ∃ l, Path g.BackEdge g.entry b l

variable {g} {b d n : Fin g.size} {D : Fin g.size → Finset (Fin g.size)} {fuel : Nat}
  {old : Fin g.size → Option (Fin g.size)}

theorem backEdge_iff {v w : Fin g.size} : g.BackEdge v w ↔ g.Edge w v := by
  simp [BackEdge, predecessorIds, Edge]

theorem mem_blocksForwards (b : Fin g.size) : b ∈ g.blocksForwards ↔ b ≠ g.entry := by
  simp [blocksForwards]

theorem domTransfer_eq (g : Cfg) : g.domTransfer = PostdominatorTable.transfer g.predecessorIds := by
  funext h D
  ext d
  simp [domTransfer, PostdominatorTable.mem_transfer]

theorem findDominators_eq (g : Cfg) (fuel : Nat) : g.findDominators fuel =
      (RoundRobin.solve (PostdominatorTable.transfer g.predecessorIds) g.blocksForwards fuel
        (PostdominatorTable.initial g.entry)).map g.cleanDominatorIds := by
  unfold findDominators
  rw [domTransfer_eq]
  rfl

theorem exists_findDominators (g : Cfg) : ∃ N D, ∀ fuel ≥ N, g.findDominators fuel = some D := by
  have hvs : ∀ v, v ∈ g.blocksForwards ↔ v ≠ g.entry := mem_blocksForwards
  obtain ⟨N, D, hD⟩ : ∃ N D, ∀ fuel ≥ N,
      RoundRobin.solve (PostdominatorTable.transfer g.predecessorIds) g.blocksForwards fuel
        (PostdominatorTable.initial g.entry) = some D :=
    PostdominatorTable.exists_solve hvs
  refine ⟨N, g.cleanDominatorIds D, fun fuel hle => ?_⟩
  rw [findDominators_eq, hD fuel hle]
  rfl

/-- What the iteration ends in: nothing where there are no predecessors, and else the dominators. -/
theorem findDominators_spec (h : g.findDominators fuel = some D) :
    (b ≠ g.entry → g.predecessorIds b = ∅ → D b = ∅) ∧
      (b = g.entry ∨ g.predecessorIds b ≠ ∅ → ∀ d, d ∈ D b ↔ g.Dom d b) := by
  rw [findDominators_eq] at h
  obtain ⟨D', hD', rfl⟩ := Option.map_eq_some_iff.mp h
  unfold cleanDominatorIds
  constructor
  · intro hb hpred
    exact if_pos ⟨hb, hpred⟩
  · intro hb d
    rw [if_neg fun hno => hb.elim hno.1 (fun hpred => hpred hno.2)]
    exact PostdominatorTable.solve_exact mem_blocksForwards hD'

theorem Reached.eq_entry_or (h : g.Reached b) : b = g.entry ∨ g.predecessorIds b ≠ ∅ := by
  obtain ⟨l, hl⟩ := h
  cases hl with
  | done => exact .inl rfl
  | step he _ => exact .inr (Finset.ne_empty_of_mem he)

section

variable (h : g.findDominators fuel = some D)
include h

/-- **The dominators** of a block that is reached are what the iteration ends in. -/
theorem findDominators_exact (hb : g.Reached b) (d : Fin g.size) : d ∈ D b ↔ g.Dom d b :=
  (findDominators_spec h).2 hb.eq_entry_or d

/-! ## Immediate dominators -/

theorem domTmpIds_eq (hn : g.Reached n) (hd : g.Idom d n) : g.domTmpIds D n = {d} := by
  unfold domTmpIds
  rw [prune_eq]
  exact PostdominatorTable.prune_eq hn (fun b hb d => findDominators_exact h hb d) hd
    List.mem_finRange

theorem domTmpIds_entry : g.domTmpIds D g.entry = ∅ := by
  have hempty : (D g.entry).erase g.entry = ∅ := by
    rw [Finset.eq_empty_iff_forall_notMem]
    intro d hd
    obtain ⟨hne, hd⟩ := Finset.mem_erase.mp hd
    exact hne (((findDominators_spec h).2 (.inl rfl) d).mp hd).eq_goal
  unfold domTmpIds
  rw [prune_eq, hempty, PostdominatorTable.prune_empty]

/-- A block other than the entry has nothing in `Tmp_ids` if and only if it has no predecessors. -/
theorem domTmpIds_eq_empty_iff (hn : n ≠ g.entry) :
    g.domTmpIds D n = ∅ ↔ g.predecessorIds n = ∅ := by
  unfold domTmpIds
  rw [prune_eq]
  constructor
  · intro hempty
    by_contra hpred
    have hmem : g.entry ∈ (D n).erase n :=
      Finset.mem_erase.mpr ⟨fun heq => hn heq.symm,
        ((findDominators_spec h).2 (.inr hpred) g.entry).mpr .goal_left⟩
    exact (PostdominatorTable.prune_nonempty ⟨_, hmem⟩).ne_empty hempty
  · intro hpred
    rw [(findDominators_spec h).1 hn hpred, Finset.erase_empty, PostdominatorTable.prune_empty]

end

theorem numIdoms_eq_iff : g.numIdoms D = g.size - g.numNopred D ↔
    ∀ n, g.domTmpIds D n = ∅ → g.predecessorIds n = ∅ := by
  have hsplit : (Finset.univ.filter fun n => g.domTmpIds D n = ∅).card + g.numIdoms D = g.size := by
    have := Finset.card_filter_add_card_filter_not (s := Finset.univ)
      fun n => g.domTmpIds D n = ∅
    rwa [Finset.card_univ, Fintype.card_fin] at this
  have hsub : (Finset.univ.filter fun n => g.domTmpIds D n = ∅ ∧ g.predecessorIds n = ∅) ⊆
      Finset.univ.filter fun n => g.domTmpIds D n = ∅ := by
    intro n hn
    simp only [Finset.mem_filter] at hn ⊢
    exact ⟨hn.1, hn.2.1⟩
  have hle := Finset.card_le_card hsub
  constructor
  · intro heq n hn
    have hcard : (Finset.univ.filter fun n => g.domTmpIds D n = ∅).card ≤
        (Finset.univ.filter fun n => g.domTmpIds D n = ∅ ∧ g.predecessorIds n = ∅).card := by
      unfold numNopred at heq
      omega
    have hall := Finset.eq_of_subset_of_card_le hsub hcard
    have hmem : n ∈ Finset.univ.filter fun n => g.domTmpIds D n = ∅ := by simpa using hn
    rw [← hall] at hmem
    exact (Finset.mem_filter.mp hmem).2.2
  · intro hall
    have hsame : (Finset.univ.filter fun n => g.domTmpIds D n = ∅ ∧ g.predecessorIds n = ∅) =
        Finset.univ.filter fun n => g.domTmpIds D n = ∅ := by
      apply Finset.filter_congr
      intro n _
      exact ⟨fun hn => hn.1, fun hn => ⟨hn, hall n hn⟩⟩
    unfold numNopred
    rw [hsame]
    omega

/-- **The assertion** holds if and only if no edge goes to the entry block. -/
theorem findIdominators_ok_iff (h : g.findDominators fuel = some D) :
    g.findIdominators D old = .ok (g.immediatedominatorId D old) ↔ g.predecessorIds g.entry = ∅ := by
  unfold findIdominators
  rw [bind_eq_ok]
  constructor
  · rintro ⟨_, hassert, -⟩
    exact numIdoms_eq_iff.mp (assert_eq_ok.mp hassert) g.entry (domTmpIds_entry h)
  · intro hentry
    refine ⟨(), assert_pos (numIdoms_eq_iff.mpr fun n hn => ?_), rfl⟩
    by_cases heq : n = g.entry
    · rw [heq]
      exact hentry
    · exact (domTmpIds_eq_empty_iff h heq).mp hn

theorem findIdominators_eq {idom : Fin g.size → Option (Fin g.size)}
    (h : g.findIdominators D old = .ok idom) : idom = g.immediatedominatorId D old := by
  obtain ⟨_, -, h⟩ := bind_eq_ok.mp h
  exact (Except.ok.inj h).symm

/-- **The immediate dominator** of a block that is reached. -/
theorem immediatedominatorId_eq (h : g.findDominators fuel = some D) (hn : g.Reached n)
    (hd : g.Idom d n) : g.immediatedominatorId D old n = some d := by
  unfold immediatedominatorId
  rw [domTmpIds_eq h hn hd]
  cases hfind : (List.finRange g.size).find? (· ∈ ({d} : Finset (Fin g.size))) with
  | none =>
    have hno := List.find?_eq_none.mp hfind d (List.mem_finRange d)
    simp at hno
  | some x =>
    have hx := List.find?_some hfind
    simp only [decide_eq_true_eq, Finset.mem_singleton] at hx
    rw [hx]
    rfl

theorem immediatedominatorId_entry (h : g.findDominators fuel = some D) :
    g.immediatedominatorId D old g.entry = old g.entry := by
  unfold immediatedominatorId
  rw [domTmpIds_entry h]
  have hnone : (List.finRange g.size).find? (· ∈ (∅ : Finset (Fin g.size))) = none := by
    rw [List.find?_eq_none]
    simp
  rw [hnone]
  rfl

/-- Dominator analysis does what it should: it ends, with the blocks on every path from the entry;
from these the one immediate dominator of every block but the entry is found, and the assertion
holds. -/
def DominatorsExact (g : Cfg) : Prop :=
  ∃ N D, (∀ fuel ≥ N, g.findDominators fuel = some D) ∧
    (∀ b d, d ∈ D b ↔ ∀ l, Path g.BackEdge g.entry b l → d ∈ l) ∧
    ∃ idom, g.findIdominators D (fun _ => none) = .ok idom ∧ idom g.entry = none ∧
      ∀ b ≠ g.entry, ∃ d, idom b = some d ∧ g.Idom d b ∧ ∀ d', g.Idom d' b → d' = d

theorem DominatorsExact.predecessorIds_entry (h : g.DominatorsExact) : g.predecessorIds g.entry = ∅ := by
  obtain ⟨N, D, hfuel, -, idom, hidom, -⟩ := h
  have heq := findIdominators_eq hidom
  rw [heq] at hidom
  exact (findIdominators_ok_iff (hfuel N le_rfl)).mp hidom

/-- **Dominator analysis is exact** in a graph all of whose blocks are reached, if and only if no edge
goes back to the entry block. -/
theorem dominatorsExact_iff (g : Cfg) (hreach : ∀ b, g.Reached b) :
    g.DominatorsExact ↔ g.predecessorIds g.entry = ∅ := by
  constructor
  · exact DominatorsExact.predecessorIds_entry
  · intro hentry
    obtain ⟨N, D, hfuel⟩ := g.exists_findDominators
    have hD := hfuel N le_rfl
    refine ⟨N, D, hfuel, fun b d => findDominators_exact hD (hreach b) d, _,
      (findIdominators_ok_iff hD).mpr hentry, immediatedominatorId_entry hD, ?_⟩
    intro b hb
    obtain ⟨d, hd⟩ := ImmediatePostdominator.exists_of_ne (hreach b) hb
    exact ⟨d, immediatedominatorId_eq hD (hreach b) hd, hd, fun d' hd' => hd'.unique (hreach b) hd⟩

theorem reached_diamond (b : Fin diamond.size) : diamond.Reached b := by
  have edge : ∀ v w : Fin 4, w ∈ (diamond.successorIds v : Finset (Fin 4)) → diamond.BackEdge w v :=
    fun _ _ h => backEdge_iff.mpr h
  have h0 : Path diamond.BackEdge diamond.entry (0 : Fin 4) [(0 : Fin 4)] := .done
  have h1 : Path diamond.BackEdge diamond.entry (1 : Fin 4) [(1 : Fin 4), (0 : Fin 4)] :=
    .step (edge 0 1 (Finset.mem_insert_self _ _)) h0
  have h2 : Path diamond.BackEdge diamond.entry (2 : Fin 4) [(2 : Fin 4), (0 : Fin 4)] :=
    .step (edge 0 2 (Finset.mem_insert_of_mem (Finset.mem_singleton_self _))) h0
  have h3 : Path diamond.BackEdge diamond.entry (3 : Fin 4) [(3 : Fin 4), (1 : Fin 4), (0 : Fin 4)] :=
    .step (edge 1 3 (Finset.mem_singleton_self _)) h1
  have hall : ∀ b : Fin 4, b = 0 ∨ b = 1 ∨ b = 2 ∨ b = 3 := by decide
  rcases hall b with rfl | rfl | rfl | rfl
  · exact ⟨_, h0⟩
  · exact ⟨_, h1⟩
  · exact ⟨_, h2⟩
  · exact ⟨_, h3⟩

/-- No edge goes back to the entry of the conditional. -/
theorem dominatorsExact_diamond : diamond.DominatorsExact :=
  (dominatorsExact_iff diamond reached_diamond).mpr (by decide)

/-- A loop over the first block: it branches to itself or goes on to the exit. -/
def entryLoop : Cfg where
  size := 2
  two_le := le_rfl
  successorIds b := if b = 0 then {0, 1} else ∅

/-- All its blocks are reached, and the assertion fails. -/
theorem entryLoop_not_exact : (∀ b, entryLoop.Reached b) ∧ ¬ entryLoop.DominatorsExact := by
  constructor
  · have edge : entryLoop.BackEdge (1 : Fin 2) (0 : Fin 2) :=
      backEdge_iff.mpr (Finset.mem_insert_of_mem (Finset.mem_singleton_self (1 : Fin 2)))
    have h0 : Path entryLoop.BackEdge entryLoop.entry (0 : Fin 2) [(0 : Fin 2)] := .done
    have h1 : Path entryLoop.BackEdge entryLoop.entry (1 : Fin 2) [(1 : Fin 2), (0 : Fin 2)] :=
      .step edge h0
    have hall : ∀ b : Fin 2, b = 0 ∨ b = 1 := by decide
    intro b
    rcases hall b with rfl | rfl
    · exact ⟨_, h0⟩
    · exact ⟨_, h1⟩
  · intro h
    exact absurd h.predecessorIds_entry (by decide)

end Cfg

end GpgpuSimRuby.Ptx
