import GpgpuSimRuby.Library.Fault
import GpgpuSimRuby.Library.PostdominatorTable

/-!
# Postdominators of the basic blocks

`find_postdominators` and `find_ipostdominators` of `ptx_ir.cc` on the basic blocks of a function. The
blocks are numbered, the exit block is the last one, and the `std::set`s of block numbers are visited
in increasing order.

The loop of `find_postdominators` is the round-robin iteration of the library; its `while (change)` has
the fuel as an argument, and any fuel from some number on is enough.
-/

namespace GpgpuSimRuby.Ptx

open Library

/-- The basic blocks of a function, with their `successor_ids`. There is a distinguished exit block
besides the entry block. -/
structure Cfg where
  size : Nat
  two_le : 2 ≤ size
  successorIds : Fin size → Finset (Fin size)

/-- The assertions of `find_ipostdominators`. -/
inductive PdomAssertion where
  | tmpIds
  | numIpdoms
  deriving DecidableEq, Repr

namespace Cfg

variable (g : Cfg)

/-- The exit block: `m_basic_blocks.back()`. -/
def exit : Fin g.size := ⟨g.size - 1, by have := g.two_le; omega⟩

/-- The blocks from the one before the exit down to the first. -/
def blocksBackwards : List (Fin g.size) := (List.finRange g.size).reverse.filter (· ≠ g.exit)

/-- The set `T` of a round for block `h`: all blocks, intersected with the postdominators of each
successor, and `h`. -/
def transfer (h : Fin g.size) (postdominatorIds : Fin g.size → Finset (Fin g.size)) :
    Finset (Fin g.size) :=
  insert h (Finset.univ.filter fun x => ∀ s ∈ g.successorIds h, x ∈ postdominatorIds s)

/-- All blocks for every block except the exit. -/
def initialIds (b : Fin g.size) : Finset (Fin g.size) :=
  if b = g.exit then {g.exit} else Finset.univ

/-- `function_info::find_postdominators`. -/
def findPostdominators (fuel : Nat) : Option (Fin g.size → Finset (Fin g.size)) :=
  RoundRobin.solve g.transfer g.blocksBackwards fuel g.initialIds

section Ipostdominators

variable (postdominatorIds : Fin g.size → Finset (Fin g.size))

/-- One turn of the loop over `s`: erase from `Tmp_ids` the other postdominators of `s`. -/
def pruneBy (s : Fin g.size) (tmp : Finset (Fin g.size)) : Finset (Fin g.size) :=
  tmp.filter fun t => t = s ∨ t ∉ postdominatorIds s

/-- The loop over `s`: it visits the members of `Tmp_ids` that are still there when it gets to them. -/
def prune : List (Fin g.size) → Finset (Fin g.size) → Finset (Fin g.size)
  | [], tmp => tmp
  | s :: blocks, tmp =>
    prune blocks (if s ∈ tmp then g.pruneBy postdominatorIds s tmp else tmp)

/-- `Tmp_ids` of a block after the loops. The exit block is not visited. -/
def tmpIds (n : Fin g.size) : Finset (Fin g.size) :=
  let tmp := (postdominatorIds n).erase n
  if n = g.exit then tmp else g.prune postdominatorIds (List.finRange g.size) tmp

/-- `immediatepostdominator_id`, the first of `Tmp_ids` if there is one. -/
def immediatepostdominatorId (n : Fin g.size) : Option (Fin g.size) :=
  (List.finRange g.size).find? (· ∈ g.tmpIds postdominatorIds n)

/-- `num_ipdoms` over the blocks of a list. -/
def numIpdoms : List (Fin g.size) → Except PdomAssertion Nat
  | [] => .ok 0
  | n :: blocks => do
    assert ((g.tmpIds postdominatorIds n).card ≤ 1) .tmpIds
    let num ← numIpdoms blocks
    .ok (if g.tmpIds postdominatorIds n = ∅ then num else num + 1)

/-- `function_info::find_ipostdominators`: the immediate postdominators and their number. -/
def findIpostdominators : Except PdomAssertion ((Fin g.size → Option (Fin g.size)) × Nat) := do
  let num ← g.numIpdoms postdominatorIds (List.finRange g.size).reverse
  assert (num = g.size - 1) .numIpdoms
  .ok (g.immediatepostdominatorId postdominatorIds, num)

end Ipostdominators

/-! ## Postdominance -/

/-- The edges of the graph. -/
def Edge (v w : Fin g.size) : Prop := w ∈ g.successorIds v

/-- The block `d` lies on every path from `b` to the exit. -/
abbrev Postdom (d b : Fin g.size) : Prop := Postdominates g.Edge g.exit d b

/-- Every block reaches the exit block. -/
def ReachesExit : Prop := ReachesGoal g.Edge g.exit

variable {g} {b d n : Fin g.size} {D : Fin g.size → Finset (Fin g.size)}

theorem mem_blocksBackwards (b : Fin g.size) : b ∈ g.blocksBackwards ↔ b ≠ g.exit := by
  simp [blocksBackwards]

theorem transfer_eq (g : Cfg) : g.transfer = PostdominatorTable.transfer g.successorIds := by
  funext h D
  ext d
  simp [transfer, PostdominatorTable.mem_transfer]

theorem findPostdominators_eq (g : Cfg) (fuel : Nat) : g.findPostdominators fuel =
      RoundRobin.solve (PostdominatorTable.transfer g.successorIds) g.blocksBackwards fuel
        (PostdominatorTable.initial g.exit) := by
  unfold findPostdominators
  rw [transfer_eq]
  rfl

theorem exists_findPostdominators (g : Cfg) : ∃ N D, ∀ fuel ≥ N, g.findPostdominators fuel = some D := by
  simp only [findPostdominators_eq]
  exact PostdominatorTable.exists_solve mem_blocksBackwards

/-- **The postdominators** are what the iteration ends in. -/
theorem findPostdominators_exact {fuel : Nat} (h : g.findPostdominators fuel = some D) :
    d ∈ D b ↔ g.Postdom d b := by
  rw [findPostdominators_eq] at h
  exact PostdominatorTable.solve_exact mem_blocksBackwards h

/-! ## Immediate postdominators -/

/-- The strict postdominator of a block that all its others postdominate. -/
abbrev Ipdom (g : Cfg) (d b : Fin g.size) : Prop := ImmediatePostdominator g.Edge g.exit d b

theorem prune_eq (D : Fin g.size → Finset (Fin g.size)) (blocks : List (Fin g.size))
    (tmp : Finset (Fin g.size)) : g.prune D blocks tmp = PostdominatorTable.prune D blocks tmp := by
  induction blocks generalizing tmp with
  | nil => rfl
  | cons s blocks ih => exact ih _

section Prune

variable (hreach : ∃ l, Path g.Edge g.exit n l) (hD : ∀ d b, d ∈ D b ↔ g.Postdom d b) (hd : g.Ipdom d n)
include hreach hD hd

theorem tmpIds_eq : g.tmpIds D n = {d} := by
  have hn : n ≠ g.exit := by
    rintro rfl
    exact hd.1.1 hd.1.2.eq_goal
  unfold tmpIds
  simp only [if_neg hn]
  rw [prune_eq]
  exact PostdominatorTable.prune_eq hreach (fun b _ d => hD d b) hd List.mem_finRange

theorem immediatepostdominatorId_eq : g.immediatepostdominatorId D n = some d := by
  unfold immediatepostdominatorId
  rw [tmpIds_eq hreach hD hd]
  cases hfind : (List.finRange g.size).find? (· ∈ ({d} : Finset (Fin g.size))) with
  | none =>
    have hno := List.find?_eq_none.mp hfind d (List.mem_finRange d)
    simp at hno
  | some x =>
    have hx := List.find?_some hfind
    simp only [decide_eq_true_eq, Finset.mem_singleton] at hx
    rw [hx]

end Prune

theorem tmpIds_exit (hD : ∀ d b, d ∈ D b ↔ g.Postdom d b) : g.tmpIds D g.exit = ∅ := by
  unfold tmpIds
  rw [if_pos rfl, Finset.eq_empty_iff_forall_notMem]
  intro d hd
  obtain ⟨hne, hd⟩ := Finset.mem_erase.mp hd
  exact hne ((hD d g.exit).mp hd).eq_goal

theorem immediatepostdominatorId_exit (hD : ∀ d b, d ∈ D b ↔ g.Postdom d b) :
    g.immediatepostdominatorId D g.exit = none := by
  unfold immediatepostdominatorId
  rw [tmpIds_exit hD, List.find?_eq_none]
  simp

theorem numIpdoms_eq (hreach : g.ReachesExit) (hD : ∀ d b, d ∈ D b ↔ g.Postdom d b)
    (blocks : List (Fin g.size)) : g.numIpdoms D blocks = .ok (blocks.countP (· ≠ g.exit)) := by
  induction blocks with
  | nil => rfl
  | cons n blocks ih =>
    unfold numIpdoms
    by_cases hn : n = g.exit
    · subst hn
      rw [tmpIds_exit hD, assert_pos (by simp), ok_bind, ih]
      simp
    · obtain ⟨d, hd⟩ := ImmediatePostdominator.exists_of_ne (hreach n) hn
      rw [tmpIds_eq (hreach n) hD hd, assert_pos (by simp), ok_bind, ih]
      simp [hn]

theorem numIpdoms_eq_countP {blocks : List (Fin g.size)} {num : Nat}
    (h : g.numIpdoms D blocks = .ok num) : num = blocks.countP (g.tmpIds D · ≠ ∅) := by
  induction blocks generalizing num with
  | nil => exact (Except.ok.inj h).symm
  | cons n blocks ih =>
    obtain ⟨_, -, h⟩ := bind_eq_ok.mp h
    obtain ⟨m, hm, h⟩ := bind_eq_ok.mp h
    obtain rfl := Except.ok.inj h
    rw [List.countP_cons, ← ih hm]
    split <;> simp_all

theorem countP_ne_exit (g : Cfg) : (List.finRange g.size).reverse.countP (· ≠ g.exit) = g.size - 1 := by
  have hsplit := List.length_eq_countP_add_countP (fun b => decide (b = g.exit))
    (l := List.finRange g.size)
  have hone : (List.finRange g.size).countP (fun b => decide (b = g.exit)) = 1 := by
    have := List.count_eq_one_of_mem (List.nodup_finRange g.size) (List.mem_finRange g.exit)
    rwa [List.count_eq_countP] at this
  rw [List.length_finRange, hone] at hsplit
  have hother : (List.finRange g.size).countP (fun b => decide ¬ decide (b = g.exit) = true) =
      (List.finRange g.size).countP (fun b => decide (b ≠ g.exit)) := by simp
  rw [List.countP_reverse, ← hother]
  omega

/-- Where no assertion fails, every block but the exit has got an immediate postdominator: the true
one, if it reaches the exit. -/
theorem findIpostdominators_spec {fuel num : Nat} {ipdom : Fin g.size → Option (Fin g.size)}
    (hD : g.findPostdominators fuel = some D) (h : g.findIpostdominators D = .ok (ipdom, num))
    (hb : b ≠ g.exit) : ∃ d, ipdom b = some d ∧ ((∃ l, Path g.Edge g.exit b l) → g.Ipdom d b) := by
  have hexact : ∀ d b, d ∈ D b ↔ g.Postdom d b := fun d b => findPostdominators_exact hD
  obtain ⟨m, hm, h⟩ := bind_eq_ok.mp h
  obtain ⟨_, hnum, h⟩ := bind_eq_ok.mp h
  obtain rfl := (Prod.mk.inj (Except.ok.inj h)).1
  have hcount := numIpdoms_eq_countP hm
  rw [assert_eq_ok.mp hnum] at hcount
  -- as many blocks have one as there are blocks other than the exit, which has none
  have hall : ∀ n ∈ (List.finRange g.size).reverse, n ≠ g.exit → g.tmpIds D n ≠ ∅ := by
    have hsub : ((List.finRange g.size).reverse.filter (g.tmpIds D · ≠ ∅)).Sublist
        ((List.finRange g.size).reverse.filter (· ≠ g.exit)) := by
      apply List.monotone_filter_right
      intro n hn
      rw [decide_eq_true_eq] at hn ⊢
      rintro rfl
      exact hn (tmpIds_exit hexact)
    have heq := hsub.eq_of_length (by
      rw [← List.countP_eq_length_filter, ← List.countP_eq_length_filter, countP_ne_exit, ← hcount])
    intro n hmem hne
    have hin : n ∈ (List.finRange g.size).reverse.filter (· ≠ g.exit) :=
      List.mem_filter.mpr ⟨hmem, decide_eq_true hne⟩
    rw [← heq] at hin
    exact of_decide_eq_true (List.mem_filter.mp hin).2
  have hne := hall b (List.mem_reverse.mpr (List.mem_finRange b)) hb
  obtain ⟨x, hx⟩ := Finset.nonempty_iff_ne_empty.mpr hne
  have hsome : ∃ d, g.immediatepostdominatorId D b = some d := by
    unfold immediatepostdominatorId
    rw [← Option.isSome_iff_exists, List.find?_isSome]
    exact ⟨x, List.mem_finRange x, by simpa using hx⟩
  obtain ⟨d, hd⟩ := hsome
  refine ⟨d, hd, fun hreach => ?_⟩
  obtain ⟨d', hd'⟩ := ImmediatePostdominator.exists_of_ne hreach hb
  have heq := immediatepostdominatorId_eq hreach hexact hd'
  obtain rfl := Option.some.inj (hd.symm.trans heq)
  exact hd'

/-- **Postdominator analysis is exact.** `find_postdominators` ends, with exactly the blocks on every
path to the exit; from these `find_ipostdominators` fails none of its assertions, counts one block less
than there are, and finds for every block but the exit the one immediate postdominator. -/
theorem postdominators_exact (g : Cfg) (hreach : g.ReachesExit) :
    ∃ N D, (∀ fuel ≥ N, g.findPostdominators fuel = some D) ∧
      (∀ b d, d ∈ D b ↔ ∀ l, Path g.Edge g.exit b l → d ∈ l) ∧
      ∃ ipdom, g.findIpostdominators D = .ok (ipdom, g.size - 1) ∧ ipdom g.exit = none ∧
        ∀ b ≠ g.exit, ∃ d, ipdom b = some d ∧ g.Ipdom d b ∧ ∀ d', g.Ipdom d' b → d' = d := by
  obtain ⟨N, D, hfuel⟩ := g.exists_findPostdominators
  have hD : ∀ d b, d ∈ D b ↔ g.Postdom d b := fun d b =>
    findPostdominators_exact (hfuel N le_rfl)
  refine ⟨N, D, hfuel, fun b d => hD d b, g.immediatepostdominatorId D, ?_,
    immediatepostdominatorId_exit hD, ?_⟩
  · unfold findIpostdominators
    rw [numIpdoms_eq hreach hD, ok_bind, countP_ne_exit, assert_pos rfl, ok_bind]
  · intro b hb
    obtain ⟨d, hd⟩ := ImmediatePostdominator.exists_of_ne (hreach b) hb
    exact ⟨d, immediatepostdominatorId_eq (hreach b) hD hd, hd,
      fun d' hd' => hd'.unique (hreach b) hd⟩

/-- The blocks of a conditional: block `0` branches to `1` and `2`, which both go to `3`. -/
def diamond : Cfg where
  size := 4
  two_le := by decide
  successorIds b := if b = 0 then {1, 2} else if b = 3 then ∅ else {3}

theorem reachesExit_diamond : diamond.ReachesExit := by
  have edge : ∀ v w : Fin 4, w ∈ (diamond.successorIds v : Finset (Fin 4)) → diamond.Edge v w :=
    fun _ _ h => h
  have h3 : Path diamond.Edge diamond.exit (3 : Fin 4) [(3 : Fin 4)] := .done
  have h1 : Path diamond.Edge diamond.exit (1 : Fin 4) [(1 : Fin 4), (3 : Fin 4)] :=
    .step (edge 1 3 (Finset.mem_singleton_self _)) h3
  have h2 : Path diamond.Edge diamond.exit (2 : Fin 4) [(2 : Fin 4), (3 : Fin 4)] :=
    .step (edge 2 3 (Finset.mem_singleton_self _)) h3
  have h0 : Path diamond.Edge diamond.exit (0 : Fin 4) [(0 : Fin 4), (1 : Fin 4), (3 : Fin 4)] :=
    .step (edge 0 1 (Finset.mem_insert_self _ _)) h1
  have hall : ∀ b : Fin 4, b = 0 ∨ b = 1 ∨ b = 2 ∨ b = 3 := by decide
  intro b
  rcases hall b with rfl | rfl | rfl | rfl
  · exact ⟨_, h0⟩
  · exact ⟨_, h1⟩
  · exact ⟨_, h2⟩
  · exact ⟨_, h3⟩

/-- In the conditional both branches reconverge at the exit, and there are three immediate
postdominators. -/
theorem postdominators_exact_diamond :
    ∃ N D ipdom, (∀ fuel ≥ N, diamond.findPostdominators fuel = some D) ∧
      diamond.findIpostdominators D = .ok (ipdom, 3) ∧ ipdom diamond.exit = none := by
  obtain ⟨N, D, hfuel, -, ipdom, hfind, hexit, -⟩ := postdominators_exact diamond reachesExit_diamond
  exact ⟨N, D, ipdom, hfuel, hfind, hexit⟩

end Cfg

end GpgpuSimRuby.Ptx
