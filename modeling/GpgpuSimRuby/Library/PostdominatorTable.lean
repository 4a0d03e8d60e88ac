import GpgpuSimRuby.Library.Postdominator
import GpgpuSimRuby.Library.RoundRobin

/-!
# Computing postdominators

In a finite graph the sets of postdominators solve `D v = {v} ∪ ⋂ D w`, over the successors `w` of `v`,
for all nodes other than the goal. Round-robin iteration from above finds the greatest solution, which
they are. From the sets it takes one pass over each to leave the immediate postdominator alone.

With the edges reversed and the entry for the goal, these are dominators.
-/

namespace GpgpuSimRuby.Library.PostdominatorTable

variable {V : Type} [Fintype V] [DecidableEq V]

/-- The right-hand side for a node. -/
def transfer (succ : V → Finset V) (v : V) (D : V → Finset V) : Finset V :=
  insert v (Finset.univ.filter fun x => ∀ s ∈ succ v, x ∈ D s)

/-- The table in which the iteration starts. -/
def initial (goal v : V) : Finset V := if v = goal then {goal} else Finset.univ

variable {succ : V → Finset V} {goal v x : V} {vs : List V} {D D' : V → Finset V}

theorem mem_transfer : x ∈ transfer succ v D ↔ x = v ∨ ∀ s ∈ succ v, x ∈ D s := by
  simp [transfer]

theorem transfer_mono (v : V) : Monotone (transfer succ v) := by
  intro D D' hle x hx
  rw [mem_transfer] at hx ⊢
  rcases hx with rfl | hx
  · exact .inl rfl
  · exact .inr fun s hs => hle s (hx s hs)

theorem above_initial (hvs : ∀ v, v ∈ vs ↔ v ≠ goal) :
    RoundRobin.Above (transfer succ) vs (initial goal) := by
  intro v hv
  unfold initial
  rw [if_neg ((hvs v).mp hv)]
  exact Finset.subset_univ _

/-- **The iteration ends.** -/
theorem exists_solve (hvs : ∀ v, v ∈ vs ↔ v ≠ goal) :
    ∃ N D, ∀ fuel ≥ N, RoundRobin.solve (transfer succ) vs fuel (initial goal) = some D := by
  obtain ⟨N, D, hD⟩ := RoundRobin.exists_solve transfer_mono (above_initial hvs)
  exact ⟨N, D, fun fuel hle => RoundRobin.solve_mono hD hle⟩

open Classical in
/-- **The postdominators** are what the iteration ends in. -/
theorem solve_exact (hvs : ∀ v, v ∈ vs ↔ v ≠ goal) {fuel : Nat}
    (h : RoundRobin.solve (transfer succ) vs fuel (initial goal) = some D) :
    x ∈ D v ↔ Postdominates (fun v w => w ∈ succ v) goal x v := by
  obtain ⟨hsolved, hout, hgreatest⟩ := RoundRobin.solve_spec transfer_mono h
  have hgoal : D goal = {goal} := by
    rw [hout goal fun hmem => (hvs goal).mp hmem rfl]
    exact if_pos rfl
  constructor
  · intro hx
    apply postdominates_of_mem (D := fun v => (D v : Set V))
    · show ((D goal : Finset V) : Set V) ⊆ _
      rw [hgoal]
      exact fun y hy => by simpa using hy
    · intro u w hu he y hy
      have hy : y ∈ D u := hy
      rw [← hsolved u ((hvs u).mpr hu), mem_transfer] at hy
      rcases hy with rfl | hy
      · exact .inl rfl
      · exact .inr (hy w he)
    · exact hx
  · intro hx
    -- the true postdominators lie below their right-hand sides, and the result is the greatest such
    have hle := hgreatest
      (fun v => Finset.univ.filter fun d => Postdominates (fun v w => w ∈ succ v) goal d v) ?_ ?_
    · exact hle v (by simpa using hx)
    · intro u d hmem
      unfold initial
      split
      · next hu =>
        subst hu
        have hd : Postdominates (fun v w => w ∈ succ v) u d u := by simpa using hmem
        exact Finset.mem_singleton.mpr hd.eq_goal
      · exact Finset.mem_univ d
    · intro u _ d hmem
      have hd : Postdominates (fun v w => w ∈ succ v) goal d u := by simpa using hmem
      rw [mem_transfer]
      by_cases hdu : d = u
      · exact .inl hdu
      · refine .inr fun s hs => ?_
        simpa using hd.of_edge hdu hs

/-! ## Immediate postdominators -/

section Prune

/-- Erase from a set the other members of `D s`. -/
def pruneBy (D : V → Finset V) (s : V) (tmp : Finset V) : Finset V :=
  tmp.filter fun t => t = s ∨ t ∉ D s

/-- Erase for every node that is still there when it is visited. -/
def prune (D : V → Finset V) : List V → Finset V → Finset V
  | [], tmp => tmp
  | s :: vs, tmp => prune D vs (if s ∈ tmp then pruneBy D s tmp else tmp)

omit [Fintype V] in
theorem prune_nonempty {tmp : Finset V} (h : tmp.Nonempty) : (prune D vs tmp).Nonempty := by
  induction vs generalizing tmp with
  | nil => exact h
  | cons s vs ih =>
    unfold prune
    apply ih
    by_cases hs : s ∈ tmp
    · rw [if_pos hs]
      exact ⟨s, Finset.mem_filter.mpr ⟨hs, .inl rfl⟩⟩
    · rw [if_neg hs]
      exact h

omit [Fintype V] in
theorem prune_empty : prune D vs ∅ = ∅ := by
  induction vs with
  | nil => rfl
  | cons s vs ih =>
    unfold prune
    rw [if_neg (Finset.notMem_empty s)]
    exact ih

variable {E : V → V → Prop} {d n s : V} (hreach : ∃ l, Path E goal n l)
  (hD : ∀ v, (∃ l, Path E goal v l) → ∀ d, d ∈ D v ↔ Postdominates E goal d v)
  (hd : ImmediatePostdominator E goal d n)
include hreach hD hd

omit [Fintype V] in
theorem mem_pruneBy {tmp : Finset V} (hs : s ∈ (D n).erase n) (hmem : d ∈ tmp) : d ∈ pruneBy D s tmp := by
  refine Finset.mem_filter.mpr ⟨hmem, ?_⟩
  by_contra hno
  obtain ⟨hsn, hs⟩ := Finset.mem_erase.mp hs
  have hs := (hD n hreach s).mp hs
  rw [not_or, not_not, hD s (hs.reaches hreach)] at hno
  rcases hd.2 s ⟨hsn, hs⟩ with heq | hsd
  · exact hno.1 heq.symm
  · exact hno.1 (Postdominates.antisymm (hd.1.2.reaches hreach) hno.2 hsd.2)

omit [Fintype V] in
theorem prune_spec {tmp : Finset V} (hsub : tmp ⊆ (D n).erase n) (hmem : d ∈ tmp) :
    d ∈ prune D vs tmp ∧ (d ∈ vs → prune D vs tmp ⊆ {d}) ∧ prune D vs tmp ⊆ tmp := by
  induction vs generalizing tmp with
  | nil => exact ⟨hmem, fun h => absurd h List.not_mem_nil, fun _ h => h⟩
  | cons s vs ih =>
    unfold prune
    by_cases hs : s ∈ tmp
    · rw [if_pos hs]
      have hkeep : pruneBy D s tmp ⊆ tmp := Finset.filter_subset _ _
      have hmem' : d ∈ pruneBy D s tmp := mem_pruneBy hreach hD hd (hsub hs) hmem
      obtain ⟨hin, hvisit, hle⟩ := ih (fun _ h => hsub (hkeep h)) hmem'
      refine ⟨hin, ?_, fun _ h => hkeep (hle h)⟩
      intro hvisited
      rcases List.mem_cons.mp hvisited with rfl | hrest
      · -- every other strict postdominator of the node postdominates this one
        intro t ht
        have ht := hle ht
        obtain ⟨htn, htD⟩ := Finset.mem_erase.mp (hsub (hkeep ht))
        rcases hd.2 t ⟨htn, (hD n hreach t).mp htD⟩ with heq | htd
        · exact Finset.mem_singleton.mpr heq
        · rcases (Finset.mem_filter.mp ht).2 with heq | hno
          · exact Finset.mem_singleton.mpr heq
          · exact absurd ((hD d (hd.1.2.reaches hreach) t).mpr htd.2) hno
      · exact hvisit hrest
    · rw [if_neg hs]
      obtain ⟨hin, hvisit, hle⟩ := ih hsub hmem
      refine ⟨hin, ?_, hle⟩
      intro hvisited
      rcases List.mem_cons.mp hvisited with rfl | hrest
      · exact absurd hmem hs
      · exact hvisit hrest

omit [Fintype V] in
/-- **The pass** leaves the immediate postdominator alone. -/
theorem prune_eq (hall : ∀ v, v ∈ vs) : prune D vs ((D n).erase n) = {d} := by
  have hmem : d ∈ (D n).erase n := Finset.mem_erase.mpr ⟨hd.1.1, (hD n hreach d).mpr hd.1.2⟩
  obtain ⟨hin, hvisit, -⟩ : d ∈ prune D vs _ ∧ (d ∈ vs → _) ∧ _ :=
    prune_spec hreach hD hd (Finset.Subset.refl _) hmem
  exact Finset.Subset.antisymm (hvisit (hall d)) (Finset.singleton_subset_iff.mpr hin)

end Prune

end GpgpuSimRuby.Library.PostdominatorTable
