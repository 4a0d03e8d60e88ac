import Mathlib

/-!
# Round-robin iteration

Solving `D v = f v D` for all nodes `v` by sweeping over the nodes in a fixed order, in place, until a
whole sweep has changed nothing. `D` is a table of values of a partial order and every `f v` is
monotone in the table.

* A table that starts above its right-hand sides only descends, so the iteration ends.
* What it ends in solves the equations.
* A table that lies below its own right-hand sides stays below, so it ends in the greatest solution.
-/

namespace GpgpuSimRuby.Library.RoundRobin

open Function

variable {V L : Type} [DecidableEq V] [DecidableEq L]

/-- One sweep over the nodes of a list, and whether it has changed anything. -/
def sweep (f : V → (V → L) → L) : List V → (V → L) → (V → L) × Bool
  | [], D => (D, false)
  | v :: vs, D =>
    if f v D = D v then sweep f vs D
    else ((sweep f vs (update D v (f v D))).1, true)

/-- Sweep until nothing changes; `none` when the fuel does not last. -/
def solve (f : V → (V → L) → L) (vs : List V) : Nat → (V → L) → Option (V → L)
  | 0, _ => none
  | fuel + 1, D =>
    if (sweep f vs D).2 then solve f vs fuel (sweep f vs D).1 else some (sweep f vs D).1

variable [PartialOrder L] {f : V → (V → L) → L} {vs : List V} {D D' : V → L}

/-- A table that lies above its right-hand sides at the nodes of the list. -/
def Above (f : V → (V → L) → L) (vs : List V) (D : V → L) : Prop := ∀ v ∈ vs, f v D ≤ D v

omit [DecidableEq L] in
theorem update_le (h : f v D ≤ D v) : update D v (f v D) ≤ D := by
  intro u
  by_cases huv : u = v
  · subst huv
    rw [update_self]
    exact h
  · rw [update_of_ne huv]

omit [DecidableEq L] in
theorem Above.update (hf : ∀ v, Monotone (f v)) (h : Above f vs D) {v : V} (hv : v ∈ vs) :
    Above f vs (Function.update D v (f v D)) := by
  intro u hu
  have hle : f u (Function.update D v (f v D)) ≤ f u D := hf u (update_le (h v hv))
  by_cases huv : u = v
  · subst huv
    rw [Function.update_self]
    exact hle
  · rw [Function.update_of_ne huv]
    exact hle.trans (h u hu)

theorem sweep_above (hf : ∀ v, Monotone (f v)) {us : List V} (hus : us ⊆ vs) (h : Above f vs D) :
    (sweep f us D).1 ≤ D ∧ Above f vs (sweep f us D).1 := by
  induction us generalizing D with
  | nil => exact ⟨le_rfl, h⟩
  | cons v us ih =>
    have hv : v ∈ vs := hus List.mem_cons_self
    have hrest : us ⊆ vs := fun u hu => hus (List.mem_cons_of_mem _ hu)
    unfold sweep
    split
    · exact ih hrest h
    · obtain ⟨hle, habove⟩ := ih hrest (h.update hf hv)
      exact ⟨hle.trans (update_le (h v hv)), habove⟩

omit [PartialOrder L] in
theorem sweep_solved (h : (sweep f vs D).2 = false) : (sweep f vs D).1 = D ∧ ∀ v ∈ vs, f v D = D v := by
  induction vs generalizing D with
  | nil => exact ⟨rfl, fun _ hv => absurd hv List.not_mem_nil⟩
  | cons v vs ih =>
    unfold sweep at h ⊢
    split at h
    · next heq =>
      rw [if_pos heq]
      obtain ⟨hsame, hrest⟩ := ih h
      refine ⟨hsame, ?_⟩
      intro u hu
      rcases List.mem_cons.mp hu with rfl | hu
      · exact heq
      · exact hrest u hu
    · cases h

theorem sweep_lt (hf : ∀ v, Monotone (f v)) (h : Above f vs D) (hc : (sweep f vs D).2 = true) :
    (sweep f vs D).1 < D := by
  suffices hlt : ∀ us ⊆ vs, ∀ D, Above f vs D → (sweep f us D).2 = true → (sweep f us D).1 < D from
    hlt vs (List.Subset.refl vs) D h hc
  intro us
  induction us with
  | nil =>
    intro _ D _ hc
    cases hc
  | cons v us ih =>
    intro hus D h hc
    have hv : v ∈ vs := hus List.mem_cons_self
    have hrest : us ⊆ vs := fun u hu => hus (List.mem_cons_of_mem _ hu)
    unfold sweep at hc ⊢
    split at hc
    · next heq =>
      rw [if_pos heq]
      exact ih hrest D h hc
    · next hne =>
      rw [if_neg hne]
      have hle := (sweep_above hf hrest (h.update hf hv)).1
      refine lt_of_le_of_lt hle (lt_of_le_of_ne (update_le (h v hv)) ?_)
      intro heq
      apply hne
      have := congrFun heq v
      rwa [update_self] at this

theorem le_sweep (hf : ∀ v, Monotone (f v)) {X : V → L} (hX : ∀ v ∈ vs, X v ≤ f v X)
    (h : X ≤ D) : X ≤ (sweep f vs D).1 := by
  induction vs generalizing D with
  | nil => exact h
  | cons v vs ih =>
    have hrest : ∀ u ∈ vs, X u ≤ f u X := fun u hu => hX u (List.mem_cons_of_mem _ hu)
    unfold sweep
    split
    · exact ih hrest h
    · apply ih hrest
      intro u
      by_cases huv : u = v
      · subst huv
        rw [update_self]
        exact (hX u List.mem_cons_self).trans (hf u h)
      · rw [update_of_ne huv]
        exact h u

omit [PartialOrder L] in
theorem sweep_of_not_mem {u : V} (hu : u ∉ vs) : (sweep f vs D).1 u = D u := by
  induction vs generalizing D with
  | nil => rfl
  | cons v vs ih =>
    have hne : u ≠ v := fun h => hu (h ▸ List.mem_cons_self)
    have hrest : u ∉ vs := fun h => hu (List.mem_cons_of_mem _ h)
    unfold sweep
    split
    · exact ih hrest
    · rw [ih hrest, update_of_ne hne]

/-- **What the iteration ends in** solves the equations, has its old values outside the list, and
lies above every table that lies below its right-hand sides. -/
theorem solve_spec (hf : ∀ v, Monotone (f v)) {fuel : Nat} (h : solve f vs fuel D = some D') :
    (∀ v ∈ vs, f v D' = D' v) ∧ (∀ u, u ∉ vs → D' u = D u) ∧ ∀ X ≤ D,
      (∀ v ∈ vs, X v ≤ f v X) → X ≤ D' := by
  induction fuel generalizing D with
  | zero => cases h
  | succ fuel ih =>
    unfold solve at h
    split at h
    · obtain ⟨hsolved, hout, hbelow⟩ := ih h
      refine ⟨hsolved, fun u hu => (hout u hu).trans (sweep_of_not_mem hu), ?_⟩
      intro X hXD hX
      exact hbelow X (le_sweep hf hX hXD) hX
    · next hc =>
      obtain ⟨hsame, hsolved⟩ := sweep_solved (by simpa using hc)
      obtain rfl := Option.some.inj h
      rw [hsame]
      exact ⟨hsolved, fun _ _ => rfl, fun X hXD _ => hXD⟩

omit [PartialOrder L] in
theorem solve_mono {fuel fuel' : Nat} (h : solve f vs fuel D = some D') (hle : fuel ≤ fuel') :
    solve f vs fuel' D = some D' := by
  induction fuel generalizing D fuel' with
  | zero => cases h
  | succ fuel ih =>
    obtain ⟨k, rfl⟩ := Nat.exists_eq_add_of_le hle
    rw [show fuel + 1 + k = (fuel + k) + 1 by omega]
    unfold solve at h ⊢
    split at h
    · next hc =>
      rw [if_pos hc]
      exact ih h (by omega)
    · next hc =>
      rw [if_neg hc]
      exact h

/-- **The iteration ends**, whenever it starts above and nothing descends for ever. -/
theorem exists_solve [WellFoundedLT (V → L)] (hf : ∀ v, Monotone (f v)) (h : Above f vs D) :
    ∃ fuel D', solve f vs fuel D = some D' := by
  induction D using WellFoundedLT.induction with
  | _ D ih =>
    cases hc : (sweep f vs D).2 with
    | false =>
      refine ⟨1, (sweep f vs D).1, ?_⟩
      unfold solve
      rw [hc]
      rfl
    | true =>
      obtain ⟨fuel, D', hsolve⟩ := ih _ (sweep_lt hf h hc) (sweep_above hf (List.Subset.refl vs) h).2
      refine ⟨fuel + 1, D', ?_⟩
      unfold solve
      rw [if_pos hc]
      exact hsolve

end GpgpuSimRuby.Library.RoundRobin
