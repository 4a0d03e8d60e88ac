import Mathlib

/-!
# Runs that settle

A run over states with finitely many places settles if the places have ranks such that what a step puts
into a place depends on the places of lower rank only: place by place, the run comes to a stop.
-/

namespace GpgpuSimRuby.Library

variable {α : Type}

/-- `Steps R x k y`: the run from `x` is in `y` after `k` steps. -/
inductive Steps (R : α → α → Prop) (x : α) : Nat → α → Prop
  | zero : Steps R x 0 x
  | succ {k y z} : Steps R x k y → R y z → Steps R x (k + 1) z

/-- There is no choice in a state of the run. -/
def Deterministic (R : α → α → Prop) (x : α) : Prop :=
  ∀ k y z z', Steps R x k y → R y z → R y z' → z = z'

variable {R : α → α → Prop} {x y z : α} {j k : Nat}

namespace Steps

theorem unique (hdet : Deterministic R x) (hy : Steps R x k y) (hz : Steps R x k z) : y = z := by
  induction hy generalizing z with
  | zero =>
    cases hz
    rfl
  | @succ k u y hu huy ih =>
    cases hz with
    | @succ _ v _ hv hvz =>
      obtain rfl := ih hv
      exact hdet k u y z hu huy hvz

theorem of_fixed (h : Steps R x j y) (hfix : R y y) (hle : j ≤ k) : Steps R x k y := by
  induction hle with
  | refl => exact h
  | step _ ih => exact ih.succ hfix

end Steps

/-! ## Places with ranks -/

section Ranked

variable {ι β : Type} {R : (ι → β) → (ι → β) → Prop} {rank : ι → Nat} {x y z : ι → β} {k l n : Nat}

/-- In the run from `x`, what a step puts into a place depends on the places of lower rank only. -/
def Ranked (R : (ι → β) → (ι → β) → Prop) (rank : ι → Nat) (x : ι → β) : Prop :=
  ∀ k l y y' z z', Steps R x k y → Steps R x l z → R y y' → R z z' →
    ∀ i, (∀ j, rank j < rank i → y j = z j) → y' i = z' i

namespace Ranked

/-- After `n` steps the places of rank below `n` do not change any more. -/
theorem agree (h : Ranked R rank x) (hy : Steps R x k y) (hz : Steps R x l z) (hk : n ≤ k)
    (hl : n ≤ l) {i : ι} (hi : rank i < n) : y i = z i := by
  induction n generalizing k l y z i with
  | zero => exact absurd hi (Nat.not_lt_zero _)
  | succ n ih =>
    cases hy with
    | zero => exact absurd hk (Nat.not_succ_le_zero n)
    | succ hy hyy =>
      cases hz with
      | zero => exact absurd hl (Nat.not_succ_le_zero n)
      | succ hz hzz =>
        apply h _ _ _ _ _ _ hy hz hyy hzz i
        intro j hj
        exact ih hy hz (Nat.le_of_succ_le_succ hk) (Nat.le_of_succ_le_succ hl) (by omega)

/-- **A run** that can always go on comes to a state in which it stays. -/
theorem exists_fixed [Finite ι] (h : Ranked R rank x)
    (htotal : ∀ k y, Steps R x k y → ∃ z, R y z) : ∃ k y, Steps R x k y ∧ R y y := by
  have hall : ∀ k, ∃ y, Steps R x k y := by
    intro k
    induction k with
    | zero => exact ⟨x, .zero⟩
    | succ k ih =>
      obtain ⟨y, hy⟩ := ih
      obtain ⟨z, hz⟩ := htotal k y hy
      exact ⟨z, hy.succ hz⟩
  obtain ⟨m, hm⟩ := (Set.finite_range rank).bddAbove
  obtain ⟨y, hy⟩ := hall (m + 1)
  obtain ⟨z, hz⟩ := htotal (m + 1) y hy
  have hsame : z = y := funext fun i =>
    h.agree (hy.succ hz) hy (Nat.le_succ (m + 1)) le_rfl (Nat.lt_succ_of_le (hm ⟨i, rfl⟩))
  exact ⟨m + 1, y, hy, hsame ▸ hz⟩

end Ranked

end Ranked

end GpgpuSimRuby.Library
