import Mathlib

/-!
# Things in places

Where things are kept: `κ → Multiset α`. A step moves things between places, and its balance says what
goes out of which place and what comes in; what is known of every place then follows from the balance.
-/

namespace GpgpuSimRuby.Library

open Function

variable {κ α : Type} {c c' out into : κ → Multiset α} {k l : κ} {x : α}

/-- The things `xs` in the place `k`. -/
abbrev placed [DecidableEq κ] (k : κ) (xs : Multiset α) : κ → Multiset α := Pi.single k xs

/-- What leaves its place and what comes into one turns `c` into `c'`. -/
def Balance (c out into c' : κ → Multiset α) : Prop := c' + out = c + into

theorem mem_placed [DecidableEq κ] {xs : Multiset α} : x ∈ placed k xs l ↔ l = k ∧ x ∈ xs := by
  unfold placed
  by_cases h : l = k
  · subst h
    simp
  · simp [h]

namespace Balance

theorem at_place (h : Balance c out into c') (k : κ) : c' k + out k = c k + into k := congrFun h k

theorem move [DecidableEq κ] (hkl : k ≠ l) (hk : c k = {x} + c' k) (hl : c' l = c l + {x})
    (hrest : ∀ r, r ≠ k → r ≠ l → c' r = c r) : Balance c (placed k {x}) (placed l {x}) c' := by
  funext r
  show c' r + placed k {x} r = c r + placed l {x} r
  by_cases hrk : r = k
  · subst hrk
    simp [hkl, hk, add_comm]
  · by_cases hrl : r = l
    · subst hrl
      simp [hrk, hl]
    · simp [hrk, hrl, hrest r hrk hrl]

theorem come [DecidableEq κ] (hl : c' l = c l + {x}) (hrest : ∀ r, r ≠ l → c' r = c r) :
    Balance c 0 (placed l {x}) c' := by
  funext r
  show c' r + 0 = c r + placed l {x} r
  by_cases hrl : r = l
  · subst hrl
    simp [hl]
  · simp [hrl, hrest r hrl]

theorem mem (h : Balance c out into c') (hx : x ∈ c' k) : x ∈ c k ∨ x ∈ into k := by
  rw [← Multiset.mem_add, ← h.at_place k]
  exact Multiset.mem_add.mpr (.inl hx)

theorem mem_of_into (h : Balance c out into c') (hx : x ∈ into k) : x ∈ c' k ∨ x ∈ out k := by
  rw [← Multiset.mem_add, h.at_place k]
  exact Multiset.mem_add.mpr (.inr hx)

theorem mem_of_mem (h : Balance c out into c') (hx : x ∈ c k) : x ∈ c' k ∨ x ∈ out k := by
  rw [← Multiset.mem_add, h.at_place k]
  exact Multiset.mem_add.mpr (.inl hx)

theorem mem_of_out (h : Balance c out into c') (hx : x ∈ out k) : x ∈ c k ∨ x ∈ into k := by
  rw [← Multiset.mem_add, ← h.at_place k]
  exact Multiset.mem_add.mpr (.inr hx)

/-! ## Totals -/

section Total

variable [Fintype κ]

theorem total (h : Balance c out into c') : ∑ k, c' k + ∑ k, out k = ∑ k, c k + ∑ k, into k := by
  rw [← Finset.sum_add_distrib, ← Finset.sum_add_distrib]
  exact Finset.sum_congr rfl fun k _ => h.at_place k

theorem sum_placed [DecidableEq κ] (k : κ) (xs : Multiset α) : ∑ l, placed k xs l = xs :=
  Fintype.sum_pi_single' k xs

end Total

end Balance

section Unique

variable [Fintype κ]

theorem mem_total : x ∈ ∑ k, c k ↔ ∃ k, x ∈ c k := by
  rw [Multiset.mem_sum]
  simp

theorem eq_of_mem_total [DecidableEq κ] (h : (∑ k, c k).Nodup) (hk : x ∈ c k) (hl : x ∈ c l) : k = l := by
  by_contra hne
  rw [← Finset.add_sum_erase Finset.univ c (Finset.mem_univ k), Multiset.nodup_add] at h
  refine Multiset.disjoint_left.mp h.2.2 hk (Multiset.mem_sum.mpr ⟨l, ?_, hl⟩)
  exact Finset.mem_erase.mpr ⟨fun h => hne h.symm, Finset.mem_univ l⟩

theorem nodup_place [DecidableEq κ] (h : (∑ k, c k).Nodup) (k : κ) : (c k).Nodup := by
  rw [← Finset.add_sum_erase Finset.univ c (Finset.mem_univ k), Multiset.nodup_add] at h
  exact h.1

end Unique

/-! ## Sums over places -/

section Sums

variable {M : Type} [AddCommMonoid M] {n i : Nat}

theorem sum_range_change (f g : Nat → M) (hi : i < n) (h : ∀ j, j ≠ i → g j = f j) :
    ∑ j ∈ Finset.range n, f j + g i = ∑ j ∈ Finset.range n, g j + f i := by
  have hmem : i ∈ Finset.range n := Finset.mem_range.mpr hi
  rw [← Finset.add_sum_erase _ f hmem, ← Finset.add_sum_erase _ g hmem]
  have hrest : ∑ j ∈ (Finset.range n).erase i, g j = ∑ j ∈ (Finset.range n).erase i, f j :=
    Finset.sum_congr rfl fun j hj => h j (Finset.ne_of_mem_erase hj)
  rw [hrest]
  abel

theorem sum_range_update {β : Type} (f : β → M) (g : Nat → β) (x : β) (hi : i < n) :
    ∑ j ∈ Finset.range n, f (g j) + f x = ∑ j ∈ Finset.range n, f (update g i x j) + f (g i) := by
  have h := sum_range_change (fun j => f (g j)) (fun j => f (update g i x j)) hi
    fun j hj => by rw [update_of_ne hj]
  rwa [update_self] at h

end Sums

end GpgpuSimRuby.Library
