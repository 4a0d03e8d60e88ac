import Mathlib

/-!
# Binary heaps

The `n` entries of a heap stand at the positions 1 to `n` of an array, and the parent of position
`i` is `i / 2`. While an entry is on its way up or down, the order holds except at its position,
and each of its moves is a swap with its parent or with its lesser child.
-/

namespace GpgpuSimRuby.Library

variable {α : Type} {le : α → α → Prop} {f : Nat → α} {n i c : Nat}

def heapEntries (f : Nat → α) (n : Nat) : Multiset α := (Finset.Icc 1 n).val.map f

def HeapOrdered (le : α → α → Prop) (f : Nat → α) (n : Nat) : Prop :=
  ∀ j, 2 ≤ j → j ≤ n → le (f (j / 2)) (f j)

/-- The order holds except between `i` and its parent. -/
structure OrderedAbove (le : α → α → Prop) (f : Nat → α) (n i : Nat) : Prop where
  off : ∀ j, 2 ≤ j → j ≤ n → j ≠ i → le (f (j / 2)) (f j)
  grand : ∀ j, j ≤ n → j / 2 = i → 2 ≤ i → le (f (i / 2)) (f j)

/-- The order holds except between `i` and its children. -/
structure OrderedBelow (le : α → α → Prop) (f : Nat → α) (n i : Nat) : Prop where
  off : ∀ j, 2 ≤ j → j ≤ n → j / 2 ≠ i → le (f (j / 2)) (f j)
  grand : ∀ j, j ≤ n → j / 2 = i → 2 ≤ i → le (f (i / 2)) (f j)

/-! ## The entries -/

theorem coe_concat (l : List α) (a : α) : ((l ++ [a] : List α) : Multiset α) = a ::ₘ l := by
  rw [← Multiset.coe_add, Multiset.coe_singleton, add_comm, Multiset.singleton_add]

theorem heapEntries_congr {g : Nat → α} (h : ∀ j, 1 ≤ j → j ≤ n → f j = g j) :
    heapEntries f n = heapEntries g n := by
  apply Multiset.map_congr rfl
  intro j hj
  have hj := Finset.mem_Icc.mp (Finset.mem_val.mp hj)
  exact h j hj.1 hj.2

theorem heapEntries_succ : heapEntries f (n + 1) = f (n + 1) ::ₘ heapEntries f n := by
  have h : Finset.Icc 1 (n + 1) = Finset.cons (n + 1) (Finset.Icc 1 n) (by simp) := by
    ext j
    simp only [Finset.mem_Icc, Finset.mem_cons]
    omega
  rw [heapEntries, h, Finset.cons_val, Multiset.map_cons, heapEntries]

theorem heapEntries_swap (hi : 1 ≤ i ∧ i ≤ n) (hc : 1 ≤ c ∧ c ≤ n) :
    heapEntries (f ∘ Equiv.swap i c) n = heapEntries f n := by
  have h : (Finset.Icc 1 n).map (Equiv.swap i c).toEmbedding = Finset.Icc 1 n := by
    apply Finset.map_perm
    intro j hj
    apply Finset.mem_Icc.mpr
    rcases (Equiv.swap_apply_ne_self_iff.mp hj).2 with rfl | rfl <;> assumption
  have h := congrArg (fun s : Finset Nat => s.val.map f) h
  rwa [Finset.map_val, Multiset.map_map] at h

theorem comp_swap_of_ne {j : Nat} (hi : j ≠ i) (hc : j ≠ c) : (f ∘ Equiv.swap i c) j = f j :=
  congrArg f (Equiv.swap_apply_of_ne_of_ne hi hc)

theorem mem_heapEntries {a : α} : a ∈ heapEntries f n ↔ ∃ j, (1 ≤ j ∧ j ≤ n) ∧ f j = a := by
  simp [heapEntries]

/-- The least entry of a heap stands at its root. -/
theorem HeapOrdered.root_le [Std.Refl le] [IsTrans α le] (h : HeapOrdered le f n) {a : α}
    (ha : a ∈ heapEntries f n) : le (f 1) a := by
  obtain ⟨j, ⟨h1, hn⟩, rfl⟩ := mem_heapEntries.mp ha
  induction j using Nat.strong_induction_on with
  | _ j ih =>
    rcases Nat.lt_or_ge 1 j with h2 | h2
    · apply IsTrans.trans _ _ _ (ih (j / 2) (by omega) (by omega) (by omega)
        (mem_heapEntries.mpr ⟨j / 2, by omega, rfl⟩))
      exact h j h2 hn
    · obtain rfl : j = 1 := by omega
      exact refl _

/-! ## An entry on its way up -/

theorem OrderedAbove.done (h : OrderedAbove le f n i) (hi : 2 ≤ i → i ≤ n → le (f (i / 2)) (f i)) :
    HeapOrdered le f n := by
  intro j h2 hn
  rcases eq_or_ne j i with rfl | hj
  · exact hi h2 hn
  · exact h.off j h2 hn hj

theorem OrderedAbove.swap [IsTrans α le] (h : OrderedAbove le f n i) (h2 : 2 ≤ i) (hn : i ≤ n)
    (hle : le (f i) (f (i / 2))) : OrderedAbove le (f ∘ Equiv.swap i (i / 2)) n (i / 2) where
  off j hj2 hjn hj := by
    rcases eq_or_ne j i with rfl | hji
    · simpa using hle
    rw [comp_swap_of_ne hji hj]
    rcases eq_or_ne (j / 2) i with hp | hp
    · -- the children of `i` now have the former parent of `i` above them
      rw [hp]
      simpa using h.grand j hjn hp h2
    have hoff := h.off j hj2 hjn hji
    rcases eq_or_ne (j / 2) (i / 2) with hp' | hp'
    · rw [hp'] at hoff ⊢
      simpa using IsTrans.trans _ _ _ hle hoff
    · rwa [comp_swap_of_ne hp hp']
  grand j hjn hj hi := by
    have hup := h.off (i / 2) hi (by omega) (by omega)
    rw [comp_swap_of_ne (by omega) (by omega)]
    rcases eq_or_ne j i with rfl | hji
    · simpa using hup
    · rw [comp_swap_of_ne hji (by omega)]
      exact IsTrans.trans _ _ _ hup (hj ▸ h.off j (by omega) hjn hji)

/-! ## An entry on its way down -/

theorem OrderedBelow.done (h : OrderedBelow le f n i)
    (hi : ∀ j, 2 ≤ j → j ≤ n → j / 2 = i → le (f i) (f j)) : HeapOrdered le f n := by
  intro j h2 hn
  rcases eq_or_ne (j / 2) i with rfl | hj
  · exact hi j h2 hn rfl
  · exact h.off j h2 hn hj

theorem OrderedBelow.swap (h : OrderedBelow le f n i) (h2 : 2 ≤ c) (hn : c ≤ n) (hc : c / 2 = i)
    (hle : le (f c) (f i)) (hmin : ∀ j, 2 ≤ j → j ≤ n → j / 2 = i → le (f c) (f j)) :
    OrderedBelow le (f ∘ Equiv.swap i c) n c where
  off j hj2 hjn hj := by
    rcases eq_or_ne (j / 2) i with hp | hp
    · rw [hp]
      rcases eq_or_ne j c with rfl | hjc
      · simpa using hle
      · rw [comp_swap_of_ne (by omega) hjc]
        simpa using hmin j hj2 hjn hp
    rw [comp_swap_of_ne hp hj]
    rcases eq_or_ne j i with rfl | hji
    · simpa using h.grand c hn hc hj2
    · rw [comp_swap_of_ne hji (by rintro rfl; exact hp hc)]
      exact h.off j hj2 hjn hp
  grand j hjn hj _ := by
    have hfj : (f ∘ Equiv.swap i c) j = f j := comp_swap_of_ne (by omega) (by omega)
    rw [hc, hfj]
    simpa [hj] using h.off j (by omega) hjn (by omega)

end GpgpuSimRuby.Library
