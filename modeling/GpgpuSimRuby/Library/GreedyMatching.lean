import Mathlib.Data.List.Basic
import Mathlib.Logic.Function.Basic

/-!
# Greedy matchings

The pairs of a request relation between rows and columns are offered one after another, and a pair is
matched when its row and its column are both free. The result matches requested pairs only, no column
twice, and it is maximal among the pairs that were offered: one that is left out has lost its row or its
column to another.

Some rows may be taken before the first offer, by something that is no column.
-/

namespace GpgpuSimRuby.Library

open Function

variable {ι κ : Type} [DecidableEq ι] [DecidableEq κ]

/-- Who is matched to whom, as each side has it. -/
structure Matching (ι κ : Type) where
  row : ι → Option κ
  col : κ → Option ι

namespace Matching

/-- The pair `e` is offered. -/
def offer (request : ι → κ → Bool) (m : Matching ι κ) (e : ι × κ) : Matching ι κ :=
  if m.row e.1 = none ∧ m.col e.2 = none ∧ request e.1 e.2 = true then
    { row := update m.row e.1 (some e.2), col := update m.col e.2 (some e.1) }
  else m

variable {request : ι → κ → Bool} {m m₀ : Matching ι κ} {es : List (ι × κ)} {i i' : ι} {j : κ}

theorem offer_cases (request : ι → κ → Bool) (m : Matching ι κ) (e : ι × κ) :
    (¬ (m.row e.1 = none ∧ m.col e.2 = none ∧ request e.1 e.2 = true) ∧ m.offer request e = m) ∨
      (m.row e.1 = none ∧ m.col e.2 = none ∧ request e.1 e.2 = true ∧
        m.offer request e = { row := update m.row e.1 (some e.2),
                              col := update m.col e.2 (some e.1) }) := by
  by_cases h : m.row e.1 = none ∧ m.col e.2 = none ∧ request e.1 e.2 = true
  · exact .inr ⟨h.1, h.2.1, h.2.2, if_pos h⟩
  · exact .inl ⟨h, if_neg h⟩

/-- What the offers `es` have made of `m₀`, whose columns were all free. -/
structure Grown (request : ι → κ → Bool) (m₀ : Matching ι κ) (es : List (ι × κ)) (m : Matching ι κ) :
    Prop where
  kept : ∀ i j, m₀.row i = some j → m.row i = some j
  matched : ∀ i j, m.row i = some j → m₀.row i = none →
    request i j = true ∧ (i, j) ∈ es ∧ m.col j = some i
  column : ∀ i j, m.col j = some i → m.row i = some j ∧ m₀.row i = none
  maximal : ∀ i j, (i, j) ∈ es → request i j = true → m.row i ≠ none ∨ m.col j ≠ none

omit [DecidableEq ι] [DecidableEq κ] in
theorem Grown.nil (hcol : ∀ j, m₀.col j = none) : Grown request m₀ [] m₀ where
  kept _ _ h := h
  matched i j h h₀ := by
    rw [h₀] at h
    cases h
  column i j h := by
    rw [hcol j] at h
    cases h
  maximal _ _ h := absurd h List.not_mem_nil

/-- **One offer.** -/
theorem Grown.offer (h : Grown request m₀ es m) (e : ι × κ) :
    Grown request m₀ (es ++ [e]) (m.offer request e) := by
  obtain ⟨i₀, j₀⟩ := e
  rcases offer_cases request m (i₀, j₀) with ⟨hno, heq⟩ | ⟨hrow, hcol, hreq, heq⟩
  · rw [heq]
    refine ⟨h.kept, ?_, h.column, ?_⟩
    · intro i j hm h₀
      obtain ⟨hr, he, hc⟩ := h.matched i j hm h₀
      exact ⟨hr, List.mem_append_left _ he, hc⟩
    · intro i j he hr
      rcases List.mem_append.mp he with he | he
      · exact h.maximal i j he hr
      · -- the pair just offered was refused for its row or its column
        obtain ⟨rfl, rfl⟩ := Prod.mk.inj (List.mem_singleton.mp he)
        by_contra hfree
        push Not at hfree
        exact hno ⟨hfree.1, hfree.2, hr⟩
  · rw [heq]
    dsimp only at hrow hcol hreq
    -- a row that was matched before is another one than `i₀`, and so is its column
    have hrow' : ∀ i j, m.row i = some j → i ≠ i₀ := by
      rintro i j hm rfl
      rw [hrow] at hm
      cases hm
    have hcol' : ∀ i j, m.col j = some i → j ≠ j₀ := by
      rintro i j hm rfl
      rw [hcol] at hm
      cases hm
    refine ⟨?_, ?_, ?_, ?_⟩
    · intro i j h₀
      have hm := h.kept i j h₀
      exact (update_of_ne (hrow' i j hm) _ _).trans hm
    · intro i j hm h₀
      by_cases hi : i = i₀
      · subst hi
        obtain rfl : j₀ = j := by simpa using hm
        exact ⟨hreq, List.mem_append_right _ List.mem_cons_self, update_self ..⟩
      · have hm : m.row i = some j := by simpa [update_of_ne hi] using hm
        obtain ⟨hr, he, hc⟩ := h.matched i j hm h₀
        exact ⟨hr, List.mem_append_left _ he, (update_of_ne (hcol' i j hc) _ _).trans hc⟩
    · intro i j hm
      by_cases hj : j = j₀
      · subst hj
        obtain rfl : i₀ = i := by simpa using hm
        refine ⟨update_self .., ?_⟩
        cases h₀ : m₀.row i₀ with
        | none => rfl
        | some j' => exact absurd rfl (hrow' i₀ j' (h.kept i₀ j' h₀))
      · have hm : m.col j = some i := by simpa [update_of_ne hj] using hm
        obtain ⟨hr, h₀⟩ := h.column i j hm
        exact ⟨(update_of_ne (hrow' i j hr) _ _).trans hr, h₀⟩
    · intro i j he hr
      rcases List.mem_append.mp he with he | he
      · rcases h.maximal i j he hr with hm | hm
        · by_cases hi : i = i₀
          · exact .inl (by simp [hi])
          · exact .inl (by simpa [update_of_ne hi] using hm)
        · by_cases hj : j = j₀
          · exact .inr (by simp [hj])
          · exact .inr (by simpa [update_of_ne hj] using hm)
      · obtain ⟨rfl, rfl⟩ := Prod.mk.inj (List.mem_singleton.mp he)
        exact .inl (by simp)

omit [DecidableEq ι] [DecidableEq κ] in
theorem Grown.injective (h : Grown request m₀ es m) (hi : m.row i = some j) (h₀ : m₀.row i = none)
    (hi' : m.row i' = some j) (h₀' : m₀.row i' = none) : i = i' := by
  have hc := (h.matched i j hi h₀).2.2
  have hc' := (h.matched i' j hi' h₀').2.2
  exact Option.some.inj (hc.symm.trans hc')

end Matching

end GpgpuSimRuby.Library
