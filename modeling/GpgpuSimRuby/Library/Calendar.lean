import Mathlib.Data.List.Count
import Mathlib.Logic.Function.Basic

/-!
# Calendars

A calendar has at most one item for each number of ticks after which it is due. A tick delivers what
is due at once and brings the rest closer; an item is admitted to a place that is empty.

`Kept` relates the calendar to the history of items that were admitted and delivered: every item is
delivered once, one tick after its delay has passed.
-/

namespace GpgpuSimRuby.Library

open Function

variable {α : Type}

abbrev Calendar (α : Type) := Nat → Option α

namespace Calendar

/-- What is left after a tick, which delivers the item at place 0. -/
def tick (cal : Calendar α) : Calendar α := fun r => cal (r + 1)

/-- An item is admitted with some delay. -/
def enter (cal : Calendar α) (delay : Nat) (x : α) : Calendar α := update cal delay (some x)

variable [DecidableEq α] {delay : α → Nat} {cal : Calendar α} {now : Nat}
  {admitted delivered : List (Nat × α)} {x : α}

/-- What has been admitted has been delivered in its time or is still due. -/
structure Kept (delay : α → Nat) (cal : Calendar α) (now : Nat) (admitted delivered : List (Nat × α)) :
    Prop where
  count : ∀ t x, admitted.count (t, x) = delivered.count (t + delay x + 1, x) +
    if now < t + delay x + 1 ∧ cal (t + delay x - now) = some x then 1 else 0
  due : ∀ r x, cal r = some x → delay x ≤ now + r
  past : ∀ t x, (t, x) ∈ delivered → t ≤ now ∧ delay x + 1 ≤ t

theorem Kept.empty (delay : α → Nat) (now : Nat) : Kept delay (fun _ => none) now [] [] where
  count t x := by simp
  due r x h := by cases h
  past t x h := absurd h List.not_mem_nil

section

variable (h : Kept delay cal now admitted delivered)
include h

/-- **A tick.** -/
theorem Kept.tick : Kept delay cal.tick (now + 1) admitted
    (delivered ++ (cal 0).toList.map fun x => (now + 1, x)) where
  count t x := by
    have hold := h.count t x
    rw [List.count_append]
    -- what is delivered now is due now
    have hnew : t + delay x ≠ now →
        (List.map (fun x => (now + 1, x)) (cal 0).toList).count (t + delay x + 1, x) = 0 := by
      intro hne
      apply List.count_eq_zero_of_not_mem
      intro hmem
      obtain ⟨y, -, hy⟩ := List.mem_map.mp hmem
      have := (Prod.mk.inj hy).1
      omega
    rcases Nat.lt_trichotomy (t + delay x) now with hlt | heq | hgt
    · rw [if_neg (by omega)] at hold ⊢
      rw [hnew (by omega), hold]
    · subst heq
      rw [hold, Nat.sub_self, if_neg (by omega : ¬ (t + delay x + 1 < t + delay x + 1 ∧ _))]
      cases hcal : cal 0 with
      | none => simp
      | some y =>
        by_cases hxy : y = x
        · simp [hxy]
        · simp [hxy]
    · have hplace : cal.tick (t + delay x - (now + 1)) = cal (t + delay x - now) := by
        unfold Calendar.tick
        congr 1
        omega
      rw [hnew (by omega), hplace, hold, Nat.add_zero]
      congr 1
      have hdue : now < t + delay x + 1 ∧ now + 1 < t + delay x + 1 := by omega
      simp only [hdue.1, hdue.2]
  due r x hr := by
    have := h.due (r + 1) x hr
    omega
  past t x hmem := by
    rcases List.mem_append.mp hmem with hmem | hmem
    · have := h.past t x hmem
      omega
    · obtain ⟨y, hy, heq⟩ := List.mem_map.mp hmem
      obtain ⟨rfl, rfl⟩ := Prod.mk.inj heq
      have := h.due 0 y (Option.mem_toList.mp hy)
      omega

/-- **An admission** to an empty place. -/
theorem Kept.enter (hfree : cal (delay x) = none) :
    Kept delay (cal.enter (delay x) x) now (admitted ++ [(now, x)]) delivered where
  count t y := by
    have hold := h.count t y
    rw [List.count_append, hold]
    by_cases hsame : t = now ∧ y = x
    · obtain ⟨rfl, rfl⟩ := hsame
      have hlt : t < t + delay y + 1 := by omega
      rw [Nat.add_sub_cancel_left, hfree]
      simp [Calendar.enter, hlt]
    · have hnew : [(now, x)].count (t, y) = 0 := by
        apply List.count_eq_zero_of_not_mem
        intro hmem
        obtain ⟨ht, hy⟩ := Prod.mk.inj (List.mem_singleton.mp hmem)
        exact hsame ⟨ht, hy⟩
      rw [hnew, Nat.add_zero]
      by_cases hplace : t + delay y - now = delay x
      · -- the place belonged to nobody, and now it is not `y`'s
        rw [hplace, hfree, Calendar.enter, update_self]
        by_cases hxy : x = y
        · subst hxy
          rw [if_neg (by simp), if_neg]
          rintro ⟨hlt, -⟩
          exact hsame ⟨by omega, rfl⟩
        · simp [hxy]
      · rw [Calendar.enter, update_of_ne hplace]
  due r y hr := by
    by_cases hplace : r = delay x
    · subst hplace
      rw [Calendar.enter, update_self] at hr
      cases hr
      omega
    · rw [Calendar.enter, update_of_ne hplace] at hr
      exact h.due r y hr
  past := h.past

/-- **What is admitted is delivered** as often, one tick after its delay, and not before. -/
theorem Kept.delivered_count (t : Nat) (x : α) :
    delivered.count (t + delay x + 1, x) =
      if t + delay x + 1 ≤ now then admitted.count (t, x) else 0 := by
  split
  · rw [h.count t x, if_neg (by omega)]
    rfl
  · apply List.count_eq_zero_of_not_mem
    intro hmem
    have := (h.past _ _ hmem).1
    omega

end

end Calendar

end GpgpuSimRuby.Library
