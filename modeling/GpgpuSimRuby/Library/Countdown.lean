import Mathlib

/-!
# Countdowns

A counter that is loaded with a period when an event happens and counts down to zero keeps the next
event that waits for it at least the period away. `Guards` is the invariant: no event of the log is
closer to the end of its period than the counter says.
-/

namespace GpgpuSimRuby.Library

variable {ε : Type}

/-- The events of a log that load a counter, and what is left of the period of each. -/
def Guards (loads : ε → Prop) (period : Nat) (log : List (Nat × ε)) (now counter : Nat) : Prop :=
  ∀ e ∈ log, loads e.2 → e.1 + period ≤ now + counter

namespace Guards

variable {loads : ε → Prop} {period now counter : Nat} {log : List (Nat × ε)} {e : ε}

theorem nil : Guards loads period [] now counter := fun _ h => absurd h List.not_mem_nil

theorem ready (h : Guards loads period log now 0) : ∀ e ∈ log, loads e.2 → e.1 + period ≤ now := h

theorem mono {counter' : Nat} (h : Guards loads period log now counter) (hle : counter ≤ counter') :
    Guards loads period log now counter' := by
  intro e he hl
  have := h e he hl
  omega

theorem tick (h : Guards loads period log now counter) : Guards loads period log (now + 1) (counter - 1) := by
  intro e he hl
  have := h e he hl
  omega

theorem load (hlog : ∀ e ∈ log, e.1 < now) : Guards loads period ((now, e) :: log) now period := by
  intro f hf _
  rcases List.mem_cons.mp hf with rfl | hf
  · exact Nat.le_refl _
  · have := hlog f hf
    omega

theorem skip (h : Guards loads period log now counter) (he : ¬ loads e) :
    Guards loads period ((now, e) :: log) now counter := by
  intro f hf hl
  rcases List.mem_cons.mp hf with rfl | hf
  · exact absurd hl he
  · exact h f hf hl

end Guards

/-- In a log with the latest event first, what holds of an event and those behind it holds of an
event and an earlier one. -/
theorem rel_of_lt {R : Nat × ε → Nat × ε → Prop} {log : List (Nat × ε)} {e f : Nat × ε}
    (hsorted : log.Pairwise fun e f => f.1 < e.1) (h : log.Pairwise R) (he : e ∈ log) (hf : f ∈ log)
    (hlt : f.1 < e.1) : R e f := by
  induction log with
  | nil => cases he
  | cons a log ih =>
    obtain ⟨hsa, hsorted⟩ := List.pairwise_cons.mp hsorted
    obtain ⟨ha, h⟩ := List.pairwise_cons.mp h
    rcases List.mem_cons.mp he with rfl | he' <;> rcases List.mem_cons.mp hf with rfl | hf'
    · exact absurd hlt (Nat.lt_irrefl _)
    · exact ha f hf'
    · exact absurd hlt (Nat.lt_asymm (hsa e he'))
    · exact ih hsorted h he' hf'

end GpgpuSimRuby.Library
