import Mathlib

/-!
# Barriers

A barrier of parties that run: who arrives waits until everybody who still runs has arrived, and
then all are released at once. A party may also leave, which may be what the others wait for.
-/

namespace GpgpuSimRuby.Library

variable {α : Type} [DecidableEq α]

/-- The parties that run, and those of them that have arrived since the last release. -/
@[ext]
structure Barrier (α : Type) where
  running : Finset α
  arrived : Finset α

namespace Barrier

variable (b : Barrier α)

/-- Nobody waits if everybody has arrived. -/
def release : Barrier α := if b.running ⊆ b.arrived then ⟨b.running, ∅⟩ else b

def arrive (a : α) : Barrier α := release ⟨b.running, insert a b.arrived⟩

def leave (a : α) : Barrier α := release ⟨b.running.erase a, b.arrived⟩

/-- Has arrived, and somebody who runs has not. -/
def Waits (a : α) : Prop := a ∈ b.arrived ∧ ∃ c ∈ b.running, c ∉ b.arrived

/-- Only who runs has arrived, and not everybody has. -/
structure Ok : Prop where
  running : b.arrived ⊆ b.running
  released : b.running ⊆ b.arrived → b.arrived = ∅

variable {b} {a c : α}

theorem release_frees (hc : c ∈ b.arrived) (hfree : c ∉ b.release.arrived) : b.release.arrived = ∅ := by
  unfold release at hfree ⊢
  split
  · rfl
  · next hnot =>
    rw [if_neg hnot] at hfree
    exact absurd hc hfree

omit [DecidableEq α] in
theorem Ok.fresh {running : Finset α} : (⟨running, ∅⟩ : Barrier α).Ok :=
  ⟨Finset.empty_subset running, fun _ => rfl⟩

theorem Ok.release (h : b.arrived ⊆ b.running) : b.release.Ok := by
  unfold Barrier.release
  split
  · exact .fresh
  · next hnot => exact ⟨h, fun hall => absurd hall hnot⟩

theorem Ok.arrive (h : b.Ok) (ha : a ∈ b.running) : (b.arrive a).Ok :=
  .release (Finset.insert_subset ha h.running)

theorem Ok.leave (h : b.Ok) (ha : a ∉ b.arrived) : (b.leave a).Ok := by
  apply Ok.release
  intro c hc
  exact Finset.mem_erase.mpr ⟨fun heq => ha (heq ▸ hc), h.running hc⟩

theorem Ok.mem_arrived (h : b.Ok) : a ∈ b.arrived ↔ b.Waits a := by
  constructor
  · intro ha
    refine ⟨ha, ?_⟩
    by_contra hall
    push Not at hall
    have hempty := h.released hall
    rw [hempty] at ha
    cases ha
  · exact And.left

theorem arrive_frees (hc : c ∈ b.arrived) (hfree : c ∉ (b.arrive a).arrived) : (b.arrive a).arrived = ∅ :=
  release_frees (Finset.mem_insert_of_mem hc) hfree

theorem leave_frees (hc : c ∈ b.arrived) (hfree : c ∉ (b.leave a).arrived) : (b.leave a).arrived = ∅ :=
  release_frees hc hfree

end Barrier

end GpgpuSimRuby.Library
