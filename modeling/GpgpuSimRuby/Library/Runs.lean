import GpgpuSimRuby.Library.Loops

/-!
# Runs that may stop

A run is a list of events, each with a step that may fail. What holds in every state is what a
condition on the steps says if a step that keeps the property is one that meets the condition.
-/

namespace GpgpuSimRuby.Library

variable {σ ε F : Type}

/-- The run of a list of events. -/
def exec (start : Except F σ) (step : σ → ε → Except F σ) (events : List ε) : Except F σ :=
  start >>= events.foldlM step

/-- No part of the run fails, and `P` holds after each. -/
def Always (start : Except F σ) (step : σ → ε → Except F σ) (P : σ → Prop) (events : List ε) : Prop :=
  ∀ done rest, events = done ++ rest → ∃ s, exec start step done = .ok s ∧ P s

/-- Every step of the run meets the condition. -/
def Throughout (start : Except F σ) (step : σ → ε → Except F σ) (H : σ → ε → Prop)
    (events : List ε) : Prop :=
  ∀ done e rest s, events = done ++ e :: rest → exec start step done = .ok s → H s e

section Exec

variable {start : Except F σ} {step : σ → ε → Except F σ} {done rest events : List ε} {e : ε} {s s' : σ}

theorem exec_append : exec start step (done ++ rest) = (exec start step done >>= rest.foldlM step) := by
  unfold exec
  rw [bind_assoc]
  congr 1
  funext s
  exact foldlM_append

theorem exec_nil (h : exec start step [] = .ok s) : start = .ok s := by
  obtain ⟨s', hs', hok⟩ := bind_eq_ok.mp h
  cases hok
  exact hs'

theorem exec_concat (h : exec start step done = .ok s) : exec start step (done ++ [e]) = step s e := by
  rw [exec_append, h, ok_bind, List.foldlM_cons]
  cases step s e <;> rfl

theorem exec_prefix (h : exec start step (done ++ rest) = .ok s) : ∃ s', exec start step done = .ok s' := by
  rw [exec_append] at h
  obtain ⟨s', hs', -⟩ := bind_eq_ok.mp h
  exact ⟨s', hs'⟩

/-- **Invariants** hold in every state. -/
theorem exec_invariant {P : σ → Prop} (hstart : ∀ s, start = .ok s → P s)
    (hstep : ∀ s e s', P s → step s e = .ok s' → P s') (h : exec start step events = .ok s) : P s := by
  induction events using List.reverseRecOn generalizing s with
  | nil => exact hstart s (exec_nil h)
  | append_singleton events e ih =>
    obtain ⟨s₁, h₁⟩ := exec_prefix h
    rw [exec_concat h₁] at h
    exact hstep s₁ e s (ih h₁) h

/-- **The rule**: if the steps that keep `P` are those that meet the condition, `P` holds in every
state of the runs whose steps all meet it, and of no others. -/
theorem always_iff_throughout {Inv P : σ → Prop} {H : σ → ε → Prop} (hstart : start = .ok s) (hinv : Inv s)
    (hP : P s) (hkeep : ∀ s e s', Inv s → step s e = .ok s' → Inv s')
    (hstep : ∀ s e, Inv s → P s → (H s e ↔ ∃ s', step s e = .ok s' ∧ P s')) :
    Always start step P events ↔ Throughout start step H events := by
  have hInv {done : List ε} {s' : σ} (h : exec start step done = .ok s') : Inv s' := by
    apply exec_invariant _ hkeep h
    intro s₁ h₁
    cases hstart.symm.trans h₁
    exact hinv
  constructor
  · intro h done e rest s₁ hevents h₁
    obtain ⟨s₂, h₂, hP₁⟩ := h done (e :: rest) hevents
    cases h₁.symm.trans h₂
    obtain ⟨s₃, h₃, hP₃⟩ := h (done ++ [e]) rest (by rw [hevents, List.append_assoc, List.singleton_append])
    rw [exec_concat h₁] at h₃
    exact (hstep s₁ e (hInv h₁) hP₁).mpr ⟨s₃, h₃, hP₃⟩
  · intro h done
    induction done using List.reverseRecOn with
    | nil =>
      intro rest _
      refine ⟨s, ?_, hP⟩
      unfold exec
      rw [hstart]
      rfl
    | append_singleton done e ih =>
      intro rest hevents
      rw [List.append_assoc, List.singleton_append] at hevents
      obtain ⟨s₁, h₁, hP₁⟩ := ih (e :: rest) hevents
      obtain ⟨s₂, h₂, hP₂⟩ := (hstep s₁ e (hInv h₁) hP₁).mp (h done e rest s₁ hevents h₁)
      exact ⟨s₂, (exec_concat h₁).trans h₂, hP₂⟩

end Exec

end GpgpuSimRuby.Library
