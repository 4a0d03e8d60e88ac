import GpgpuSimRuby.Library.Machine

/-!
# Machines that drain

A machine that takes the same round of actions again and again comes to its end when every round
either makes a measure smaller, or keeps it and brings a bound on the time until the next progress
nearer to zero. One whose actions are chosen comes to its end when there is always one that makes
the measure smaller.
-/

namespace GpgpuSimRuby.Library.Machine

variable {σ α ε : Type} {M : Machine σ α ε} {s t u : σ}

theorem run_append {as bs : List α} (h : M.run as s = some t) (h' : M.run bs t = some u) :
    M.run (as ++ bs) s = some u := by
  induction as generalizing s with
  | nil =>
    cases h
    exact h'
  | cons a as ih =>
    unfold run at h
    rw [List.cons_append]
    unfold run
    split at h
    · exact ih h
    · cases h

/-- Several rounds. -/
def rounds (round : List α) (n : Nat) : List α := (List.replicate n round).flatten

theorem rounds_succ (round : List α) (n : Nat) : rounds round (n + 1) = round ++ rounds round n := by
  unfold rounds
  rw [List.replicate_succ, List.flatten_cons]

section Drains

variable {ω : Type} [LT ω] {μ : σ → ω} {round : List α} {Inv Done : σ → Prop}
  {Soon : Nat → σ → Prop}

/-- What a round does: the measure becomes smaller, or the time until it does. -/
def Advances (μ : σ → ω) (Soon : Nat → σ → Prop) (Done : σ → Prop) (s t : σ) : Prop :=
  μ t < μ s ∨ (μ t = μ s ∧ (∀ n, Soon (n + 1) s → Soon n t) ∧ (Soon 0 s → Done t))

theorem exists_progress (hround : ∀ s, Inv s → ∃ t, M.run round s = some t ∧ Inv t ∧ Advances μ Soon Done s t)
    {n : Nat} (hs : Inv s) (hsoon : Soon n s) :
    ∃ k t, M.run (rounds round k) s = some t ∧ Inv t ∧ (Done t ∨ μ t < μ s) := by
  induction n generalizing s with
  | zero =>
    obtain ⟨t, hrun, ht, hprogress⟩ := hround s hs
    refine ⟨1, t, ?_, ht, ?_⟩
    · rw [rounds_succ]
      exact run_append hrun rfl
    · rcases hprogress with hlt | ⟨-, -, hdone⟩
      · exact .inr hlt
      · exact .inl (hdone hsoon)
  | succ n ih =>
    obtain ⟨t, hrun, ht, hprogress⟩ := hround s hs
    rcases hprogress with hlt | ⟨heq, hnext, -⟩
    · refine ⟨1, t, ?_, ht, .inr hlt⟩
      rw [rounds_succ]
      exact run_append hrun rfl
    · obtain ⟨k, u, hrest, hu, hend⟩ := ih ht (hnext n hsoon)
      rw [heq] at hend
      refine ⟨k + 1, u, ?_, hu, hend⟩
      rw [rounds_succ]
      exact run_append hrun hrest

theorem rounds_add (round : List α) (m n : Nat) :
    rounds round (m + n) = rounds round m ++ rounds round n := by
  unfold rounds
  rw [List.replicate_add, List.flatten_append]

/-- **The rule for draining.** -/
theorem drains [WellFoundedLT ω]
    (hround : ∀ s, Inv s → ∃ t, M.run round s = some t ∧ Inv t ∧ Advances μ Soon Done s t)
    (hsoon : ∀ s, ∃ n, Soon n s) (hs : Inv s) :
    ∃ n t, M.run (rounds round n) s = some t ∧ Inv t ∧ Done t := by
  induction hμ : μ s using WellFoundedLT.induction generalizing s with
  | ind m ih =>
    obtain ⟨n, hn⟩ := hsoon s
    obtain ⟨k, t, hrun, ht, hdone | hlt⟩ := exists_progress hround hs hn
    · exact ⟨k, t, hrun, ht, hdone⟩
    · obtain ⟨k', u, hrest, hu, hdone⟩ := ih (μ t) (hμ ▸ hlt) ht rfl
      refine ⟨k + k', u, ?_, hu, hdone⟩
      rw [rounds_add]
      exact run_append hrun hrest

end Drains

/-! ## Choices -/

section Choices

variable {μ : σ → Nat} {Inv Done : σ → Prop} {Allowed : α → Prop}

/-- Where there is always an action that makes the measure smaller until the end is reached, a run
of such actions reaches it. -/
theorem exists_run_of_progress (hprogress : ∀ s, Inv s → Done s ∨
      ∃ a t, Allowed a ∧ M.step s a = some (.ok t) ∧ Inv t ∧ μ t < μ s) (hs : Inv s) :
    ∃ as t, (∀ a ∈ as, Allowed a) ∧ M.run as s = some t ∧ Inv t ∧ Done t := by
  induction hμ : μ s using Nat.strong_induction_on generalizing s with
  | _ m ih =>
    rcases hprogress s hs with hdone | ⟨a, t, ha, hstep, ht, hlt⟩
    · exact ⟨[], s, fun _ hb => absurd hb List.not_mem_nil, rfl, hs, hdone⟩
    · obtain ⟨as, u, has, hrun, hu, hdone⟩ := ih (μ t) (hμ ▸ hlt) ht rfl
      refine ⟨a :: as, u, List.forall_mem_cons.mpr ⟨ha, has⟩, ?_, hu, hdone⟩
      unfold run
      rw [hstep]
      exact hrun

end Choices

end GpgpuSimRuby.Library.Machine
