import Mathlib

/-!
# Machines that can fault

A `Machine` is a deterministic step function over labelled actions. `none` says that the action is
not enabled in the state, `some (.error e)` that taking it trips an assertion or meets an
undeclared case, and `some (.ok t)` is the successor. Nondeterminism (message delays, the scheduler,
the environment) lives in the choice of the action.

* `ReachableUnder ok` — the states of the runs whose every step meets the condition `ok`, a
  condition on the state *before* the step and the action.
* `Component.family` — a family of copies of one component that share a clock: a step moves one
  copy, a tick moves all of them. An invariant of the component lifts to every member.
-/

namespace GpgpuSimRuby.Library

open Function

/-- A step function with enabledness (`none`) and faults (`some (.error e)`). -/
structure Machine (σ α ε : Type) where
  init : σ
  step : σ → α → Option (Except ε σ)

namespace Machine

variable {σ α ε : Type}

/-- The states of the runs whose every step meets `ok`. -/
inductive ReachableUnder (M : Machine σ α ε) (ok : σ → α → Prop) : σ → Prop
  | init : ReachableUnder M ok M.init
  | step {s a t} : ReachableUnder M ok s → ok s a → M.step s a = some (.ok t) →
      ReachableUnder M ok t

/-- The states of all runs. -/
def Reachable (M : Machine σ α ε) : σ → Prop := M.ReachableUnder fun _ _ => True

variable {M : Machine σ α ε} {ok : σ → α → Prop} {s t : σ} {P : σ → α → σ → Prop}

/-- A property of the initial state that every admitted step keeps holds in every reached state. -/
theorem ReachableUnder.invariant {Inv : σ → Prop} (hinit : Inv M.init)
    (hstep : ∀ s a t, Inv s → ok s a → M.step s a = some (.ok t) → Inv t)
    {s : σ} (h : M.ReachableUnder ok s) : Inv s := by
  induction h with
  | init => exact hinit
  | step _ hok hs ih => exact hstep _ _ _ ih hok hs

theorem ReachableUnder.mono {ok' : σ → α → Prop}
    (himp : ∀ s a, ok s a → ok' s a) (h : M.ReachableUnder ok s) : M.ReachableUnder ok' s := by
  induction h with
  | init => exact .init
  | step _ hok hs ih => exact .step ih (himp _ _ hok) hs

theorem ReachableUnder.reachable (h : M.ReachableUnder ok s) : M.Reachable s :=
  h.mono fun _ _ _ => trivial

/-- Take the actions one after the other; `none` as soon as one is not enabled or faults. -/
def run (M : Machine σ α ε) : List α → σ → Option σ
  | [], s => some s
  | a :: as, s =>
    match M.step s a with
    | some (.ok t) => M.run as t
    | _ => none

theorem step_of_run {a : α} (h : M.run [a] s = some t) : M.step s a = some (.ok t) := by
  simp only [run] at h
  split at h
  · next u hu =>
    rw [hu, Option.some.inj h]
  · cases h

/-- Every step of the run from `s` along `as` meets `ok`. -/
def RunMeets (M : Machine σ α ε) (ok : σ → α → Prop) : List α → σ → Prop
  | [], _ => True
  | a :: as, s => ok s a ∧
    match M.step s a with
    | some (.ok t) => M.RunMeets ok as t
    | _ => True

instance decidableRunMeets (M : Machine σ α ε) (ok : σ → α → Prop)
    [hok : ∀ s a, Decidable (ok s a)] : ∀ as s, Decidable (M.RunMeets ok as s)
  | [], _ => .isTrue trivial
  | a :: as, s =>
    have : Decidable (match M.step s a with
        | some (.ok t) => M.RunMeets ok as t
        | _ => True) :=
      match M.step s a with
      | some (.ok t) => decidableRunMeets M ok as t
      | some (.error _) => .isTrue trivial
      | none => .isTrue trivial
    @instDecidableAnd _ _ (hok s a) this

theorem ReachableUnder.of_run {as : List α}
    (hs : M.ReachableUnder ok s) (hok : M.RunMeets ok as s) (hr : M.run as s = some t) :
    M.ReachableUnder ok t := by
  induction as generalizing s with
  | nil =>
    simp only [run, Option.some.injEq] at hr
    exact hr ▸ hs
  | cons a as ih =>
    obtain ⟨ha, hrest⟩ := hok
    simp only [run] at hr
    split at hr
    · next u hu =>
      simp only [hu] at hrest
      exact ih (hs.step ha hu) hrest hr
    · cases hr

theorem runMeets_true (M : Machine σ α ε) (as : List α) (s : σ) :
    M.RunMeets (fun _ _ => True) as s := by
  induction as generalizing s with
  | nil => trivial
  | cons a as ih =>
    refine ⟨trivial, ?_⟩
    split
    · exact ih _
    · trivial

theorem runMeets_congr {Inv : σ → Prop} {P Q : σ → α → Prop}
    (hstep : ∀ s a t, Inv s → M.step s a = some (.ok t) → Inv t)
    (h : ∀ s a, Inv s → (P s a ↔ Q s a)) (as : List α) (hs : Inv s) :
    M.RunMeets P as s ↔ M.RunMeets Q as s := by
  induction as generalizing s with
  | nil => exact Iff.rfl
  | cons a as ih =>
    unfold RunMeets
    apply and_congr (h s a hs)
    split
    · next t ht => exact ih (hstep s a t hs ht)
    · exact Iff.rfl

/-- A run that meets `ok` and whose end answers `y` to `f` ends in a state that is reached under
`ok` and does. -/
theorem exists_reachableUnder_of_run {β : Type} (M : Machine σ α ε) (ok : σ → α → Prop)
    (as : List α) (f : σ → β) {y : β} (hok : M.RunMeets ok as M.init) (h : (M.run as M.init).map f = some y) :
    ∃ s, M.run as M.init = some s ∧ M.ReachableUnder ok s ∧ f s = y := by
  obtain ⟨s, hs, hf⟩ := Option.map_eq_some_iff.mp h
  exact ⟨s, hs, ReachableUnder.of_run .init hok hs, hf⟩

theorem exists_reachable_of_run {β : Type} (M : Machine σ α ε) (as : List α) (f : σ → β) {y : β}
    (h : (M.run as M.init).map f = some y) : ∃ s, M.run as M.init = some s ∧ M.Reachable s ∧ f s = y :=
  M.exists_reachableUnder_of_run (fun _ _ => True) as f (M.runMeets_true as M.init) h

/-- The form for a goal that spells the run out. -/
theorem exists_run_of {β : Type} (M : Machine σ α ε) (ok : σ → α → Prop) {as : List α} (f : σ → β)
    {y : β} {P : σ → Prop} (hok : M.RunMeets ok as M.init) (h : (M.run as M.init).map f = some y)
    (hP : ∀ s, M.ReachableUnder ok s → f s = y → P s) : ∃ s, M.run as M.init = some s ∧ P s := by
  obtain ⟨s, hr, hs, hf⟩ := M.exists_reachableUnder_of_run ok as f hok h
  exact ⟨s, hr, hP s hs hf⟩

/-- Every step that the run from `s` along `as` takes keeps `P`, a relation of the state before the
step, the action and the state after. -/
def RunKeeps (M : Machine σ α ε) (P : σ → α → σ → Prop) : List α → σ → Prop
  | [], _ => True
  | a :: as, s =>
    match M.step s a with
    | some (.ok t) => P s a t ∧ M.RunKeeps P as t
    | _ => True

theorem runKeeps_congr {Q : σ → α → σ → Prop}
    (h : ∀ s a t, M.step s a = some (.ok t) → (P s a t ↔ Q s a t)) (as : List α) (s : σ) :
    M.RunKeeps P as s ↔ M.RunKeeps Q as s := by
  induction as generalizing s with
  | nil => exact Iff.rfl
  | cons a as ih =>
    unfold RunKeeps
    split
    · next t ht => exact and_congr (h s a t ht) (ih t)
    · exact Iff.rfl

theorem runKeeps_of_steps
    (h : ∀ s a t, M.step s a = some (.ok t) → P s a t) (as : List α) (s : σ) : M.RunKeeps P as s := by
  induction as generalizing s with
  | nil => trivial
  | cons a as ih =>
    unfold RunKeeps
    split
    · next t ht => exact ⟨h s a t ht, ih t⟩
    · trivial

theorem RunKeeps.last {as : List α} {a : α} {u : σ}
    (h : M.RunKeeps P (as ++ [a]) s) (hr : M.run as s = some u) (hs : M.step u a = some (.ok t)) :
    P u a t := by
  induction as generalizing s with
  | nil =>
    simp only [run, Option.some.injEq] at hr
    subst hr
    simp only [List.nil_append, RunKeeps, hs] at h
    exact h.1
  | cons b as ih =>
    simp only [List.cons_append, RunKeeps] at h
    simp only [run] at hr
    split at hr
    · next v hv =>
      simp only [hv] at h
      exact ih h.2 hr
    · cases hr

end Machine

/-! ## Families of components with a common clock -/

/-- One member of a family: it steps by itself and ticks with the others. -/
structure Component (σ α ε : Type) where
  init : σ
  tick : σ → σ
  step : σ → α → Option (Except ε σ)

/-- An action of a family: the clock advances, or the member `k` takes the action `a`. -/
inductive FamilyAct (κ α : Type) where
  | tick
  | at (k : κ) (a : α)

namespace Component

variable {σ α ε κ : Type} [DecidableEq κ] {C : κ → Component σ α ε}

/-- The family with the member `C k` at the index `k`. -/
def family (C : κ → Component σ α ε) : Machine (κ → σ) (FamilyAct κ α) ε where
  init := fun k => (C k).init
  step s
    | .tick => some (.ok fun k => (C k).tick (s k))
    | .at k a => ((C k).step (s k) a).map fun r => r.map (update s k)

/-- A condition on the steps of the members; the clock is free to tick. -/
def Each (ok : σ → α → Prop) (s : κ → σ) : FamilyAct κ α → Prop
  | .tick => True
  | .at k a => ok (s k) a

instance decidableEach (ok : σ → α → Prop) [∀ s a, Decidable (ok s a)] (s : κ → σ) :
    ∀ a, Decidable (Each ok s a)
  | .tick => .isTrue trivial
  | .at k a => inferInstanceAs (Decidable (ok (s k) a))

theorem family_step_at {s t : κ → σ} {k : κ} {a : α} (h : (family C).step s (.at k a) = some (.ok t)) :
    ∃ u, (C k).step (s k) a = some (.ok u) ∧ t = update s k u := by
  simp only [family, Option.map_eq_some_iff] at h
  obtain ⟨r, hr, hru⟩ := h
  cases r with
  | error e => cases hru
  | ok u =>
    simp only [Except.map, Except.ok.injEq] at hru
    exact ⟨u, hr, hru.symm⟩

theorem family_fault {s : κ → σ} {a : FamilyAct κ α} {e : ε} (h : (family C).step s a = some (.error e)) :
    ∃ k b, a = .at k b ∧ (C k).step (s k) b = some (.error e) := by
  cases a with
  | tick => cases h
  | «at» k b =>
    simp only [family, Option.map_eq_some_iff] at h
    obtain ⟨r, hr, hru⟩ := h
    cases r with
    | error e' =>
      simp only [Except.map, Except.error.injEq] at hru
      exact ⟨k, b, rfl, hru ▸ hr⟩
    | ok u => cases hru

/-- **The invariant rule for families.** A property of a member's initial state that its own
admitted steps and the tick keep holds of that member in every reached state. -/
theorem family_invariant {ok : σ → α → Prop} (Inv : κ → σ → Prop)
    (hinit : ∀ k, Inv k (C k).init) (htick : ∀ k s, Inv k s → Inv k ((C k).tick s))
    (hstep : ∀ k s a t, Inv k s → ok s a → (C k).step s a = some (.ok t) → Inv k t)
    {s : κ → σ} (h : (family C).ReachableUnder (Each ok) s) (k : κ) : Inv k (s k) := by
  induction h generalizing k with
  | init => exact hinit k
  | @step s a t _ hok ht ih =>
    cases a with
    | tick =>
      simp only [family, Option.some.injEq, Except.ok.injEq] at ht
      rw [← ht]
      exact htick k _ (ih k)
    | «at» j b =>
      obtain ⟨u, hu, rfl⟩ := family_step_at ht
      by_cases hjk : k = j
      · subst hjk
        rw [update_self]
        exact hstep k _ _ _ (ih k) hok hu
      · rw [update_of_ne hjk]
        exact ih k

theorem family_reachable_invariant (Inv : κ → σ → Prop) (hinit : ∀ k, Inv k (C k).init)
    (htick : ∀ k s, Inv k s → Inv k ((C k).tick s))
    (hstep : ∀ k s a t, Inv k s → (C k).step s a = some (.ok t) → Inv k t)
    {s : κ → σ} (h : (family C).Reachable s) (k : κ) : Inv k (s k) := by
  have hall : (family C).ReachableUnder (Each fun _ _ => True) s :=
    h.mono fun _ a _ => by cases a <;> trivial
  exact family_invariant Inv hinit htick (fun k s a t hi _ ht => hstep k s a t hi ht) hall k

end Component

end GpgpuSimRuby.Library
