import Mathlib

/-!
# Table-driven controllers

The protocols are written in a small language of tables: a controller looks the state of a block
up, finds the declared transition for the event at hand, runs its actions in order and then stores
the next state. An event without a declared transition is an error of the controller, an action may
fail an assertion, and a transition may *stall*, which leaves everything (also the triggering
message) as it is.

Nothing here names a protocol: a `Controller` is the pair of state accessors and the table over an
arbitrary context `κ`, and `Controller.doTransition` is what the generated code does with them.
-/

namespace GpgpuSimRuby.Library

open Function

/-- How a controller can go wrong. -/
inductive Fault where
  | invalidTransition
  | assertion
  | error (msg : String)
  deriving DecidableEq, Repr

/-- An action of a transition, on the context `κ` of the controller. -/
abbrev Action (κ : Type) := κ → Except Fault κ

/-- `assert(p)`, then the rest. -/
def require {κ : Type} (p : Prop) [Decidable p] (c : κ) : Except Fault κ :=
  if p then .ok c else .error .assertion

@[simp] theorem require_pos {κ : Type} {p : Prop} [Decidable p] {c : κ} (h : p) :
    require p c = .ok c := if_pos h

/-- Run the actions one after the other; the first fault ends the transition. -/
def runActions {κ : Type} : List (Action κ) → Action κ
  | [], c => .ok c
  | a :: as, c =>
    match a c with
    | .ok d => runActions as d
    | .error e => .error e

theorem runActions_cons {κ : Type} (a : Action κ) (as : List (Action κ)) (c : κ) :
    runActions (a :: as) c = (a c).bind (runActions as) := by
  simp only [runActions]
  cases a c <;> rfl

/-- A declared transition: `z_stall`, or a next state and the actions to run before it is stored. -/
inductive Transition (State κ : Type) where
  | stall
  | go (next : State) (actions : List (Action κ))

/-- The state accessors and the transition table of a controller. -/
structure Controller (State Event κ : Type) where
  getState : κ → State
  setState : State → κ → κ
  transitions : State → Event → Option (Transition State κ)

/-- `doTransition`: look the state up, run the declared transition, store the next state. -/
def Controller.doTransition {State Event κ : Type} (C : Controller State Event κ) (event : Event) :
    Action κ := fun c =>
  match C.transitions (C.getState c) event with
  | none => .error .invalidTransition
  | some .stall => .ok c
  | some (.go next actions) =>
    match runActions actions c with
    | .ok d => .ok (C.setState next d)
    | .error e => .error e

theorem Controller.doTransition_go {State Event κ : Type} {C : Controller State Event κ} {c : κ}
    {s next : State} {actions : List (Action κ)} (event : Event) (hs : C.getState c = s)
    (ht : C.transitions s event = some (.go next actions)) :
    C.doTransition event c = (runActions actions c).map (C.setState next) := by
  simp only [doTransition, hs, ht]
  cases runActions actions c <;> rfl

theorem Controller.doTransition_stall {State Event κ : Type} {C : Controller State Event κ} {c : κ}
    {s : State} (event : Event) (hs : C.getState c = s)
    (ht : C.transitions s event = some .stall) : C.doTransition event c = .ok c := by
  simp only [doTransition, hs, ht]

/-! ## Taking one message out of a buffer -/

variable {α : Type} {a : α} {k : Nat} {l : List α}

theorem perm_cons_eraseIdx (h : l[k]? = some a) : l.Perm (a :: l.eraseIdx k) := by
  obtain ⟨hk, rfl⟩ := List.getElem?_eq_some_iff.mp h
  exact (List.getElem_cons_eraseIdx_perm hk).symm

theorem countP_eraseIdx (p : α → Bool) (h : l[k]? = some a) :
    l.countP p = (l.eraseIdx k).countP p + if p a then 1 else 0 := by
  rw [(perm_cons_eraseIdx h).countP_eq p, List.countP_cons]

theorem length_eraseIdx_getElem? (h : l[k]? = some a) : l.length = (l.eraseIdx k).length + 1 := by
  simpa using (perm_cons_eraseIdx h).length_eq

theorem mem_of_getElem?_eq_some (h : l[k]? = some a) : a ∈ l := by
  obtain ⟨hk, rfl⟩ := List.getElem?_eq_some_iff.mp h
  exact List.getElem_mem hk

/-! ## One buffer of a family changes -/

theorem sum_apply_update {ι M : Type} [AddCommMonoid M] [Fintype ι] [DecidableEq ι] (F : α → M)
    (t : ι → α) (i : ι) (v : α) : ∑ j, F (update t i v j) + F (t i) = ∑ j, F (t j) + F v := by
  rw [← Finset.add_sum_erase _ _ (Finset.mem_univ i),
    ← Finset.add_sum_erase _ (fun j => F (t j)) (Finset.mem_univ i), update_self]
  have hrest : ∑ j ∈ Finset.univ.erase i, F (update t i v j) =
      ∑ j ∈ Finset.univ.erase i, F (t j) := by
    refine Finset.sum_congr rfl fun j hj => ?_
    rw [update_of_ne (Finset.ne_of_mem_erase hj)]
  rw [hrest]
  abel

end GpgpuSimRuby.Library
