import Mathlib

/-!
# Code that asserts

A function with assertions returns in `Except ε`: `assert p e` goes on when `p` holds and stops with
`e` otherwise. The lemmas take such a computation apart, from its result to the results of its
parts.
-/

namespace GpgpuSimRuby.Library

variable {ε α β : Type}

/-- Stop with `e` unless `p` holds. -/
def assert (p : Prop) [Decidable p] (e : ε) : Except ε Unit :=
  if p then .ok () else .error e

section Assert

variable {p : Prop} [Decidable p] {e e' : ε}

@[simp]
theorem assert_pos (h : p) : assert p e = .ok () := if_pos h

theorem assert_neg (h : ¬ p) : assert p e = .error e := if_neg h

@[simp]
theorem assert_eq_ok {u : Unit} : assert p e = .ok u ↔ p := by
  unfold assert
  split <;> simp [*]

@[simp]
theorem assert_eq_error : assert p e = .error e' ↔ ¬ p ∧ e = e' := by
  unfold assert
  split <;> simp [*]

end Assert

section Bind

variable {x : Except ε α} {f : α → Except ε β}

theorem bind_eq_ok {b : β} : (x >>= f) = .ok b ↔ ∃ a, x = .ok a ∧ f a = .ok b := by
  cases x with
  | error e => simp [bind, Except.bind]
  | ok a => simp [bind, Except.bind]

theorem bind_eq_error {e : ε} : (x >>= f) = .error e ↔ x = .error e ∨ ∃ a, x = .ok a ∧ f a = .error e := by
  cases x with
  | error e => simp [bind, Except.bind]
  | ok a => simp [bind, Except.bind]

/-- A `return` stops with no error. -/
theorem bind_return_eq_error {g : α → β} {e : ε} :
    (x >>= fun a => .ok (g a)) = .error e ↔ x = .error e := by
  simp [bind_eq_error]

@[simp]
theorem ok_bind {a : α} : ((Except.ok a : Except ε α) >>= f) = f a := rfl

@[simp]
theorem error_bind {e : ε} : ((Except.error e : Except ε α) >>= f) = .error e := rfl

end Bind

section MapError

variable {ε' : Type} {f : ε → ε'} {x : Except ε α}

theorem mapError_eq_ok {a : α} : x.mapError f = .ok a ↔ x = .ok a := by
  cases x with
  | error e => simp [Except.mapError]
  | ok b => simp [Except.mapError]

theorem mapError_eq_error {e' : ε'} : x.mapError f = .error e' ↔ ∃ e, x = .error e ∧ f e = e' := by
  cases x with
  | error e => simp [Except.mapError]
  | ok b => simp [Except.mapError]

end MapError

section Map

variable {x : Except ε α} {f : α → β}

theorem map_eq_ok {b : β} : x.map f = .ok b ↔ ∃ a, x = .ok a ∧ f a = b := by
  cases x with
  | error e => simp [Except.map]
  | ok a => simp [Except.map]

theorem map_eq_error {e : ε} : x.map f = .error e ↔ x = .error e := by
  cases x with
  | error e => simp [Except.map]
  | ok a => simp [Except.map]

end Map

/-! ## Errors that do not occur -/

/-- The computation does not stop with an error that `bad` tells. -/
def Avoids (bad : ε → Bool) (x : Except ε α) : Prop := ∀ e, x = .error e → bad e = false

namespace Avoids

variable {bad : ε → Bool} {x : Except ε α}

theorem ok {a : α} : Avoids bad (.ok a : Except ε α) := fun _ h => by cases h

theorem error {e : ε} (h : bad e = false) : Avoids bad (.error e : Except ε α) := by
  intro e' he
  cases he
  exact h

theorem assert {p : Prop} [Decidable p] {e : ε} (h : bad e = false) : Avoids bad (Library.assert p e) := by
  intro e' he
  obtain ⟨-, rfl⟩ := assert_eq_error.mp he
  exact h

theorem bind {f : α → Except ε β} (hx : Avoids bad x) (hf : ∀ a, x = .ok a → Avoids bad (f a)) :
    Avoids bad (x >>= f) := by
  intro e he
  rcases bind_eq_error.mp he with he | ⟨a, ha, he⟩
  · exact hx e he
  · exact hf a ha e he

theorem map {f : α → β} (hx : Avoids bad x) : Avoids bad (x.map f) :=
  fun e he => hx e (map_eq_error.mp he)

end Avoids

end GpgpuSimRuby.Library
