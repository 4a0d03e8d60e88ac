import Mathlib

/-!
# Queues that are served one element at a time

The front element of a serial queue stays in the queue while it is served; `busy` says that it is.
A record lists what has happened to the elements, the latest event first, and a `Ledger` says that
queue and record agree: nothing is lost, repeated or taken out of turn.
-/

namespace GpgpuSimRuby.Library

variable {α : Type}

/-- What happens to an element of a serial queue. -/
inductive QueueEvent (α : Type) where
  | pushed (a : α)
  | taken (a : α)
  | performed (a : α)
  | completed (a : α)
  deriving DecidableEq

namespace QueueEvent

/-! ## What a record says, in the order in which it happened -/

def pushes : List (QueueEvent α) → List α
  | [] => []
  | .pushed a :: t => pushes t ++ [a]
  | _ :: t => pushes t

def takes : List (QueueEvent α) → List α
  | [] => []
  | .taken a :: t => takes t ++ [a]
  | _ :: t => takes t

def performances : List (QueueEvent α) → List α
  | [] => []
  | .performed a :: t => performances t ++ [a]
  | _ :: t => performances t

def completions : List (QueueEvent α) → List α
  | [] => []
  | .completed a :: t => completions t ++ [a]
  | _ :: t => completions t

/-- Whenever an element was taken, all that had been taken before it were completed. -/
def InTurn : List (QueueEvent α) → Prop
  | [] => True
  | .taken _ :: t => InTurn t ∧ takes t = completions t
  | _ :: t => InTurn t

end QueueEvent

open QueueEvent

/-- A record `t` accounts for the elements of a queue. -/
structure Ledger (t : List (QueueEvent α)) (items : List α) (busy : Bool) : Prop where
  pushes : pushes t = completions t ++ items
  takes : takes t = completions t ++ if busy then items.take 1 else []
  performances : performances t = QueueEvent.takes t
  inTurn : InTurn t

namespace Ledger

variable {t : List (QueueEvent α)} {items : List α} {busy : Bool} {a : α}

theorem empty : Ledger ([] : List (QueueEvent α)) [] false where
  pushes := rfl
  takes := rfl
  performances := rfl
  inTurn := trivial

theorem push (h : Ledger t items busy) (hb : busy = true → items ≠ []) :
    Ledger (.pushed a :: t) (items ++ [a]) busy where
  pushes := by
    show QueueEvent.pushes t ++ [a] = QueueEvent.completions t ++ (items ++ [a])
    rw [h.pushes, List.append_assoc]
  takes := by
    show QueueEvent.takes t = _
    rw [h.takes]
    cases busy with
    | false => rfl
    | true =>
      obtain ⟨b, rest, rfl⟩ := List.exists_cons_of_ne_nil (hb rfl)
      rfl
  performances := h.performances
  inTurn := h.inTurn

theorem serve (h : Ledger t (a :: items) false) :
    Ledger (.performed a :: .taken a :: t) (a :: items) true where
  pushes := h.pushes
  takes := by
    show QueueEvent.takes t ++ [a] = QueueEvent.completions t ++ [a]
    rw [h.takes]
    exact congrArg (· ++ [a]) (List.append_nil _)
  performances := by
    show QueueEvent.performances t ++ [a] = QueueEvent.takes t ++ [a]
    rw [h.performances]
  inTurn := ⟨h.inTurn, h.takes.trans (List.append_nil _)⟩

theorem complete (h : Ledger t (a :: items) true) : Ledger (.completed a :: t) items false where
  pushes := by
    show QueueEvent.pushes t = QueueEvent.completions t ++ [a] ++ items
    rw [h.pushes, List.append_assoc, List.singleton_append]
  takes := by
    show QueueEvent.takes t = QueueEvent.completions t ++ [a] ++ []
    rw [h.takes, List.append_nil]
    rfl
  performances := h.performances
  inTurn := h.inTurn

/-- Every element that was pushed has been performed, or waits: it is performed once and no other is
performed before it. -/
theorem pushes_eq (h : Ledger t items busy) :
    QueueEvent.pushes t =
      QueueEvent.performances t ++ if busy then items.tail else items := by
  rw [h.pushes, h.performances, h.takes]
  cases busy with
  | false => simp
  | true => simp [List.append_assoc, ← List.drop_one]

end Ledger

/-! ## Things that move from place to place -/

section Placed

variable {ι : Type}

/-- No item is in two places, or twice in one; `made` items have been made. -/
structure Placed (place : ι → List Nat) (made : Nat) : Prop where
  nodup : ∀ l, (place l).Nodup
  apart : ∀ l l' k, k ∈ place l → k ∈ place l' → l = l'
  made : ∀ l, ∀ k ∈ place l, k < made

variable {place place' : ι → List Nat} {made : Nat}

theorem Placed.sublist (h : Placed place made) (hs : ∀ l, (place' l).Sublist (place l)) :
    Placed place' made where
  nodup l := (h.nodup l).sublist (hs l)
  apart l l' k hl hl' := h.apart l l' k ((hs l).subset hl) ((hs l').subset hl')
  made l k hk := h.made l k ((hs l).subset hk)

theorem Placed.make (h : Placed place made) {l₀ : ι} (hnew : place' l₀ = [made])
    (hold : ∀ l, l ≠ l₀ → place' l = place l) : Placed place' (made + 1) where
  nodup l := by
    by_cases hl : l = l₀
    · rw [hl, hnew]
      exact List.nodup_singleton made
    · rw [hold l hl]
      exact h.nodup l
  apart l l' k hk hk' := by
    by_cases hl : l = l₀ <;> by_cases hl' : l' = l₀
    · rw [hl, hl']
    · rw [hl, hnew] at hk
      rw [hold l' hl'] at hk'
      rw [List.mem_singleton.mp hk] at hk'
      exact absurd (h.made l' made hk') (Nat.lt_irrefl made)
    · rw [hl', hnew] at hk'
      rw [hold l hl] at hk
      rw [List.mem_singleton.mp hk'] at hk
      exact absurd (h.made l made hk) (Nat.lt_irrefl made)
    · rw [hold l hl] at hk
      rw [hold l' hl'] at hk'
      exact h.apart l l' k hk hk'
  made l k hk := by
    by_cases hl : l = l₀
    · rw [hl, hnew] at hk
      exact Nat.lt_succ_of_le (List.mem_singleton.mp hk).le
    · rw [hold l hl] at hk
      exact Nat.lt_succ_of_lt (h.made l k hk)

theorem Placed.move (h : Placed place made) {l₁ l₂ : ι} (hne : l₁ ≠ l₂) (hfrom : place' l₁ = [])
    (hto : place' l₂ = place l₂ ++ place l₁) (hold : ∀ l, l ≠ l₁ → l ≠ l₂ → place' l = place l) :
    Placed place' made := by
  have hback {l k} (hk : k ∈ place' l) : k ∈ place l ∨ l = l₂ ∧ k ∈ place l₁ := by
    by_cases h₁ : l = l₁
    · rw [h₁, hfrom] at hk
      cases hk
    · by_cases h₂ : l = l₂
      · rw [h₂, hto] at hk
        rcases List.mem_append.mp hk with hk | hk
        · exact .inl (h₂ ▸ hk)
        · exact .inr ⟨h₂, hk⟩
      · rw [hold l h₁ h₂] at hk
        exact .inl hk
  have hleft {l k} (hk : k ∈ place' l) : l ≠ l₁ := by
    rintro rfl
    rw [hfrom] at hk
    cases hk
  constructor
  · intro l
    by_cases h₂ : l = l₂
    · rw [h₂, hto]
      refine List.nodup_append.mpr ⟨h.nodup l₂, h.nodup l₁, ?_⟩
      rintro k hk k' hk' rfl
      exact hne (h.apart l₁ l₂ k hk' hk)
    · by_cases h₁ : l = l₁
      · rw [h₁, hfrom]
        exact List.nodup_nil
      · rw [hold l h₁ h₂]
        exact h.nodup l
  · intro l l' k hk hk'
    rcases hback hk with hin | ⟨rfl, hin⟩ <;> rcases hback hk' with hin' | ⟨rfl, hin'⟩
    · exact h.apart l l' k hin hin'
    · exact absurd (h.apart l l₁ k hin hin') (hleft hk)
    · exact absurd (h.apart l' l₁ k hin' hin) (hleft hk')
    · rfl
  · intro l k hk
    rcases hback hk with hin | ⟨-, hin⟩
    · exact h.made l k hin
    · exact h.made l₁ k hin

end Placed

end GpgpuSimRuby.Library
