import Mathlib

/-!
# Flat memories

A flat memory gives the byte at each address. `store` overwrites a range, `load` lists one, and
`latest` is the memory that a history of stores leaves behind. Stores and loads of a range are those
of its parts.
-/

namespace GpgpuSimRuby.Library

/-- The byte at each address. -/
abbrev ByteMap (β : Type) := Nat → β

namespace ByteMap

variable {β : Type} (f : ByteMap β) (addr : Nat)

/-- The memory with `data` from the address on. -/
def store (data : List β) : ByteMap β := fun a => if a < addr then f a else data.getD (a - addr) (f a)

/-- The `n` bytes from the address on. -/
def load (n : Nat) : List β := (List.range n).map fun i => f (addr + i)

/-- The memory after a history of stores, the latest first: each byte has the value of the latest store
that covers it. -/
def latest (zero : β) : List (Nat × List β) → ByteMap β
  | [] => fun _ => zero
  | (addr, data) :: earlier => (latest zero earlier).store addr data

variable {f addr} {a n m : Nat} {data : List β}

theorem store_of_lt (h : a < addr) : f.store addr data a = f a := if_pos h

theorem store_of_le (h : addr + data.length ≤ a) : f.store addr data a = f a := by
  unfold store
  rw [if_neg (by omega), List.getD_eq_default _ _ (by omega)]

theorem store_of_mem (h : addr ≤ a) (h' : a < addr + data.length) :
    f.store addr data a = data.get ⟨a - addr, by omega⟩ := by
  unfold store
  rw [if_neg (by omega), List.getD_eq_getElem _ _ (by omega)]
  rfl

@[simp]
theorem store_nil : f.store addr [] = f := by
  funext a
  simp [store]

theorem store_append (data' : List β) :
    f.store addr (data ++ data') = (f.store addr data).store (addr + data.length) data' := by
  funext a
  by_cases hlt : a < addr
  · rw [store_of_lt hlt, store_of_lt (by omega), store_of_lt hlt]
  by_cases hmid : a < addr + data.length
  · rw [store_of_lt hmid]
    unfold store
    rw [if_neg hlt, if_neg hlt, List.getD_append _ _ _ _ (by omega)]
  · have hrest : f.store addr data a = f a := store_of_le (by omega)
    unfold store at hrest ⊢
    rw [if_neg hlt, if_neg (by omega), hrest, List.getD_append_right _ _ _ _ (by omega), Nat.sub_sub]

@[simp]
theorem load_zero : f.load addr 0 = [] := rfl

@[simp]
theorem length_load : (f.load addr n).length = n := by simp [load]

theorem load_add : f.load addr (n + m) = f.load addr n ++ f.load (addr + n) m := by
  simp only [load, List.range_add, List.map_append, List.map_map]
  congr 1
  apply List.map_congr_left
  intro i _
  simp only [Function.comp_apply, Nat.add_assoc]

theorem load_congr {g : ByteMap β} {b : Nat} (h : ∀ i < n, f (addr + i) = g (b + i)) :
    f.load addr n = g.load b n :=
  List.map_congr_left fun i hi => h i (List.mem_range.mp hi)

end ByteMap

end GpgpuSimRuby.Library
