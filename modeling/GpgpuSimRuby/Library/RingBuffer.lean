import GpgpuSimRuby.Library.Fault

/-!
# RingBuffer buffers

A queue in an array: entries go in at `head` and come out at `tail`, and both go round. `contents`
is the queue that it stands for. An entry keeps its place in the array as long as it is queued, so
it can be found by the place that `push` has returned.
-/

namespace GpgpuSimRuby.Library

open Function

structure RingBuffer (α : Type) where
  size : Nat
  num : Nat
  head : Nat
  tail : Nat
  data : Nat → α

namespace RingBuffer

/-- The assertions. -/
inductive Fault where
  | full | empty | index
  deriving DecidableEq, Repr

variable {α : Type} (r : RingBuffer α)

def new [Inhabited α] (size : Nat) : RingBuffer α := ⟨size, 0, 0, 0, fun _ => default⟩

def full : Bool := decide (r.num = r.size)

def empty : Bool := decide (r.num = 0)

/-- The entry goes in; the place that it has is returned. -/
def push (x : α) : Except Fault (Nat × RingBuffer α) := do
  assert (r.full = false) .full
  .ok (r.head,
    { r with data := update r.data r.head x, head := (r.head + 1) % r.size, num := r.num + 1 })

def pop : Except Fault (α × RingBuffer α) := do
  assert (r.empty = false) .empty
  .ok (r.data r.tail, { r with tail := (r.tail + 1) % r.size, num := r.num - 1 })

def peek (index : Nat) : Except Fault α := do
  assert (index < r.size) .index
  .ok (r.data index)

/-- A write through the reference that `peek` returns. -/
def modify (index : Nat) (f : α → α) : Except Fault (RingBuffer α) := do
  assert (index < r.size) .index
  .ok { r with data := update r.data index (f (r.data index)) }

def top : α := r.data r.tail

def nextPopIndex : Nat := r.tail

/-- The place of an entry. -/
def slot (i : Nat) : Nat := (r.tail + i) % r.size

/-- The entries, the oldest first. -/
def contents : List α := (List.range r.num).map fun i => r.data (r.slot i)

structure WellFormed : Prop where
  num : r.num ≤ r.size
  tail : 0 < r.size → r.tail < r.size
  head : r.head = r.slot r.num

section Lemmas

variable {r r' : RingBuffer α} {x : α} {l : List α} {i j : Nat} {f : α → α}

@[simp]
theorem length_contents : r.contents.length = r.num := by
  unfold contents
  rw [List.length_map, List.length_range]

theorem new_wellFormed [Inhabited α] (size : Nat) : (new size : RingBuffer α).WellFormed := by
  refine ⟨Nat.zero_le _, fun h => h, ?_⟩
  show 0 = (0 + 0) % size
  rw [Nat.zero_mod]

theorem empty_eq_false : r.empty = false ↔ r.contents ≠ [] := by
  unfold empty
  rw [decide_eq_false_iff_not, ← length_contents, List.length_eq_zero_iff]

theorem getElem?_contents (hi : i < r.num) : r.contents[i]? = some (r.data (r.slot i)) := by
  unfold contents
  rw [List.getElem?_map, List.getElem?_range hi]
  rfl

theorem slot_lt (h : 0 < r.size) (i : Nat) : r.slot i < r.size := Nat.mod_lt _ h

theorem slot_inj (hi : i < r.size) (hj : j < r.size) (h : r.slot i = r.slot j) : i = j := by
  have hmod : i % r.size = j % r.size := Nat.ModEq.add_left_cancel' r.tail h
  rwa [Nat.mod_eq_of_lt hi, Nat.mod_eq_of_lt hj] at hmod

section

variable (h : r.WellFormed)
include h

theorem slot_zero (hpos : 0 < r.size) : r.slot 0 = r.tail :=
  Nat.mod_eq_of_lt (h.tail hpos)

theorem top_eq (hl : r.contents = x :: l) : r.top = x := by
  have hnum : 0 < r.num := by
    rw [← length_contents, hl]
    exact Nat.succ_pos _
  have hget := getElem?_contents hnum
  rw [hl, slot_zero h (Nat.lt_of_lt_of_le hnum h.num)] at hget
  exact (Option.some.inj hget).symm

theorem contents_eq_cons (hnum : 0 < r.num) :
    r.contents = r.top :: (List.range (r.num - 1)).map fun i => r.data (r.slot (i + 1)) := by
  obtain ⟨n, hn⟩ := Nat.exists_eq_succ_of_ne_zero hnum.ne'
  unfold contents
  rw [hn, List.range_succ_eq_map, List.map_cons, slot_zero h (Nat.lt_of_lt_of_le hnum h.num),
    List.map_map]
  rfl

/-! ## Operations -/

theorem WellFormed.push (hfull : r.full = false) (x : α) :
    ∃ r', r.push x = .ok (r.slot r.num, r') ∧ r'.WellFormed ∧ r'.contents = r.contents ++ [x] ∧
      r'.size = r.size ∧ ∀ i, r'.slot i = r.slot i := by
  have hne : r.num ≠ r.size := of_decide_eq_false hfull
  have hlt : r.num < r.size := Nat.lt_of_le_of_ne h.num hne
  unfold RingBuffer.push
  rw [assert_pos hfull, ok_bind, h.head]
  refine ⟨_, rfl, ⟨hlt, h.tail, ?_⟩, ?_, rfl, fun _ => rfl⟩
  · show ((r.tail + r.num) % r.size + 1) % r.size = (r.tail + (r.num + 1)) % r.size
    rw [Nat.mod_add_mod, Nat.add_assoc]
  · show (List.range (r.num + 1)).map _ = (List.range r.num).map _ ++ [x]
    rw [List.range_succ, List.map_append, List.map_singleton]
    congr 1
    · apply List.map_congr_left
      intro i hi
      have hi := List.mem_range.mp hi
      show update r.data (r.slot r.num) x (r.slot i) = _
      rw [update_of_ne]
      intro heq
      exact hi.ne (slot_inj (hi.trans hlt) hlt heq)
    · show [update r.data (r.slot r.num) x (r.slot r.num)] = _
      rw [update_self]

theorem WellFormed.pop (hl : r.contents = x :: l) :
    ∃ r', r.pop = .ok (x, r') ∧ r'.WellFormed ∧ r'.contents = l ∧ r'.size = r.size ∧
      ∀ i, r'.slot i = r.slot (i + 1) := by
  have hnum : 0 < r.num := by
    rw [← length_contents, hl]
    exact Nat.succ_pos _
  have hpos : 0 < r.size := Nat.lt_of_lt_of_le hnum h.num
  have hempty : r.empty = false := decide_eq_false hnum.ne'
  have hslot : ∀ i, ((r.tail + 1) % r.size + i) % r.size = r.slot (i + 1) := by
    intro i
    rw [Nat.mod_add_mod, Nat.add_assoc, Nat.add_comm 1 i]
    rfl
  have hcons := contents_eq_cons h hnum
  rw [hl] at hcons
  obtain ⟨hx, hrest⟩ := List.cons_eq_cons.mp hcons
  unfold RingBuffer.pop
  rw [assert_pos hempty, ok_bind]
  refine ⟨{ r with tail := (r.tail + 1) % r.size, num := r.num - 1 }, ?_, ⟨?_, ?_, ?_⟩, ?_, rfl, hslot⟩
  · rw [hx]
    rfl
  · exact (Nat.sub_le _ _).trans h.num
  · intro _
    exact Nat.mod_lt _ hpos
  · show r.head = ((r.tail + 1) % r.size + (r.num - 1)) % r.size
    rw [hslot, h.head, Nat.sub_add_cancel hnum]
  · rw [hrest]
    show (List.range (r.num - 1)).map (fun i => r.data (((r.tail + 1) % r.size + i) % r.size)) = _
    exact List.map_congr_left fun i _ => congrArg r.data (hslot i)

theorem WellFormed.peek (hi : i < r.num) : r.peek (r.slot i) = .ok (r.data (r.slot i)) := by
  have hpos : 0 < r.size := Nat.lt_of_le_of_lt (Nat.zero_le i) (Nat.lt_of_lt_of_le hi h.num)
  unfold RingBuffer.peek
  rw [assert_pos (slot_lt hpos i)]
  rfl

theorem WellFormed.modify (hi : i < r.num) (f : α → α) :
    ∃ r', r.modify (r.slot i) f = .ok r' ∧ r'.WellFormed ∧ r'.contents = r.contents.modify i f ∧
      r'.size = r.size ∧ ∀ j, r'.slot j = r.slot j := by
  have hlt := Nat.lt_of_lt_of_le hi h.num
  have hpos : 0 < r.size := Nat.lt_of_le_of_lt (Nat.zero_le i) hlt
  unfold RingBuffer.modify
  rw [assert_pos (slot_lt hpos i), ok_bind]
  refine ⟨_, rfl, ⟨h.num, h.tail, h.head⟩, ?_, rfl, fun _ => rfl⟩
  apply List.ext_getElem?
  intro j
  rw [List.getElem?_modify]
  by_cases hj : j < r.num
  · have hget := getElem?_contents (r := r) hj
    have hget' := getElem?_contents
      (r := { r with data := update r.data (r.slot i) (f (r.data (r.slot i))) }) hj
    rw [hget, hget']
    show some (update r.data (r.slot i) (f (r.data (r.slot i))) (r.slot j)) =
      some (if i = j then f (r.data (r.slot j)) else r.data (r.slot j))
    by_cases heq : i = j
    · subst heq
      rw [if_pos rfl, update_self]
    · rw [if_neg heq]
      have hne : r.slot j ≠ r.slot i := by
        intro hslot
        exact heq (slot_inj hlt (Nat.lt_of_lt_of_le hj h.num) hslot.symm)
      rw [update_of_ne hne]
  · have hle : r.num ≤ j := Nat.le_of_not_lt hj
    have hlen : ∀ q : RingBuffer α, q.num = r.num → q.contents[j]? = none := by
      intro q hq
      rw [List.getElem?_eq_none_iff, length_contents, hq]
      exact hle
    rw [hlen r rfl]
    exact hlen { r with data := update r.data (r.slot i) (f (r.data (r.slot i))) } rfl

end

end Lemmas

end RingBuffer

end GpgpuSimRuby.Library
