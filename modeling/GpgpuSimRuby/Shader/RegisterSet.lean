import GpgpuSimRuby.Library.Loops

/-!
# Sets of pipeline registers

A `register_set` holds some `warp_inst_t`s between two stages of the pipeline, and `none` stands for an
empty one. An instruction is moved in to the first empty register, and the oldest one is moved out.
-/

namespace GpgpuSimRuby.Shader

open Library

variable {W ε : Type}

/-- `register_set::regs`. -/
abbrev RegisterSet (W : Type) := List (Option W)

/-- One element of the list goes from `x` to `y`. -/
def Replaced {α : Type} (x y : α) (l l' : List α) : Prop :=
  ∃ rest, l.Perm (x :: rest) ∧ l'.Perm (y :: rest)

namespace Replaced

variable {α : Type} {x y : α} {l l' : List α}

theorem set {i : Nat} (h : l[i]? = some x) (y : α) : Replaced x y l (l.set i y) := by
  obtain ⟨hi, rfl⟩ := List.getElem?_eq_some_iff.mp h
  exact ⟨l.eraseIdx i, (List.getElem_cons_eraseIdx_perm hi).symm, List.set_perm_cons_eraseIdx hi y⟩

theorem length_eq (h : Replaced x y l l') : l'.length = l.length := by
  obtain ⟨rest, hl, hl'⟩ := h
  rw [hl.length_eq, hl'.length_eq, List.length_cons, List.length_cons]

theorem count [BEq α] [LawfulBEq α] (h : Replaced x y l l') (z : α) :
    l'.count z + (if x == z then 1 else 0) = l.count z + (if y == z then 1 else 0) := by
  obtain ⟨rest, hl, hl'⟩ := h
  rw [hl.count_eq, hl'.count_eq, List.count_cons, List.count_cons]
  omega

theorem countP (h : Replaced x y l l') (p : α → Bool) :
    l'.countP p + (if p x then 1 else 0) = l.countP p + (if p y then 1 else 0) := by
  obtain ⟨rest, hl, hl'⟩ := h
  rw [hl.countP_eq, hl'.countP_eq, List.countP_cons, List.countP_cons]
  omega

end Replaced

namespace RegisterSet

/-- `has_free`. -/
def hasFree (regs : RegisterSet W) : Bool := regs.any Option.isNone

/-- `has_ready`. -/
def hasReady (regs : RegisterSet W) : Bool := regs.any Option.isSome

/-- `move_in`, with the assertion of `get_free` that there is a free register. -/
def moveIn (noFree : ε) (regs : RegisterSet W) (w : W) : Except ε (RegisterSet W) :=
  match regs.findIdx? Option.isNone with
  | none => .error noFree
  | some i => .ok (regs.set i (some w))

/-- A round of the loop of `get_ready`, which keeps the candidate only if it is older. -/
def older (uid : W → Nat) (ready : Option (Nat × W)) (r : Option W × Nat) : Option (Nat × W) :=
  match r.1 with
  | none => ready
  | some w =>
    match ready with
    | none => some (r.2, w)
    | some v => if uid v.2 < uid w then some v else some (r.2, w)

/-- `get_ready`, which gives a register and its instruction. -/
def getReady (uid : W → Nat) (regs : RegisterSet W) : Option (Nat × W) :=
  regs.zipIdx.foldl (older uid) none

/-- The register of `get_ready` is emptied. -/
def clear (regs : RegisterSet W) (i : Nat) : RegisterSet W := regs.set i none

variable {regs regs' : RegisterSet W} {noFree e : ε} {w : W} {uid : W → Nat}

theorem hasFree_iff : regs.hasFree = true ↔ none ∈ regs := by
  simp [hasFree, List.any_eq_true]

/-- **`move_in`** fills an empty register. -/
theorem moveIn_eq_ok (h : regs.moveIn noFree w = .ok regs') : Replaced none (some w) regs regs' := by
  unfold moveIn at h
  cases hi : regs.findIdx? Option.isNone with
  | none =>
    rw [hi] at h
    cases h
  | some i =>
    rw [hi] at h
    cases h
    obtain ⟨hlt, hnone, -⟩ := List.findIdx?_eq_some_iff_getElem.mp hi
    apply Replaced.set
    rw [List.getElem?_eq_getElem hlt, Option.isNone_iff_eq_none.mp hnone]

theorem moveIn_ok (noFree : ε) (h : regs.hasFree = true) (w : W) :
    ∃ regs', regs.moveIn noFree w = .ok regs' := by
  obtain ⟨i, hi⟩ : ∃ i, regs.findIdx? Option.isNone = some i := by
    cases hi : regs.findIdx? Option.isNone with
    | some i => exact ⟨i, rfl⟩
    | none =>
      have hfull := List.findIdx?_eq_none_iff.mp hi none (hasFree_iff.mp h)
      cases hfull
  exact ⟨regs.set i (some w), by rw [moveIn, hi]⟩

theorem getReady_concat (r : Option W) :
    getReady uid (regs ++ [r]) = older uid (getReady uid regs) (r, regs.length) := by
  unfold getReady
  rw [List.zipIdx_append, List.foldl_append]
  simp

theorem getReady_some {i : Nat} (h : regs.getReady uid = some (i, w)) : regs[i]? = some (some w) := by
  induction regs using List.reverseRecOn generalizing i w with
  | nil => cases h
  | append_singleton regs r ih =>
    have hlast : (regs ++ [r])[regs.length]? = some r := by simp
    have hinit : ∀ j v, getReady uid regs = some (j, v) → (regs ++ [r])[j]? = some (some v) := by
      intro j v hj
      obtain ⟨hlt, -⟩ := List.getElem?_eq_some_iff.mp (ih hj)
      rw [List.getElem?_append_left hlt]
      exact ih hj
    rw [getReady_concat] at h
    cases r with
    | none => exact hinit i w h
    | some v =>
      cases hready : getReady uid regs with
      | none =>
        rw [hready] at h
        cases h
        exact hlast
      | some p =>
        rw [hready] at h
        simp only [older] at h
        split at h
        · cases h
          exact hinit _ _ hready
        · cases h
          exact hlast

theorem getReady_none (h : regs.getReady uid = none) : regs.hasReady = false := by
  induction regs using List.reverseRecOn with
  | nil => rfl
  | append_singleton regs r ih =>
    rw [getReady_concat] at h
    cases r with
    | none =>
      rw [hasReady, List.any_append, ← hasReady, ih h]
      rfl
    | some v =>
      cases hready : getReady uid regs with
      | none =>
        rw [hready] at h
        cases h
      | some p =>
        rw [hready] at h
        simp only [older] at h
        split at h <;> cases h

theorem exists_getReady (uid : W → Nat) (h : regs.hasReady = true) : ∃ p, regs.getReady uid = some p := by
  cases hp : regs.getReady uid with
  | some p => exact ⟨p, rfl⟩
  | none =>
    rw [getReady_none hp] at h
    cases h

/-- **`move_out_to`** empties the register of the instruction it gives. -/
theorem clear_replaced {i : Nat} (h : regs.getReady uid = some (i, w)) :
    Replaced (some w) none regs (regs.clear i) :=
  .set (getReady_some h) none

end RegisterSet

end GpgpuSimRuby.Shader
