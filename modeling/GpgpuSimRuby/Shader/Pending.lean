import GpgpuSimRuby.Shader.Steps

/-!
# Pending writes

The loops over the destination registers of an instruction, in closed form. They touch the entries of
these registers alone, and since a load raises and lowers all of them together, they agree on one value.
-/

namespace GpgpuSimRuby.Shader

open Library Function

namespace PendingWrites

variable {p : PendingWrites} {out : List Nat} {n r : Nat}

/-- The pending writes with one entry for all registers of `out`. -/
def set (p : PendingWrites) (out : List Nat) (v : Option Nat) : PendingWrites :=
  fun r => if r ∈ out then v else p r

@[simp]
theorem set_nil (v : Option Nat) : p.set [] v = p := by
  funext r
  simp [set]

theorem set_of_mem (hr : r ∈ out) (v : Option Nat) : p.set out v r = v := if_pos hr

theorem set_of_not_mem (hr : r ∉ out) (v : Option Nat) : p.set out v r = p r := if_neg hr

theorem set_cons (v : Option Nat) :
    (set (update p r v) out v : PendingWrites) = p.set (r :: out) v := by
  funext q
  by_cases hq : q ∈ out
  · rw [set_of_mem hq, set_of_mem (List.mem_cons_of_mem r hq)]
  · rw [set_of_not_mem hq]
    by_cases hqr : q = r
    · subst hqr
      rw [update_self, set_of_mem List.mem_cons_self]
    · rw [update_of_ne hqr, set_of_not_mem (by simp [hqr, hq])]

theorem update_of_not_mem {v : Option Nat} (hr : r ∉ out) {u : Option Nat}
    (h : ∀ q ∈ r :: out, p q = u) : ∀ q ∈ out, update p r v q = u := by
  intro q hq
  rw [update_of_ne]
  · exact h q (List.mem_cons_of_mem r hq)
  · rintro rfl
    exact hr hq

theorem raise_eq (hnodup : out.Nodup) (h : ∀ r ∈ out, p r = none) : p.raise n out = p.set out (some n) := by
  induction out generalizing p with
  | nil => rw [set_nil, raise, List.foldl_nil]
  | cons r out ih =>
    obtain ⟨hr, hnodup⟩ := List.nodup_cons.mp hnodup
    have hp : (p r).getD 0 + n = n := by simp [h r List.mem_cons_self]
    show raise n out (update p r (some ((p r).getD 0 + n))) = _
    rw [hp, ih hnodup (update_of_not_mem hr h), set_cons]

theorem lower_eq (hnodup : out.Nodup) (h : ∀ r ∈ out, p r = some (n + 1)) :
    p.lower out = .ok (p.set out (some n)) := by
  induction out generalizing p with
  | nil => rw [set_nil, lower]
  | cons r out ih =>
    obtain ⟨hr, hnodup⟩ := List.nodup_cons.mp hnodup
    rw [lower, h r List.mem_cons_self]
    show lower out (update p r (some n)) = _
    rw [ih hnodup (update_of_not_mem hr h), set_cons]

theorem pendingRequests_succ (hne : out ≠ []) (h : ∀ r ∈ out, p r = some (n + 1)) :
    p.pendingRequests out = (true, p) := by
  cases out with
  | nil => exact absurd rfl hne
  | cons r out => rw [pendingRequests, h r List.mem_cons_self]

theorem pendingRequests_zero (hnodup : out.Nodup) (h : ∀ r ∈ out, p r = some 0) :
    p.pendingRequests out = (false, p.set out none) := by
  induction out generalizing p with
  | nil => rw [set_nil, pendingRequests]
  | cons r out ih =>
    obtain ⟨hr, hnodup⟩ := List.nodup_cons.mp hnodup
    rw [pendingRequests, h r List.mem_cons_self]
    show pendingRequests out (update p r none) = _
    rw [ih hnodup (update_of_not_mem hr h), set_cons]

end PendingWrites

namespace Core

variable {c : Core} {w : WarpInst} {out : List Nat} {b : Bool} {n : Nat}

/-- The state with one entry in the pending writes for all registers of `out` of a warp. -/
def setPending (c : Core) (w : WarpInst) (out : List Nat) (v : Option Nat) : Core :=
  { c with pendingWrites :=
      update c.pendingWrites w.warp ((c.pendingWrites w.warp).set out v) }

theorem setPending_pendingWrites (v : Option Nat) {warp r : Nat} :
    (c.setPending w out v).pendingWrites warp r =
      if warp = w.warp ∧ r ∈ out then v else c.pendingWrites warp r := by
  by_cases hw : warp = w.warp
  · subst hw
    simp [setPending, PendingWrites.set]
  · simp [setPending, hw]

theorem setPending_nil (v : Option Nat) : c.setPending w [] v = c := by
  simp only [setPending, PendingWrites.set_nil, update_eq_self]

theorem setPending_cons (v : Option Nat) {r : Nat} :
    setPending { c with
      pendingWrites := update c.pendingWrites w.warp
        (update (c.pendingWrites w.warp) r v) } w out v = c.setPending w (r :: out) v := by
  simp only [setPending, update_self, update_idem, PendingWrites.set_cons]

theorem writeback_more (hshared : w.space ≠ .shared) (hnodup : out.Nodup)
    (h : ∀ r ∈ out, c.pendingWrites w.warp r = some (n + 2)) :
    out.foldlM (writebackRegister w) (c, b) = .ok (c.setPending w out (some (n + 1)), b) := by
  induction out generalizing c with
  | nil =>
    rw [List.foldlM_nil, setPending_nil]
    rfl
  | cons r out ih =>
    obtain ⟨hr, hnodup⟩ := List.nodup_cons.mp hnodup
    rw [List.foldlM_cons, writebackRegister, if_pos hshared, h r List.mem_cons_self]
    simp only [Nat.add_eq_zero_iff, one_ne_zero, and_false, if_false, ok_bind]
    rw [ih hnodup, setPending_cons]
    simp only [update_self]
    exact PendingWrites.update_of_not_mem hr h

theorem writeback_last (hshared : w.space ≠ .shared) (hnodup : out.Nodup)
    (h : ∀ r ∈ out, c.pendingWrites w.warp r = some 1) :
    out.foldlM (writebackRegister w) (c, b) =
      .ok ((c.setPending w out none).release w out, b || !out.isEmpty) := by
  induction out generalizing c b with
  | nil =>
    rw [List.foldlM_nil, setPending_nil, release_nil, List.isEmpty_nil, Bool.not_true, Bool.or_false]
    rfl
  | cons r out ih =>
    obtain ⟨hr, hnodup⟩ := List.nodup_cons.mp hnodup
    rw [List.foldlM_cons, writebackRegister, if_pos hshared, h r List.mem_cons_self]
    simp only [if_true, ok_bind]
    rw [ih hnodup]
    · rw [← setPending_cons, ← release_cons]
      simp only [List.isEmpty_cons, Bool.not_false, Bool.true_or, Bool.or_true]
      rfl
    · simp only [releaseRegister, update_self]
      exact PendingWrites.update_of_not_mem hr h

theorem writeback_shared (hshared : w.space = .shared) :
    out.foldlM (writebackRegister w) (c, b) = .ok (c.release w out, b || !out.isEmpty) := by
  induction out generalizing c b with
  | nil =>
    rw [List.foldlM_nil, release_nil, List.isEmpty_nil, Bool.not_true, Bool.or_false]
    rfl
  | cons r out ih =>
    rw [List.foldlM_cons, writebackRegister, if_neg (not_not.mpr hshared), ok_bind, ih, release_cons]
    simp

end Core

end GpgpuSimRuby.Shader
