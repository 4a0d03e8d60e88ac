import GpgpuSimRuby.Memory.Requests

/-!
# The pipeline of the data

`rwq` has room for one place more than the read latency. As long as no minimal length is above the read
latency none of its assertions fails, and what is in it comes out after as many pops as it has places.
-/

namespace GpgpuSimRuby.Memory.FifoPipeline

open Library

variable {α : Type} {q q' : FifoPipeline α} {x : Option α} {n k : Nat}

/-! ## What is in a pipeline -/

theorem contents_append (nodes : List (Option α)) (x : Option α) :
    (nodes ++ [x]).filterMap id = nodes.filterMap id ++ x.toList := by
  rw [List.filterMap_append]
  cases x <;> rfl

theorem contents_dropLast {nodes : List (Option α)} (h : nodes.getLast? = some none) :
    nodes.dropLast.filterMap id = nodes.filterMap id := by
  obtain ⟨front, rfl⟩ := List.getLast?_eq_some_iff.mp h
  rw [List.dropLast_concat, contents_append, Option.toList_none, List.append_nil]

theorem push_contents (h : q.push x = .ok q') : q'.contents = q.contents ++ x.toList := by
  obtain ⟨_, -, h⟩ := bind_eq_ok.mp h
  unfold contents
  split at h
  · next hlast =>
    split at h
    · cases h
      exact contents_append _ _
    · cases h
      dsimp only
      rw [contents_append, contents_dropLast hlast]
  · cases h
    exact contents_append _ _

theorem pop_contents (h : q.pop = .ok (x, q')) : q.contents = x.toList ++ q'.contents := by
  unfold pop at h
  unfold contents
  split at h
  · next hnil =>
    cases h
    rw [hnil]
    rfl
  · next y nodes hcons =>
    obtain ⟨q₁, hrefill, h⟩ := bind_eq_ok.mp h
    cases h
    have hcontents : q'.contents = nodes.filterMap id := by
      split at hrefill
      · have hpush := push_contents hrefill
        rw [Option.toList_none, List.append_nil] at hpush
        exact hpush
      · cases hrefill
        rfl
    unfold contents at hcontents
    rw [hcontents, hcons]
    cases x <;> rfl

theorem pushNulls_contents {n : Nat} (h : pushNulls n q = .ok q') : q'.contents = q.contents := by
  induction n generalizing q with
  | zero =>
    cases h
    rfl
  | succ n ih =>
    obtain ⟨q₁, hpush, h⟩ := bind_eq_ok.mp h
    rw [ih h, push_contents hpush, Option.toList_none, List.append_nil]

theorem dropNulls_contents (n : Nat) (nodes : List (Option α)) :
    (dropNulls n nodes).filterMap id = nodes.filterMap id := by
  induction n generalizing nodes with
  | zero => rfl
  | succ n ih =>
    unfold dropNulls
    split
    · next hlast => rw [ih, contents_dropLast hlast]
    · rfl

theorem setMinLength_contents {n : Nat} (h : q.setMinLength n = .ok q') : q'.contents = q.contents := by
  unfold setMinLength at h
  split at h
  · cases h
    rfl
  · split at h
    · have hcontents := pushNulls_contents h
      exact hcontents
    · obtain ⟨_, -, h⟩ := bind_eq_ok.mp h
      cases h
      exact dropNulls_contents _ _

/-! ## Lengths -/

/-- The minimal length is at most `n`, and there are places for one more. -/
structure Fits (n : Nat) (q : FifoPipeline α) : Prop where
  max : q.maxLen = n + 1
  min : q.minLen ≤ n
  long : q.minLen ≤ q.nodes.length
  short : q.nodes.length ≤ n + 1

theorem Fits.full_eq_false (h : Fits n q) : q.full = false ↔ q.nodes.length ≤ n := by
  have hmax := h.max
  unfold full
  simp only [Bool.and_eq_false_iff, decide_eq_false_iff_not]
  omega

theorem push_length (h : q.push x = .ok q') :
    q'.minLen = q.minLen ∧ q'.maxLen = q.maxLen ∧ q.nodes.length ≤ q'.nodes.length ∧
      q'.nodes.length ≤ q.nodes.length + 1 ∧
      (q.nodes.length < q.minLen → q'.nodes.length = q.nodes.length + 1) := by
  obtain ⟨_, -, h⟩ := bind_eq_ok.mp h
  have happend : ∀ nodes : List (Option α), (nodes ++ [x]).length = nodes.length + 1 := fun nodes =>
    List.length_append
  split at h
  · next hlast =>
    obtain ⟨front, hfront⟩ := List.getLast?_eq_some_iff.mp hlast
    split at h
    · cases h
      dsimp only
      rw [happend]
      omega
    · next hlong =>
      cases h
      dsimp only
      rw [happend, List.length_dropLast, hfront, List.length_append, List.length_singleton]
      rw [hfront, List.length_append, List.length_singleton] at hlong
      omega
  · cases h
    dsimp only
    rw [happend]
    omega

theorem exists_push (x : Option α) (h : q.nodes.length < q.maxLen) : ∃ q', q.push x = .ok q' := by
  unfold push
  rw [assert_pos h, ok_bind]
  split
  · split <;> exact ⟨_, rfl⟩
  · exact ⟨_, rfl⟩

theorem Fits.push (h : Fits n q) (x : Option α) (hlen : q.nodes.length ≤ n) :
    ∃ q', q.push x = .ok q' ∧ Fits n q' := by
  obtain ⟨q', hpush⟩ := exists_push (q := q) x (by rw [h.max]; omega)
  obtain ⟨hmin, hmax, hge, hle, -⟩ := push_length hpush
  refine ⟨q', hpush, hmax.trans h.max, ?_, ?_, ?_⟩
  · rw [hmin]
    exact h.min
  · rw [hmin]
    exact h.long.trans hge
  · omega

theorem Fits.pop (h : Fits n q) : ∃ x q', q.pop = .ok (x, q') ∧ Fits n q' := by
  obtain ⟨hmax, hmin, hlong, hshort⟩ := h
  unfold FifoPipeline.pop
  split
  · exact ⟨none, q, rfl, hmax, hmin, hlong, hshort⟩
  · next x nodes hcons =>
    rw [hcons, List.length_cons] at hlong hshort
    dsimp only
    split
    · next hrefill =>
      obtain ⟨q', hpush⟩ := exists_push (q := { q with nodes }) none (by dsimp only; omega)
      obtain ⟨hmin', hmax', -, -, hone⟩ := push_length hpush
      dsimp only at hmin' hmax' hone
      have hlen := hone hrefill.2
      rw [hpush]
      refine ⟨x, q', rfl, hmax'.trans hmax, ?_, ?_, ?_⟩ <;> omega
    · next hrefill =>
      refine ⟨x, { q with nodes }, rfl, hmax, hmin, ?_, ?_⟩ <;> dsimp only <;> omega

theorem exists_pushNulls (hmax : q.minLen ≤ q.maxLen) (hlen : q.nodes.length + k = q.minLen) :
    ∃ q', pushNulls k q = .ok q' ∧ q'.minLen = q.minLen ∧ q'.maxLen = q.maxLen ∧
      q'.nodes.length = q.minLen := by
  induction k generalizing q with
  | zero => exact ⟨q, rfl, rfl, rfl, hlen⟩
  | succ k ih =>
    obtain ⟨q₁, hpush⟩ := exists_push (q := q) none (by omega)
    obtain ⟨hmin₁, hmax₁, -, -, hone⟩ := push_length hpush
    obtain ⟨q', hrest, hmin', hmax', hlen'⟩ := ih (q := q₁) (by omega) (by omega)
    refine ⟨q', ?_, hmin'.trans hmin₁, hmax'.trans hmax₁, hlen'.trans hmin₁⟩
    unfold pushNulls
    rw [hpush]
    exact hrest

theorem dropNulls_length (k : Nat) (nodes : List (Option α)) :
    (dropNulls k nodes).length ≤ nodes.length ∧ nodes.length - k ≤ (dropNulls k nodes).length := by
  induction k generalizing nodes with
  | zero => exact ⟨Nat.le_refl _, Nat.le_refl _⟩
  | succ k ih =>
    unfold dropNulls
    split
    · obtain ⟨hle, hge⟩ := ih nodes.dropLast
      rw [List.length_dropLast] at hle hge
      omega
    · omega

theorem Fits.setMinLength (h : Fits n q) (hlen : q.nodes.length ≤ n) (hk : k ≤ n) :
    ∃ q', q.setMinLength k = .ok q' ∧ Fits n q' ∧ q'.nodes.length ≤ n := by
  obtain ⟨hmax, hmin, hlong, hshort⟩ := h
  unfold FifoPipeline.setMinLength
  split
  · exact ⟨q, rfl, ⟨hmax, hmin, hlong, hshort⟩, hlen⟩
  · split
    · by_cases hgrow : q.nodes.length ≤ k
      · obtain ⟨q', hnulls, hmin', hmax', hlen'⟩ :=
          exists_pushNulls (q := { q with minLen := k }) (k := k - q.nodes.length)
            (by dsimp only; omega) (by dsimp only; omega)
        dsimp only at hmin' hmax' hlen'
        refine ⟨q', hnulls, ⟨hmax'.trans hmax, ?_, ?_, ?_⟩, ?_⟩ <;> omega
      · have hzero : k - q.nodes.length = 0 := by omega
        rw [hzero]
        refine ⟨_, rfl, ⟨hmax, hk, ?_, hshort⟩, hlen⟩
        dsimp only
        omega
    · have hne : q.nodes.isEmpty = false := by
        rw [List.isEmpty_eq_false_iff_exists_mem]
        exact List.exists_mem_of_length_pos (by omega)
      rw [assert_pos hne, ok_bind]
      obtain ⟨hle, hge⟩ := dropNulls_length (q.nodes.length - k) q.nodes
      refine ⟨_, rfl, ⟨hmax, hk, ?_, ?_⟩, ?_⟩ <;> dsimp only <;> omega

/-! ## How long it takes -/

/-- The empty places before what comes out next, or those above the minimal length. -/
def lag (q : FifoPipeline α) : Nat :=
  if q.nodes.all (·.isNone) then q.nodes.length - q.minLen else q.nodes.findIdx (·.isSome)

theorem push_none (hlen : q.nodes.length < q.minLen) (h : q.push none = .ok q') :
    q' = { q with nodes := q.nodes ++ [none] } := by
  obtain ⟨_, -, h⟩ := bind_eq_ok.mp h
  split at h
  · rw [if_pos hlen] at h
    cases h
    rfl
  · cases h
    rfl

theorem lag_cons {nodes : List (Option α)} (hcons : q.nodes = none :: nodes) :
    q.lag = if nodes.all (·.isNone) then nodes.length + 1 - q.minLen else nodes.findIdx (·.isSome) + 1 := by
  unfold lag
  rw [hcons, List.all_cons, List.length_cons, List.findIdx_cons]
  rfl

theorem Fits.pop_none (h : Fits n q) (hpop : q.pop = .ok (none, q')) :
    q'.lag = q.lag - 1 ∧ (q.lag = 0 → q.contents = [] ∧ q'.nodes.length ≤ q.minLen) := by
  obtain ⟨-, -, hlong, -⟩ := h
  unfold FifoPipeline.pop at hpop
  split at hpop
  · next hnil =>
    cases hpop
    rw [hnil] at hlong
    have hzero : q.minLen = 0 := Nat.le_zero.mp hlong
    have hlag : q.lag = 0 := by
      unfold lag
      rw [hnil]
      exact Nat.zero_sub _
    unfold contents
    rw [hlag, hnil, hzero]
    exact ⟨rfl, fun _ => ⟨rfl, Nat.le_refl _⟩⟩
  · next y nodes hcons =>
    rw [hcons, List.length_cons] at hlong
    obtain ⟨q₁, hrefill, hpop⟩ := bind_eq_ok.mp hpop
    cases hpop
    have hcontents : q.contents = nodes.filterMap id := by
      unfold contents
      rw [hcons]
      rfl
    have hempty : nodes.all (·.isNone) = true → nodes.filterMap id = [] := by
      intro hall
      rw [List.filterMap_eq_nil_iff]
      intro x hx
      exact Option.isNone_iff_eq_none.mp (List.all_eq_true.mp hall x hx)
    rw [lag_cons hcons, hcontents]
    dsimp only at hrefill
    split at hrefill
    · next hshort =>
      rw [push_none hshort.2 hrefill]
      unfold lag
      dsimp only
      rw [List.all_append, List.length_append, List.length_singleton]
      by_cases hall : nodes.all (·.isNone) = true
      · simp only [hall, if_true]
        have hfull : nodes.length + 1 - q.minLen = 0 := by omega
        exact ⟨by simp [hfull], fun _ => ⟨hempty hall, by omega⟩⟩
      · obtain ⟨x, hx, hsome⟩ : ∃ x ∈ nodes, x.isSome = true := by
          simpa [List.all_eq_true, Option.isSome_iff_ne_none] using hall
        rw [List.findIdx_append, if_pos (List.findIdx_lt_length.mpr ⟨x, hx, hsome⟩)]
        simp [hall]
    · next hlen =>
      cases hrefill
      unfold lag
      dsimp only
      by_cases hall : nodes.all (·.isNone) = true
      · simp only [hall, if_true]
        refine ⟨by omega, fun _ => ⟨hempty hall, by omega⟩⟩
      · simp [hall]

end GpgpuSimRuby.Memory.FifoPipeline
