import GpgpuSimRuby.Library.Fault

/-!
# Sorted maps

A map as the list of its entries in the order of their keys. `alter` is an access through
`operator[]`: a key that is missing gets a default first. Loops that sort things into the map by a
key put together, under each key, what the things with this key say (`find?_gather`).
-/

namespace GpgpuSimRuby.Library

structure SortedMap (κ α : Type) [LinearOrder κ] where
  entries : List (κ × α)
  sorted : entries.Pairwise fun p q => p.1 < q.1

namespace SortedMap

variable {κ α β : Type} [LinearOrder κ]

def empty : SortedMap κ α := ⟨[], .nil⟩

/-- Apply `f` to the value at `k`, or add `f d` in its place. -/
def alterEntries (k : κ) (d : α) (f : α → α) : List (κ × α) → List (κ × α)
  | [] => [(k, f d)]
  | (k', x) :: rest =>
    if k < k' then (k, f d) :: (k', x) :: rest
    else if k = k' then (k, f x) :: rest
    else (k', x) :: alterEntries k d f rest

section Entries

variable {k k' : κ} {d x : α} {f : α → α} {l : List (κ × α)} {p : κ × α}

theorem fst_of_mem_alterEntries (h : p ∈ alterEntries k d f l) : p.1 = k ∨ p ∈ l := by
  induction l with
  | nil =>
    rw [alterEntries, List.mem_singleton] at h
    exact .inl (congrArg Prod.fst h)
  | cons q l ih =>
    obtain ⟨k', x⟩ := q
    unfold alterEntries at h
    split_ifs at h with hlt heq
    · rcases List.mem_cons.mp h with rfl | h
      · exact .inl rfl
      · exact .inr h
    · rcases List.mem_cons.mp h with rfl | h
      · exact .inl rfl
      · exact .inr (List.mem_cons_of_mem _ h)
    · rcases List.mem_cons.mp h with rfl | h
      · exact .inr List.mem_cons_self
      · exact (ih h).imp_right (List.mem_cons_of_mem _)

theorem sorted_alterEntries (h : l.Pairwise fun p q => p.1 < q.1) :
    (alterEntries k d f l).Pairwise fun p q => p.1 < q.1 := by
  induction l with
  | nil => exact List.pairwise_singleton _ _
  | cons q l ih =>
    obtain ⟨k', x⟩ := q
    obtain ⟨hhead, htail⟩ := List.pairwise_cons.mp h
    unfold alterEntries
    split_ifs with hlt heq
    · apply List.Pairwise.cons _ h
      intro r hr
      rcases List.mem_cons.mp hr with rfl | hr
      · exact hlt
      · exact hlt.trans (hhead r hr)
    · subst heq
      exact .cons hhead htail
    · apply List.Pairwise.cons _ (ih htail)
      intro r hr
      rcases fst_of_mem_alterEntries hr with heq' | hr
      · rw [heq']
        exact lt_of_le_of_ne (not_lt.mp hlt) (Ne.symm heq)
      · exact hhead r hr

end Entries

def alter (m : SortedMap κ α) (k : κ) (d : α) (f : α → α) : SortedMap κ α :=
  ⟨alterEntries k d f m.entries, sorted_alterEntries m.sorted⟩

def find? (m : SortedMap κ α) (k : κ) : Option α := m.entries.lookup k

variable {m : SortedMap κ α} {k k' : κ} {d x : α} {f : α → α}

/-! ## Lookup -/

theorem lookup_cons_self {l : List (κ × α)} : ((k, x) :: l).lookup k = some x := by
  rw [List.lookup_cons, show (k == k) = true from beq_self_eq_true k]

theorem lookup_cons_of_ne {l : List (κ × α)} (h : k ≠ k') : ((k', x) :: l).lookup k = l.lookup k := by
  rw [List.lookup_cons, show (k == k') = false from beq_eq_false_iff_ne.mpr h]

theorem lookup_eq_some_iff {l : List (κ × α)} (h : l.Pairwise fun p q => p.1 < q.1) :
    l.lookup k = some x ↔ (k, x) ∈ l := by
  induction l with
  | nil => simp
  | cons q l ih =>
    obtain ⟨k', y⟩ := q
    obtain ⟨hhead, htail⟩ := List.pairwise_cons.mp h
    by_cases heq : k = k'
    · subst heq
      have hnot : (k, x) ∉ l := fun hmem => lt_irrefl k (hhead _ hmem)
      rw [lookup_cons_self, List.mem_cons, or_iff_left hnot, Option.some_inj, Prod.mk.injEq, eq_comm]
      exact (and_iff_right rfl).symm
    · rw [lookup_cons_of_ne heq, ih htail, List.mem_cons, or_iff_right]
      intro hpair
      exact heq (congrArg Prod.fst hpair)

theorem lookup_eq_none {l : List (κ × α)} (h : ∀ p ∈ l, k < p.1) : l.lookup k = none := by
  induction l with
  | nil => rfl
  | cons q l ih =>
    obtain ⟨hhead, htail⟩ := List.forall_mem_cons.mp h
    rw [lookup_cons_of_ne hhead.ne, ih htail]

/-- Lookup finds the entries. -/
theorem find?_eq_some_iff : m.find? k = some x ↔ (k, x) ∈ m.entries := lookup_eq_some_iff m.sorted

@[simp]
theorem find?_empty : (empty : SortedMap κ α).find? k = none := rfl

/-- Only the value at `k` changes. -/
theorem lookup_alterEntries {l : List (κ × α)} (h : l.Pairwise fun p q => p.1 < q.1) :
    (alterEntries k d f l).lookup k' = if k' = k then some (f ((l.lookup k).getD d)) else l.lookup k' := by
  induction l with
  | nil =>
    unfold alterEntries
    split_ifs with heq
    · rw [heq, lookup_cons_self]
      rfl
    · rw [lookup_cons_of_ne heq]
  | cons q l ih =>
    obtain ⟨k'', y⟩ := q
    obtain ⟨hhead, htail⟩ := List.pairwise_cons.mp h
    unfold alterEntries
    by_cases hlt : k < k''
    · have hnone : ((k'', y) :: l).lookup k = none := by
        apply lookup_eq_none
        intro r hr
        rcases List.mem_cons.mp hr with rfl | hr
        · exact hlt
        · exact hlt.trans (hhead r hr)
      rw [if_pos hlt, hnone]
      split_ifs with heq
      · rw [heq, lookup_cons_self]
        rfl
      · rw [lookup_cons_of_ne heq]
    rw [if_neg hlt]
    by_cases hkey : k = k''
    · subst hkey
      rw [if_pos rfl, lookup_cons_self]
      split_ifs with heq
      · rw [heq, lookup_cons_self]
        rfl
      · rw [lookup_cons_of_ne heq, lookup_cons_of_ne heq]
    · rw [if_neg hkey, lookup_cons_of_ne hkey]
      by_cases heq : k' = k''
      · subst heq
        rw [lookup_cons_self, lookup_cons_self, if_neg (Ne.symm hkey)]
      · rw [lookup_cons_of_ne heq, lookup_cons_of_ne heq, ih htail]

theorem find?_alter :
    (m.alter k d f).find? k' = if k' = k then some (f ((m.find? k).getD d)) else m.find? k' :=
  lookup_alterEntries m.sorted

/-! ## Insertion and removal -/

def insert (m : SortedMap κ α) (k : κ) (x : α) : SortedMap κ α := m.alter k x fun _ => x

def erase (m : SortedMap κ α) (k : κ) : SortedMap κ α :=
  ⟨m.entries.filter fun p => p.1 ≠ k, m.sorted.filter _⟩

theorem find?_insert : (m.insert k x).find? k' = if k' = k then some x else m.find? k' := find?_alter

theorem find?_erase : (m.erase k).find? k' = if k' = k then none else m.find? k' := by
  apply Option.ext
  intro x
  rw [find?_eq_some_iff, erase, List.mem_filter, ← find?_eq_some_iff]
  by_cases hk : k' = k
  · simp [hk]
  · simp [hk]

theorem erase_of_none (h : m.find? k = none) : m.erase k = m := by
  have hkeep : (m.entries.filter fun p => p.1 ≠ k) = m.entries := by
    apply List.filter_eq_self.mpr
    intro p hp
    apply decide_eq_true
    rintro rfl
    cases h.symm.trans (find?_eq_some_iff.mpr hp)
  unfold erase
  congr 1

/-- A map with keys below `n` has at most `n` entries. -/
theorem length_le {m : SortedMap ℕ α} {n : ℕ} (h : ∀ k x, m.find? k = some x → k < n) :
    m.entries.length ≤ n := by
  have hnodup : (m.entries.map Prod.fst).Nodup := by
    rw [List.nodup_iff_pairwise_ne, List.pairwise_map]
    exact m.sorted.imp fun hlt => hlt.ne
  have hsub : (m.entries.map Prod.fst).toFinset ⊆ Finset.range n := by
    intro k hk
    obtain ⟨p, hp, rfl⟩ := List.mem_map.mp (List.mem_toFinset.mp hk)
    exact Finset.mem_range.mpr (h p.1 p.2 (find?_eq_some_iff.mpr hp))
  have hcard := Finset.card_le_card hsub
  rwa [List.toFinset_card_of_nodup hnodup, List.length_map, Finset.card_range] at hcard

/-! ## Gathering -/

/-- Everything in the list is sorted into the map. -/
def gather (key : β → κ) (d : α) (f : β → α → α) (xs : List β) (m : SortedMap κ α) : SortedMap κ α :=
  xs.foldl (fun m x => m.alter (key x) d (f x)) m

/-- The value at `k` folds the elements with that key, in order. -/
theorem find?_gather (key : β → κ) (f : β → α → α) (xs : List β) :
    (gather key d f xs empty).find? k =
      if ∃ x ∈ xs, key x = k then some ((xs.filter fun x => key x = k).foldl (fun a x => f x a) d)
      else none := by
  induction xs using List.reverseRecOn with
  | nil => simp [gather]
  | append_singleton xs x ih =>
    have hlast : gather key d f (xs ++ [x]) empty = (gather key d f xs empty).alter (key x) d (f x) := by
      unfold gather
      rw [List.foldl_append]
      rfl
    rw [hlast, find?_alter, List.filter_append, List.foldl_append]
    by_cases hk : k = key x
    · subst hk
      rw [if_pos rfl, if_pos ⟨x, by simp, rfl⟩, ih]
      split_ifs with hex
      · simp
      · have hnil : (xs.filter fun y => key y = key x) = [] := by
          rw [List.filter_eq_nil_iff]
          intro y hy heq
          exact hex ⟨y, hy, of_decide_eq_true heq⟩
        simp [hnil]
    · rw [if_neg hk, ih]
      have hx : ([x].filter fun y => key y = k) = [] := by simp [Ne.symm hk]
      have hiff : (∃ y ∈ xs ++ [x], key y = k) ↔ ∃ y ∈ xs, key y = k := by
        constructor
        · rintro ⟨y, hy, heq⟩
          rcases List.mem_append.mp hy with hy | hy
          · exact ⟨y, hy, heq⟩
          · rw [List.mem_singleton] at hy
            exact absurd (hy ▸ heq).symm hk
        · rintro ⟨y, hy, heq⟩
          exact ⟨y, List.mem_append_left _ hy, heq⟩
      rw [hx, List.foldl_nil]
      simp only [hiff]

theorem mem_entries_gather {key : β → κ} {f : β → α → α} {xs : List β} {p : κ × α} :
    p ∈ (gather key d f xs empty).entries ↔ (∃ x ∈ xs, key x = p.1) ∧
      p.2 = (xs.filter fun x => key x = p.1).foldl (fun a x => f x a) d := by
  rw [show p = (p.1, p.2) from rfl, ← find?_eq_some_iff, find?_gather]
  dsimp only
  split_ifs with hex
  · rw [Option.some_inj, eq_comm]
    exact (and_iff_right hex).symm
  · constructor
    · intro h
      cases h
    · intro h
      exact absurd h.1 hex

end SortedMap

end GpgpuSimRuby.Library
