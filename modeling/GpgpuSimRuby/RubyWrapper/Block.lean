import GpgpuSimRuby.RubyWrapper.Wrapper

/-!
# One block of the MSHR table

What a run does to one block, seen through all the structures a request travels through: the entry
of the table, the requests under way (in the sequencer's tables, in the callback queue, in
`m_current_response`) and the writes that skip the table. Only three things happen to a block: it
takes an access, its next ready access leaves, and a write that skipped it is done.

`BlockInv` says how the parts fit together, and every move keeps it.
-/

namespace GpgpuSimRuby.RubyWrapper

/-! ## The warps of a list of accesses -/

/-- The warp of every access, with multiplicity. -/
def warps (s : Multiset MemFetch) : Multiset Nat := s.map fun mf => mf.wid

@[simp]
theorem warps_zero : warps 0 = 0 := rfl

@[simp]
theorem warps_cons (mf : MemFetch) (s : Multiset MemFetch) : warps (mf ::ₘ s) = mf.wid ::ₘ warps s :=
  Multiset.map_cons ..

@[simp]
theorem warps_add (s t : Multiset MemFetch) : warps (s + t) = warps s + warps t :=
  Multiset.map_add ..

/-- The reads of a queue. -/
def readsOf (l : List MemFetch) : Multiset MemFetch := l.filter fun mf => !mf.modifies

/-- The writes and atomics of a queue. -/
def writesOf (l : List MemFetch) : Multiset MemFetch := l.filter fun mf => mf.modifies

section Queue

variable {mf : MemFetch} {l : List MemFetch}

@[simp]
theorem readsOf_nil : readsOf [] = 0 := rfl

@[simp]
theorem writesOf_nil : writesOf [] = 0 := rfl

theorem readsOf_cons_read (h : mf.modifies = false) : readsOf (mf :: l) = mf ::ₘ readsOf l := by
  simp [readsOf, h]

theorem readsOf_cons_write (h : mf.modifies = true) : readsOf (mf :: l) = readsOf l := by
  simp [readsOf, h]

theorem writesOf_cons_read (h : mf.modifies = false) : writesOf (mf :: l) = writesOf l := by
  simp [writesOf, h]

theorem writesOf_cons_write (h : mf.modifies = true) : writesOf (mf :: l) = mf ::ₘ writesOf l := by
  simp [writesOf, h]

theorem readsOf_concat : readsOf (l ++ [mf]) = readsOf [mf] + readsOf l := by
  rw [add_comm]
  simp [readsOf, ← Multiset.coe_add]

theorem writesOf_concat : writesOf (l ++ [mf]) = writesOf [mf] + writesOf l := by
  rw [add_comm]
  simp [writesOf, ← Multiset.coe_add]

theorem writesOf_eq_zero (h : ∀ x ∈ l, x.modifies = false) : writesOf l = 0 := by
  simp only [writesOf, Multiset.coe_eq_zero, List.filter_eq_nil_iff]
  intro x hx
  simp [h x hx]

theorem eq_nil_of_readsOf (h : ∀ x ∈ l, x.modifies = false) (h₀ : warps (readsOf l) = 0) : l = [] := by
  cases l with
  | nil => rfl
  | cons x l =>
    rw [readsOf_cons_read (h x List.mem_cons_self), warps_cons] at h₀
    exact absurd h₀ (Multiset.cons_ne_zero)

end Queue

/-! ## The view of a block -/

/-- One block as all the structures see it. `requests` are the requests of the block that are on
their way from `send_request` to `next_access`, `skips` the writes the table has been told about
that have not been written back. -/
structure BlockView where
  held : Prop
  entry : Entry
  requests : Nat
  skips : Multiset MemFetch
  accepted : List MemFetch
  returned : List MemFetch

/-- What holds of a block at any time. -/
structure BlockInv (cfg : Config) (b : RubyAddr) (v : BlockView) : Prop where
  held_iff : v.held ↔ v.entry.list ≠ [] ∨ v.entry.writeset ≠ 0
  readset : v.entry.readset = warps (readsOf v.entry.list)
  writeset : v.entry.writeset = warps (writesOf v.entry.list) + warps v.skips
  skips_stall : cfg.writesStallAtMshr = true → v.skips = 0
  reads_only : cfg.writesStallAtMshr = false → ∀ mf ∈ v.entry.list, mf.modifies = false
  requests : v.requests = if v.entry.list = [] then 0 else 1
  size : v.entry.list.length ≤ cfg.mshrSize
  block : ∀ mf ∈ v.entry.list, mf.blockAddr = b
  order : v.accepted = v.returned ++ v.entry.list

/-! ## What an entry takes -/

section Take

variable {cfg : Config} {e : Entry} {mf : MemFetch}

theorem take_readset : (e.take cfg mf.modifies mf).readset = warps (readsOf [mf]) + e.readset := by
  cases h : mf.modifies <;> simp [Entry.take, readsOf, h, warps]

theorem take_writeset : (e.take cfg mf.modifies mf).writeset = warps (writesOf [mf]) + e.writeset := by
  cases h : mf.modifies <;> simp [Entry.take, writesOf, h, warps]

theorem take_list (hmode : mf.modifies = true → cfg.writesStallAtMshr = true) :
    (e.take cfg mf.modifies mf).list = e.list ++ [mf] := by
  cases h : mf.modifies with
  | false => simp [Entry.take]
  | true => simp [Entry.take, hmode h]

theorem take_list_skip (hw : mf.modifies = true) (hmode : cfg.writesStallAtMshr = false) :
    (e.take cfg mf.modifies mf).list = e.list := by
  simp [Entry.take, hw, hmode]

end Take

/-! ## Every move keeps the invariant -/

section Moves

variable {cfg : Config} {b : RubyAddr} {v v' : BlockView}

theorem BlockInv.init : BlockInv cfg b ⟨False, {}, 0, 0, [], []⟩ where
  held_iff := by simp
  readset := rfl
  writeset := rfl
  skips_stall _ := rfl
  reads_only _ _ h := absurd h List.not_mem_nil
  requests := rfl
  size := Nat.zero_le _
  block _ h := absurd h List.not_mem_nil
  order := rfl

theorem BlockInv.queue (h : BlockInv cfg b v) {mf : MemFetch} (hb : mf.blockAddr = b)
    (hmode : mf.modifies = true → cfg.writesStallAtMshr = true)
    (hsize : v.entry.list.length < cfg.mshrSize) :
    BlockInv cfg b { v with
      held := True
      entry := v.entry.take cfg mf.modifies mf
      requests := if v.entry.list = [] then v.requests + 1 else v.requests
      accepted := v.accepted ++ [mf] } where
  held_iff := by simp [take_list hmode]
  readset := by
    show (v.entry.take cfg mf.modifies mf).readset = _
    rw [take_readset, take_list hmode, readsOf_concat, warps_add, h.readset]
  writeset := by
    show (v.entry.take cfg mf.modifies mf).writeset = _
    rw [take_writeset, take_list hmode, writesOf_concat, warps_add, h.writeset, add_assoc]
  skips_stall := h.skips_stall
  reads_only hm x hx := by
    rw [take_list hmode] at hx
    rcases List.mem_append.mp hx with hx | hx
    · exact h.reads_only hm x hx
    · obtain rfl := List.mem_singleton.mp hx
      by_contra hw
      rw [hmode (by simpa using hw)] at hm
      cases hm
  requests := by
    show (if v.entry.list = [] then v.requests + 1 else v.requests) = _
    rw [take_list hmode, h.requests]
    by_cases hl : v.entry.list = [] <;> simp [hl]
  size := by
    show (v.entry.take cfg mf.modifies mf).list.length ≤ _
    rw [take_list hmode, List.length_append]
    exact hsize
  block x hx := by
    rw [take_list hmode] at hx
    rcases List.mem_append.mp hx with hx | hx
    · exact h.block x hx
    · obtain rfl := List.mem_singleton.mp hx
      exact hb
  order := by
    show v.accepted ++ [mf] = v.returned ++ (v.entry.take cfg mf.modifies mf).list
    rw [take_list hmode, h.order, List.append_assoc]

theorem BlockInv.skip (h : BlockInv cfg b v) {mf : MemFetch} (hw : mf.modifies = true)
    (hmode : cfg.writesStallAtMshr = false) :
    BlockInv cfg b { v with
      held := True
      entry := v.entry.take cfg mf.modifies mf
      skips := mf ::ₘ v.skips } where
  held_iff := by
    simp only [take_writeset, true_iff]
    right
    rw [writesOf_cons_write hw, warps_cons, Multiset.cons_add]
    exact Multiset.cons_ne_zero
  readset := by
    show (v.entry.take cfg mf.modifies mf).readset = _
    rw [take_readset, take_list_skip hw hmode, readsOf_cons_write hw, readsOf_nil, warps_zero,
      zero_add, h.readset]
  writeset := by
    show (v.entry.take cfg mf.modifies mf).writeset = _
    rw [take_writeset, take_list_skip hw hmode, writesOf_cons_write hw, writesOf_nil, h.writeset]
    simp only [warps_cons, warps_zero, Multiset.cons_add, zero_add, Multiset.add_cons]
  skips_stall hs := by
    rw [hmode] at hs
    cases hs
  reads_only hm x hx := by
    rw [take_list_skip hw hmode] at hx
    exact h.reads_only hm x hx
  requests := by
    show v.requests = _
    rw [take_list_skip hw hmode]
    exact h.requests
  size := by
    show (v.entry.take cfg mf.modifies mf).list.length ≤ _
    rw [take_list_skip hw hmode]
    exact h.size
  block x hx := by
    rw [take_list_skip hw hmode] at hx
    exact h.block x hx
  order := by
    show v.accepted = v.returned ++ (v.entry.take cfg mf.modifies mf).list
    rw [take_list_skip hw hmode]
    exact h.order

theorem BlockInv.next (h : BlockInv cfg b v) {mf : MemFetch} {l : List MemFetch}
    (hl : v.entry.list = mf :: l) {e : Entry} (hlist : e.list = l)
    (hreads : e.readset = warps (readsOf l))
    (hwrites : e.writeset = warps (writesOf l) + warps v.skips) :
    BlockInv cfg b { v with
      held := l ≠ [] ∨ e.writeset ≠ 0
      entry := e
      requests := if l = [] then v.requests - 1 else v.requests
      returned := v.returned ++ [mf] } where
  held_iff := by rw [hlist]
  readset := by rw [hreads, hlist]
  writeset := by rw [hwrites, hlist]
  skips_stall := h.skips_stall
  reads_only hm x hx := h.reads_only hm x (by rw [hl]; exact List.mem_cons_of_mem _ (hlist ▸ hx))
  requests := by
    show (if l = [] then v.requests - 1 else v.requests) = if e.list = [] then 0 else 1
    rw [hlist, h.requests, hl]
    by_cases hn : l = [] <;> simp [hn]
  size := by
    have hs := h.size
    rw [hl, List.length_cons] at hs
    show e.list.length ≤ _
    rw [hlist]
    omega
  block x hx := h.block x (by rw [hl]; exact List.mem_cons_of_mem _ (hlist ▸ hx))
  order := by
    show v.accepted = (v.returned ++ [mf]) ++ e.list
    rw [h.order, hl, hlist, List.append_assoc, List.singleton_append]

theorem BlockInv.skipDone (h : BlockInv cfg b v) {mf : MemFetch} {skips : Multiset MemFetch}
    (hs : v.skips = mf ::ₘ skips) {e : Entry} (hlist : e.list = v.entry.list)
    (hreads : e.readset = v.entry.readset)
    (hwrites : e.writeset = warps (writesOf v.entry.list) + warps skips) :
    BlockInv cfg b { v with
      held := v.entry.list ≠ [] ∨ e.writeset ≠ 0
      entry := e
      skips := skips } where
  held_iff := by rw [hlist]
  readset := by rw [hreads, hlist, h.readset]
  writeset := by rw [hwrites, hlist]
  skips_stall hm := by
    rw [h.skips_stall hm] at hs
    exact absurd hs.symm (Multiset.cons_ne_zero)
  reads_only hm := by
    rw [hlist]
    exact h.reads_only hm
  requests := by
    rw [hlist]
    exact h.requests
  size := by
    show e.list.length ≤ _
    rw [hlist]
    exact h.size
  block := by
    rw [hlist]
    exact h.block
  order := by
    show v.accepted = v.returned ++ e.list
    rw [hlist]
    exact h.order

end Moves

end GpgpuSimRuby.RubyWrapper
