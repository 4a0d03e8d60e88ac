import GpgpuSimRuby.Library.Fault

/-!
# Queues with bins

A queue whose elements are also kept in bins by a key. The queue is a linked list, the newest
element first, and a bin is a list of iterators into it, in the same order; both are named by their
addresses, so that what an iterator or a pointer to a bin leads to is looked up each time it is
followed, and may be gone.

* `WellFormed` — every bin has the iterators of the elements with its key, and there are no empty bins.
* `takeBack_ok` — following a pointer to a bin that exists takes the oldest element with its key out.
* `sum_bins` — the bins hold as many iterators as the queue has elements.
-/

namespace GpgpuSimRuby.Library

namespace BinnedQueue

/-- A node of the queue, at the address that iterators to it hold. -/
structure Node (α : Type) where
  iter : Nat
  val : α

/-- A bin, at the address that pointers to it hold. -/
structure Bin (κ : Type) where
  key : κ
  addr : Nat
  iters : List Nat

/-- Iterators and pointers that lead nowhere. -/
inductive Fault where
  | dangling | emptyBin | lostIterator
  deriving DecidableEq, Repr

end BinnedQueue

open BinnedQueue in
structure BinnedQueue (α κ : Type) where
  nodes : List (Node α) := []
  bins : List (Bin κ) := []

namespace BinnedQueue

variable {α κ : Type} [DecidableEq κ] (key : α → κ) (q : BinnedQueue α κ)

def vals : List α := q.nodes.map Node.val

/-- The bin of a key. -/
def find (k : κ) : Option (Bin κ) := q.bins.find? fun b => b.key = k

/-- What a pointer to a bin leads to. -/
def deref (p : Nat) : Option (Bin κ) := q.bins.find? fun b => b.addr = p

/-- A new element, with the addresses of its node and of its bin, if that is new. -/
def pushFront (iter addr : Nat) (x : α) : BinnedQueue α κ where
  nodes := ⟨iter, x⟩ :: q.nodes
  bins := match q.find (key x) with
    | some _ => q.bins.map fun b => if b.key = key x then { b with iters := iter :: b.iters } else b
    | none => ⟨key x, addr, [iter]⟩ :: q.bins

/-- The oldest element of the bin that a pointer leads to is taken out; a bin that is empty then is
erased by the key of the element. Tells whether it was. -/
def takeBack (p : Nat) : Except Fault (α × BinnedQueue α κ × Bool) :=
  match q.deref p with
  | none => .error .dangling
  | some b =>
    match b.iters.getLast? with
    | none => .error .emptyBin
    | some i =>
      match q.nodes.find? fun n => n.iter = i with
      | none => .error .lostIterator
      | some n =>
        let nodes := q.nodes.filter fun n => n.iter ≠ i
        let iters := b.iters.dropLast
        let bins := q.bins.map fun b => if b.addr = p then { b with iters } else b
        if iters.isEmpty then .ok (n.val, ⟨nodes, bins.filter fun b => b.key ≠ key n.val⟩, true)
        else .ok (n.val, ⟨nodes, bins⟩, false)

/-- The nodes and the bins agree, and addresses are below `fresh`. -/
structure WellFormed (fresh : Nat) : Prop where
  iters : (q.nodes.map Node.iter).Nodup
  iter_lt : ∀ n ∈ q.nodes, n.iter < fresh
  keys : (q.bins.map Bin.key).Nodup
  addrs : (q.bins.map Bin.addr).Nodup
  addr_lt : ∀ b ∈ q.bins, b.addr < fresh
  iters_eq : ∀ b ∈ q.bins, b.iters = (q.nodes.filter fun n => key n.val = b.key).map Node.iter
  ne_nil : ∀ b ∈ q.bins, b.iters ≠ []
  binned : ∀ n ∈ q.nodes, ∃ b ∈ q.bins, b.key = key n.val

variable {key q} {fresh : Nat} {k : κ}
  {b b' : Bin κ} {x : α} {iters : List Nat}

theorem wellFormed_empty : WellFormed key ({} : BinnedQueue α κ) fresh where
  iters := List.nodup_nil
  iter_lt n hn := by cases hn
  keys := List.nodup_nil
  addrs := List.nodup_nil
  addr_lt b hb := by cases hb
  iters_eq b hb := by cases hb
  ne_nil b hb := by cases hb
  binned n hn := by cases hn

theorem WellFormed.mono (h : WellFormed key q fresh) {fresh' : Nat} (hle : fresh ≤ fresh') :
    WellFormed key q fresh' :=
  { h with
    iter_lt := fun n hn => (h.iter_lt n hn).trans_le hle
    addr_lt := fun b hb => (h.addr_lt b hb).trans_le hle }

/-! ## Looking up -/

theorem WellFormed.eq_of_key (h : WellFormed key q fresh) (hb : b ∈ q.bins) (hb' : b' ∈ q.bins)
    (heq : b.key = b'.key) : b = b' :=
  List.inj_on_of_nodup_map h.keys hb hb' heq

theorem WellFormed.eq_of_addr (h : WellFormed key q fresh) (hb : b ∈ q.bins) (hb' : b' ∈ q.bins)
    (heq : b.addr = b'.addr) : b = b' :=
  List.inj_on_of_nodup_map h.addrs hb hb' heq

theorem find_eq_some (h : q.find k = some b) : b ∈ q.bins ∧ b.key = k :=
  ⟨List.mem_of_find?_eq_some h, by simpa using List.find?_some h⟩

theorem WellFormed.find_eq_none_iff (h : WellFormed key q fresh) :
    q.find k = none ↔ ∀ x ∈ q.vals, key x ≠ k := by
  unfold find
  rw [List.find?_eq_none]
  constructor
  · intro hno x hx heq
    obtain ⟨n, hn, rfl⟩ := List.mem_map.mp hx
    obtain ⟨b, hb, hkey⟩ := h.binned n hn
    exact hno b hb (by simp [hkey, heq])
  · intro hno b hb heq
    have hkey : b.key = k := by simpa using heq
    have hne := h.ne_nil b hb
    rw [h.iters_eq b hb] at hne
    have hfilter : (q.nodes.filter fun n => key n.val = b.key) ≠ [] := by
      intro hnil
      rw [hnil] at hne
      exact hne rfl
    obtain ⟨n, hn⟩ := List.exists_mem_of_ne_nil _ hfilter
    obtain ⟨hmem, hn⟩ := List.mem_filter.mp hn
    apply hno n.val (List.mem_map_of_mem hmem)
    rw [← hkey]
    simpa using hn

theorem WellFormed.deref_addr (h : WellFormed key q fresh) (hb : b ∈ q.bins) : q.deref b.addr = some b := by
  unfold deref
  cases hf : q.bins.find? fun b' => b'.addr = b.addr with
  | none =>
    rw [List.find?_eq_none] at hf
    exact absurd (by simp) (hf b hb)
  | some b' =>
    have haddr : b'.addr = b.addr := by simpa using List.find?_some hf
    rw [h.eq_of_addr (List.mem_of_find?_eq_some hf) hb haddr]

/-! ## A new element -/

theorem WellFormed.pushFront (h : WellFormed key q fresh) (x : α) :
    WellFormed key (q.pushFront key fresh fresh x) (fresh + 1) := by
  have hnodes : ((⟨fresh, x⟩ :: q.nodes).map Node.iter).Nodup := by
    rw [List.map_cons, List.nodup_cons]
    refine ⟨?_, h.iters⟩
    intro hmem
    obtain ⟨n, hn, heq⟩ := List.mem_map.mp hmem
    exact absurd heq (h.iter_lt n hn).ne
  have hnodes_lt : ∀ n ∈ (⟨fresh, x⟩ :: q.nodes : List (Node α)), n.iter < fresh + 1 := by
    intro n hn
    rcases List.mem_cons.mp hn with rfl | hn
    · exact Nat.lt_succ_self _
    · exact (h.iter_lt n hn).trans (Nat.lt_succ_self _)
  have hother : ∀ b ∈ q.bins, b.key ≠ key x → b.iters =
      ((⟨fresh, x⟩ :: q.nodes).filter fun n : Node α => key n.val = b.key).map Node.iter := by
    intro b hb hne
    rw [List.filter_cons_of_neg (by simpa using hne.symm), ← h.iters_eq b hb]
  unfold BinnedQueue.pushFront
  cases hf : q.find (key x) with
  | some b₀ =>
    obtain ⟨hmem₀, hkey₀⟩ := find_eq_some hf
    -- the bin gets one more iterator, and the others stay
    refine ⟨hnodes, hnodes_lt, ?_, ?_, ?_, ?_, ?_, ?_⟩
    · have hkeys : (q.bins.map fun b => if b.key = key x then { b with iters := fresh :: b.iters }
          else b).map Bin.key = q.bins.map Bin.key := by
        rw [List.map_map]
        apply List.map_congr_left
        intro b _
        dsimp only [Function.comp_apply]
        split <;> rfl
      rw [hkeys]
      exact h.keys
    · have haddrs : (q.bins.map fun b => if b.key = key x then { b with iters := fresh :: b.iters }
          else b).map Bin.addr = q.bins.map Bin.addr := by
        rw [List.map_map]
        apply List.map_congr_left
        intro b _
        dsimp only [Function.comp_apply]
        split <;> rfl
      rw [haddrs]
      exact h.addrs
    · intro b' hb'
      obtain ⟨b, hb, rfl⟩ := List.mem_map.mp hb'
      have hlt := (h.addr_lt b hb).trans (Nat.lt_succ_self _)
      split
      · exact hlt
      · exact hlt
    · intro b' hb'
      obtain ⟨b, hb, rfl⟩ := List.mem_map.mp hb'
      split
      · next hkey =>
        dsimp only
        rw [List.filter_cons_of_pos (by simpa using hkey.symm), List.map_cons, ← h.iters_eq b hb]
      · next hkey => exact hother b hb hkey
    · intro b' hb'
      obtain ⟨b, hb, rfl⟩ := List.mem_map.mp hb'
      split
      · exact List.cons_ne_nil _ _
      · exact h.ne_nil b hb
    · have hbin : ∀ b ∈ q.bins, ∃ b' ∈ q.bins.map fun b =>
          if b.key = key x then { b with iters := fresh :: b.iters } else b, b'.key = b.key := by
        intro b hb
        refine ⟨_, List.mem_map_of_mem hb, ?_⟩
        split <;> rfl
      intro n hn
      rcases List.mem_cons.mp hn with rfl | hn
      · obtain ⟨b', hb', hkey⟩ := hbin b₀ hmem₀
        exact ⟨b', hb', hkey.trans hkey₀⟩
      · obtain ⟨b, hb, hkey⟩ := h.binned n hn
        obtain ⟨b', hb', hkey'⟩ := hbin b hb
        exact ⟨b', hb', hkey'.trans hkey⟩
  | none =>
    have hno := h.find_eq_none_iff.mp hf
    have hkeys : ∀ b ∈ q.bins, b.key ≠ key x := by
      intro b hb heq
      unfold find at hf
      exact List.find?_eq_none.mp hf b hb (by simpa using heq)
    refine ⟨hnodes, hnodes_lt, ?_, ?_, ?_, ?_, ?_, ?_⟩
    · rw [List.map_cons, List.nodup_cons]
      refine ⟨?_, h.keys⟩
      intro hmem
      obtain ⟨b, hb, heq⟩ := List.mem_map.mp hmem
      exact hkeys b hb heq
    · rw [List.map_cons, List.nodup_cons]
      refine ⟨?_, h.addrs⟩
      intro hmem
      obtain ⟨b, hb, heq⟩ := List.mem_map.mp hmem
      exact absurd heq (h.addr_lt b hb).ne
    · intro b hb
      rcases List.mem_cons.mp hb with rfl | hb
      · exact Nat.lt_succ_self _
      · exact (h.addr_lt b hb).trans (Nat.lt_succ_self _)
    · intro b hb
      rcases List.mem_cons.mp hb with rfl | hb
      · have hnone : (q.nodes.filter fun n => key n.val = key x) = [] := by
          rw [List.filter_eq_nil_iff]
          intro n hn heq
          exact hno n.val (List.mem_map_of_mem hn) (by simpa using heq)
        rw [List.filter_cons_of_pos (by simp), hnone]
        rfl
      · exact hother b hb (hkeys b hb)
    · intro b hb
      rcases List.mem_cons.mp hb with rfl | hb
      · exact List.cons_ne_nil _ _
      · exact h.ne_nil b hb
    · intro n hn
      rcases List.mem_cons.mp hn with rfl | hn
      · exact ⟨_, List.mem_cons_self, rfl⟩
      · obtain ⟨b, hb, hkey⟩ := h.binned n hn
        exact ⟨b, List.mem_cons_of_mem _ hb, hkey⟩

theorem exists_bin_pushFront (iter addr : Nat) (x : α) (hb : b ∈ q.bins) :
    ∃ b' ∈ (q.pushFront key iter addr x).bins, b'.addr = b.addr ∧ b'.key = b.key := by
  unfold BinnedQueue.pushFront
  cases q.find (key x) with
  | some _ =>
    refine ⟨_, List.mem_map_of_mem hb, ?_⟩
    split <;> exact ⟨rfl, rfl⟩
  | none => exact ⟨b, List.mem_cons_of_mem _ hb, rfl, rfl⟩

/-! ## The oldest element of a bin -/

variable {β : Type} {newer older : List (Node α)} {bins : List (Bin κ)} {p : Nat}

theorem exists_last {p : β → Bool} {l : List β} (h : l.filter p ≠ []) :
    ∃ l₁ y l₂, l = l₁ ++ y :: l₂ ∧ p y ∧ ∀ z ∈ l₂, ¬ p z := by
  induction l with
  | nil => exact absurd rfl h
  | cons a l ih =>
    by_cases hl : l.filter p = []
    · have ha : p a := by
        by_contra ha
        rw [List.filter_cons_of_neg ha] at h
        exact h hl
      exact ⟨[], a, l, rfl, ha, List.filter_eq_nil_iff.mp hl⟩
    · obtain ⟨l₁, y, l₂, rfl, hy, hl₂⟩ := ih hl
      exact ⟨a :: l₁, y, l₂, rfl, hy, hl₂⟩

/-- The oldest element with a key, and what is left without it. -/
structure Oldest (key : α → κ) (k : κ) (nodes : List (Node α)) (n : Node α) (rest : List (Node α)) :
    Prop where
  intro ::
  key_eq : key n.val = k
  split : ∃ newer older, nodes = newer ++ n :: older ∧ rest = newer ++ older ∧
    ∀ m ∈ older, key m.val ≠ k

variable {n : Node α}

theorem Oldest.find? {nodes rest : List (Node α)} (h : Oldest key k nodes n rest) :
    ((nodes.map Node.val).reverse.find? fun x => key x = k) = some n.val := by
  obtain ⟨hkey, newer, older, rfl, -, holder⟩ := h
  rw [List.map_append, List.map_cons, List.reverse_append, List.reverse_cons, List.append_assoc,
    List.find?_append]
  have hnone : ((older.map Node.val).reverse.find? fun x => key x = k) = none := by
    rw [List.find?_eq_none]
    intro x hx
    obtain ⟨m, hm, rfl⟩ := List.mem_map.mp (List.mem_reverse.mp hx)
    simpa using holder m hm
  rw [hnone]
  simp [hkey]

omit [DecidableEq κ] in
theorem Oldest.vals {nodes rest : List (Node α)} (h : Oldest key k nodes n rest) :
    ∃ newer older, nodes.map Node.val = newer ++ n.val :: older ∧ rest.map Node.val = newer ++ older ∧
      ∀ x ∈ older, key x ≠ k := by
  obtain ⟨-, newer, older, rfl, rfl, holder⟩ := h
  refine ⟨newer.map Node.val, older.map Node.val, ?_, ?_, ?_⟩
  · rw [List.map_append, List.map_cons]
  · rw [List.map_append]
  · intro x hx
    obtain ⟨m, hm, rfl⟩ := List.mem_map.mp hx
    exact holder m hm

theorem WellFormed.filter_iter (h : WellFormed key q fresh)
    (hq : q.nodes = newer ++ n :: older) :
    (q.nodes.filter fun m => m.iter ≠ n.iter) = newer ++ older ∧
      q.nodes.find? (fun m => m.iter = n.iter) = some n := by
  have hnodup := h.iters
  rw [hq, List.map_append, List.map_cons, List.nodup_append, List.nodup_cons] at hnodup
  obtain ⟨-, ⟨hold, -⟩, hnew⟩ := hnodup
  have hne : ∀ m ∈ newer, m.iter ≠ n.iter := fun m hm =>
    hnew _ (List.mem_map_of_mem hm) _ List.mem_cons_self
  have hne' : ∀ m ∈ older, m.iter ≠ n.iter := by
    intro m hm heq
    exact hold (heq ▸ List.mem_map_of_mem hm)
  constructor
  · rw [hq, List.filter_append, List.filter_cons_of_neg (by simp),
      List.filter_eq_self.mpr (fun m hm => by simpa using hne m hm),
      List.filter_eq_self.mpr (fun m hm => by simpa using hne' m hm)]
  · rw [hq, List.find?_append, List.find?_eq_none.mpr (fun m hm => by simpa using hne m hm)]
    simp

/-- The bins when those at an address have other iterators, and empty bins are erased. -/
def shrink (bins : List (Bin κ)) (p : Nat) (iters : List Nat) : List (Bin κ) :=
  (bins.map fun b => if b.addr = p then { b with iters } else b).filter fun b => b.iters ≠ []

omit [DecidableEq κ] in
theorem mem_shrink (h : b' ∈ shrink bins p iters) :
    b'.iters ≠ [] ∧ ∃ b ∈ bins, b' = if b.addr = p then { b with iters } else b := by
  obtain ⟨hmem, hne⟩ := List.mem_filter.mp h
  obtain ⟨b, hb, rfl⟩ := List.mem_map.mp hmem
  exact ⟨by simpa using hne, b, hb, rfl⟩

omit [DecidableEq κ] in
theorem map_shrink_sublist
    (f : Bin κ → β) (hf : ∀ b : Bin κ, f { b with iters } = f b) :
    ((shrink bins p iters).map f).Sublist (bins.map f) := by
  have hmap : (bins.map fun b => if b.addr = p then { b with iters } else b).map f = bins.map f := by
    rw [List.map_map]
    apply List.map_congr_left
    intro b _
    dsimp only [Function.comp_apply]
    split
    · exact hf b
    · rfl
  rw [← hmap]
  exact List.filter_sublist.map f

theorem WellFormed.shrink (h : WellFormed key q fresh) (hb : b ∈ q.bins)
    (hq : q.nodes = newer ++ n :: older) (hn : key n.val = b.key)
    (hiters : iters = ((newer ++ older).filter fun m => key m.val = b.key).map Node.iter) :
    WellFormed key ⟨newer ++ older, BinnedQueue.shrink q.bins b.addr iters⟩ fresh := by
  have hsub : (newer ++ older).Sublist q.nodes := by
    rw [hq]
    exact (List.sublist_cons_self _ _).append_left _
  -- the iterators of the other bins lead to other elements
  have hother : ∀ b' ∈ q.bins, b'.addr ≠ b.addr →
      b'.iters = ((newer ++ older).filter fun m => key m.val = b'.key).map Node.iter := by
    intro b' hb' hne
    have hkey : key n.val ≠ b'.key := by
      intro heq
      exact hne (congrArg Bin.addr (h.eq_of_key hb' hb (heq.symm.trans hn)))
    rw [h.iters_eq b' hb', hq, List.filter_append, List.filter_append,
      List.filter_cons_of_neg (by simpa using hkey)]
  refine ⟨?_, ?_, ?_, ?_, ?_, ?_, ?_, ?_⟩
  · exact h.iters.sublist (hsub.map _)
  · intro m hm
    exact h.iter_lt m (hsub.subset hm)
  · exact h.keys.sublist (map_shrink_sublist _ fun _ => rfl)
  · exact h.addrs.sublist (map_shrink_sublist _ fun _ => rfl)
  · intro b' hb'
    obtain ⟨-, b₀, hb₀, rfl⟩ := mem_shrink hb'
    have hlt := h.addr_lt b₀ hb₀
    split
    · exact hlt
    · exact hlt
  · intro b' hb'
    obtain ⟨-, b₀, hb₀, rfl⟩ := mem_shrink hb'
    split
    · next haddr =>
      obtain rfl := h.eq_of_addr hb₀ hb haddr
      exact hiters
    · next haddr => exact hother b₀ hb₀ haddr
  · intro b' hb'
    exact (mem_shrink hb').1
  · intro m hm
    obtain ⟨b₀, hb₀, hkey⟩ := h.binned m (hsub.subset hm)
    refine ⟨if b₀.addr = b.addr then { b₀ with iters } else b₀, ?_, ?_⟩
    · apply List.mem_filter.mpr
      refine ⟨List.mem_map_of_mem hb₀, ?_⟩
      split
      · next haddr =>
        obtain rfl := h.eq_of_addr hb₀ hb haddr
        have hmem : m.iter ∈ iters := by
          rw [hiters]
          exact List.mem_map_of_mem (List.mem_filter.mpr ⟨hm, by simpa using hkey.symm⟩)
        simpa using List.ne_nil_of_mem hmem
      · simpa using h.ne_nil b₀ hb₀
    · split <;> exact hkey

theorem WellFormed.erase_key (h : WellFormed key q fresh) (hb : b ∈ q.bins)
    (hn : key n.val = b.key) (hempty : iters = []) :
    ((q.bins.map fun b' => if b'.addr = b.addr then { b' with iters } else b').filter
      fun b' => b'.key ≠ key n.val) = BinnedQueue.shrink q.bins b.addr iters := by
  apply List.filter_congr
  intro b' hb'
  obtain ⟨b₀, hb₀, rfl⟩ := List.mem_map.mp hb'
  split
  · next haddr =>
    obtain rfl := h.eq_of_addr hb₀ hb haddr
    simp [hn, hempty]
  · next haddr =>
    have hkey : b₀.key ≠ key n.val := by
      intro heq
      exact haddr (congrArg Bin.addr (h.eq_of_key hb₀ hb (heq.trans hn)))
    simp [hkey, h.ne_nil b₀ hb₀]

/-- **A pointer to a bin** that exists takes the oldest element with its key out of the queue, and
the bin is still there unless this was the last one. -/
theorem WellFormed.takeBack_ok (h : WellFormed key q fresh) (hb : b ∈ q.bins) :
    ∃ n q' erased, q.takeBack key b.addr = .ok (n.val, q', erased) ∧ WellFormed key q' fresh ∧
      Oldest key b.key q.nodes n q'.nodes ∧ (erased ↔ ∀ m ∈ q'.nodes, key m.val ≠ b.key) ∧
      (erased = false → ∃ b' ∈ q'.bins, b'.addr = b.addr ∧ b'.key = b.key) := by
  have hfilter : (q.nodes.filter fun n => key n.val = b.key) ≠ [] := by
    intro hnil
    have hne := h.ne_nil b hb
    rw [h.iters_eq b hb, hnil] at hne
    exact hne rfl
  obtain ⟨newer, n, older, hq, hn, holder⟩ := exists_last hfilter
  have hn : key n.val = b.key := by simpa using hn
  have holder : ∀ m ∈ older, key m.val ≠ b.key := fun m hm => by simpa using holder m hm
  have hnil : (older.filter fun m => key m.val = b.key) = [] := by
    rw [List.filter_eq_nil_iff]
    intro m hm
    simpa using holder m hm
  have hiters : b.iters = (newer.filter fun m => key m.val = b.key).map Node.iter ++ [n.iter] := by
    rw [h.iters_eq b hb, hq, List.filter_append, List.filter_cons_of_pos (by simpa using hn), hnil,
      List.map_append]
    rfl
  have hdrop : b.iters.dropLast =
      ((newer ++ older).filter fun m => key m.val = b.key).map Node.iter := by
    rw [hiters, List.dropLast_concat, List.filter_append, hnil, List.append_nil]
  have hleft : b.iters.dropLast = [] ↔ ∀ m ∈ newer ++ older, key m.val ≠ b.key := by
    rw [hdrop, List.map_eq_nil_iff, List.filter_eq_nil_iff]
    simp
  have hlast : b.iters.getLast? = some n.iter := by rw [hiters, List.getLast?_concat]
  obtain ⟨hnodes, hfind⟩ := h.filter_iter hq
  have hwf := h.shrink hb hq hn hdrop
  have hold : ∀ rest, rest = newer ++ older → Oldest key b.key q.nodes n rest :=
    fun rest hrest => ⟨hn, newer, older, hq, hrest, holder⟩
  unfold takeBack
  rw [h.deref_addr hb]
  simp only [hlast, hfind, hnodes]
  by_cases hempty : b.iters.dropLast = []
  · have hbins := h.erase_key hb hn hempty
    refine ⟨n, _, true, ?_, hwf, hold _ rfl, ?_, ?_⟩
    · rw [if_pos (by simpa using hempty), hbins]
    · exact ⟨fun _ => hleft.mp hempty, fun _ => rfl⟩
    · intro hf
      cases hf
  · have hbins : (q.bins.map fun b' => if b'.addr = b.addr then
        { b' with iters := b.iters.dropLast } else b') =
        BinnedQueue.shrink q.bins b.addr b.iters.dropLast := by
      symm
      apply List.filter_eq_self.mpr
      intro b' hb'
      obtain ⟨b₀, hb₀, rfl⟩ := List.mem_map.mp hb'
      split
      · simpa using hempty
      · simpa using h.ne_nil b₀ hb₀
    refine ⟨n, _, false, ?_, hwf, hold _ rfl, ?_, ?_⟩
    · rw [if_neg (by simpa using hempty), hbins]
    · constructor
      · intro hf
        cases hf
      · intro hno
        exact absurd (hleft.mpr hno) hempty
    · intro _
      rw [← hbins]
      refine ⟨_, List.mem_map_of_mem hb, ?_, ?_⟩ <;> rw [if_pos rfl]

/-! ## Counting -/

theorem sum_filter_key {ks : List κ} (hks : ks.Nodup) {l : List α} (hl : ∀ x ∈ l, key x ∈ ks) :
    (ks.map fun k => (l.filter fun x => key x = k).length).sum = l.length := by
  induction l with
  | nil => simp
  | cons x l ih =>
    have hone : ∀ k, ((x :: l).filter fun y => key y = k).length =
        (l.filter fun y => key y = k).length + if k = key x then 1 else 0 := by
      intro k
      by_cases heq : key x = k
      · subst heq
        rw [List.filter_cons_of_pos (by simp), if_pos rfl, List.length_cons]
      · rw [List.filter_cons_of_neg (by simpa using heq), if_neg (Ne.symm heq), Nat.add_zero]
    have hcount : (ks.map fun k => if k = key x then 1 else 0).sum = 1 := by
      have hmem := hl x List.mem_cons_self
      rw [List.sum_map_eq_nsmul_single (key x) _ fun k hne _ => if_neg hne,
        List.count_eq_one_of_mem hks hmem]
      simp
    simp only [hone, List.sum_map_add, hcount]
    rw [ih fun y hy => hl y (List.mem_cons_of_mem _ hy), List.length_cons]

/-- **The bins** hold as many iterators as the queue has elements. -/
theorem WellFormed.sum_bins (h : WellFormed key q fresh) :
    (q.bins.map fun b => b.iters.length).sum = q.nodes.length := by
  have hkeys : ∀ n ∈ q.nodes, key n.val ∈ q.bins.map Bin.key := by
    intro n hn
    obtain ⟨b, hb, hkey⟩ := h.binned n hn
    exact List.mem_map.mpr ⟨b, hb, hkey⟩
  rw [← sum_filter_key h.keys hkeys, List.map_map]
  congr 1
  apply List.map_congr_left
  intro b hb
  rw [h.iters_eq b hb, List.length_map]
  rfl

end BinnedQueue

end GpgpuSimRuby.Library
