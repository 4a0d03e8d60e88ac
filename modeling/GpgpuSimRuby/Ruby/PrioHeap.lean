import GpgpuSimRuby.Library.Heap
import GpgpuSimRuby.Library.Runs

/-!
# The priority heap

`PrioHeap` orders the events of the event queue and the messages of a buffer. Its entries stand at the
positions 1 to `currentSize` of a vector that grows as needed; `le` is the `node_less_then_eq` of the
entries.
-/

namespace GpgpuSimRuby.Ruby

open Library Function

structure PrioHeap (α : Type) where
  heap : Nat → α
  currentSize : Nat

namespace PrioHeap

variable {α : Type}

def init [Inhabited α] : PrioHeap α := ⟨fun _ => default, 0⟩

def getParent (i : Nat) : Nat := i / 2

def getLeft (i : Nat) : Nat := 2 * i

def getRight (i : Nat) : Nat := 2 * i + 1

def prioHeapSwap (heap : Nat → α) (i j : Nat) : Nat → α :=
  update (update heap j (heap i)) i (heap j)

def peekMin (h : PrioHeap α) : α := h.heap 1

def entries (h : PrioHeap α) : Multiset α := heapEntries h.heap h.currentSize

section

variable (le : α → α → Prop) [DecidableRel le]

/-- The loop of `insert`: it halves `i`, so `i` rounds are enough. -/
def insertLoop (key : α) (heap : Nat → α) : Nat → Nat → Nat → α
  | 0, i => update heap i key
  | fuel + 1, i =>
    if i > 1 ∧ le key (heap (getParent i)) then
      insertLoop key (update heap i (heap (getParent i))) fuel (getParent i)
    else
      update heap i key

def insert (h : PrioHeap α) (key : α) : PrioHeap α :=
  let size := h.currentSize + 1
  -- only the first insertion writes position 0
  let heap := if size = 1 then update h.heap 0 key else h.heap
  ⟨insertLoop le key heap size size, size⟩

/-- A comparison of `heapify`: the child `c` of an entry takes the place of `s`. -/
def lesser (h : PrioHeap α) (c s : Nat) : Nat :=
  if c ≤ h.currentSize ∧ le (h.heap c) (h.heap s) then c else s

def smallest (h : PrioHeap α) (current : Nat) : Nat :=
  h.lesser le (getRight current) (h.lesser le (getLeft current) current)

/-- The loop of `heapify`: it leaves the heap downwards, so `currentSize` rounds are enough. -/
def heapify (h : PrioHeap α) : Nat → Nat → PrioHeap α
  | 0, _ => h
  | fuel + 1, current =>
    let s := h.smallest le current
    if s = current then h else heapify ⟨prioHeapSwap h.heap current s, h.currentSize⟩ fuel s

def extractMin (h : PrioHeap α) : Except String (α × PrioHeap α) := do
  assert (h.currentSize > 0) "size() > 0"
  let size := h.currentSize - 1
  let rest : PrioHeap α := ⟨update h.heap 1 (h.heap h.currentSize), size⟩
  return (h.heap 1, rest.heapify le size 1)

/-- The source's own check of the order, from position `index` down. -/
def verifyHeap (h : PrioHeap α) : Nat → Nat → Bool
  | 0, index => index > h.currentSize
  | fuel + 1, index =>
    if index > h.currentSize then true
    else if index = 1 ∨ le (h.heap (getParent index)) (h.heap index) then
      verifyHeap h fuel (getRight index) && verifyHeap h fuel (getLeft index)
    else false

end

/-! ## What the loops do -/

theorem prioHeapSwap_eq (heap : Nat → α) (i j : Nat) : prioHeapSwap heap i j = heap ∘ Equiv.swap i j :=
  (Equiv.comp_swap_eq_update i j heap).symm

variable {le : α → α → Prop} [DecidableRel le] [Std.Total le] [IsTrans α le]
  {h h' : PrioHeap α} {a key : α} {heap : Nat → α} {n i fuel : Nat}

/-- With the key at the hole, a round of the loop of `insert` is a swap. -/
theorem update_hole (heap : Nat → α) (key : α) (hi : 1 < i) :
    update (update heap i (heap (getParent i))) (getParent i) key =
      update heap i key ∘ Equiv.swap i (i / 2) := by
  have hne : i / 2 ≠ i := by omega
  rw [Equiv.comp_swap_eq_update, update_self, update_of_ne hne]
  funext j
  unfold getParent update
  grind

theorem insertLoop_spec (hn : i ≤ n) (hf : i ≤ fuel) (h1 : 1 ≤ i)
    (h : OrderedAbove le (update heap i key) n i) :
    HeapOrdered le (insertLoop le key heap fuel i) n ∧
      heapEntries (insertLoop le key heap fuel i) n = heapEntries (update heap i key) n := by
  induction fuel generalizing heap i with
  | zero => omega
  | succ fuel ih =>
    unfold insertLoop
    split
    next hup =>
      obtain ⟨hi, hle⟩ := hup
      have hswap := update_hole heap key hi
      have hp : 1 ≤ getParent i ∧ getParent i ≤ n ∧ getParent i ≤ fuel := by
        unfold getParent
        omega
      obtain ⟨hord, hent⟩ := ih hp.2.1 hp.2.2 hp.1 (by
        rw [hswap]
        apply h.swap hi hn
        rwa [update_self, update_of_ne (by omega)])
      refine ⟨hord, hent.trans ?_⟩
      rw [hswap]
      exact heapEntries_swap ⟨h1, hn⟩ ⟨hp.1, hp.2.1⟩
    next hstop =>
      refine ⟨h.done fun hi _ => ?_, rfl⟩
      rw [update_self, update_of_ne (by omega)]
      exact (Std.Total.total _ _).resolve_left fun hle => hstop ⟨hi, hle⟩

/-- `insert` keeps the order and adds the key. -/
theorem insert_spec (key : α) (ho : HeapOrdered le h.heap h.currentSize) :
    HeapOrdered le (h.insert le key).heap (h.insert le key).currentSize ∧
      (h.insert le key).entries = key ::ₘ h.entries := by
  obtain ⟨size, hsize⟩ : ∃ size, size = h.currentSize + 1 := ⟨_, rfl⟩
  obtain ⟨heap, hheap⟩ : ∃ heap, heap = if size = 1 then update h.heap 0 key else h.heap := ⟨_, rfl⟩
  have hkeep : ∀ j, 1 ≤ j → j ≤ h.currentSize → update heap size key j = h.heap j := by
    intro j hj hjn
    rw [update_of_ne (by omega), hheap]
    split
    · rw [update_of_ne (by omega)]
    · rfl
  have habove : OrderedAbove le (update heap size key) size size := by
    constructor
    · intro j h2 hn hj
      rw [hkeep j (by omega) (by omega), hkeep (j / 2) (by omega) (by omega)]
      exact ho j h2 (by omega)
    · intro j hn hj
      omega
  obtain ⟨hord, hent⟩ := insertLoop_spec le_rfl le_rfl (by omega) habove
  have hins : h.insert le key = ⟨insertLoop le key heap size size, size⟩ := by
    rw [hheap, hsize]
    rfl
  rw [hins]
  refine ⟨hord, hent.trans ?_⟩
  rw [hsize, heapEntries_succ, ← hsize, update_self, heapEntries_congr hkeep]
  rfl

variable (le h) in
omit [IsTrans α le] in
theorem lesser_spec (c s : Nat) : (h.lesser le c s = s ∨ h.lesser le c s = c ∧ c ≤ h.currentSize) ∧
      le (h.heap (h.lesser le c s)) (h.heap s) ∧
      (c ≤ h.currentSize → le (h.heap (h.lesser le c s)) (h.heap c)) := by
  by_cases hc : c ≤ h.currentSize ∧ le (h.heap c) (h.heap s)
  · rw [lesser, if_pos hc]
    exact ⟨.inr ⟨rfl, hc.1⟩, hc.2, fun _ => refl_of le _⟩
  · rw [lesser, if_neg hc]
    refine ⟨.inl rfl, refl_of le _, fun hn => ?_⟩
    exact (Std.Total.total _ _).resolve_left fun hle => hc ⟨hn, hle⟩

variable (le h) in
/-- `smallest` is the entry itself or a child of it, and no greater than any of the three. -/
theorem smallest_spec (hi : 1 ≤ i) : (h.smallest le i = i ∨ h.smallest le i / 2 = i ∧ 2 ≤ h.smallest le i ∧
        h.smallest le i ≤ h.currentSize ∧ le (h.heap (h.smallest le i)) (h.heap i)) ∧
      ∀ j, 2 ≤ j → j ≤ h.currentSize → j / 2 = i → le (h.heap (h.smallest le i)) (h.heap j) := by
  obtain ⟨hl, hli, hll⟩ := lesser_spec le h (getLeft i) i
  obtain ⟨hr, hrl, hrr⟩ := lesser_spec le h (getRight i) (h.lesser le (getLeft i) i)
  have hle : le (h.heap (h.smallest le i)) (h.heap i) := IsTrans.trans _ _ _ hrl hli
  unfold smallest at *
  generalize h.lesser le (getRight i) _ = s at *
  constructor
  · unfold getLeft getRight at *
    rcases hr with rfl | ⟨rfl, hn⟩
    · grind
    · exact .inr ⟨by omega, by omega, hn, hle⟩
  · intro j h2 hn hj
    have hchild : j = getLeft i ∨ j = getRight i := by
      unfold getLeft getRight
      omega
    rcases hchild with rfl | rfl
    · exact IsTrans.trans _ _ _ hrl (hll hn)
    · exact hrr hn

theorem heapify_spec (hf : h.currentSize < i + fuel) (h1 : 1 ≤ i)
    (ho : OrderedBelow le h.heap h.currentSize i) :
    HeapOrdered le (h.heapify le fuel i).heap (h.heapify le fuel i).currentSize ∧
      (h.heapify le fuel i).entries = h.entries := by
  induction fuel generalizing h i with
  | zero => exact ⟨ho.done fun j _ hj hji => by omega, rfl⟩
  | succ fuel ih =>
    obtain ⟨hs, hmin⟩ := smallest_spec le h h1
    by_cases hne : h.smallest le i = i
    · rw [hne] at hmin
      simp only [heapify, if_pos hne]
      exact ⟨ho.done hmin, trivial⟩
    · simp only [heapify, if_neg hne]
      obtain ⟨hp, h2, hn, hle⟩ := hs.resolve_left hne
      obtain ⟨hord, hent⟩ := ih (h := ⟨prioHeapSwap h.heap i (h.smallest le i), h.currentSize⟩)
        (i := h.smallest le i) (show h.currentSize < _ by omega) (by omega) (by
          rw [prioHeapSwap_eq]
          exact ho.swap h2 hn hp hle hmin)
      have hi : i ≤ h.currentSize := by omega
      refine ⟨hord, hent.trans ?_⟩
      unfold entries
      rw [prioHeapSwap_eq]
      exact heapEntries_swap ⟨h1, hi⟩ ⟨by omega, hn⟩

/-- `extractMin` keeps the order, and returns a least entry. -/
theorem extractMin_spec (ho : HeapOrdered le h.heap h.currentSize) (hx : h.extractMin le = .ok (a, h')) :
    HeapOrdered le h'.heap h'.currentSize ∧ h.entries = a ::ₘ h'.entries ∧ (∀ b ∈ h.entries, le a b) ∧
      a = h.peekMin := by
  obtain ⟨_, hsize, hx⟩ := bind_eq_ok.mp hx
  have hpos := assert_eq_ok.mp hsize
  cases hx
  obtain ⟨n, hn⟩ : ∃ n, h.currentSize = n + 1 := ⟨h.currentSize - 1, by omega⟩
  have hbelow : OrderedBelow le (update h.heap 1 (h.heap h.currentSize)) n 1 := by
    constructor
    · intro j h2 hjn hj
      rw [update_of_ne hj, update_of_ne (show j ≠ 1 by omega)]
      exact ho j h2 (by omega)
    · intro j _ _ h2
      omega
  obtain ⟨hord, hent⟩ := heapify_spec
    (h := ⟨update h.heap 1 (h.heap h.currentSize), n⟩) (show n < 1 + n by omega) le_rfl hbelow
  simp only [hn, Nat.add_sub_cancel] at hord hent ⊢
  refine ⟨hord, ?_, fun b hb => ho.root_le hb, rfl⟩
  -- the last entry goes to the root, as if the two had been swapped before the last was dropped
  have hroot : h.entries = heapEntries (h.heap ∘ Equiv.swap 1 (n + 1)) (n + 1) := by
    rw [heapEntries_swap (by omega) (by omega), ← hn]
    rfl
  rw [hent, hroot, heapEntries_succ, Function.comp_apply, Equiv.swap_apply_right]
  congr 1
  apply heapEntries_congr
  intro j hj hjn
  show (h.heap ∘ Equiv.swap 1 (n + 1)) j = update h.heap 1 (h.heap (n + 1)) j
  rcases eq_or_ne j 1 with rfl | hj1
  · rw [Function.comp_apply, Equiv.swap_apply_left, update_self]
  · rw [update_of_ne hj1, comp_swap_of_ne hj1 (by omega)]

omit [Std.Total le] [IsTrans α le] in
/-- The check of the source finds no violation. -/
theorem verifyHeap_of_ordered (ho : HeapOrdered le h.heap h.currentSize) (hi : 1 ≤ i)
    (hf : h.currentSize < i + fuel) : h.verifyHeap le fuel i = true := by
  induction fuel generalizing i with
  | zero => exact decide_eq_true hf
  | succ fuel ih =>
    unfold verifyHeap
    by_cases hn : i > h.currentSize
    · rw [if_pos hn]
    have hle : i = 1 ∨ le (h.heap (getParent i)) (h.heap i) := by
      rcases Nat.lt_or_ge 1 i with h2 | h1
      · exact .inr (ho i h2 (by omega))
      · exact .inl (by omega)
    rw [if_neg hn, if_pos hle, Bool.and_eq_true]
    unfold getRight getLeft
    constructor <;> apply ih <;> omega

/-! ## Runs -/

inductive Op (α : Type) where
  | insert (key : α)
  | extractMin

/-- One operation; the entries that have been extracted are kept, the first of them first. -/
def step (le : α → α → Prop) [DecidableRel le] (s : PrioHeap α × List α) :
    Op α → Except String (PrioHeap α × List α)
  | .insert key => .ok (s.1.insert le key, s.2)
  | .extractMin => do
    let (a, h) ← s.1.extractMin le
    return (h, s.2 ++ [a])

/-- The keys that a run inserts. -/
def inserted : List (Op α) → Multiset α
  | [] => 0
  | .insert key :: ops => key ::ₘ inserted ops
  | .extractMin :: ops => inserted ops

theorem inserted_append (ops ops' : List (Op α)) : inserted (ops ++ ops') = inserted ops + inserted ops' := by
  induction ops with
  | nil => exact (Multiset.zero_add _).symm
  | cons op ops ih =>
    cases op with
    | insert key =>
      show key ::ₘ inserted (ops ++ ops') = key ::ₘ inserted ops + inserted ops'
      rw [ih, Multiset.cons_add]
    | extractMin => exact ih

theorem step_spec {s s' : PrioHeap α × List α} {op : Op α}
    (ho : HeapOrdered le s.1.heap s.1.currentSize) (hs : step le s op = .ok s') :
    HeapOrdered le s'.1.heap s'.1.currentSize ∧
      (s'.2 : Multiset α) + s'.1.entries = s.2 + s.1.entries + inserted [op] := by
  cases op with
  | insert key =>
    cases hs
    obtain ⟨hord, hent⟩ := insert_spec key ho
    refine ⟨hord, ?_⟩
    rw [hent, add_assoc]
    congr 1
    show key ::ₘ s.1.entries = s.1.entries + {key}
    rw [add_comm, Multiset.singleton_add]
  | extractMin =>
    obtain ⟨⟨a, h⟩, hx, hs⟩ := bind_eq_ok.mp hs
    cases hs
    obtain ⟨hord, hent, -⟩ := extractMin_spec ho hx
    refine ⟨hord, ?_⟩
    show ((s.2 ++ [a] : List α) : Multiset α) + h.entries = s.2 + s.1.entries + 0
    rw [hent, coe_concat, Multiset.cons_add, Multiset.add_cons, add_zero]

/-- **The heap is a priority queue.** In every run the check of the source holds, the entries are
those that went in and have not come out, and the next to come out is a least of them. -/
theorem run_isPriorityQueue [Inhabited α] {ops : List (Op α)} {out : List α}
    (hrun : exec (.ok (init, [])) (step le) ops = .ok (h, out)) :
    h.verifyHeap le h.currentSize 1 = true ∧ (out : Multiset α) + h.entries = inserted ops ∧
      ∀ a h', h.extractMin le = .ok (a, h') → h.entries = a ::ₘ h'.entries ∧ ∀ b ∈ h.entries, le a b := by
  have key : HeapOrdered le h.heap h.currentSize ∧ (out : Multiset α) + h.entries = inserted ops := by
    induction ops using List.reverseRecOn generalizing h out with
    | nil =>
      cases exec_nil hrun
      exact ⟨fun j h2 hn => absurd (h2.trans hn) (Nat.not_succ_le_zero 1), rfl⟩
    | append_singleton ops op ih =>
      obtain ⟨⟨h₁, out₁⟩, h₁run⟩ := exec_prefix hrun
      obtain ⟨hord, hent⟩ := ih h₁run
      rw [exec_concat h₁run] at hrun
      obtain ⟨hord', hent'⟩ := step_spec (s := (h₁, out₁)) hord hrun
      rw [hent] at hent'
      exact ⟨hord', hent'.trans (inserted_append ops [op]).symm⟩
  refine ⟨verifyHeap_of_ordered key.1 le_rfl (by omega), key.2, fun a h' hx => ?_⟩
  obtain ⟨-, hent, hmin, -⟩ := extractMin_spec key.1 hx
  exact ⟨hent, hmin⟩

theorem run_isPriorityQueue_three :
    ∃ h : PrioHeap Nat, h.verifyHeap (· ≤ ·) 2 1 = true ∧ ([1] : Multiset Nat) + h.entries = [3, 1, 2] := by
  have hrun : exec (.ok ((init : PrioHeap Nat), [])) (step (· ≤ ·))
      [.insert 3, .insert 1, .insert 2, .extractMin] = .ok (_, [1]) := rfl
  have h := run_isPriorityQueue hrun
  exact ⟨_, h.1, h.2.1⟩

end PrioHeap

end GpgpuSimRuby.Ruby
