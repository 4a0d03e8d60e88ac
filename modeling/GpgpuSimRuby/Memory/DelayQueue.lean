import GpgpuSimRuby.Library.Runs

/-!
# Delay queues

`fifo_pipeline` with its two counters. The elements come out once and in the order they were put in,
and the length keeps to its maximum; but the number of elements counts the empty places of the
constructor, does not count an element that fills an empty place, and loses one for every empty
place that is popped.
-/

namespace GpgpuSimRuby.Memory.DelayQueue

open Library

/-- The assertions: about the maximal length, of `push`, `pop` and `set_min_length`. -/
inductive Fault where
  | maxLen | full | length | empty
  deriving DecidableEq, Repr

/-- The nodes from the head on; `none` is a node without data. -/
structure FifoPipeline (α : Type) where
  minLen : BitVec 32
  maxLen : BitVec 32
  length : BitVec 32
  nElement : BitVec 32
  nodes : List (Option α)
  deriving DecidableEq

namespace FifoPipeline

variable {α : Type} (q : FifoPipeline α)

/-- A new node at the tail. -/
def append (x : Option α) : FifoPipeline α :=
  { q with nodes := q.nodes ++ [x], length := q.length + 1, nElement := q.nElement + 1 }

/-- A tail without data is filled unless the queue is below its minimal length. -/
def place (x : Option α) : FifoPipeline α :=
  match q.nodes.getLast? with
  | none => q.append x
  | some tail =>
    if tail.isSome ∨ q.length < q.minLen then q.append x
    else { q with nodes := q.nodes.dropLast ++ [x] }

def push (x : Option α) : Except Fault (FifoPipeline α) := do
  assert (q.length < q.maxLen) .full
  .ok (q.place x)

/-- An empty place, which is not counted. -/
def pushNull : Except Fault (FifoPipeline α) := do
  let q ← q.push none
  .ok { q with nElement := q.nElement - 1 }

def pop : Except Fault (Option α × FifoPipeline α) :=
  match q.nodes with
  | [] => .ok (none, q)
  | data :: nodes => do
    let q := { q with nodes, length := q.length - 1, nElement := q.nElement - 1 }
    assert (q.length = 0 → nodes.isEmpty) .length
    if q.minLen ≠ 0 ∧ q.length < q.minLen then do
      let q ← q.pushNull
      .ok (data, q)
    else .ok (data, q)

/-- The loop that fills up to the minimal length. -/
def fillUp : Nat → FifoPipeline α → Except Fault (FifoPipeline α)
  | 0, q => .ok q
  | n + 1, q =>
    if q.length < q.minLen then do
      let q ← q.pushNull
      fillUp n q
    else .ok q

/-- The loop that takes empty places from the tail. The last node is popped. -/
def shrink : Nat → FifoPipeline α → Except Fault (FifoPipeline α)
  | 0, q => .ok q
  | n + 1, q =>
    if q.minLen < q.length ∧ q.nodes.getLast?.any Option.isNone then
      if q.nodes.length = 1 then do
        let (_, q) ← q.pop
        shrink n q
      else shrink n { q with nodes := q.nodes.dropLast, length := q.length - 1 }
    else .ok q

def setMinLength (newMinLen : BitVec 32) : Except Fault (FifoPipeline α) :=
  if newMinLen = q.minLen then .ok q
  else if q.minLen < newMinLen then fillUp newMinLen.toNat { q with minLen := newMinLen }
  else do
    assert (q.nodes.isEmpty = false) .empty
    shrink q.nodes.length { q with minLen := newMinLen }

/-- The places that the constructor pushes. -/
def pushNulls : Nat → FifoPipeline α → Except Fault (FifoPipeline α)
  | 0, q => .ok q
  | n + 1, q => do
    let q ← q.push none
    pushNulls n q

def new (minLen maxLen : BitVec 32) : Except Fault (FifoPipeline α) := do
  assert (maxLen ≠ 0) .maxLen
  pushNulls minLen.toNat ⟨minLen, maxLen, 0, 0, []⟩

def full : Bool := q.maxLen ≠ 0 && decide (q.maxLen ≤ q.length)

/-- The elements in the queue. -/
def contents : List α := q.nodes.filterMap id

end FifoPipeline

/-! ## Runs -/

inductive Call (α : Type) where
  | push (x : Option α)
  | pop
  | setMinLength (newMinLen : BitVec 32)

/-- The queue, with the elements that were pushed and popped. -/
structure State (α : Type) where
  q : FifoPipeline α
  pushed : List α
  popped : List α

variable {α : Type}

def State.step (s : State α) : Call α → Except Fault (State α)
  | .push x => do
    let q ← s.q.push x
    .ok ⟨q, s.pushed ++ x.toList, s.popped⟩
  | .pop => do
    let (x, q) ← s.q.pop
    .ok ⟨q, s.pushed, s.popped ++ x.toList⟩
  | .setMinLength n => do
    let q ← s.q.setMinLength n
    .ok ⟨q, s.pushed, s.popped⟩

def run (minLen maxLen : BitVec 32) (calls : List (Call α)) : Except Fault (State α) := do
  let q ← FifoPipeline.new minLen maxLen
  calls.foldlM State.step ⟨q, [], []⟩

/-! ## Places -/

namespace FifoPipeline

variable {q q' : FifoPipeline α} {x : Option α} {n : Nat}

/-- The length is that of the list, and not too large. -/
structure Counted (q : FifoPipeline α) : Prop where
  length : q.length.toNat = q.nodes.length
  le_max : q.nodes.length ≤ q.maxLen.toNat

/-- The tail has no data. -/
def emptyTail (q : FifoPipeline α) : Bool := q.nodes.getLast?.any Option.isNone

theorem emptyTail_iff : q.emptyTail = true ↔ q.nodes.getLast? = some none := by
  unfold emptyTail
  cases q.nodes.getLast? with
  | none => simp
  | some x => cases x <;> simp

/-- A push fills the tail instead of putting a node behind it. -/
def Fills (q : FifoPipeline α) : Prop := q.emptyTail = true ∧ ¬ q.length < q.minLen

instance : Decidable q.Fills := inferInstanceAs (Decidable (_ ∧ _))

theorem contents_concat (nodes : List (Option α)) (x : Option α) :
    (nodes ++ [x]).filterMap id = nodes.filterMap id ++ x.toList := by
  rw [List.filterMap_append]
  cases x <;> rfl

theorem place_of_fills (h : q.Fills) : q.place x = { q with nodes := q.nodes.dropLast ++ [x] } := by
  unfold place
  rw [emptyTail_iff.mp h.1]
  exact if_neg (by simp [h.2])

theorem place_of_not_fills (h : ¬ q.Fills) : q.place x = q.append x := by
  unfold place
  split
  · rfl
  · next tail htail =>
    rw [if_pos]
    by_contra hnot
    rw [not_or] at hnot
    apply h
    refine ⟨emptyTail_iff.mpr ?_, hnot.2⟩
    rw [htail, Option.not_isSome_iff_eq_none.mp hnot.1]

/-- What a place does: the element is behind the others, and the counters count the node if there is
a new one. -/
structure Places (q : FifoPipeline α) (x : Option α) (k : Nat) (q' : FifoPipeline α) : Prop where
  minLen : q'.minLen = q.minLen
  maxLen : q'.maxLen = q.maxLen
  contents : q'.contents = q.contents ++ x.toList
  nodes : q'.nodes.length = q.nodes.length + k
  length : q'.length = q.length + .ofNat 32 k
  nElement : q'.nElement = q.nElement + .ofNat 32 k

theorem places_of_fills (h : q.Fills) : Places q x 0 (q.place x) := by
  obtain ⟨front, hfront⟩ := List.getLast?_eq_some_iff.mp (emptyTail_iff.mp h.1)
  rw [place_of_fills h]
  refine ⟨rfl, rfl, ?_, ?_, (BitVec.add_zero _).symm, (BitVec.add_zero _).symm⟩
  · unfold FifoPipeline.contents
    dsimp only
    rw [hfront, List.dropLast_concat, contents_concat, contents_concat, Option.toList_none,
      List.append_nil]
  · dsimp only
    rw [hfront, List.dropLast_concat, List.length_append, List.length_append]
    rfl

theorem places_of_not_fills (h : ¬ q.Fills) : Places q x 1 (q.place x) := by
  rw [place_of_not_fills h]
  exact ⟨rfl, rfl, contents_concat _ _, List.length_append, rfl, rfl⟩

theorem Counted.lt_max_iff (h : Counted q) : q.length < q.maxLen ↔ q.nodes.length < q.maxLen.toNat := by
  rw [BitVec.lt_def, h.length]

theorem Counted.places {k : Nat} (h : Counted q) (hplaces : Places q x k q')
    (hlt : q.nodes.length + k ≤ q.maxLen.toNat) : Counted q' := by
  have hmax := q.maxLen.isLt
  constructor
  · rw [hplaces.length, hplaces.nodes, BitVec.toNat_add, h.length, BitVec.toNat_ofNat]
    omega
  · rw [hplaces.nodes, hplaces.maxLen]
    exact hlt

theorem push_eq_ok : q.push x = .ok q' ↔ q.length < q.maxLen ∧ q.place x = q' := by
  unfold push
  rw [bind_eq_ok]
  constructor
  · rintro ⟨_, hlt, h⟩
    cases h
    exact ⟨assert_eq_ok.mp hlt, rfl⟩
  · rintro ⟨hlt, rfl⟩
    exact ⟨(), assert_pos hlt, rfl⟩

/-- The minimal length is kept. -/
structure WellFormed (q : FifoPipeline α) : Prop extends Counted q where
  min_le : q.minLen.toNat ≤ q.nodes.length

theorem push_wellFormed (h : WellFormed q) (hpush : q.push x = .ok q') :
    WellFormed q' ∧ q'.maxLen = q.maxLen ∧ q'.contents = q.contents ++ x.toList ∧
      q'.nElement = if q.Fills then q.nElement else q.nElement + 1 := by
  obtain ⟨hlt, rfl⟩ := push_eq_ok.mp hpush
  rw [h.toCounted.lt_max_iff] at hlt
  have hmin := h.min_le
  by_cases hfills : q.Fills
  · have hplaces := places_of_fills (x := x) hfills
    rw [if_pos hfills]
    refine ⟨⟨h.toCounted.places hplaces hlt.le, ?_⟩, hplaces.maxLen, hplaces.contents,
      hplaces.nElement.trans (BitVec.add_zero _)⟩
    rw [hplaces.minLen, hplaces.nodes]
    exact hmin
  · have hplaces := places_of_not_fills (x := x) hfills
    rw [if_neg hfills]
    refine ⟨⟨h.toCounted.places hplaces hlt, ?_⟩, hplaces.maxLen, hplaces.contents, hplaces.nElement⟩
    rw [hplaces.minLen, hplaces.nodes]
    exact hmin.trans (Nat.le_succ _)

/-! ## Empty places -/

/-- More empty places: nothing else changes. -/
structure Padded (q q' : FifoPipeline α) : Prop where
  minLen : q'.minLen = q.minLen
  maxLen : q'.maxLen = q.maxLen
  contents : q'.contents = q.contents
  nElement : q'.nElement = q.nElement
  counted : Counted q'

theorem pushNull_padded (h : Counted q) (hmin : q.length < q.minLen) (hpush : q.pushNull = .ok q') :
    Padded q q' ∧ q'.nodes.length = q.nodes.length + 1 := by
  obtain ⟨q₁, hplace, hok⟩ := bind_eq_ok.mp hpush
  cases hok
  obtain ⟨hlt, rfl⟩ := push_eq_ok.mp hplace
  rw [h.lt_max_iff] at hlt
  have hplaces := places_of_not_fills (x := none) fun hfills : q.Fills => hfills.2 hmin
  have hcounted := h.places hplaces hlt
  refine ⟨⟨hplaces.minLen, hplaces.maxLen, ?_, ?_, ⟨hcounted.length, hcounted.le_max⟩⟩, hplaces.nodes⟩
  · exact hplaces.contents.trans (List.append_nil _)
  · dsimp only
    rw [hplaces.nElement]
    exact BitVec.add_sub_cancel _ _

theorem exists_pushNull (h : q.length < q.maxLen) : ∃ q', q.pushNull = .ok q' :=
  ⟨_, bind_eq_ok.mpr ⟨_, push_eq_ok.mpr ⟨h, rfl⟩, rfl⟩⟩

/-- What a pop takes, and that it leaves the rest if no place has to be added. -/
structure Popped (q : FifoPipeline α) (data : Option α) (nodes : List (Option α))
    (q' : FifoPipeline α) : Prop where
  wellFormed : WellFormed q'
  minLen : q'.minLen = q.minLen
  maxLen : q'.maxLen = q.maxLen
  contents : q.contents = data.toList ++ q'.contents
  nElement : q'.nElement = q.nElement - 1
  nodes : q.minLen = 0 → q'.nodes = nodes

/-- **A pop** takes the head. An empty place that it adds is not counted. -/
theorem pop_ok (h : WellFormed q) {data : Option α} {nodes : List (Option α)}
    (hnodes : q.nodes = data :: nodes) :
    ∃ q', q.pop = .ok (data, q') ∧ Popped q data nodes q' := by
  have hmax := q.maxLen.isLt
  have hlen := h.length
  have hle := h.le_max
  have hmin := h.min_le
  rw [hnodes, List.length_cons] at hlen hle hmin
  have hcontents : q.contents = data.toList ++ nodes.filterMap id := by
    unfold contents
    rw [hnodes]
    cases data <;> rfl
  have hlen₁ : (q.length - 1).toNat = nodes.length := by
    rw [BitVec.toNat_sub, hlen]
    simp
    omega
  have hassert : q.length - 1 = 0 → nodes.isEmpty := by
    intro hzero
    rw [hzero] at hlen₁
    rw [List.isEmpty_iff, ← List.length_eq_zero_iff, ← hlen₁]
    rfl
  have hcounted : Counted { q with nodes, length := q.length - 1, nElement := q.nElement - 1 } :=
    ⟨hlen₁, by dsimp only; omega⟩
  unfold pop
  rw [hnodes]
  dsimp only
  rw [assert_pos hassert, ok_bind]
  by_cases hrefill : q.minLen ≠ 0 ∧ q.length - 1 < q.minLen
  · rw [if_pos hrefill]
    obtain ⟨q', hpush⟩ := exists_pushNull
      (q := { q with nodes, length := q.length - 1, nElement := q.nElement - 1 })
      (hcounted.lt_max_iff.mpr (by dsimp only; omega))
    obtain ⟨hpadded, hnodes'⟩ := pushNull_padded hcounted hrefill.2 hpush
    rw [hpush, ok_bind]
    refine ⟨q', rfl, ⟨hpadded.counted, ?_⟩, hpadded.minLen, hpadded.maxLen, ?_, hpadded.nElement,
      fun hzero => absurd hzero hrefill.1⟩
    · rw [hpadded.minLen, hnodes']
      exact hmin
    · rw [hcontents, hpadded.contents]
      rfl
  · rw [if_neg hrefill]
    refine ⟨_, rfl, ⟨hcounted, ?_⟩, rfl, rfl, hcontents, rfl, fun _ => rfl⟩
    dsimp only
    rw [BitVec.lt_def, hlen₁] at hrefill
    by_contra hlt
    apply hrefill
    refine ⟨?_, by omega⟩
    intro hzero
    rw [hzero] at hlt
    exact hlt (Nat.zero_le _)

/-- **Filling up** reaches the minimal length. -/
theorem fillUp_padded (h : Counted q) (hfuel : q.minLen.toNat ≤ q.nodes.length + n)
    (hfill : fillUp n q = .ok q') : Padded q q' ∧ WellFormed q' := by
  induction n generalizing q with
  | zero =>
    cases hfill
    exact ⟨⟨rfl, rfl, rfl, rfl, h⟩, ⟨h, hfuel⟩⟩
  | succ n ih =>
    unfold fillUp at hfill
    by_cases hlt : q.length < q.minLen
    · rw [if_pos hlt] at hfill
      obtain ⟨q₁, hpush, hfill⟩ := bind_eq_ok.mp hfill
      obtain ⟨hpadded, hnodes⟩ := pushNull_padded h hlt hpush
      obtain ⟨hrest, hwf⟩ := ih hpadded.counted (by rw [hpadded.minLen, hnodes]; omega) hfill
      exact ⟨⟨hrest.minLen.trans hpadded.minLen, hrest.maxLen.trans hpadded.maxLen,
        hrest.contents.trans hpadded.contents, hrest.nElement.trans hpadded.nElement, hrest.counted⟩,
        hwf⟩
    · rw [if_neg hlt] at hfill
      cases hfill
      rw [BitVec.lt_def, h.length, not_lt] at hlt
      exact ⟨⟨rfl, rfl, rfl, rfl, h⟩, ⟨h, hlt⟩⟩

theorem exists_fillUp (n : Nat) (h : Counted q) (hle : q.minLen ≤ q.maxLen) :
    ∃ q', fillUp n q = .ok q' := by
  induction n generalizing q with
  | zero => exact ⟨q, rfl⟩
  | succ n ih =>
    unfold fillUp
    by_cases hlt : q.length < q.minLen
    · obtain ⟨q₁, hpush⟩ := exists_pushNull (Nat.lt_of_lt_of_le hlt hle : q.length < q.maxLen)
      obtain ⟨hpadded, -⟩ := pushNull_padded h hlt hpush
      obtain ⟨q', hrest⟩ := ih hpadded.counted (by rwa [hpadded.minLen, hpadded.maxLen])
      rw [if_pos hlt, hpush, ok_bind]
      exact ⟨q', hrest⟩
    · rw [if_neg hlt]
      exact ⟨q, rfl⟩

/-- All places are empty, and none of them has to stay: the last one is popped. -/
def Vanishes (minLen : BitVec 32) (nodes : List (Option α)) : Prop :=
  minLen = 0 ∧ nodes.isEmpty = false ∧ nodes.all Option.isNone

instance {minLen : BitVec 32} {nodes : List (Option α)} : Decidable (Vanishes minLen nodes) :=
  inferInstanceAs (Decidable (_ ∧ _))

theorem vanishes_concat {minLen : BitVec 32} {front : List (Option α)} (h : front ≠ []) :
    Vanishes minLen (front ++ [none]) ↔ Vanishes minLen front := by
  unfold Vanishes
  rw [List.all_append]
  simp [List.isEmpty_eq_false_iff, h]

theorem not_vanishes_nil {minLen : BitVec 32} : ¬ Vanishes minLen ([] : List (Option α)) := by
  rintro ⟨-, hne, -⟩
  cases hne

/-- **Shrinking** takes empty places only. They are not counted off, but for one that is popped. -/
theorem shrink_ok (h : WellFormed q) (hfuel : q.nodes.length ≤ n) :
    ∃ q', shrink n q = .ok q' ∧ WellFormed q' ∧
    q'.maxLen = q.maxLen ∧ q'.contents = q.contents ∧
      q'.nElement = if Vanishes q.minLen q.nodes then q.nElement - 1 else q.nElement := by
  induction n generalizing q with
  | zero =>
    refine ⟨q, rfl, h, rfl, rfl, ?_⟩
    rw [List.length_eq_zero_iff.mp (Nat.le_zero.mp hfuel), if_neg not_vanishes_nil]
  | succ n ih =>
    unfold shrink
    by_cases hlast : q.minLen < q.length ∧ q.nodes.getLast?.any Option.isNone
    · rw [if_pos hlast]
      have htail := emptyTail_iff.mp hlast.2
      obtain ⟨front, hfront⟩ := List.getLast?_eq_some_iff.mp htail
      have hlen := h.length
      have hmax := h.le_max
      have hlt := hlast.1
      rw [BitVec.lt_def, hlen] at hlt
      have hsize : q.nodes.length = front.length + 1 := by
        rw [hfront, List.length_append, List.length_singleton]
      by_cases hone : q.nodes.length = 1
      · -- only the empty place is left
        have hnodes : q.nodes = [none] := by
          rw [hfront, List.length_eq_zero_iff.mp (show front.length = 0 by omega)]
          rfl
        have hzero : q.minLen = 0 := BitVec.eq_of_toNat_eq (by show q.minLen.toNat = 0; omega)
        obtain ⟨q₁, hpop, hpopped⟩ := pop_ok h hnodes
        have hnil : q₁.nodes = [] := hpopped.nodes hzero
        obtain ⟨q', hshrink, hwf, hmax', hcontents, hcount⟩ :=
          ih hpopped.wellFormed (by rw [hnil]; exact Nat.zero_le _)
        rw [if_pos hone, hpop, ok_bind]
        refine ⟨q', hshrink, hwf, hmax'.trans hpopped.maxLen, ?_, ?_⟩
        · rw [hcontents, hpopped.contents]
          rfl
        · rw [hcount, hnil, if_neg not_vanishes_nil, hpopped.nElement, if_pos]
          rw [hnodes]
          exact ⟨hzero, rfl, rfl⟩
      · have hne : front ≠ [] := by
          rintro rfl
          exact hone hsize
        have hshorter : (q.length - 1).toNat = front.length := by
          rw [BitVec.toNat_sub, hlen]
          simp
          omega
        rw [if_neg hone, hfront, List.dropLast_concat]
        obtain ⟨q', hshrink, hwf, hmax', hcontents, hcount⟩ :=
          ih (q := { q with nodes := front, length := q.length - 1 })
            ⟨⟨hshorter, by dsimp only; omega⟩, by dsimp only; omega⟩ (by dsimp only; omega)
        refine ⟨q', hshrink, hwf, hmax', ?_, ?_⟩
        · rw [hcontents]
          unfold contents
          dsimp only
          rw [hfront, contents_concat, Option.toList_none, List.append_nil]
        · rw [hcount]
          dsimp only
          simp only [vanishes_concat hne]
    · rw [if_neg hlast]
      refine ⟨q, rfl, h, rfl, rfl, ?_⟩
      rw [if_neg]
      rintro ⟨hzero, hne, hall⟩
      apply hlast
      rw [List.isEmpty_eq_false_iff] at hne
      constructor
      · rw [BitVec.lt_def, hzero, h.length]
        exact List.length_pos_of_ne_nil hne
      · rw [List.getLast?_eq_some_getLast hne]
        exact List.all_eq_true.mp hall _ (List.getLast_mem hne)

theorem setMinLength_wellFormed {newMinLen : BitVec 32} (h : WellFormed q)
    (hset : q.setMinLength newMinLen = .ok q') :
    WellFormed q' ∧ q'.maxLen = q.maxLen ∧ q'.contents = q.contents ∧
      q'.nElement = if newMinLen < q.minLen ∧ Vanishes newMinLen q.nodes then q.nElement - 1
        else q.nElement := by
  have hmin := h.min_le
  have hcounted : Counted { q with minLen := newMinLen } := ⟨h.length, h.le_max⟩
  unfold setMinLength at hset
  by_cases heq : newMinLen = q.minLen
  · rw [if_pos heq] at hset
    cases hset
    refine ⟨h, rfl, rfl, ?_⟩
    rw [if_neg]
    rintro ⟨hlt, -⟩
    exact (BitVec.ne_of_lt hlt) heq
  rw [if_neg heq] at hset
  by_cases hlt : q.minLen < newMinLen
  · rw [if_pos hlt] at hset
    obtain ⟨hpadded, hwf⟩ := fillUp_padded hcounted (Nat.le_add_left _ _) hset
    refine ⟨hwf, hpadded.maxLen, hpadded.contents, ?_⟩
    rw [hpadded.nElement, if_neg]
    rintro ⟨hgt, -⟩
    exact BitVec.lt_asymm hlt hgt
  · rw [if_neg hlt] at hset
    obtain ⟨_, -, hset⟩ := bind_eq_ok.mp hset
    have hgt : newMinLen < q.minLen := by
      rw [BitVec.lt_def] at hlt ⊢
      have hne : newMinLen.toNat ≠ q.minLen.toNat := fun hnat => heq (BitVec.eq_of_toNat_eq hnat)
      omega
    have hgt' := BitVec.lt_def.mp hgt
    obtain ⟨q₁, hshrink, hwf, hmax, hcontents, hcount⟩ :=
      shrink_ok (q := { q with minLen := newMinLen }) ⟨hcounted, by dsimp only; omega⟩ le_rfl
    cases hset.symm.trans hshrink
    refine ⟨hwf, hmax, hcontents, ?_⟩
    rw [hcount]
    dsimp only
    simp only [hgt, true_and]

theorem exists_setMinLength {newMinLen : BitVec 32} (h : WellFormed q) (hle : newMinLen ≤ q.maxLen) :
    ∃ q', q.setMinLength newMinLen = .ok q' := by
  have hmin := h.min_le
  have hcounted : Counted { q with minLen := newMinLen } := ⟨h.length, h.le_max⟩
  unfold setMinLength
  by_cases heq : newMinLen = q.minLen
  · exact ⟨q, if_pos heq⟩
  rw [if_neg heq]
  by_cases hlt : q.minLen < newMinLen
  · rw [if_pos hlt]
    exact exists_fillUp _ hcounted hle
  · rw [BitVec.lt_def] at hlt
    have hne : newMinLen.toNat ≠ q.minLen.toNat := fun hnat => heq (BitVec.eq_of_toNat_eq hnat)
    have hnodes : q.nodes.isEmpty = false := by
      rw [List.isEmpty_eq_false_iff, ← List.length_pos_iff_ne_nil]
      omega
    obtain ⟨q', hshrink, -⟩ :=
      shrink_ok (q := { q with minLen := newMinLen }) ⟨hcounted, by dsimp only; omega⟩ le_rfl
    rw [if_neg (by rw [BitVec.lt_def]; exact hlt), assert_pos hnodes, ok_bind]
    exact ⟨q', hshrink⟩

/-! ## The number of elements -/

/-- By how much the counter is off. -/
def drift (q : FifoPipeline α) : BitVec 32 := q.nElement - .ofNat 32 q.contents.length

/-- The calls that leave it so: nothing fills an empty place, an empty place is not counted or
popped. -/
def Exact (q : FifoPipeline α) : Call α → Prop
  | .push (some _) => ¬ q.Fills
  | .push none => q.Fills
  | .pop => q.nodes.head? ≠ some none
  | .setMinLength n => ¬ (n < q.minLen ∧ Vanishes n q.nodes)

theorem nElement_eq_iff (h : Counted q) : q.nElement.toNat = q.contents.length ↔ q.drift = 0 := by
  have hle : q.contents.length ≤ q.nodes.length := List.length_filterMap_le _ _
  have hmax := h.le_max
  have hlt := q.maxLen.isLt
  unfold drift
  rw [BitVec.sub_eq_iff_eq_add, ← BitVec.toNat_inj]
  simp
  rw [Nat.mod_eq_of_lt (by omega)]

theorem pushNulls_ok (h : Counted q) (hlen : q.minLen.toNat = q.nodes.length + n)
    (hpush : pushNulls n q = .ok q') : WellFormed q' ∧ q'.maxLen = q.maxLen ∧ q'.contents = q.contents ∧
      q'.nElement = q.nElement + .ofNat 32 n := by
  induction n generalizing q with
  | zero =>
    cases hpush
    exact ⟨⟨h, hlen.le⟩, rfl, rfl, (BitVec.add_zero _).symm⟩
  | succ n ih =>
    obtain ⟨q₁, hplace, hpush⟩ := bind_eq_ok.mp hpush
    obtain ⟨hlt, rfl⟩ := push_eq_ok.mp hplace
    rw [h.lt_max_iff] at hlt
    have hshort : q.length < q.minLen := by
      rw [BitVec.lt_def, h.length]
      omega
    have hplaces := places_of_not_fills (x := none) fun hfills : q.Fills => hfills.2 hshort
    obtain ⟨hwf, hmax, hcontents, hcount⟩ :=
      ih (h.places hplaces hlt) (by rw [hplaces.minLen, hplaces.nodes]; omega) hpush
    refine ⟨hwf, hmax.trans hplaces.maxLen,
      hcontents.trans (hplaces.contents.trans (List.append_nil _)), ?_⟩
    rw [hcount, hplaces.nElement, BitVec.add_assoc, ← BitVec.ofNat_add, Nat.add_comm 1]

theorem new_ok {minLen maxLen : BitVec 32} (h : new minLen maxLen = .ok q) : WellFormed q ∧ maxLen ≠ 0 ∧
    q.maxLen = maxLen ∧ q.contents = [] ∧ q.drift = minLen := by
  obtain ⟨_, hne, hpush⟩ := bind_eq_ok.mp h
  obtain ⟨hwf, hmax, hcontents, hcount⟩ := pushNulls_ok ⟨rfl, Nat.zero_le _⟩ (Nat.zero_add _).symm hpush
  refine ⟨hwf, assert_eq_ok.mp hne, hmax, hcontents, ?_⟩
  unfold drift
  rw [hcontents, hcount]
  simp [contents]

end FifoPipeline

/-! ## Runs -/

namespace State

open FifoPipeline

variable {maxLen : BitVec 32} {s s' : State α} {c : Call α}

/-- What holds in every state. -/
structure Inv (maxLen : BitVec 32) (s : State α) : Prop where
  wellFormed : WellFormed s.q
  pos : maxLen ≠ 0
  maxLen : s.q.maxLen = maxLen
  fifo : s.pushed = s.popped ++ s.q.contents

theorem Inv.push {x : Option α} {q : FifoPipeline α} (h : Inv maxLen s) (hpush : s.q.push x = .ok q) :
    Inv maxLen ⟨q, s.pushed ++ x.toList, s.popped⟩ ∧ (q.drift = s.q.drift ↔ s.q.Exact (.push x)) := by
  obtain ⟨hwf, hmax, hcontents, hcount⟩ := push_wellFormed h.wellFormed hpush
  constructor
  · refine ⟨hwf, h.pos, hmax.trans h.maxLen, ?_⟩
    dsimp only
    rw [h.fifo, hcontents, List.append_assoc]
  · unfold drift
    rw [hcontents, hcount, List.length_append]
    cases x with
    | none =>
      unfold Exact
      by_cases hfills : s.q.Fills
      · simp [hfills]
      · simp only [hfills, if_false, Option.toList_none, List.length_nil, Nat.add_zero, iff_false]
        bv_omega
    | some x =>
      unfold Exact
      rw [Option.toList_some, List.length_singleton, BitVec.ofNat_add]
      by_cases hfills : s.q.Fills
      · simp only [hfills, if_true, not_true_eq_false, iff_false]
        bv_omega
      · simp only [hfills, if_false, not_false_eq_true, iff_true]
        bv_omega

theorem Inv.pop {x : Option α} {q : FifoPipeline α} (h : Inv maxLen s) (hpop : s.q.pop = .ok (x, q)) :
    Inv maxLen ⟨q, s.pushed, s.popped ++ x.toList⟩ ∧ (q.drift = s.q.drift ↔ s.q.Exact .pop) := by
  unfold Exact
  cases hnodes : s.q.nodes with
  | nil =>
    unfold FifoPipeline.pop at hpop
    rw [hnodes] at hpop
    cases hpop
    rw [Option.toList_none, List.append_nil]
    exact ⟨⟨h.wellFormed, h.pos, h.maxLen, h.fifo⟩, by simp⟩
  | cons data nodes =>
    obtain ⟨q', hpop', hpopped⟩ := pop_ok h.wellFormed hnodes
    cases hpop.symm.trans hpop'
    constructor
    · refine ⟨hpopped.wellFormed, h.pos, hpopped.maxLen.trans h.maxLen, ?_⟩
      dsimp only
      rw [h.fifo, hpopped.contents, List.append_assoc]
    · unfold drift
      rw [hpopped.nElement, hpopped.contents, List.length_append, List.head?_cons]
      cases x with
      | none =>
        simp only [Option.toList_none, List.length_nil, Nat.zero_add, ne_eq, not_true_eq_false,
          iff_false]
        bv_omega
      | some x =>
        rw [Option.toList_some, List.length_singleton, BitVec.ofNat_add]
        simp only [ne_eq, Option.some.injEq, reduceCtorEq, not_false_eq_true, iff_true]
        bv_omega

theorem Inv.setMinLength {n : BitVec 32} {q : FifoPipeline α} (h : Inv maxLen s)
    (hset : s.q.setMinLength n = .ok q) :
    Inv maxLen ⟨q, s.pushed, s.popped⟩ ∧ (q.drift = s.q.drift ↔ s.q.Exact (.setMinLength n)) := by
  obtain ⟨hwf, hmax, hcontents, hcount⟩ := setMinLength_wellFormed h.wellFormed hset
  constructor
  · refine ⟨hwf, h.pos, hmax.trans h.maxLen, ?_⟩
    dsimp only
    rw [h.fifo, hcontents]
  · unfold drift Exact
    rw [hcontents, hcount]
    by_cases hvanishes : n < s.q.minLen ∧ Vanishes n s.q.nodes
    · rw [if_pos hvanishes]
      refine iff_of_false ?_ (not_not_intro hvanishes)
      bv_omega
    · rw [if_neg hvanishes]
      exact iff_of_true rfl hvanishes

/-- **A step** keeps the invariant, and the number of elements is off by as much as before if the
call is exact. -/
theorem Inv.step (h : Inv maxLen s) (hstep : s.step c = .ok s') :
    Inv maxLen s' ∧ (s'.q.drift = s.q.drift ↔ s.q.Exact c) := by
  cases c with
  | push x =>
    obtain ⟨q, hpush, hok⟩ := bind_eq_ok.mp hstep
    cases hok
    exact h.push hpush
  | pop =>
    obtain ⟨⟨x, q⟩, hpop, hok⟩ := bind_eq_ok.mp hstep
    cases hok
    exact h.pop hpop
  | setMinLength n =>
    obtain ⟨q, hset, hok⟩ := bind_eq_ok.mp hstep
    cases hok
    exact h.setMinLength hset

/-- What a delay queue is for: the elements come out once and in order, the length keeps to its
maximum, the minimal length drops no element, the number of elements is right, and calls that keep
to the maximal length do not fail. -/
structure IsDelayFifo (maxLen : BitVec 32) (s : State α) : Prop where
  fifo : s.pushed = s.popped ++ s.q.contents
  length : s.q.length.toNat = s.q.nodes.length ∧ s.q.length ≤ maxLen
  kept : ∀ n q', s.q.setMinLength n = .ok q' → q'.contents = s.q.contents
  nElement : s.q.nElement.toNat = s.q.contents.length
  push : s.q.full = false → ∀ x, ∃ s', s.step (.push x) = .ok s'
  pop : ∃ s', s.step .pop = .ok s'
  setMinLength : ∀ n ≤ maxLen, ∃ s', s.step (.setMinLength n) = .ok s'

theorem Inv.isDelayFifo_iff (h : Inv maxLen s) : s.IsDelayFifo maxLen ↔ s.q.drift = 0 := by
  have hlen := h.wellFormed.length
  have hle := h.wellFormed.le_max
  constructor
  · intro hfifo
    exact (nElement_eq_iff h.wellFormed.toCounted).mp hfifo.nElement
  · intro hdrift
    refine ⟨h.fifo, ⟨hlen, ?_⟩, ?_, (nElement_eq_iff h.wellFormed.toCounted).mpr hdrift, ?_, ?_, ?_⟩
    · rw [BitVec.le_def, hlen, ← h.maxLen]
      exact hle
    · exact fun n q' hset => (setMinLength_wellFormed h.wellFormed hset).2.2.1
    · intro hfull x
      have hlt : s.q.length < s.q.maxLen := by
        have hpos := h.pos
        unfold full at hfull
        rw [h.maxLen] at hfull ⊢
        simp only [ne_eq, hpos, not_false_eq_true, decide_true, Bool.true_and,
          decide_eq_false_iff_not] at hfull
        exact BitVec.not_le.mp hfull
      exact ⟨_, bind_eq_ok.mpr ⟨_, push_eq_ok.mpr ⟨hlt, rfl⟩, rfl⟩⟩
    · cases hnodes : s.q.nodes with
      | nil =>
        have hpop : s.q.pop = .ok (none, s.q) := by
          unfold FifoPipeline.pop
          rw [hnodes]
        exact ⟨_, bind_eq_ok.mpr ⟨_, hpop, rfl⟩⟩
      | cons data nodes =>
        obtain ⟨q', hpop, -⟩ := pop_ok h.wellFormed hnodes
        exact ⟨_, bind_eq_ok.mpr ⟨_, hpop, rfl⟩⟩
    · intro n hn
      obtain ⟨q', hset⟩ := exists_setMinLength h.wellFormed (h.maxLen ▸ hn)
      exact ⟨_, bind_eq_ok.mpr ⟨_, hset, rfl⟩⟩

end State

section Run

open FifoPipeline State

variable {minLen maxLen : BitVec 32} {calls done rest : List (Call α)} {s s' : State α} {c : Call α}

theorem run_eq_exec : run minLen maxLen calls = exec (run minLen maxLen []) State.step calls := by
  unfold run exec
  rw [bind_assoc]
  rfl

theorem run_prefix (h : run minLen maxLen (done ++ rest) = .ok s) :
    ∃ s', run minLen maxLen done = .ok s' := by
  rw [run_eq_exec] at h
  obtain ⟨s', hs'⟩ := exec_prefix h
  exact ⟨s', run_eq_exec.trans hs'⟩

theorem run_nil (h : run minLen maxLen ([] : List (Call α)) = .ok s) :
    Inv maxLen s ∧ s.q.drift = minLen := by
  obtain ⟨q, hnew, hok⟩ := bind_eq_ok.mp h
  cases hok
  obtain ⟨hwf, hne, hmax, hcontents, hdrift⟩ := new_ok hnew
  refine ⟨⟨hwf, hne, hmax, ?_⟩, hdrift⟩
  dsimp only
  rw [hcontents, List.append_nil]

theorem run_concat (h : run minLen maxLen done = .ok s)
    (h' : run minLen maxLen (done ++ [c]) = .ok s') :
    s.step c = .ok s' := by
  rw [run_eq_exec] at h h'
  exact (exec_concat h).symm.trans h'

theorem run_inv (h : run minLen maxLen calls = .ok s) : Inv maxLen s := by
  rw [run_eq_exec] at h
  apply exec_invariant _ _ h
  · exact fun s₀ h₀ => (run_nil h₀).1
  · exact fun s₀ c s₁ h₀ hstep => (h₀.step hstep).1

/-- **Runs**: every state is that of a delay queue if and only if the constructor pushes nothing and
all calls are exact. -/
theorem run_isDelayFifo_iff (h : run minLen maxLen calls = .ok s) :
    (∀ done rest s', calls = done ++ rest → run minLen maxLen done = .ok s' → s'.IsDelayFifo maxLen) ↔
      minLen = 0 ∧ ∀ done c rest s', calls = done ++ c :: rest → run minLen maxLen done = .ok s' →
        s'.q.Exact c := by
  constructor
  · intro hfifo
    have hdrift {done rest : List (Call α)} {s' : State α} (hcalls : calls = done ++ rest)
        (hrun : run minLen maxLen done = .ok s') : s'.q.drift = 0 :=
      (run_inv hrun).isDelayFifo_iff.mp (hfifo done rest s' hcalls hrun)
    constructor
    · obtain ⟨s₀, h₀⟩ := run_prefix (show run minLen maxLen ([] ++ calls) = .ok s from h)
      rw [← (run_nil h₀).2]
      exact hdrift (List.nil_append calls).symm h₀
    · intro done c rest s' hcalls hrun
      have hcalls' : calls = (done ++ [c]) ++ rest := by
        rw [hcalls, List.append_assoc, List.singleton_append]
      obtain ⟨s₁, h₁⟩ := run_prefix (hcalls' ▸ h)
      apply ((run_inv hrun).step (run_concat hrun h₁)).2.mp
      rw [hdrift hcalls' h₁, hdrift hcalls hrun]
  · rintro ⟨hzero, hexact⟩ done
    have hdrift :
        ∀ rest s', calls = done ++ rest → run minLen maxLen done = .ok s' → s'.q.drift = 0 := by
      induction done using List.reverseRecOn with
      | nil =>
        intro rest s' _ hrun
        rw [(run_nil hrun).2, hzero]
      | append_singleton done c ih =>
        intro rest s' hcalls hrun
        rw [List.append_assoc, List.singleton_append] at hcalls
        obtain ⟨s₁, h₁⟩ := run_prefix hrun
        rw [((run_inv h₁).step (run_concat h₁ hrun)).2.mpr (hexact done c rest s₁ hcalls h₁)]
        exact ih (c :: rest) s₁ hcalls h₁
    intro rest s' hcalls hrun
    exact (run_inv hrun).isDelayFifo_iff.mpr (hdrift rest s' hcalls hrun)

theorem run_isDelayFifo_iff_push : ∃ s : State Nat, run 0 2 [.push (some 7), .pop] = .ok s ∧
    ((∀ done rest s', [.push (some 7), .pop] = done ++ rest → run 0 2 done = .ok s' →
      s'.IsDelayFifo 2) ↔
      (0 : BitVec 32) = 0 ∧ ∀ done c rest s', [.push (some 7), .pop] = done ++ c :: rest →
        run 0 2 done = .ok s' → s'.q.Exact c) :=
  ⟨_, rfl, run_isDelayFifo_iff (show run 0 2 [.push (some 7), .pop] = .ok _ from rfl)⟩

/-- With a minimal length of one, an empty queue has one element, and after the first pop none; an
element that fills the place is not counted, and its pop makes the number wrap. -/
theorem not_isDelayFifo : ∃ s₀ s₁ s₂ s₃ : State Nat,
    run 1 2 [] = .ok s₀ ∧ s₀.q.contents = [] ∧ s₀.q.nElement = 1 ∧
    run 1 2 [.pop] = .ok s₁ ∧ s₁.q.nElement = 0 ∧
    run 1 2 [.pop, .push (some 7)] = .ok s₂ ∧ s₂.q.contents = [7] ∧ s₂.q.nElement = 0 ∧
    run 1 2 [.pop, .push (some 7), .pop] = .ok s₃ ∧ s₃.q.contents = [] ∧ s₃.q.nElement = 0xFFFFFFFF ∧
    ¬ s₀.IsDelayFifo 2 ∧ ¬ s₂.IsDelayFifo 2 ∧ ¬ s₃.IsDelayFifo 2 := by
  refine ⟨_, _, _, _, rfl, rfl, rfl, rfl, rfl, rfl, rfl, rfl, rfl, rfl, rfl, ?_, ?_, ?_⟩
  · exact fun h => absurd h.nElement (by decide)
  · exact fun h => absurd h.nElement (by decide)
  · exact fun h => absurd h.nElement (by decide)

end Run

end GpgpuSimRuby.Memory.DelayQueue
