import Mathlib

/-!
# The instructions of a PTX function

`m_instructions` of a `function_info`, as the parser leaves it: a list of labels and instructions. A
`ptx_instruction*` is a position in the list, with the function it belongs to.

What is used of an instruction is its opcode, whether it has a guard predicate, its size, whether it has
the option `.exit`, and the name of its first operand where that is a label.
-/

namespace GpgpuSimRuby.Ptx

/-- The opcodes that the assembler tells apart, and `BRX`, which only its execution does. -/
inductive Opcode where
  | BRA
  | BRX
  | RET
  | RETP
  | EXIT
  | CALL
  | CALLP
  | BREAK
  | BREAKADDR
  | OTHER
  deriving DecidableEq, Repr

/-- `m_inst_size`: 8 bytes, or 4 with `HALF_OPTION`. -/
inductive InstSize where
  | half
  | full
  deriving DecidableEq, Repr

def InstSize.bytes : InstSize → Nat
  | .half => 4
  | .full => 8

/-- `isExit` is `m_exit`: with `EXIT_OPTION` a thread that has executed the instruction exits. -/
structure Inst where
  opcode : Opcode
  hasPred : Bool := false
  size : InstSize := .full
  target : String := ""
  isExit : Bool := false
  deriving DecidableEq, Repr

/-- A `ptx_instruction`: a label or a real instruction. -/
inductive Item where
  | label (name : String)
  | inst (i : Inst)
  deriving DecidableEq, Repr

namespace Item

def isLabel : Item → Bool
  | label _ => true
  | inst _ => false

def labelName : Item → Option String
  | label name => some name
  | inst _ => none

/-- The bytes it takes in the instruction memory. -/
def size : Item → Nat
  | label _ => 0
  | inst i => i.size.bytes

end Item

/-- A function: its labels have different names. -/
structure Function where
  items : List Item
  labels_nodup : (items.filterMap Item.labelName).Nodup

theorem InstSize.bytes_pos (s : InstSize) : 0 < s.bytes := by
  cases s <;> decide

theorem InstSize.bytes_le (s : InstSize) : s.bytes ≤ 8 := by
  cases s <;> decide

theorem InstSize.bytes_mod (s : InstSize) : s.bytes % 4 = 0 := by
  cases s <;> rfl

namespace Function

variable (f : Function)

/-- The instruction at a position. -/
def inst? (p : Nat) : Option Inst :=
  match f.items[p]? with
  | some (.inst i) => some i
  | _ => none

/-- Where the item at a position goes in the instruction memory of its function. -/
def offset (p : Nat) : Nat := ((f.items.take p).map Item.size).sum

/-- The bytes of all instructions. -/
def codeSize : Nat := f.offset f.items.length

/-- Every label is followed by an instruction. -/
def Followed : Prop := ∀ name, f.items.getLast? ≠ some (.label name)

/-- `find_next_real_instruction`. -/
def findNextRealInstruction (p : Nat) : Nat :=
  p + ((f.items.drop p).takeWhile Item.isLabel).length

variable {f} {p q k : Nat} {i : Inst} {it : Item} {name : String}

theorem inst?_eq_some : f.inst? p = some i ↔ f.items[p]? = some (.inst i) := by
  unfold inst?
  split
  · next j hj => simp [hj]
  · next hno =>
    simp only [reduceCtorEq, false_iff]
    exact hno i

theorem inst?_eq_none_of_label (h : f.items[p]? = some (.label name)) : f.inst? p = none := by
  simp [inst?, h]

theorem lt_length (h : f.inst? p = some i) : p < f.items.length :=
  (List.getElem?_eq_some_iff.mp (inst?_eq_some.mp h)).1

/-! ## Offsets -/

theorem offset_zero : f.offset 0 = 0 := rfl

theorem offset_succ (h : f.items[p]? = some it) : f.offset (p + 1) = f.offset p + it.size := by
  obtain ⟨hp, hit⟩ := List.getElem?_eq_some_iff.mp h
  simp [offset, List.take_add_one, h]

theorem offset_inst (h : f.inst? p = some i) : f.offset (p + 1) = f.offset p + i.size.bytes :=
  offset_succ (inst?_eq_some.mp h)

theorem offset_label (h : f.items[p]? = some (.label name)) : f.offset (p + 1) = f.offset p :=
  offset_succ h

theorem offset_mono (h : p ≤ q) : f.offset p ≤ f.offset q := by
  obtain ⟨k, rfl⟩ := Nat.exists_eq_add_of_le h
  unfold offset
  rw [List.take_add, List.map_append, List.sum_append]
  exact Nat.le_add_right _ _

theorem offset_add_le (h : f.inst? p = some i) (hpq : p < q) : f.offset p + i.size.bytes ≤ f.offset q := by
  rw [← offset_inst h]
  exact offset_mono hpq

theorem offset_lt (h : f.inst? p = some i) (hpq : p < q) : f.offset p < f.offset q := by
  have := offset_add_le h hpq
  have := i.size.bytes_pos
  omega

theorem offset_injective {j : Inst} (hp : f.inst? p = some i) (hq : f.inst? q = some j)
    (h : f.offset p = f.offset q) : p = q := by
  rcases Nat.lt_trichotomy p q with hlt | heq | hgt
  · have := offset_lt hp hlt
    omega
  · exact heq
  · have := offset_lt hq hgt
    omega

theorem offset_lt_codeSize (h : f.inst? p = some i) : f.offset p < f.codeSize :=
  offset_lt h (lt_length h)

theorem offset_mod (p : Nat) : f.offset p % 4 = 0 := by
  unfold offset
  induction (f.items.take p) with
  | nil => rfl
  | cons it items ih =>
    rw [List.map_cons, List.sum_cons]
    have : it.size % 4 = 0 := by
      cases it with
      | label => rfl
      | inst i => exact i.size.bytes_mod
    omega

/-! ## The next real instruction -/

/-- `q` is the first instruction from `p` on. -/
structure FirstInst (f : Function) (p q : Nat) (i : Inst) : Prop where
  le : p ≤ q
  inst : f.inst? q = some i
  labels : ∀ k, p ≤ k → k < q → ∃ name, f.items[k]? = some (.label name)

namespace FirstInst

variable {j : Inst}

theorem self (h : f.inst? p = some i) : f.FirstInst p p i :=
  ⟨le_rfl, h, fun _ hle hlt => absurd hlt (by omega)⟩

theorem of_label (hp : f.items[p]? = some (.label name)) (h : f.FirstInst (p + 1) q i) :
    f.FirstInst p q i where
  le := by have := h.le; omega
  inst := h.inst
  labels k hle hlt := by
    rcases Nat.eq_or_lt_of_le hle with rfl | hlt'
    · exact ⟨name, hp⟩
    · exact h.labels k hlt' hlt

theorem offset_eq (h : f.FirstInst p q i) : f.offset q = f.offset p := by
  obtain ⟨k, rfl⟩ := Nat.exists_eq_add_of_le h.le
  have hsum : ∀ m ≤ k, f.offset (p + m) = f.offset p := by
    intro m
    induction m with
    | zero =>
      intro _
      rfl
    | succ m ih =>
      intro hm
      obtain ⟨name, hlabel⟩ := h.labels (p + m) (by omega) (by omega)
      rw [← Nat.add_assoc, offset_label hlabel, ih (by omega)]
  exact hsum k le_rfl

theorem unique (h : f.FirstInst p q i) (h' : f.FirstInst p k j) : q = k := by
  rcases Nat.lt_trichotomy q k with hlt | heq | hgt
  · obtain ⟨name, hlabel⟩ := h'.labels q h.le hlt
    rw [inst?_eq_some.mp h.inst] at hlabel
    cases hlabel
  · exact heq
  · obtain ⟨name, hlabel⟩ := h.labels k h'.le hgt
    rw [inst?_eq_some.mp h'.inst] at hlabel
    cases hlabel

end FirstInst

theorem exists_inst_of_offset_lt (h : f.offset p < f.codeSize) : ∃ q i, f.FirstInst p q i := by
  have hp : p < f.items.length := by
    by_contra hge
    have := offset_mono (f := f) (show f.items.length ≤ p by omega)
    unfold codeSize at h
    omega
  obtain ⟨n, hn⟩ := Nat.exists_eq_add_of_lt hp
  induction n generalizing p with
  | zero =>
    cases hit : f.items[p]? with
    | none =>
      rw [List.getElem?_eq_none_iff] at hit
      omega
    | some it =>
      cases it with
      | inst i => exact ⟨p, i, .self (inst?_eq_some.mpr hit)⟩
      | label name =>
        have hoff := offset_label hit
        have hlen : p + 1 = f.items.length := by omega
        rw [hlen] at hoff
        unfold codeSize at h
        omega
  | succ n ih =>
    cases hit : f.items[p]? with
    | none =>
      rw [List.getElem?_eq_none_iff] at hit
      omega
    | some it =>
      cases it with
      | inst i => exact ⟨p, i, .self (inst?_eq_some.mpr hit)⟩
      | label name =>
        obtain ⟨q, i, hq⟩ := ih (p := p + 1) (by rw [offset_label hit]; exact h) (by omega) (by omega)
        exact ⟨q, i, hq.of_label hit⟩

theorem exists_firstInst (hf : f.Followed) (h : p < f.items.length) : ∃ q i, f.FirstInst p q i := by
  apply exists_inst_of_offset_lt
  have hlast : ∃ i, f.inst? (f.items.length - 1) = some i := by
    have hget := List.getElem?_eq_getElem (show f.items.length - 1 < f.items.length by omega)
    cases hit : f.items[f.items.length - 1] with
    | inst i => exact ⟨i, inst?_eq_some.mpr (hit ▸ hget)⟩
    | label name =>
      apply absurd _ (hf name)
      rw [List.getLast?_eq_getElem?, hget, hit]
  obtain ⟨i, hi⟩ := hlast
  calc f.offset p ≤ f.offset (f.items.length - 1) := offset_mono (by omega)
    _ < f.codeSize := offset_lt_codeSize hi

theorem label_unique {q : Nat} (hp : f.items[p]? = some (.label name))
    (hq : f.items[q]? = some (.label name)) : p = q := by
  have key : ∀ (items : List Item), (items.filterMap Item.labelName).Nodup → ∀ p q : Nat,
      items[p]? = some (Item.label name) → items[q]? = some (Item.label name) → p = q := by
    intro items
    induction items with
    | nil =>
      intro _ p q hp
      simp at hp
    | cons it items ih =>
      intro hnd p q hp hq
      have hmem : ∀ k : Nat, items[k]? = some (Item.label name) → name ∈ items.filterMap Item.labelName :=
        fun k hk => List.mem_filterMap.mpr ⟨_, List.mem_of_getElem? hk, rfl⟩
      cases p with
      | zero =>
        cases q with
        | zero => rfl
        | succ q =>
          obtain rfl := Option.some.inj hp
          rw [List.filterMap_cons_some (show (Item.label name).labelName = some name from rfl),
            List.nodup_cons] at hnd
          exact absurd (hmem q hq) hnd.1
      | succ p =>
        cases q with
        | zero =>
          obtain rfl := Option.some.inj hq
          rw [List.filterMap_cons_some (show (Item.label name).labelName = some name from rfl),
            List.nodup_cons] at hnd
          exact absurd (hmem p hp) hnd.1
        | succ q =>
          have hnd' : (items.filterMap Item.labelName).Nodup := by
            cases it with
            | label n =>
              rw [List.filterMap_cons_some (show (Item.label n).labelName = some n from rfl)] at hnd
              exact hnd.of_cons
            | inst i =>
              rw [List.filterMap_cons_none (show (Item.inst i).labelName = none from rfl)] at hnd
              exact hnd
          rw [ih hnd' p q hp hq]
  exact key f.items f.labels_nodup p q hp hq

end Function

end GpgpuSimRuby.Ptx
