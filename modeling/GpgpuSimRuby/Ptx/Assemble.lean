import GpgpuSimRuby.Library.Fault
import GpgpuSimRuby.Ptx.Function

/-!
# Laying out the instructions

The first part of `ptx_assemble`: the instructions of a function get their PCs and their places in
the two tables, `m_instr_mem` of the function and `s_g_pc_to_insn` of the whole program, and the
branch labels get their addresses.

* `m_instr_mem` is allocated with `new ptx_instruction*[..]`, which leaves its slots as they are. What
  they hold is given by `fresh`.
* A pointer to an instruction is its function and its position there.
-/

open Function (update update_self update_of_ne)

namespace GpgpuSimRuby.Ptx

open Library

/-- A function of the program. -/
abbrev FuncId := Nat

/-- A `ptx_instruction*` that is not null. -/
abbrev InstRef := FuncId × Nat

/-- What a slot of an instruction table holds; `none` is the null pointer. -/
abbrev Slot := Option InstRef

/-- `MAX_INST_SIZE`. -/
def maxInstSize : Nat := 8

/-- The assertions, the loader error, and what would go wrong in following a pointer. -/
inductive AssembleFault where
  | pcToInsn
  | instSize
  | branchLabel
  | wildPointer
  | endless
  deriving DecidableEq, Repr

/-- What the loop over the instructions of a function works on: the globals `s_g_pc_to_insn` and
`g_pc_to_finfo`, the tables of the function, and `m_PC` and `m_instr_mem_index` of its instructions. -/
structure Layout where
  pc : Nat
  n : Nat
  insns : List Slot
  finfo : Nat → Option FuncId
  mem : Nat → Slot
  labels : String → Option Nat
  placed : Nat → Option (Nat × Nat)

/-- One turn of the loop. -/
def placeItem (fid : FuncId) (p : Nat) : Item → Layout → Except AssembleFault Layout
  | .label name, l => .ok { l with labels := update l.labels name (some l.n) }
  | .inst i, l => do
    let insns := l.insns ++ [some (fid, p)]
    assert (insns[l.pc]? = some (some (fid, p))) .pcToInsn
    assert (i.size.bytes ≤ maxInstSize) .instSize
    .ok {
      pc := l.pc + i.size.bytes
      n := l.n + i.size.bytes
      insns := insns ++ List.replicate (i.size.bytes - 1) none
      finfo := update l.finfo l.pc (some fid)
      mem := fun j => if j = l.n then some (fid, p)
        else if l.n < j ∧ j < l.n + i.size.bytes then none else l.mem j
      labels := l.labels
      placed := update l.placed p (some (l.pc, l.n)) }

/-- The loop. -/
def placeItems (fid : FuncId) : Nat → List Item → Layout → Except AssembleFault Layout
  | _, [], l => .ok l
  | p, it :: items, l => do
    let l ← placeItem fid p it l
    placeItems fid (p + 1) items l

/-- The instructions whose label is resolved. -/
def Inst.HasLabel (i : Inst) : Prop :=
  i.opcode = .BRA ∨ i.opcode = .BREAKADDR ∨ i.opcode = .CALLP

instance (i : Inst) : Decidable i.HasLabel := inferInstanceAs (Decidable (_ ∨ _ ∨ _))

/-- `get_PC` of the instruction that a slot points to. -/
def Layout.pcAt (l : Layout) (fid : FuncId) (slot : Slot) : Except AssembleFault Nat :=
  match slot with
  | some (g, p) =>
    match l.placed p with
    | some (pc, _) => if g = fid then .ok pc else .error .wildPointer
    | none => .error .wildPointer
  | none => .error .wildPointer

/-- The address of the label of an instruction. -/
def resolveInst (l : Layout) (fid : FuncId) (i : Inst) (addresses : String → Option Nat) :
    Except AssembleFault (String → Option Nat) :=
  if i.HasLabel then
    match l.labels i.target with
    | none => .error .branchLabel
    | some index => do
      let pc ← l.pcAt fid (l.mem index)
      .ok (update addresses i.target (some pc))
  else .ok addresses

/-- The loop that handles branch instructions, from index `ii` of `m_instr_mem` on. The fuel runs out
only if the loop takes more steps than there are bytes. -/
def resolve (f : Function) (fid : FuncId) (l : Layout) :
    Nat → Nat → (String → Option Nat) → Except AssembleFault (String → Option Nat)
  | 0, ii, addresses => if ii < l.n then .error .endless else .ok addresses
  | fuel + 1, ii, addresses =>
    if ii < l.n then
      match l.mem ii with
      | none => .error .wildPointer
      | some (g, p) =>
        match f.inst? p with
        | none => .error .wildPointer
        | some i => do
          assert (g = fid) .wildPointer
          let addresses ← resolveInst l fid i addresses
          resolve f fid l fuel (ii + i.size.bytes) addresses
    else .ok addresses

/-- The members of a `function_info` that `ptx_assemble` fills in. -/
structure Assembled where
  startPC : Nat
  instrMemSize : Nat
  instrMem : Nat → Slot
  labels : String → Option Nat
  placed : Nat → Option (Nat × Nat)
  addresses : String → Option Nat

/-- `function_info::get_instruction`. A PC below the start makes a huge index. -/
def Assembled.getInstruction (a : Assembled) (pc : Nat) : Slot :=
  if a.startPC ≤ pc ∧ pc - a.startPC < a.instrMemSize then a.instrMem (pc - a.startPC) else none

/-- The globals of the assembler and the functions that have been assembled. -/
structure Program where
  nextPC : Nat
  insns : List Slot
  finfo : Nat → Option FuncId
  funcs : FuncId → Option Assembled

namespace Program

def init : Program := ⟨0, [], fun _ => none, fun _ => none⟩

/-- `function_info::pc_to_instruction`. -/
def pcToInstruction (s : Program) (pc : Nat) : Slot := (s.insns[pc]?).join

variable (code : FuncId → Function) (fresh : FuncId → Nat → Slot)

/-- `function_info::ptx_assemble`, up to the addresses of the labels. -/
def ptxAssemble (fid : FuncId) (s : Program) : Except AssembleFault Program :=
  if (s.funcs fid).isSome then .ok s
  else do
    let pad := s.nextPC % maxInstSize
    let l ← placeItems fid 0 (code fid).items {
      pc := s.nextPC + pad
      n := 0
      insns := s.insns ++ List.replicate pad none
      finfo := s.finfo
      mem := fresh fid
      labels := fun _ => none
      placed := fun _ => none }
    let addresses ← resolve (code fid) fid l l.n 0 fun _ => none
    .ok {
      nextPC := l.pc
      insns := l.insns
      finfo := l.finfo
      funcs := update s.funcs fid (some {
        startPC := s.nextPC + pad
        instrMemSize := maxInstSize * ((code fid).items.length + 1)
        instrMem := l.mem
        labels := l.labels
        placed := l.placed
        addresses := addresses }) }

/-- A sequence of calls of `ptx_assemble`. -/
def assembleAll : List FuncId → Program → Except AssembleFault Program
  | [], s => .ok s
  | fid :: fids, s => do
    let s ← s.ptxAssemble code fresh fid
    assembleAll fids s

end Program

/-! ## The loop over the instructions -/

/-- What has been laid out of a function that starts at `start`, behind the table `insns₀`, when the
loop has come to position `k`. -/
structure Placed (f : Function) (fid : FuncId) (start : Nat) (insns₀ : List Slot)
    (finfo₀ : Nat → Option FuncId) (fresh : Nat → Slot) (k : Nat) (l : Layout) : Prop where
  pc : l.pc = start + f.offset k
  n : l.n = f.offset k
  length : l.insns.length = l.pc
  before : ∀ pc < start, l.insns[pc]? = insns₀[pc]?
  insn : ∀ p i, p < k → f.inst? p = some i →
    l.placed p = some (start + f.offset p, f.offset p) ∧
      l.insns[start + f.offset p]? = some (some (fid, p)) ∧ l.mem (f.offset p) = some (fid, p) ∧
      l.finfo (start + f.offset p) = some fid
  finfo : ∀ pc < start, l.finfo pc = finfo₀ pc
  insnsElse : ∀ pc r, start ≤ pc → l.insns[pc]? = some (some r) →
    r.1 = fid ∧ r.2 < k ∧ ∃ i, f.inst? r.2 = some i ∧ pc = start + f.offset r.2
  memElse : ∀ j r, j < f.offset k → l.mem j = some r →
    r.1 = fid ∧ r.2 < k ∧ ∃ i, f.inst? r.2 = some i ∧ j = f.offset r.2
  memTail : ∀ j, f.offset k ≤ j → l.mem j = fresh j
  labels : ∀ name j, l.labels name = some j ↔
    ∃ p < k, f.items[p]? = some (.label name) ∧ j = f.offset p
  placedElse : ∀ p pc j, l.placed p = some (pc, j) → ∃ i, p < k ∧ f.inst? p = some i ∧
    pc = start + f.offset p ∧ j = f.offset p

section Loop

variable {f : Function} {fid : FuncId} {start k : Nat} {insns₀ : List Slot}
  {finfo₀ : Nat → Option FuncId} {fresh : Nat → Slot} {l : Layout}

theorem getElem?_push (insns : List Slot) (x : Slot) (m j : Nat) :
    (insns ++ [x] ++ List.replicate m none)[j]? =
      if j < insns.length then insns[j]?
      else if j = insns.length then some x
      else if j < insns.length + 1 + m then some none else none := by
  split
  · next hj =>
    rw [List.append_assoc, List.getElem?_append_left hj]
  · next hj =>
    split
    · next heq =>
      subst heq
      rw [List.getElem?_append_left (by simp), List.getElem?_append_right le_rfl, Nat.sub_self]
      rfl
    · next hne =>
      rw [List.getElem?_append_right (by simp; omega), List.getElem?_replicate]
      simp only [List.length_append, List.length_singleton]
      split
      · rw [if_pos (by omega)]
      · rw [if_neg (by omega)]

theorem Placed.label (h : Placed f fid start insns₀ finfo₀ fresh k l) {name : String}
    (hit : f.items[k]? = some (.label name)) :
    Placed f fid start insns₀ finfo₀ fresh (k + 1)
      { l with labels := update l.labels name (some l.n) } where
  pc := by rw [Function.offset_label hit]; exact h.pc
  n := by rw [Function.offset_label hit]; exact h.n
  length := h.length
  before := h.before
  insn p i hp hi := by
    refine h.insn p i ?_ hi
    rcases Nat.lt_succ_iff_lt_or_eq.mp hp with hp | rfl
    · exact hp
    · rw [Function.inst?_eq_none_of_label hit] at hi
      cases hi
  finfo := h.finfo
  insnsElse pc r hpc hr := by
    obtain ⟨hf, hk, hi⟩ := h.insnsElse pc r hpc hr
    exact ⟨hf, by omega, hi⟩
  memElse j r hj hr := by
    rw [Function.offset_label hit] at hj
    obtain ⟨hf, hk, hi⟩ := h.memElse j r hj hr
    exact ⟨hf, by omega, hi⟩
  memTail j hj := by
    rw [Function.offset_label hit] at hj
    exact h.memTail j hj
  labels name' j := by
    show update l.labels name (some l.n) name' = some j ↔ _
    by_cases hname : name' = name
    · subst hname
      rw [update_self, h.n, Option.some.injEq]
      constructor
      · rintro rfl
        exact ⟨k, by omega, hit, rfl⟩
      · rintro ⟨p, -, hp, rfl⟩
        rw [Function.label_unique hp hit]
    · rw [update_of_ne hname, h.labels]
      constructor
      · rintro ⟨p, hp, hrest⟩
        exact ⟨p, by omega, hrest⟩
      · rintro ⟨p, hp, hpn, hj⟩
        refine ⟨p, ?_, hpn, hj⟩
        rcases Nat.lt_succ_iff_lt_or_eq.mp hp with hp | rfl
        · exact hp
        · rw [hit] at hpn
          exact absurd (Item.label.inj (Option.some.inj hpn)).symm hname
  placedElse p pc j hp := by
    obtain ⟨i, hk, hrest⟩ := h.placedElse p pc j hp
    exact ⟨i, by omega, hrest⟩

/-- The layout after an instruction has been placed. -/
def Layout.put (l : Layout) (fid : FuncId) (p : Nat) (i : Inst) : Layout where
  pc := l.pc + i.size.bytes
  n := l.n + i.size.bytes
  insns := l.insns ++ [some (fid, p)] ++ List.replicate (i.size.bytes - 1) none
  finfo := update l.finfo l.pc (some fid)
  mem := fun j => if j = l.n then some (fid, p)
    else if l.n < j ∧ j < l.n + i.size.bytes then none else l.mem j
  labels := l.labels
  placed := update l.placed p (some (l.pc, l.n))

section

variable (h : Placed f fid start insns₀ finfo₀ fresh k l)
include h

theorem Placed.inst {i : Inst} (hi : f.inst? k = some i) :
    Placed f fid start insns₀ finfo₀ fresh (k + 1) (l.put fid k i) := by
  have hoff := Function.offset_inst hi
  have hsize := i.size.bytes_pos
  have hpc := h.pc
  have hn := h.n
  have hlen := h.length
  have hget := getElem?_push l.insns (some (fid, k)) (i.size.bytes - 1)
  constructor
  · show l.pc + i.size.bytes = _
    omega
  · show l.n + i.size.bytes = _
    omega
  · show (l.insns ++ [some (fid, k)] ++ List.replicate (i.size.bytes - 1) none).length = _
    simp only [List.length_append, List.length_singleton, List.length_replicate]
    show _ = l.pc + i.size.bytes
    omega
  · intro pc hlt
    show (l.insns ++ [some (fid, k)] ++ List.replicate (i.size.bytes - 1) none)[pc]? = _
    rw [hget, if_pos (by omega)]
    exact h.before pc hlt
  · intro p j hp hj
    rcases Nat.lt_succ_iff_lt_or_eq.mp hp with hp | rfl
    · -- an instruction that was there before keeps its place
      obtain ⟨hplaced, hinsn, hmem, hfinfo⟩ := h.insn p j hp hj
      have hlt := Function.offset_lt hj hp
      refine ⟨?_, ?_, ?_, ?_⟩
      · show update l.placed k _ p = _
        rw [update_of_ne (by omega)]
        exact hplaced
      · show (l.insns ++ [some (fid, k)] ++ List.replicate (i.size.bytes - 1) none)[_]? = _
        rw [hget, if_pos (by omega)]
        exact hinsn
      · show (if f.offset p = l.n then _ else if _ then _ else l.mem (f.offset p)) = _
        rw [if_neg (by omega), if_neg (by omega)]
        exact hmem
      · show update l.finfo l.pc _ _ = _
        rw [update_of_ne (by omega)]
        exact hfinfo
    · refine ⟨?_, ?_, ?_, ?_⟩
      · show update l.placed p _ p = _
        rw [update_self, hpc, hn]
      · show (l.insns ++ [some (fid, p)] ++ List.replicate (i.size.bytes - 1) none)[_]? = _
        rw [hget, if_neg (by omega), if_pos (by omega)]
      · show (if f.offset p = l.n then _ else _) = _
        rw [if_pos hn.symm]
      · show update l.finfo l.pc _ _ = _
        rw [hpc, update_self]
  · intro pc hlt
    show update l.finfo l.pc _ pc = _
    rw [update_of_ne (by omega)]
    exact h.finfo pc hlt
  · intro pc r hge hr
    have hr : (l.insns ++ [some (fid, k)] ++ List.replicate (i.size.bytes - 1) none)[pc]? =
        some (some r) := hr
    rw [hget] at hr
    split at hr
    · obtain ⟨hf, hk, hrest⟩ := h.insnsElse pc r hge hr
      exact ⟨hf, by omega, hrest⟩
    · split at hr
      · next heq =>
        obtain rfl := Option.some.inj (Option.some.inj hr)
        exact ⟨rfl, by show k < k + 1; omega, i, hi, by show pc = start + f.offset k; omega⟩
      · split at hr <;> cases hr
  · intro j r hj hr
    have hr : (if j = l.n then some (fid, k)
      else if l.n < j ∧ j < l.n + i.size.bytes then none else l.mem j) = some r := hr
    split at hr
    · next heq =>
      obtain rfl := Option.some.inj hr
      exact ⟨rfl, by show k < k + 1; omega, i, hi, by show j = f.offset k; omega⟩
    · split at hr
      · cases hr
      · obtain ⟨hf, hk, hrest⟩ := h.memElse j r (by omega) hr
        exact ⟨hf, by omega, hrest⟩
  · intro j hj
    show (if j = l.n then _ else if _ then _ else l.mem j) = _
    rw [if_neg (by omega), if_neg (by omega)]
    exact h.memTail j (by omega)
  · intro name j
    show l.labels name = some j ↔ _
    rw [h.labels]
    constructor
    · rintro ⟨p, hp, hrest⟩
      exact ⟨p, by omega, hrest⟩
    · rintro ⟨p, hp, hpn, hj⟩
      refine ⟨p, ?_, hpn, hj⟩
      rcases Nat.lt_succ_iff_lt_or_eq.mp hp with hp | rfl
      · exact hp
      · rw [Function.inst?_eq_none_of_label hpn] at hi
        cases hi
  · intro p pc j hp
    have hp : update l.placed k (some (l.pc, l.n)) p = some (pc, j) := hp
    by_cases hpk : p = k
    · subst hpk
      rw [update_self] at hp
      obtain ⟨rfl, rfl⟩ := Prod.mk.inj (Option.some.inj hp)
      exact ⟨i, by omega, hi, hpc, hn⟩
    · rw [update_of_ne hpk] at hp
      obtain ⟨i', hk, hrest⟩ := h.placedElse p pc j hp
      exact ⟨i', by omega, hrest⟩

/-- **One turn of the loop** fails no assertion. -/
theorem Placed.step {it : Item}
    (hit : f.items[k]? = some it) :
    ∃ l', placeItem fid k it l = .ok l' ∧ Placed f fid start insns₀ finfo₀ fresh (k + 1) l' := by
  cases it with
  | label name => exact ⟨_, rfl, h.label hit⟩
  | inst i =>
    refine ⟨l.put fid k i, ?_, h.inst (Function.inst?_eq_some.mpr hit)⟩
    have hinsn : (l.insns ++ [some (fid, k)])[l.pc]? = some (some (fid, k)) := by
      rw [← h.length, List.getElem?_append_right le_rfl, Nat.sub_self]
      rfl
    have hsize : i.size.bytes ≤ maxInstSize := i.size.bytes_le
    unfold placeItem
    simp only [assert_pos hinsn, assert_pos hsize, ok_bind]
    rfl

/-- **The loop** lays out all instructions. -/
theorem Placed.run (hk : k ≤ f.items.length) :
    ∃ l', placeItems fid k (f.items.drop k) l = .ok l' ∧
      Placed f fid start insns₀ finfo₀ fresh f.items.length l' := by
  obtain ⟨m, hm⟩ := Nat.exists_eq_add_of_le hk
  induction m generalizing k l with
  | zero =>
    have hlen : f.items.length = k := hm
    rw [← hlen, List.drop_length]
    exact ⟨l, rfl, hlen ▸ h⟩
  | succ m ih =>
    have hlt : k < f.items.length := by omega
    obtain ⟨l₁, hl₁, h₁⟩ := h.step (List.getElem?_eq_getElem hlt)
    obtain ⟨l', hl', h'⟩ := ih h₁ (by omega) (by omega)
    refine ⟨l', ?_, h'⟩
    rw [List.drop_eq_getElem_cons hlt]
    unfold placeItems
    rw [hl₁, ok_bind, hl']

end

end Loop

/-! ## The loop over the branches -/

/-- The label stands before the instruction at `q`. -/
def Function.LabelOf (f : Function) (name : String) (q : Nat) : Prop :=
  ∃ p i, f.items[p]? = some (.label name) ∧ f.FirstInst p q i

/-- The addresses found so far are those of the instructions after their labels. -/
def AddressesOk (f : Function) (start : Nat) (addresses : String → Option Nat) : Prop :=
  ∀ name pc, addresses name = some pc → ∃ q, f.LabelOf name q ∧ pc = start + f.offset q

section Resolve

variable {f : Function} {fid : FuncId} {start : Nat} {insns₀ : List Slot}
  {finfo₀ : Nat → Option FuncId} {fresh : Nat → Slot} {l : Layout}
  {addresses : String → Option Nat}

/-- A branch gets the address of the instruction after its label, unless there is no such label. -/
theorem resolveInst_spec (hf : f.Followed)
    (h : Placed f fid start insns₀ finfo₀ fresh f.items.length l) (i : Inst)
    (ha : AddressesOk f start addresses) : resolveInst l fid i addresses = .error .branchLabel ∨
      ∃ addresses', resolveInst l fid i addresses = .ok addresses' ∧
        AddressesOk f start addresses' ∧ (i.HasLabel → addresses' i.target ≠ none) ∧
        ∀ name, addresses name ≠ none → addresses' name ≠ none := by
  unfold resolveInst
  by_cases hlabel : i.HasLabel
  swap
  · rw [if_neg hlabel]
    exact .inr ⟨addresses, rfl, ha, fun h => absurd h hlabel, fun _ h => h⟩
  rw [if_pos hlabel]
  cases hl : l.labels i.target with
  | none => exact .inl rfl
  | some index =>
    obtain ⟨p, hp, hpn, rfl⟩ := (h.labels i.target index).mp hl
    obtain ⟨q, j, hq⟩ := Function.exists_firstInst hf hp
    obtain ⟨hplaced, -, hmem, -⟩ := h.insn q j (Function.lt_length hq.inst) hq.inst
    rw [hq.offset_eq] at hmem
    have hpc : l.pcAt fid (l.mem (f.offset p)) = .ok (start + f.offset q) := by
      unfold Layout.pcAt
      simp only [hmem, hplaced]
      exact if_pos trivial
    right
    simp only [hpc, ok_bind]
    refine ⟨_, rfl, ?_, fun _ => ?_, ?_⟩
    · intro name pc hname
      by_cases heq : name = i.target
      · subst heq
        rw [update_self] at hname
        exact ⟨q, ⟨p, j, hpn, hq⟩, (Option.some.inj hname).symm⟩
      · rw [update_of_ne heq] at hname
        exact ha name pc hname
    · rw [update_self]
      exact Option.some_ne_none _
    · intro name hname
      by_cases heq : name = i.target
      · subst heq
        rw [update_self]
        exact Option.some_ne_none _
      · rw [update_of_ne heq]
        exact hname

/-- **The loop over the branches** resolves all of them, unless a label is missing. It walks from
instruction to instruction, so it comes to its end. -/
theorem resolve_spec (hf : f.Followed)
    (h : Placed f fid start insns₀ finfo₀ fresh f.items.length l) {fuel k : Nat}
    (hfuel : l.n ≤ f.offset k + fuel) (ha : AddressesOk f start addresses) :
    resolve f fid l fuel (f.offset k) addresses = .error .branchLabel ∨
      ∃ addresses', resolve f fid l fuel (f.offset k) addresses = .ok addresses' ∧
        AddressesOk f start addresses' ∧
        (∀ p i, k ≤ p → f.inst? p = some i → i.HasLabel → addresses' i.target ≠ none) ∧
        ∀ name, addresses name ≠ none → addresses' name ≠ none := by
  have hn : l.n = f.codeSize := h.n
  have hdone : ¬ f.offset k < l.n → ∀ p i, k ≤ p → f.inst? p = some i → i.HasLabel →
      addresses i.target ≠ none := by
    intro hend p i hkp hi
    have := Function.offset_lt_codeSize hi
    have := Function.offset_mono (f := f) hkp
    omega
  induction fuel generalizing k addresses with
  | zero =>
    unfold resolve
    have hend : ¬ f.offset k < l.n := by omega
    rw [if_neg hend]
    exact .inr ⟨addresses, rfl, ha, hdone hend, fun _ h => h⟩
  | succ fuel ih =>
    unfold resolve
    by_cases hlt : f.offset k < l.n
    swap
    · rw [if_neg hlt]
      exact .inr ⟨addresses, rfl, ha, hdone hlt, fun _ h => h⟩
    obtain ⟨q, i, hq⟩ := Function.exists_inst_of_offset_lt (hn ▸ hlt)
    have hmem := (h.insn q i (Function.lt_length hq.inst) hq.inst).2.2.1
    rw [hq.offset_eq] at hmem
    rw [if_pos hlt]
    simp only [hmem, hq.inst, assert_pos, ok_bind]
    rcases resolveInst_spec hf h i ha with herr | ⟨addresses₁, h₁, ha₁, htarget, hkeep⟩
    · rw [herr]
      exact .inl rfl
    have hnext : f.offset k + i.size.bytes = f.offset (q + 1) := by
      rw [Function.offset_inst hq.inst, hq.offset_eq]
    have hsize := i.size.bytes_pos
    rw [h₁, ok_bind, hnext]
    have hdone' : ¬ f.offset (q + 1) < l.n → ∀ p i, q + 1 ≤ p → f.inst? p = some i → i.HasLabel →
        addresses₁ i.target ≠ none := by
      intro hend p i hqp hi
      have := Function.offset_lt_codeSize hi
      have := Function.offset_mono (f := f) hqp
      omega
    rcases ih (by omega) ha₁ hdone' with herr | ⟨addresses', h', ha', hall, hkeep'⟩
    · exact .inl herr
    · refine .inr ⟨addresses', h', ha', ?_, fun name hname => hkeep' name (hkeep name hname)⟩
      intro p j hkp hj hlabel
      rcases Nat.lt_trichotomy p q with hpq | rfl | hqp
      · obtain ⟨name, hname⟩ := hq.labels p hkp hpq
        rw [Function.inst?_eq_none_of_label hname] at hj
        cases hj
      · obtain rfl := Option.some.inj (hq.inst.symm.trans hj)
        exact hkeep' _ (htarget hlabel)
      · exact hall p j hqp hj hlabel

end Resolve

/-! ## A sequence of calls -/

namespace Program

/-- What holds of a function that has been assembled. -/
structure Good (f : Function) (fid : FuncId) (fresh : Nat → Slot) (s : Program) (a : Assembled) :
    Prop where
  aligned : a.startPC % maxInstSize = 0
  size : a.instrMemSize = maxInstSize * (f.items.length + 1)
  end_le : a.startPC + f.codeSize ≤ s.nextPC
  insn : ∀ p i, f.inst? p = some i →
    a.placed p = some (a.startPC + f.offset p, f.offset p) ∧
      s.insns[a.startPC + f.offset p]? = some (some (fid, p)) ∧
      a.instrMem (f.offset p) = some (fid, p) ∧ s.finfo (a.startPC + f.offset p) = some fid
  placedElse : ∀ p pc j, a.placed p = some (pc, j) → ∃ i, f.inst? p = some i ∧ j = f.offset p
  memElse : ∀ j r, j < f.codeSize → a.instrMem j = some r →
    r.1 = fid ∧ ∃ i, f.inst? r.2 = some i ∧ j = f.offset r.2
  memTail : ∀ j, f.codeSize ≤ j → a.instrMem j = fresh j
  labels : ∀ name j, a.labels name = some j ↔
    ∃ p < f.items.length, f.items[p]? = some (.label name) ∧ j = f.offset p
  addresses : f.Followed → ∀ p i, f.inst? p = some i → i.HasLabel → ∃ q, f.LabelOf i.target q ∧
    a.addresses i.target = some (a.startPC + f.offset q)

/-- What holds between two calls of `ptx_assemble`. -/
structure Inv (code : FuncId → Function) (fresh : FuncId → Nat → Slot) (s : Program) : Prop where
  length : s.insns.length = s.nextPC
  aligned : s.nextPC % 4 = 0
  good : ∀ fid a, s.funcs fid = some a → Good (code fid) fid (fresh fid) s a
  disjoint : ∀ fid gid a b, fid ≠ gid → s.funcs fid = some a → s.funcs gid = some b →
    a.startPC + (code fid).codeSize ≤ b.startPC ∨ b.startPC + (code gid).codeSize ≤ a.startPC
  insnsElse : ∀ pc r, s.insns[pc]? = some (some r) → ∃ a i, s.funcs r.1 = some a ∧
    (code r.1).inst? r.2 = some i ∧ pc = a.startPC + (code r.1).offset r.2

variable {code : FuncId → Function} {fresh : FuncId → Nat → Slot} {s : Program} {fid : FuncId}

theorem inv_init : Inv code fresh init where
  length := rfl
  aligned := rfl
  good _ _ h := absurd h (by simp [init])
  disjoint _ _ _ _ _ h := absurd h (by simp [init])
  insnsElse _ _ h := absurd h (by simp [init])

/-- The layout with which the loop over a function starts. -/
def start (s : Program) (fresh : Nat → Slot) : Layout where
  pc := s.nextPC + s.nextPC % maxInstSize
  n := 0
  insns := s.insns ++ List.replicate (s.nextPC % maxInstSize) none
  finfo := s.finfo
  mem := fresh
  labels := fun _ => none
  placed := fun _ => none

theorem placed_start (h : s.insns.length = s.nextPC) {f : Function} {fresh : Nat → Slot} :
    Placed f fid (s.nextPC + s.nextPC % maxInstSize)
      (s.insns ++ List.replicate (s.nextPC % maxInstSize) none) s.finfo fresh 0 (s.start fresh) where
  pc := rfl
  n := rfl
  length := by simp [start, h]
  before _ _ := rfl
  insn _ _ hp := absurd hp (Nat.not_lt_zero _)
  finfo _ _ := rfl
  insnsElse pc r hpc hr := by
    have hlt := (List.getElem?_eq_some_iff.mp hr).1
    simp only [start, List.length_append, List.length_replicate] at hlt
    omega
  memElse _ _ hj := absurd hj (Nat.not_lt_zero _)
  memTail _ _ := rfl
  labels name j := by
    constructor
    · intro h
      cases h
    · rintro ⟨p, hp, -⟩
      exact absurd hp (Nat.not_lt_zero p)
  placedElse _ _ _ h := absurd h (by simp [start])

theorem getElem?_padded {pc : Nat} {r : InstRef} (m : Nat) :
    (s.insns ++ List.replicate m none)[pc]? = some (some r) ↔ s.insns[pc]? = some (some r) := by
  by_cases hlt : pc < s.insns.length
  · rw [List.getElem?_append_left hlt]
  · rw [List.getElem?_append_right (by omega), List.getElem?_eq_none (by omega : s.insns.length ≤ pc),
      List.getElem?_replicate]
    split <;> simp

/-- The program with one more function. -/
def extend (code : FuncId → Function) (s : Program) (fid : FuncId) (l : Layout)
    (addresses : String → Option Nat) : Program where
  nextPC := l.pc
  insns := l.insns
  finfo := l.finfo
  funcs := update s.funcs fid (some {
    startPC := s.nextPC + s.nextPC % maxInstSize
    instrMemSize := maxInstSize * ((code fid).items.length + 1)
    instrMem := l.mem
    labels := l.labels
    placed := l.placed
    addresses := addresses })

theorem ptxAssemble_eq (hf : s.funcs fid = none) :
    s.ptxAssemble code fresh fid = (do
      let l ← placeItems fid 0 (code fid).items (s.start (fresh fid))
      let addresses ← resolve (code fid) fid l l.n 0 fun _ => none
      .ok (s.extend code fid l addresses)) := by
  unfold ptxAssemble
  rw [hf]
  rfl

section Extend

variable {l : Layout} {addresses : String → Option Nat}

theorem Good.extend {gid : FuncId} {a : Assembled} (h : Good (code gid) gid (fresh gid) s a)
    (hp : Placed (code fid) fid (s.nextPC + s.nextPC % maxInstSize)
      (s.insns ++ List.replicate (s.nextPC % maxInstSize) none) s.finfo (fresh fid)
      (code fid).items.length l) :
    Good (code gid) gid (fresh gid) (s.extend code fid l addresses) a where
  aligned := h.aligned
  size := h.size
  end_le := by
    have := h.end_le
    have := hp.pc
    show _ ≤ l.pc
    omega
  insn p i hi := by
    obtain ⟨hplaced, hinsn, hmem, hfinfo⟩ := h.insn p i hi
    have hend := h.end_le
    have hlt := Function.offset_lt_codeSize hi
    refine ⟨hplaced, ?_, hmem, ?_⟩
    · show l.insns[_]? = _
      rw [hp.before _ (by omega)]
      exact (getElem?_padded _).mpr hinsn
    · show l.finfo _ = _
      rw [hp.finfo _ (by omega)]
      exact hfinfo
  placedElse := h.placedElse
  memElse := h.memElse
  memTail := h.memTail
  labels := h.labels
  addresses := h.addresses

theorem good_new (hmod : s.nextPC % 4 = 0)
    (hp : Placed (code fid) fid (s.nextPC + s.nextPC % maxInstSize)
      (s.insns ++ List.replicate (s.nextPC % maxInstSize) none) s.finfo (fresh fid)
      (code fid).items.length l)
    (haddr : (code fid).Followed →
      AddressesOk (code fid) (s.nextPC + s.nextPC % maxInstSize) addresses ∧
        ∀ p i, 0 ≤ p → (code fid).inst? p = some i → i.HasLabel → addresses i.target ≠ none) :
    Good (code fid) fid (fresh fid) (s.extend code fid l addresses) {
      startPC := s.nextPC + s.nextPC % maxInstSize
      instrMemSize := maxInstSize * ((code fid).items.length + 1)
      instrMem := l.mem
      labels := l.labels
      placed := l.placed
      addresses := addresses } where
  aligned := by
    show (s.nextPC + s.nextPC % maxInstSize) % maxInstSize = 0
    unfold maxInstSize
    omega
  size := rfl
  end_le := hp.pc.ge
  insn p i hi := hp.insn p i (Function.lt_length hi) hi
  placedElse p pc j hj := by
    obtain ⟨i, -, hi, -, rfl⟩ := hp.placedElse p pc j hj
    exact ⟨i, hi, rfl⟩
  memElse j r hj hr := by
    obtain ⟨hf, -, hi⟩ := hp.memElse j r hj hr
    exact ⟨hf, hi⟩
  memTail := hp.memTail
  labels := hp.labels
  addresses hf p i hi hlabel := by
    obtain ⟨haddr, hall⟩ := haddr hf
    obtain ⟨pc, hpc⟩ := Option.ne_none_iff_exists'.mp (hall p i (Nat.zero_le p) hi hlabel)
    obtain ⟨q, hq, rfl⟩ := haddr _ _ hpc
    exact ⟨q, hq, hpc⟩

theorem Inv.extend (h : Inv code fresh s) (hf : s.funcs fid = none)
    (hp : Placed (code fid) fid (s.nextPC + s.nextPC % maxInstSize)
      (s.insns ++ List.replicate (s.nextPC % maxInstSize) none) s.finfo (fresh fid)
      (code fid).items.length l)
    (haddr : (code fid).Followed →
      AddressesOk (code fid) (s.nextPC + s.nextPC % maxInstSize) addresses ∧
        ∀ p i, 0 ≤ p → (code fid).inst? p = some i → i.HasLabel → addresses i.target ≠ none) :
    Inv code fresh (s.extend code fid l addresses) where
  length := hp.length
  aligned := by
    have hoff := (code fid).offset_mod (code fid).items.length
    have hpc := hp.pc
    have hmod := h.aligned
    unfold maxInstSize at hpc
    show l.pc % 4 = 0
    omega
  good gid a ha := by
    have ha : update s.funcs fid _ gid = some a := ha
    by_cases hgf : gid = fid
    · subst hgf
      rw [update_self] at ha
      obtain rfl := Option.some.inj ha
      exact good_new h.aligned hp haddr
    · rw [update_of_ne hgf] at ha
      exact (h.good gid a ha).extend hp
  disjoint g₁ g₂ a b hne ha hb := by
    have ha : update s.funcs fid _ g₁ = some a := ha
    have hb : update s.funcs fid _ g₂ = some b := hb
    by_cases h₁ : g₁ = fid
    · subst h₁
      rw [update_self] at ha
      rw [update_of_ne hne.symm] at hb
      obtain rfl := Option.some.inj ha
      have hend := (h.good g₂ b hb).end_le
      right
      show _ ≤ s.nextPC + s.nextPC % maxInstSize
      omega
    · by_cases h₂ : g₂ = fid
      · subst h₂
        rw [update_self] at hb
        rw [update_of_ne h₁] at ha
        obtain rfl := Option.some.inj hb
        have hend := (h.good g₁ a ha).end_le
        left
        show _ ≤ s.nextPC + s.nextPC % maxInstSize
        omega
      · rw [update_of_ne h₁] at ha
        rw [update_of_ne h₂] at hb
        exact h.disjoint g₁ g₂ a b hne ha hb
  insnsElse pc r hr := by
    have hr : l.insns[pc]? = some (some r) := hr
    show ∃ a i, update s.funcs fid _ r.1 = some a ∧ _
    by_cases hpc : pc < s.nextPC + s.nextPC % maxInstSize
    · rw [hp.before pc hpc] at hr
      obtain ⟨a, i, ha, hrest⟩ := h.insnsElse pc r ((getElem?_padded _).mp hr)
      refine ⟨a, i, ?_, hrest⟩
      rw [update_of_ne]
      · exact ha
      · intro heq
        rw [heq, hf] at ha
        cases ha
    · obtain ⟨hrf, -, i, hi, hpceq⟩ := hp.insnsElse pc r (by omega) hr
      obtain ⟨g, p⟩ := r
      obtain rfl : g = fid := hrf
      exact ⟨_, i, update_self .., hi, hpceq⟩

end Extend

theorem addressesOk_none (f : Function) (start : Nat) : AddressesOk f start fun _ => none :=
  fun _ _ h => by cases h

/-- **A call of `ptx_assemble`** keeps the invariant. -/
theorem Inv.ptxAssemble (h : Inv code fresh s) {s' : Program}
    (hs : s.ptxAssemble code fresh fid = .ok s') : Inv code fresh s' := by
  cases hf : s.funcs fid with
  | some a =>
    unfold Program.ptxAssemble at hs
    rw [hf] at hs
    obtain rfl := Except.ok.inj hs
    exact h
  | none =>
    obtain ⟨l, hl, hp⟩ := Placed.run (placed_start (f := code fid) h.length) (Nat.zero_le _)
    have hl : placeItems fid 0 (code fid).items (s.start (fresh fid)) = .ok l := hl
    rw [ptxAssemble_eq hf, hl, ok_bind] at hs
    obtain ⟨addresses, hr, hs⟩ := bind_eq_ok.mp hs
    obtain rfl := Except.ok.inj hs
    refine h.extend hf hp fun hfollowed => ?_
    rcases resolve_spec hfollowed hp (k := 0) (Nat.le_add_left _ _) (addressesOk_none _ _) with
      herr | ⟨addresses', hr', haddr, hall, -⟩
    · cases herr.symm.trans hr
    · obtain rfl := Except.ok.inj (hr'.symm.trans hr)
      exact ⟨haddr, hall⟩

theorem Inv.ptxAssemble_error (h : Inv code fresh s) (hfollowed : (code fid).Followed)
    {e : AssembleFault} (hs : s.ptxAssemble code fresh fid = .error e) : e = .branchLabel := by
  cases hf : s.funcs fid with
  | some a =>
    unfold Program.ptxAssemble at hs
    rw [hf] at hs
    cases hs
  | none =>
    obtain ⟨l, hl, hp⟩ := Placed.run (placed_start (f := code fid) h.length) (Nat.zero_le _)
    have hl : placeItems fid 0 (code fid).items (s.start (fresh fid)) = .ok l := hl
    rw [ptxAssemble_eq hf, hl, ok_bind] at hs
    rcases resolve_spec hfollowed hp (k := 0) (Nat.le_add_left _ _) (addressesOk_none _ _) with
      herr | ⟨addresses, hr, -⟩
    · have herr : resolve (code fid) fid l l.n 0 (fun _ => none) = .error .branchLabel := herr
      rw [herr] at hs
      exact (Except.error.inj hs).symm
    · have hr : resolve (code fid) fid l l.n 0 (fun _ => none) = .ok addresses := hr
      rw [hr] at hs
      cases hs

/-- **A sequence of calls** keeps it, too. -/
theorem Inv.assembleAll (h : Inv code fresh s) {fids : List FuncId} {s' : Program}
    (hs : s.assembleAll code fresh fids = .ok s') : Inv code fresh s' := by
  induction fids generalizing s with
  | nil =>
    obtain rfl := Except.ok.inj hs
    exact h
  | cons fid fids ih =>
    obtain ⟨s₁, hs₁, hs⟩ := bind_eq_ok.mp hs
    exact ih (h.ptxAssemble hs₁) hs

theorem Inv.assembleAll_error (h : Inv code fresh s) (hfollowed : ∀ fid, (code fid).Followed)
    {fids : List FuncId} {e : AssembleFault} (hs : s.assembleAll code fresh fids = .error e) :
    e = .branchLabel := by
  induction fids generalizing s with
  | nil => cases hs
  | cons fid fids ih =>
    rcases bind_eq_error.mp hs with hs | ⟨s₁, hs₁, hs⟩
    · exact h.ptxAssemble_error (hfollowed fid) hs
    · exact ih (h.ptxAssemble hs₁) hs

end Program

end GpgpuSimRuby.Ptx
