import GpgpuSimRuby.Library.Fault
import GpgpuSimRuby.Ptx.GenericAddress

/-!
# Warp instructions

A `warp_inst_t` from the decoder to the pipeline: what `pre_decode` makes of the opcode, the functional
execution of the lanes by `ptx_exec_inst`, which predicates lanes off and registers the callbacks of
atomics, and the accesses that `generate_mem_accesses` may split the instruction into.
-/

namespace GpgpuSimRuby.Shader

open Library Ptx

/-! ## Decoded instructions -/

/-- The opcodes that the memory pipeline tells apart. A `mov` with a memory operand is one of
PTXPlus. -/
inductive Opcode where
  | ld | ldu | st | atom | tex | movLoad | movStore | membar | other
  deriving DecidableEq, Repr

/-- `op_type`, with everything that does not go to the `ldst_unit` in one class. -/
inductive OpType where
  | load | store | memoryBarrier | alu
  deriving DecidableEq, Repr

inductive CacheOperator where
  | undefined | all | lastUse | volatile | streaming | global | writeBack | writeThrough
  deriving DecidableEq, Repr

/-- A decoded instruction. `out` has the positive entries of `out[4]`, and `uses` those of the source,
predicate and address registers. Stores and barriers write no register, a barrier names no space, the
syntax of `atom` has no cache operator, and no option stands for the undefined one. -/
structure Inst where
  pc : Nat
  opcode : Opcode
  spaceSpec : MemorySpace
  cacheOption : Option CacheOperator
  out : List Nat
  uses : List Nat
  out_nil : opcode = .st ∨ opcode = .movStore ∨ opcode = .membar → out = []
  spaceSpec_membar : opcode = .membar → spaceSpec = .undefined
  cacheOption_atom : opcode = .atom → cacheOption = none
  cacheOption_ne : cacheOption ≠ some .undefined
  deriving DecidableEq

namespace Inst

variable (i : Inst)

/-- `set_opcode_and_latency`. -/
def op : OpType :=
  match i.opcode with
  | .ld | .ldu | .atom | .tex | .movLoad => .load
  | .st | .movStore => .store
  | .membar => .memoryBarrier
  | .other => .alu

/-- The cache operator that `pre_decode` settles on. -/
def cacheOp : CacheOperator :=
  match i.cacheOption with
  | some c => c
  | none =>
    match i.opcode with
    | .ld | .ldu => .all
    | .st => .writeBack
    | .atom => .global
    | _ => .undefined

def isLoad : Bool := i.op = .load
def isStore : Bool := i.op = .store
def isMembar : Bool := i.op = .memoryBarrier

/-- Is the instruction one that `ptx_exec_inst` takes the address and the space of a thread's last
access for? -/
def hasMemoryAccess : Bool := i.isLoad || i.isStore

theorem out_eq_nil (h : i.op ≠ .load) (h' : i.op ≠ .alu) : i.out = [] := by
  apply i.out_nil
  unfold op at h h'
  cases hop : i.opcode <;> simp_all

theorem cacheOp_atom (h : i.opcode = .atom) : i.cacheOp = .global := by
  unfold cacheOp
  rw [i.cacheOption_atom h, h]

theorem isLoad_iff : i.isLoad = true ↔ i.op = .load := by simp [isLoad]

theorem isStore_eq_false_of_isLoad (h : i.isLoad = true) : i.isStore = false := by
  have hop := i.isLoad_iff.mp h
  simp [isStore, hop]

theorem isLoad_of_atom (h : i.opcode = .atom) : i.isLoad = true := by
  simp [isLoad, op, h]

end Inst

/-! ## Functional execution -/

inductive Fault where
  /-- `reserveRegister` of a register that is reserved already -/
  | alreadyReserved
  /-- an atomic on a generic address outside the global and shared windows -/
  | atomSpace
  /-- `generic_to_shared` of an address in another SM's window -/
  | sharedWindow
  /-- `assert( inst.space == last_space() )` of a texture instruction -/
  | texSpace
  /-- `generate_mem_accesses` has no case for the space -/
  | accessSpace
  /-- `do_atomic` of an instruction that is no atomic -/
  | notAtomic
  /-- `do_atomic` of a lane without a callback function -/
  | nullCallback
  /-- `assert( !inst.accessq_empty() )` of `memory_cycle` -/
  | emptyAccessq
  /-- `assert( CACHE_UNDEFINED != inst.cache_op )` of `memory_cycle` -/
  | undefinedCacheOp
  /-- a check that `m_pending_writes` is positive, or its decrement at zero -/
  | noPendingWrite
  /-- `warp_clear_mem_barrier` of a warp that does not wait at one -/
  | noMembar
  /-- `dec_store_req` without an outstanding store -/
  | noStore
  /-- `decrement_atomic_count` below zero -/
  | atomicUnderflow
  deriving DecidableEq, Repr

/-- What the functional model of a thread has left behind: `last_space()` and the instruction of
`last_callback()`. -/
structure Thread where
  lastSpace : MemorySpace
  lastCallback : Option Nat
  deriving DecidableEq, Repr

/-- A lane of the issued mask: the value of its guard, the address operand of an atomic, and the space
that executing a load, a store or a `mov` leaves in `last_space()`. -/
structure Lane where
  id : Nat
  guard : Bool
  addr : Addr
  space : MemorySpace
  deriving DecidableEq, Repr

/-- A dynamic warp instruction, `space` being what the lanes have made of the specifier. A callback is
the instruction to call back, `none` for a null function. -/
structure WarpInst extends Inst where
  space : MemorySpace
  uid : Nat
  warp : Nat
  active : Finset Nat
  callbacks : List (Nat × Option Nat)
  isatomic : Bool
  perScalarThreadValid : Bool
  deriving DecidableEq

/-- A run of an atomic's callback for a lane of a warp instruction. -/
structure Callback where
  uid : Nat
  lane : Nat
  pc : Nat
  deriving DecidableEq, Repr

namespace WarpInst

variable (w : WarpInst)

/-- `issue` on a copy of the decoded instruction. -/
def issue (i : Inst) (warp uid : Nat) (mask : Finset Nat) : WarpInst where
  toInst := i
  space := i.spaceSpec
  uid := uid
  warp := warp
  active := mask
  callbacks := []
  isatomic := false
  perScalarThreadValid := false

def setNotActive (lane : Nat) : WarpInst := { w with active := w.active.erase lane }

/-- `add_callback`: the first one makes the instruction an atomic. -/
def addCallback (lane : Nat) (callback : Option Nat) : WarpInst :=
  { w with
    isatomic := if w.perScalarThreadValid then w.isatomic else true
    perScalarThreadValid := true
    callbacks := (lane, callback) :: w.callbacks }

def setAddr : WarpInst := { w with perScalarThreadValid := true }

/-- The callback of a lane, `none` when the thread of the callback is null. -/
def callback (lane : Nat) : Option (Option Nat) := w.callbacks.lookup lane

def hasCallback (lane : Nat) : Bool :=
  lane ∈ w.active && w.perScalarThreadValid &&
    match w.callback lane with
    | some (some _) => true
    | _ => false

/-- `do_atomic` on the lanes of an access mask. -/
def doAtomic (mask : Finset Nat) : Except Fault (Multiset Callback) := do
  assert (w.isatomic = true) .notAtomic
  assert (∀ lane ∈ mask, w.callback lane ≠ some none) .nullCallback
  .ok (mask.val.filterMap fun lane => (w.callback lane).bind fun f => f.map (⟨w.uid, lane, ·⟩))

end WarpInst

/-- The space of an atomic, with generic addresses converted to the window that they are in. -/
def atomSpace (smid : Addr) (i : Inst) (addr : Addr) : Except Fault MemorySpace :=
  if i.spaceSpec = .undefined then
    match whichspace addr with
    | .global => .ok .global
    | .shared =>
      match genericToShared smid addr with
      | .ok _ => .ok .shared
      | .error _ => .error .sharedWindow
    | _ => .error .atomSpace
  else .ok i.spaceSpec

/-- `atom_impl`, as far as the pipeline sees it. -/
def atomImpl (smid : Addr) (i : Inst) (addr : Addr) : Except Fault Thread := do
  let space ← atomSpace smid i addr
  assert (space = .global ∨ space = .shared) .atomSpace
  .ok { lastSpace := space, lastCallback := some i.pc }

/-- A warp in the middle of `execute_warp_inst_t`. -/
structure Exec where
  inst : WarpInst
  threads : Nat → Thread
  nAtomic : Nat

namespace Exec

variable (smid : Addr) (i : Inst) (x : Exec) (l : Lane)

/-- The thread of a lane after the instruction, which is skipped where the guard fails. -/
def execute : Except Fault Thread :=
  if l.guard = false then .ok (x.threads l.id)
  else if i.opcode = .atom then atomImpl smid i l.addr
  else if i.opcode = .tex then .ok { x.threads l.id with lastSpace := .tex }
  else if i.hasMemoryAccess then .ok { x.threads l.id with lastSpace := l.space }
  else .ok (x.threads l.id)

/-- `ptx_exec_inst` for a lane. A skipped lane of an atomic registers whatever callback its thread
still holds. -/
def ptxExecInst : Except Fault Exec := do
  let thread ← x.execute smid i l
  let inst := if l.guard then x.inst else x.inst.setNotActive l.id
  let inst := if i.opcode = .atom then inst.addCallback l.id thread.lastCallback else inst
  assert (i.opcode = .tex → inst.space = thread.lastSpace) .texSpace
  let inst := if i.opcode = .tex then inst.setAddr else inst
  let insnSpace := if i.hasMemoryAccess then thread.lastSpace else .undefined
  .ok { x with
    inst := if l.guard then { inst.setAddr with space := insnSpace } else inst
    threads := Function.update x.threads l.id thread }

/-- `checkExecutionStatusAndUpdate` for a lane. -/
def checkExecutionStatusAndUpdate : Exec :=
  { x with nAtomic := if x.inst.hasCallback l.id then x.nAtomic + 1 else x.nAtomic }

/-- `execute_warp_inst_t` on the lanes of the issued mask. -/
def executeWarpInst (lanes : List Lane) (x : Exec) : Except Fault Exec :=
  lanes.foldlM (fun x l => do
    let x ← x.ptxExecInst smid i l
    .ok (x.checkExecutionStatusAndUpdate l)) x

end Exec

/-! ## Accesses -/

/-- The spaces that `generate_mem_accesses` fills an access queue for. -/
def MemorySpaces : List MemorySpace :=
  [.const, .paramKernel, .tex, .global, .local, .paramLocal]

namespace WarpInst

variable (w : WarpInst)

/-- Does `generate_mem_accesses` look at the space of the instruction? -/
def GeneratesAccesses : Prop := (w.isLoad ∨ w.isStore) ∧ w.active ≠ ∅

instance : Decidable w.GeneratesAccesses := inferInstanceAs (Decidable (_ ∧ _))

/-- The access queues, as masks of lanes, that `generate_mem_accesses` may fill for some addresses of
the lanes. The transactions of an atomic have one access of each of its lanes. -/
def MemAccesses (accessq : List (Finset Nat)) : Prop :=
  if w.GeneratesAccesses ∧ w.space ≠ .shared then
    (∀ mask ∈ accessq, mask ≠ ∅ ∧ mask ⊆ w.active) ∧
    (∀ lane ∈ w.active, ∃ mask ∈ accessq, lane ∈ mask) ∧
      (w.isatomic → accessq.Pairwise Disjoint)
  else accessq = []

instance (accessq : List (Finset Nat)) : Decidable (w.MemAccesses accessq) := by
  unfold MemAccesses
  infer_instance

end WarpInst

/-! ## What the lanes leave behind -/

theorem atomImpl_ok {smid : Addr} {i : Inst} {addr : Addr} {th : Thread} (h : atomImpl smid i addr = .ok th) :
    th.lastCallback = some i.pc ∧ (th.lastSpace = .global ∨ th.lastSpace = .shared) := by
  unfold atomImpl at h
  obtain ⟨space, -, h⟩ := bind_eq_ok.mp h
  obtain ⟨_, hs, h⟩ := bind_eq_ok.mp h
  cases h
  exact ⟨rfl, assert_eq_ok.mp hs⟩

/-- The spaces that executing a lane may leave in `last_space()`. -/
def Inst.Leaves (i : Inst) (l : Lane) (space : MemorySpace) : Prop :=
  match i.opcode with
  | .atom => space = .global ∨ space = .shared
  | .tex => space = .tex
  | _ => space = l.space

theorem execute_ok {smid : Addr} {i : Inst} {x : Exec} {l : Lane} {th : Thread} (hg : l.guard = true)
    (hmem : i.hasMemoryAccess = true) (h : x.execute smid i l = .ok th) :
    i.Leaves l th.lastSpace ∧ (i.opcode = .atom → th.lastCallback = some i.pc) := by
  unfold Exec.execute at h
  rw [if_neg (by simp [hg])] at h
  unfold Inst.Leaves
  by_cases hatom : i.opcode = .atom
  · rw [if_pos hatom] at h
    obtain ⟨hc, hs⟩ := atomImpl_ok h
    rw [hatom]
    exact ⟨hs, fun _ => hc⟩
  rw [if_neg hatom] at h
  by_cases htex : i.opcode = .tex
  · rw [if_pos htex] at h
    cases h
    rw [htex]
    exact ⟨rfl, fun h => by cases h⟩
  rw [if_neg htex, if_pos hmem] at h
  cases h
  refine ⟨?_, fun h => absurd h hatom⟩
  split
  · exact absurd ‹_› hatom
  · exact absurd ‹_› htex
  · rfl

/-- The lanes `done` of the instruction `w₀`, issued as `i`, have been executed and the lanes `rest`
have not. -/
structure Partial (i : Inst) (w₀ : WarpInst) (n₀ : Nat) (done rest : List Lane) (x : Exec) : Prop where
  frame : x.inst = { w₀ with
    space := x.inst.space
    active := x.inst.active
    callbacks := x.inst.callbacks
    isatomic := x.inst.isatomic
    perScalarThreadValid := x.inst.perScalarThreadValid }
  active : x.inst.active = ((done.filter (·.guard) ++ rest).map (·.id)).toFinset
  atomic : i.opcode = .atom → x.inst.isatomic = x.inst.perScalarThreadValid ∧
    (x.inst.isatomic = true ↔ done ≠ [])
  plain : i.opcode ≠ .atom → x.inst.isatomic = false ∧ x.inst.callbacks = []
  spaceSpec : i.hasMemoryAccess = false → x.inst.space = w₀.space ∨ x.inst.space = .undefined
  callback : i.opcode = .atom → ∀ l ∈ done, l.guard = true →
    x.inst.callback l.id = some (some i.pc)
  space : i.hasMemoryAccess = true → (∃ l ∈ done, l.guard = true) →
    ∃ l ∈ done, l.guard = true ∧ i.Leaves l x.inst.space
  nAtomic : x.nAtomic = n₀ + if i.opcode = .atom then (done.filter (·.guard)).length else 0

namespace Partial

variable {smid : Addr} {i : Inst} {w₀ : WarpInst} {n₀ : Nat} {done rest : List Lane} {l : Lane}
  {x y : Exec}

theorem not_mem_of_nodup (hnodup : ((done ++ l :: rest).map (·.id)).Nodup) :
    (∀ k ∈ done, k.id ≠ l.id) ∧ ∀ k ∈ rest, k.id ≠ l.id := by
  rw [List.map_append, List.map_cons, List.nodup_middle, List.nodup_cons, ← List.map_append] at hnodup
  have hl : ∀ k ∈ done ++ rest, k.id ≠ l.id := by
    intro k hk hkl
    exact hnodup.1 (hkl ▸ List.mem_map_of_mem hk)
  exact ⟨fun k hk => hl k (List.mem_append_left _ hk), fun k hk => hl k (List.mem_append_right _ hk)⟩

theorem active_erase (hnodup : ((done ++ l :: rest).map (·.id)).Nodup) :
    (((done.filter (·.guard) ++ l :: rest).map (·.id)).toFinset).erase l.id =
      ((done.filter (·.guard) ++ rest).map (·.id)).toFinset := by
  obtain ⟨hd, hr⟩ := not_mem_of_nodup hnodup
  ext t
  simp only [List.map_append, List.map_cons, Finset.mem_erase, List.mem_toFinset, List.mem_append,
    List.mem_map, List.mem_filter, List.mem_cons]
  constructor
  · rintro ⟨hne, ht | rfl | ht⟩
    · exact .inl ht
    · exact absurd rfl hne
    · exact .inr ht
  · rintro (⟨k, hk, rfl⟩ | ⟨k, hk, rfl⟩)
    · exact ⟨hd k hk.1, .inl ⟨k, hk, rfl⟩⟩
    · exact ⟨hr k hk, .inr (.inr ⟨k, hk, rfl⟩)⟩

theorem ptxExecInst_ok (h : x.ptxExecInst smid i l = .ok y) :
    ∃ thread, x.execute smid i l = .ok thread ∧ y.nAtomic = x.nAtomic ∧
      y.threads = Function.update x.threads l.id thread ∧
      y.inst = { x.inst with
        space := if l.guard then if i.hasMemoryAccess then thread.lastSpace else .undefined
          else x.inst.space
        active := if l.guard then x.inst.active else x.inst.active.erase l.id
        callbacks := if i.opcode = .atom then (l.id, thread.lastCallback) :: x.inst.callbacks
          else x.inst.callbacks
        isatomic := if i.opcode = .atom ∧ x.inst.perScalarThreadValid = false then true
          else x.inst.isatomic
        perScalarThreadValid := decide (i.opcode = .atom ∨ i.opcode = .tex ∨ l.guard = true) ||
          x.inst.perScalarThreadValid } := by
  unfold Exec.ptxExecInst at h
  obtain ⟨thread, hthread, h⟩ := bind_eq_ok.mp h
  obtain ⟨_, -, h⟩ := bind_eq_ok.mp h
  cases h
  refine ⟨thread, hthread, rfl, rfl, ?_⟩
  by_cases hg : l.guard = true <;> by_cases hatom : i.opcode = .atom <;>
    by_cases htex : i.opcode = .tex <;> by_cases hv : x.inst.perScalarThreadValid = true <;>
    simp [hg, hatom, htex, hv, WarpInst.setNotActive, WarpInst.addCallback, WarpInst.setAddr]

theorem step (hp : Partial i w₀ n₀ done (l :: rest) x)
    (hnodup : ((done ++ l :: rest).map (·.id)).Nodup) (h : x.ptxExecInst smid i l = .ok y) :
    Partial i w₀ n₀ (done ++ [l]) rest (y.checkExecutionStatusAndUpdate l) := by
  obtain ⟨hd, hr⟩ := not_mem_of_nodup hnodup
  obtain ⟨thread, hthread, hn, -, hy⟩ := ptxExecInst_ok h
  have hactive := active_erase hnodup
  rw [← hp.active] at hactive
  have hmem : l.id ∈ x.inst.active := by
    rw [hp.active]
    simp
  have hcallback : i.opcode = .atom → ∀ k ∈ done, k.guard = true →
      y.inst.callback k.id = some (some i.pc) := by
    intro hatom k hk hkg
    have hne : (k.id == l.id) = false := by simpa using hd k hk
    rw [hy]
    simp only [WarpInst.callback, hatom, if_true, List.lookup_cons, hne]
    exact hp.callback hatom k hk hkg
  have hload : i.opcode = .atom → i.hasMemoryAccess = true := by
    intro hatom
    simp [Inst.hasMemoryAccess, i.isLoad_of_atom hatom]
  have hself : i.opcode = .atom → l.guard = true → y.inst.callback l.id = some (some i.pc) := by
    intro hatom hg
    rw [hy]
    simp [WarpInst.callback, hatom, (execute_ok hg (hload hatom) hthread).2 hatom]
  constructor
  · show y.inst = { w₀ with
      space := y.inst.space
      active := y.inst.active
      callbacks := y.inst.callbacks
      isatomic := y.inst.isatomic
      perScalarThreadValid := y.inst.perScalarThreadValid }
    rw [hy, hp.frame]
  · show y.inst.active = _
    rw [hy]
    cases hg : l.guard with
    | false => simpa [hg] using hactive
    | true => simpa [hg] using hp.active
  · intro hatom
    obtain ⟨hvalid, hdone⟩ := hp.atomic hatom
    show y.inst.isatomic = y.inst.perScalarThreadValid ∧ (y.inst.isatomic = true ↔ _)
    rw [hy]
    cases hv : x.inst.perScalarThreadValid <;> simp [hatom, hv, hvalid]
  · intro hatom
    show y.inst.isatomic = false ∧ y.inst.callbacks = []
    rw [hy]
    simpa [hatom] using hp.plain hatom
  · intro hacc
    show y.inst.space = _ ∨ y.inst.space = _
    rw [hy]
    cases hg : l.guard with
    | false => simpa [hg] using hp.spaceSpec hacc
    | true => simp [hacc]
  · intro hatom k hk hkg
    show y.inst.callback k.id = _
    rcases List.mem_append.mp hk with hk | hk
    · exact hcallback hatom k hk hkg
    · cases List.mem_singleton.mp hk
      exact hself hatom hkg
  · intro hmem ⟨k, hk, hkg⟩
    show ∃ k ∈ done ++ [l], k.guard = true ∧ i.Leaves k y.inst.space
    cases hg : l.guard with
    | false =>
      have hk' : k ∈ done := by
        rcases List.mem_append.mp hk with hk | hk
        · exact hk
        · rw [List.mem_singleton.mp hk, hg] at hkg
          cases hkg
      obtain ⟨j, hj, hjg, hleaves⟩ := hp.space hmem ⟨k, hk', hkg⟩
      refine ⟨j, List.mem_append_left _ hj, hjg, ?_⟩
      rw [hy]
      simpa [hg] using hleaves
    | true =>
      refine ⟨l, by simp, hg, ?_⟩
      rw [hy]
      simpa [hg, hmem] using (execute_ok hg hmem hthread).1
  · show (if y.inst.hasCallback l.id then y.nAtomic + 1 else y.nAtomic) = _
    by_cases hatom : i.opcode = .atom
    · cases hg : l.guard with
      | false =>
        have hno : y.inst.hasCallback l.id = false := by
          rw [hy]
          simp [WarpInst.hasCallback, hg]
        simp [hno, hn, hp.nAtomic, hatom, hg]
      | true =>
        have hyes : y.inst.hasCallback l.id = true := by
          have hc := hself hatom hg
          simp only [WarpInst.hasCallback, hc]
          rw [hy]
          simp [hg, hmem]
        simp [hyes, hn, hp.nAtomic, hatom, hg, Nat.add_assoc]
    · have hno : y.inst.hasCallback l.id = false := by
        simp [WarpInst.hasCallback, WarpInst.callback, hy, hatom, (hp.plain hatom).2]
      simp [hno, hn, hp.nAtomic, hatom]

theorem run (hnodup : ((done ++ rest).map (·.id)).Nodup) (hp : Partial i w₀ n₀ done rest x)
    (h : Exec.executeWarpInst smid i rest x = .ok y) : Partial i w₀ n₀ (done ++ rest) [] y := by
  induction rest generalizing done x with
  | nil =>
    cases h
    rwa [List.append_nil]
  | cons l rest ih =>
    simp only [Exec.executeWarpInst, List.foldlM_cons] at h
    obtain ⟨x', hx', h⟩ := bind_eq_ok.mp h
    obtain ⟨x'', hx'', hx'⟩ := bind_eq_ok.mp hx'
    cases hx'
    have := ih (by simpa using hnodup) (hp.step hnodup hx'') h
    rwa [List.append_assoc, List.singleton_append] at this

end Partial

/-- **Functional execution of a warp instruction.** The lanes that passed their guard are left active,
and the space is what one of them left; an atomic holds its own callback for each of them and has raised
the warp's count by their number. -/
structure Executed (i : Inst) (w₀ : WarpInst) (n₀ : Nat) (lanes : List Lane) (x : Exec) : Prop where
  frame : x.inst = { w₀ with
    space := x.inst.space
    active := x.inst.active
    callbacks := x.inst.callbacks
    isatomic := x.inst.isatomic
    perScalarThreadValid := x.inst.perScalarThreadValid }
  active : x.inst.active = ((lanes.filter (·.guard)).map (·.id)).toFinset
  spaceSpec : i.hasMemoryAccess = false → x.inst.space = i.spaceSpec ∨ x.inst.space = .undefined
  atomic : x.inst.isatomic = true ↔ i.opcode = .atom ∧ lanes ≠ []
  callback : i.opcode = .atom → ∀ lane ∈ x.inst.active, x.inst.callback lane = some (some i.pc)
  space : i.hasMemoryAccess = true → x.inst.active ≠ ∅ →
    ∃ l ∈ lanes, l.guard = true ∧ i.Leaves l x.inst.space
  nAtomic : x.nAtomic = n₀ + if i.opcode = .atom then x.inst.active.card else 0

theorem executeWarpInst_ok {smid : Addr} {i : Inst} {warp uid n₀ : Nat} {lanes : List Lane}
    {threads : Nat → Thread} {y : Exec} (hnodup : (lanes.map (·.id)).Nodup)
    (h : Exec.executeWarpInst smid i lanes ⟨.issue i warp uid (lanes.map (·.id)).toFinset, threads, n₀⟩ =
      .ok y) : Executed i (.issue i warp uid (lanes.map (·.id)).toFinset) n₀ lanes y := by
  have hinit : Partial i (.issue i warp uid (lanes.map (·.id)).toFinset) n₀ [] lanes
      ⟨.issue i warp uid (lanes.map (·.id)).toFinset, threads, n₀⟩ := by
    constructor <;> simp [WarpInst.issue]
  have hp := hinit.run (by simpa using hnodup) h
  have hmem : ∀ lane ∈ y.inst.active, ∃ l ∈ lanes, l.guard = true ∧ l.id = lane := by
    intro lane hl
    simpa [hp.active, and_assoc] using hl
  constructor
  · exact hp.frame
  · simpa using hp.active
  · exact hp.spaceSpec
  · by_cases hatom : i.opcode = .atom
    · simpa [hatom] using (hp.atomic hatom).2
    · simp [hatom, (hp.plain hatom).1]
  · intro hatom lane hlane
    obtain ⟨l, hl, hg, rfl⟩ := hmem lane hlane
    exact hp.callback hatom l (by simpa using hl) hg
  · intro hacc hne
    obtain ⟨lane, hlane⟩ := Finset.nonempty_iff_ne_empty.mpr hne
    obtain ⟨l, hl, hg, -⟩ := hmem lane hlane
    simpa using hp.space hacc ⟨l, by simpa using hl, hg⟩
  · have hsub : ((lanes.filter (·.guard)).map (·.id)).Nodup :=
      hnodup.sublist (List.filter_sublist.map _)
    rw [hp.nAtomic, hp.active]
    simp only [List.nil_append, List.append_nil, List.toFinset_card_of_nodup hsub, List.length_map]

end GpgpuSimRuby.Shader
