import GpgpuSimRuby.Library.Scanf
import GpgpuSimRuby.Library.SortedMap
import GpgpuSimRuby.Ptx.FunctionalMemory

/-!
# Kernel parameters

`function_info::finalize`: the arguments of a launch are copied into the parameter memory one after the
other, in the order of the indices of the formal parameters, each in whole words.

* What an argument's pointer points at is all the bytes from there on: the copy reads up to three bytes
  behind the argument.
* Sizes are `size_t`, and there are fewer than `2 ^ 32` arguments. Addresses have 32 bits.
* The names of functions have no `%` in them.
-/

open Function (update update_self update_of_ne)

namespace GpgpuSimRuby.Ptx

open Library

inductive ParamFault where
  | assertion
  | abort
  | nullPointer
  | memory (e : MemoryFault)
  deriving DecidableEq, Repr

/-- A `gpgpu_ptx_sim_arg`, or the `param_t` that is made of it. -/
structure SimArg where
  start : Option (ByteMap UInt8)
  nbytes : Nat
  offset : Nat

structure ParamInfo where
  name : String
  type : Int
  /-- in bits -/
  size : Nat
  isPtr : Bool
  ptrSpace : MemorySpace
  value : Option SimArg
  offset : Option Addr

namespace ParamInfo

variable (p : ParamInfo)

def isPtrShared : Bool := p.isPtr && p.ptrSpace = .shared

def addData (v : SimArg) : Except ParamFault ParamInfo := do
  assert (∀ old ∈ p.value, old.nbytes = v.nbytes) .assertion
  .ok { p with value := some v }

def addOffset (offset : Addr) : ParamInfo := { p with offset := some offset }

/-- The bytes of the argument that are passed. -/
def passedBytes (v : SimArg) : Nat :=
  if v.nbytes ≠ p.size / 8 then (if v.nbytes < p.size / 8 then v.nbytes else p.size / 8) else v.nbytes

/-- The bytes of the parameter, none before it has an argument. -/
def nbytes : Nat := p.value.elim 0 p.passedBytes

/-- What the argument's pointer points at. -/
def data : ByteMap UInt8 := (p.value.bind (·.start)).getD fun _ => 0

theorem passedBytes_eq_min (v : SimArg) : p.passedBytes v = min v.nbytes (p.size / 8) := by
  unfold passedBytes
  split_ifs <;> omega

end ParamInfo

/-- A symbol of the function's table, with its scalar type. -/
structure ParamSymbol where
  type : Int
  isShared : Bool
  address : Option Addr

abbrev SymbolTable := String → Option ParamSymbol

/-- `set_address` of a symbol of the table. -/
def SymbolTable.setAddress (t : SymbolTable) (name : String) (addr : Addr) : SymbolTable :=
  update t name ((t name).map fun s => { s with address := some addr })

theorem SymbolTable.setAddress_self {t : SymbolTable} {name : String} {addr : Addr} :
    t.setAddress name addr name = (t name).map fun s => { s with address := some addr } :=
  update_self ..

theorem SymbolTable.setAddress_of_ne {t : SymbolTable} {name other : String} {addr : Addr}
    (h : other ≠ name) :
    t.setAddress name addr other = t other :=
  update_of_ne h ..

/-- A `function_info`, as far as its kernel parameters go. -/
structure KernelFunction where
  name : String
  params : SortedMap Nat ParamInfo
  symtab : SymbolTable
  sharedNext : Addr

/-- What the parser knows about a parameter of a kernel. -/
structure ParamDecl where
  name : String
  type : Int
  numBits : Nat
  ptrSpec : MemorySpace

abbrev paramBlock : BlockSize := ⟨13, by decide⟩

/-- The parameter memory of a `kernel_info_t`. -/
abbrev ParamMemory := MemorySpaceImpl paramBlock

namespace KernelFunction

variable (f : KernelFunction)

/-! ## Declarations -/

/-- The format `"<name>_param_%u"`, in a buffer of 2048 characters. -/
def paramFormat : List Scanf.Directive :=
  let text := (f.name ++ "_param_").toList.map Scanf.Directive.ordinary
  if text.length + 2 < 2048 then text ++ [.unsigned] else text.take 2047

/-- The index in the name of a parameter, or the one given. -/
def paramIndex (index : Nat) (name : String) : Nat :=
  match Scanf.scan f.paramFormat name.toList with
  | [.unsigned parsedIndex] => parsedIndex
  | _ => index

def addParamNameTypeSize (index : Nat) (name : String) (type : Int) (size : Nat) (ptr : Bool)
    (space : MemorySpace) : Except ParamFault KernelFunction := do
  assert (f.params.find? (f.paramIndex index name) |>.isNone) .assertion
  .ok { f with
    params := f.params.insert (f.paramIndex index name) ⟨name, type, size, ptr, space, none, none⟩ }

/-- `add_identifier` of a kernel parameter. A name that is known is skipped. -/
def addIdentifier (index : Nat) (d : ParamDecl) : Except ParamFault KernelFunction :=
  if (f.symtab d.name).isSome then .ok f
  else
    { f with symtab := update f.symtab d.name (some ⟨d.type, false, none⟩) }.addParamNameTypeSize
      index d.name d.type d.numBits (d.ptrSpec ≠ MemorySpace.undefined) d.ptrSpec

/-! ## Arguments -/

/-- The name `"<name>_param_<argn>"`, in a buffer of 2048 characters. -/
def paramName (argn : Nat) : String :=
  .ofList ((f.name ++ "_param_" ++ toString argn).toList.take 2047)

/-- An address that the argument's pointer points at, as a 32-bit number. -/
def pointedAddr (data : ByteMap UInt8) : Addr :=
  (data 3).toBitVec ++ (data 2).toBitVec ++ (data 1).toBitVec ++ (data 0).toBitVec

/-- The part of `add_param_data` about buffers that have no formal parameter and about shared memory. -/
def bindBuffer (argn : Nat) (isPtrShared : Bool) (args : SimArg) : Except ParamFault KernelFunction :=
  match f.symtab (f.paramName argn) with
  | none => .error .abort
  | some p =>
    match args.start with
    | some data => .ok { f with symtab := f.symtab.setAddress (f.paramName argn) (pointedAddr data) }
    | none => do
      assert (isPtrShared ∨ p.isShared) .abort
      let numBits : Addr := 8 * BitVec.ofNat 32 args.nbytes
      assert (numBits % 8 = 0) .assertion
      let addrPad :=
        if numBits ≠ 0 then (numBits / 8 - f.sharedNext % (numBits / 8)) % (numBits / 8) else 0
      .ok { f with
        symtab := f.symtab.setAddress (f.paramName argn) (f.sharedNext + addrPad)
        sharedNext := f.sharedNext + (numBits / 8 + addrPad) }

def addParamData (argn : Nat) (args : SimArg) : Except ParamFault KernelFunction :=
  match f.params.find? argn with
  | some p =>
    if p.isPtrShared then do
      assert args.start.isNone .assertion
      f.bindBuffer argn true args
    else do
      let p ← p.addData args
      .ok { f with params := f.params.insert argn (p.addOffset (.ofNat 32 args.offset)) }
  | none => f.bindBuffer argn false args

/-- The loop of `gpgpu_opencl_ptx_sim_init_grid` over the arguments, of which the last comes first. -/
def bindArgs (f : KernelFunction) (argcount : Nat) :
    Nat → List SimArg → Except ParamFault KernelFunction
  | _, [] => .ok f
  | argn, a :: args => do
    let f ← f.addParamData (argcount - argn) a
    f.bindArgs argcount (argn + 1) args

/-! ## The parameter memory -/

/-- The copy of a parameter, word by word. -/
def copyParam (paramMem : ParamMemory) (paramAddress : Addr) (pdata : Option (ByteMap UInt8))
    (size idx : Nat) : Except ParamFault ParamMemory :=
  if idx < size then
    match pdata with
    | none => .error .nullPointer
    | some pdata => do
      let paramMem ← (paramMem.write (paramAddress + .ofNat 32 idx) (pdata.load idx 4)).mapError .memory
      copyParam paramMem paramAddress pdata size (idx + 4)
  else .ok paramMem
termination_by size - idx

/-- The loop of `finalize`. -/
def finalizeParams : List ParamInfo → Addr → SymbolTable → ParamMemory →
    Except ParamFault (SymbolTable × ParamMemory)
  | [], _, symtab, paramMem => .ok (symtab, paramMem)
  | p :: ps, paramAddress, symtab, paramMem =>
    if p.isPtrShared then finalizeParams ps paramAddress symtab paramMem
    else
      match p.value with
      | none => .error .assertion
      | some paramValue =>
        match symtab p.name with
        | none => .error .nullPointer
        | some param => do
          assert (param.type = p.type) .assertion
          let size := p.passedBytes paramValue
          let paramMem ← copyParam paramMem paramAddress paramValue.start size 0
          finalizeParams ps (paramAddress + .ofNat 32 size) (symtab.setAddress p.name paramAddress)
            paramMem

/-- The formal parameters in the order of the map. -/
def formals : List ParamInfo := f.params.entries.map Prod.snd

def finalize (paramMem : ParamMemory) : Except ParamFault (KernelFunction × ParamMemory) := do
  let (symtab, paramMem) ← finalizeParams f.formals 0 f.symtab paramMem
  .ok ({ f with symtab }, paramMem)

/-- `gpgpu_opencl_ptx_sim_init_grid`. -/
def initGrid (args : List SimArg) : Except ParamFault (KernelFunction × ParamMemory) := do
  let f ← f.bindArgs args.length 1 args
  f.finalize .init

end KernelFunction

inductive KernelAction where
  | addIdentifier (index : Nat) (d : ParamDecl)
  | initGrid (args : List SimArg)

/-- A kernel in a table with other symbols: its parameters are declared, and it is launched. -/
def kernelFunction (name : String) (symtab : SymbolTable) (sharedNext : Addr) :
    Machine KernelFunction KernelAction ParamFault where
  init := ⟨name, .empty, symtab, sharedNext⟩
  step f a := some (match a with
    | .addIdentifier index d => f.addIdentifier index d
    | .initGrid args => (f.initGrid args).map Prod.fst)

/-! ## Layout

The parameters as objects one behind the other, and the flat memory that they leave behind. -/

namespace ParamInfo

variable {p q : ParamInfo} {ps : List ParamInfo} {a : Addr}

/-- The whole words of a parameter. -/
def wordBytes (p : ParamInfo) : Nat := 4 * ((p.nbytes + 3) / 4)

theorem nbytes_le_wordBytes (p : ParamInfo) : p.nbytes ≤ p.wordBytes := by
  unfold wordBytes
  omega

theorem wordBytes_eq_zero (h : p.nbytes = 0) : p.wordBytes = 0 := by
  unfold wordBytes
  omega

/-- The parameters that are passed in the parameter memory, and their addresses. -/
def layout : List ParamInfo → Addr → List (ParamInfo × Addr)
  | [], _ => []
  | p :: ps, a => if p.isPtrShared then layout ps a else (p, a) :: layout ps (a + .ofNat 32 p.nbytes)

/-- Addresses go to the symbols. -/
def setAddresses (places : List (ParamInfo × Addr)) (t : SymbolTable) : SymbolTable :=
  places.foldl (fun t q => t.setAddress q.1.name q.2) t

/-- Words go to the memory. -/
def storeAll (places : List (ParamInfo × Addr)) (m : ByteMap UInt8) : ByteMap UInt8 :=
  places.foldl (fun m q => m.store q.2.toNat (q.1.data.load 0 q.1.wordBytes)) m

/-- Do the words of the parameters, from an address on, stay within the 32-bit address space? -/
def Fits : List ParamInfo → Nat → Prop
  | [], _ => True
  | p :: ps, n => if p.isPtrShared then Fits ps n else n + p.wordBytes ≤ 2 ^ 32 ∧ Fits ps (n + p.nbytes)

instance decidableFits : ∀ ps n, Decidable (Fits ps n)
  | [], _ => .isTrue trivial
  | p :: ps, n =>
    have := decidableFits ps n
    have := decidableFits ps (n + p.nbytes)
    inferInstanceAs (Decidable (if p.isPtrShared then Fits ps n else
      n + p.wordBytes ≤ 2 ^ 32 ∧ Fits ps (n + p.nbytes)))

theorem mem_of_mem_layout {r : ParamInfo × Addr} (h : r ∈ layout ps a) :
    r.1 ∈ ps ∧ r.1.isPtrShared = false := by
  induction ps generalizing a with
  | nil => cases h
  | cons p ps ih =>
    unfold layout at h
    split at h
    case isTrue => exact ⟨List.mem_cons_of_mem _ (ih h).1, (ih h).2⟩
    case isFalse hp =>
    rcases List.mem_cons.mp h with rfl | h
    · exact ⟨List.mem_cons_self, Bool.not_eq_true _ ▸ hp⟩
    · exact ⟨List.mem_cons_of_mem _ (ih h).1, (ih h).2⟩

theorem exists_mem_layout (h : p ∈ ps) (hp : p.isPtrShared = false) : ∃ b, (p, b) ∈ layout ps a := by
  induction ps generalizing a with
  | nil => cases h
  | cons q ps ih =>
    unfold layout
    split
    case isTrue hq =>
      rcases List.mem_cons.mp h with rfl | h
      · rw [hp] at hq
        cases hq
      · exact ih h
    case isFalse =>
      rcases List.mem_cons.mp h with rfl | h
      · exact ⟨a, List.mem_cons_self⟩
      · obtain ⟨b, hb⟩ := ih (a := a + .ofNat 32 q.nbytes) h
        exact ⟨b, List.mem_cons_of_mem _ hb⟩

theorem pairwise_layout {R : ParamInfo → ParamInfo → Prop} (h : ps.Pairwise R) :
    (layout ps a).Pairwise fun q r => R q.1 r.1 := by
  induction ps generalizing a with
  | nil => exact .nil
  | cons p ps ih =>
    obtain ⟨hhead, htail⟩ := List.pairwise_cons.mp h
    unfold layout
    split
    · exact ih htail
    · apply List.Pairwise.cons _ (ih htail)
      intro r hr
      exact hhead r.1 (mem_of_mem_layout hr).1

/-! ## Without overlap -/

variable {n i : Nat} {m : ByteMap UInt8} {r : ParamInfo × Addr}

theorem ofNat_add_nbytes (p : ParamInfo) (n : Nat) :
    BitVec.ofNat 32 n + .ofNat 32 p.nbytes = BitVec.ofNat 32 (n + p.nbytes) := by
  rw [BitVec.ofNat_add]

theorem Fits.bounds (h : Fits ps n) (hr : r ∈ layout ps (.ofNat 32 n)) (hpos : 0 < r.1.nbytes) :
    n ≤ r.2.toNat ∧ r.2.toNat + r.1.wordBytes ≤ 2 ^ 32 := by
  induction ps generalizing n with
  | nil => cases hr
  | cons p ps ih =>
    unfold Fits at h
    unfold layout at hr
    split at h
    case isTrue hp =>
      rw [if_pos hp] at hr
      exact ih h hr
    case isFalse hp =>
    rw [if_neg hp, ofNat_add_nbytes] at hr
    obtain ⟨hhere, hrest⟩ := h
    rcases List.mem_cons.mp hr with rfl | hr
    · have hle := nbytes_le_wordBytes p
      have hn : (BitVec.ofNat 32 n).toNat = n := by
        rw [BitVec.toNat_ofNat]
        exact Nat.mod_eq_of_lt (by dsimp only at hpos; omega)
      rw [hn]
      exact ⟨Nat.le_refl n, hhere⟩
    · obtain ⟨hle, hend⟩ := ih hrest hr
      exact ⟨by omega, hend⟩

theorem Fits.storeAll_of_lt (h : Fits ps n) (hi : i < n) :
    storeAll (layout ps (.ofNat 32 n)) m i = m i := by
  induction ps generalizing n m with
  | nil => rfl
  | cons p ps ih =>
    have hbounds := h.bounds (r := (p, .ofNat 32 n))
    unfold Fits at h
    unfold layout at hbounds ⊢
    split at h
    case isTrue hp =>
      rw [if_pos hp]
      exact ih h hi
    case isFalse hp =>
    rw [if_neg hp] at hbounds ⊢
    rw [ofNat_add_nbytes]
    obtain ⟨-, hrest⟩ := h
    show storeAll (layout ps _) (m.store _ _) i = m i
    rw [ih hrest (by omega)]
    rcases Nat.eq_zero_or_pos p.nbytes with hzero | hpos
    · rw [wordBytes_eq_zero hzero, ByteMap.load_zero, ByteMap.store_nil]
    · have hle := (hbounds List.mem_cons_self hpos).1
      exact ByteMap.store_of_lt (by dsimp only at hle ⊢; omega)

/-- Every parameter has its bytes in the end: what a copy writes behind its parameter is overwritten
by the copies that follow. -/
theorem Fits.storeAll_of_mem (h : Fits ps n) (hr : r ∈ layout ps (.ofNat 32 n)) (hi : i < r.1.nbytes) :
    storeAll (layout ps (.ofNat 32 n)) m (r.2.toNat + i) = r.1.data i := by
  induction ps generalizing n m with
  | nil => cases hr
  | cons p ps ih =>
    have hbounds := h.bounds hr (Nat.zero_lt_of_lt hi)
    unfold Fits at h
    unfold layout at hr ⊢
    split at h
    case isTrue hp =>
      rw [if_pos hp] at hr ⊢
      exact ih h hr
    case isFalse hp =>
    rw [if_neg hp, ofNat_add_nbytes] at hr ⊢
    obtain ⟨hhere, hrest⟩ := h
    show storeAll (layout ps _) (m.store _ _) _ = _
    rcases List.mem_cons.mp hr with rfl | hr
    · have hle := nbytes_le_wordBytes p
      dsimp only at hi hbounds ⊢
      have hn : (BitVec.ofNat 32 n).toNat = n := by
        rw [BitVec.toNat_ofNat]
        exact Nat.mod_eq_of_lt (by omega)
      rw [hrest.storeAll_of_lt (by omega), hn,
        ByteMap.store_of_mem (by omega) (by rw [ByteMap.length_load]; omega)]
      simp [ByteMap.load]
    · exact ih hrest hr

/-- One of two parameters is behind the other, unless one is empty. -/
def Apart (q r : ParamInfo × Addr) : Prop := 0 < q.1.nbytes → 0 < r.1.nbytes →
  q.2.toNat + q.1.nbytes ≤ r.2.toNat ∨ r.2.toNat + r.1.nbytes ≤ q.2.toNat

instance : Std.Symm Apart where
  symm _ _ h hq hr := (h hr hq).symm

theorem Fits.pairwise (h : Fits ps n) : (layout ps (.ofNat 32 n)).Pairwise Apart := by
  induction ps generalizing n with
  | nil => exact .nil
  | cons p ps ih =>
    have hbounds := h.bounds (r := (p, .ofNat 32 n))
    unfold Fits at h
    unfold layout at hbounds ⊢
    split at h
    case isTrue hp =>
      rw [if_pos hp]
      exact ih h
    case isFalse hp =>
    rw [if_neg hp] at hbounds ⊢
    rw [ofNat_add_nbytes]
    obtain ⟨-, hrest⟩ := h
    apply List.Pairwise.cons _ (ih hrest)
    intro r hr hq hpos
    have hle := (hrest.bounds hr hpos).1
    have hmod : (BitVec.ofNat 32 n).toNat ≤ n := by
      rw [BitVec.toNat_ofNat]
      exact Nat.mod_le n _
    left
    dsimp only
    omega

/-! ## Symbols -/

variable {l : List (ParamInfo × Addr)} {t : SymbolTable} {name : String}

theorem setAddresses_of_ne (h : ∀ r ∈ l, r.1.name ≠ name) : setAddresses l t name = t name := by
  induction l generalizing t with
  | nil => rfl
  | cons q l ih =>
    obtain ⟨hhead, htail⟩ := List.forall_mem_cons.mp h
    show setAddresses l (t.setAddress q.1.name q.2) name = t name
    rw [ih htail, SymbolTable.setAddress_of_ne hhead.symm]

theorem setAddresses_of_mem (hne : l.Pairwise fun q r => q.1.name ≠ r.1.name) (hr : r ∈ l) :
    setAddresses l t r.1.name = (t r.1.name).map fun s => { s with address := some r.2 } := by
  induction l generalizing t with
  | nil => cases hr
  | cons q l ih =>
    obtain ⟨hhead, htail⟩ := List.pairwise_cons.mp hne
    show setAddresses l (t.setAddress q.1.name q.2) r.1.name = _
    rcases List.mem_cons.mp hr with rfl | hr
    · rw [setAddresses_of_ne fun s hs => (hhead s hs).symm, SymbolTable.setAddress_self]
    · rw [ih htail hr, SymbolTable.setAddress_of_ne (hhead r hr).symm]

/-- A symbol of a parameter, with the scalar type of the parameter. -/
def DeclaredIn (p : ParamInfo) (t : SymbolTable) : Prop := ∃ s, t p.name = some s ∧ s.type = p.type

theorem DeclaredIn.setAddress (h : p.DeclaredIn t) (name : String) (addr : Addr) :
    p.DeclaredIn (t.setAddress name addr) := by
  obtain ⟨s, hs, htype⟩ := h
  by_cases hname : p.name = name
  · subst hname
    refine ⟨{ s with address := some addr }, ?_, htype⟩
    rw [SymbolTable.setAddress_self, hs]
    rfl
  · refine ⟨s, ?_, htype⟩
    rw [SymbolTable.setAddress_of_ne hname, hs]

/-- Is there an argument that points at something? -/
def HasData (p : ParamInfo) : Prop := ∃ v ∈ p.value, v.start.isSome

instance (p : ParamInfo) : Decidable p.HasData :=
  inferInstanceAs (Decidable (∃ v ∈ p.value, v.start.isSome))

end ParamInfo

namespace KernelFunction

open ParamInfo

variable {f f' : KernelFunction} {a : Addr} {ps : List ParamInfo} {symtab : SymbolTable}
  {paramMem : ParamMemory}

/-! ## Copies -/

theorem copyParam_ok (paramMem : ParamMemory) (pdata : ByteMap UInt8) {size words : Nat} (idx : Nat)
    (hwords : words = (size - idx + 3) / 4) (hfit : a.toNat + idx + 4 * words ≤ 2 ^ 32) :
    ∃ m, copyParam paramMem a (some pdata) size idx = .ok m ∧
      m.byte = paramMem.byte.store (a.toNat + idx) (pdata.load idx (4 * words)) := by
  induction words generalizing paramMem idx with
  | zero =>
    refine ⟨paramMem, ?_, by rw [Nat.mul_zero, ByteMap.load_zero, ByteMap.store_nil]⟩
    rw [copyParam, if_neg (by omega)]
  | succ words ih =>
    have haddr : (a + .ofNat 32 idx).toNat = a.toNat + idx := by
      rw [BitVec.toNat_add, BitVec.toNat_ofNat]
      omega
    have hblock : 2 ^ paramBlock.log2 = 8192 := rfl
    have hwrite : ∃ m, paramMem.write (a + .ofNat 32 idx) (pdata.load idx 4) = .ok m ∧
        m.byte = paramMem.byte.store (a + .ofNat 32 idx).toNat (pdata.load idx 4) := by
      apply MemorySpaceImpl.write_ok
      · rw [haddr, ByteMap.length_load]
        omega
      · rw [haddr, ByteMap.length_load, hblock]
        omega
    obtain ⟨m, hm, hbyte⟩ := hwrite
    obtain ⟨m', hm', hbyte'⟩ := ih m (idx + 4) (by omega) (by omega)
    refine ⟨m', ?_, ?_⟩
    · rw [copyParam, if_pos (by omega), hm]
      exact hm'
    · have hload : pdata.load idx (4 * (words + 1)) =
          pdata.load idx 4 ++ pdata.load (idx + 4) (4 * words) := by
        rw [Nat.mul_succ, Nat.add_comm (4 * words), ByteMap.load_add]
      rw [hbyte', hbyte, haddr, hload, ByteMap.store_append, ByteMap.length_load, Nat.add_assoc]

/-- The loop stores the words of the parameters, each at the address that its symbol gets, as long as no
single copy goes beyond the space. -/
theorem finalizeParams_ok (paramMem : ParamMemory) (hdata : ∀ p ∈ ps, p.isPtrShared = false → p.HasData)
    (hdecl : ∀ p ∈ ps, p.DeclaredIn symtab)
    (hfit : ∀ r ∈ layout ps a, r.2.toNat + r.1.wordBytes ≤ 2 ^ 32) :
    ∃ m, finalizeParams ps a symtab paramMem = .ok (setAddresses (layout ps a) symtab, m) ∧
      m.byte = storeAll (layout ps a) paramMem.byte := by
  induction ps generalizing a symtab paramMem with
  | nil => exact ⟨paramMem, rfl, rfl⟩
  | cons p ps ih =>
    obtain ⟨hdata₀, hdata⟩ := List.forall_mem_cons.mp hdata
    obtain ⟨hdecl₀, hdecl⟩ := List.forall_mem_cons.mp hdecl
    unfold finalizeParams
    unfold layout at hfit ⊢
    split
    case isTrue hp =>
      rw [if_pos hp] at hfit
      exact ih paramMem hdata hdecl hfit
    case isFalse hp =>
    rw [if_neg hp] at hfit
    obtain ⟨hfit₀, hfit⟩ := List.forall_mem_cons.mp hfit
    obtain ⟨v, hv, hstart⟩ := hdata₀ (Bool.not_eq_true _ ▸ hp)
    obtain ⟨pdata, hpdata⟩ := Option.isSome_iff_exists.mp hstart
    obtain ⟨s, hs, htype⟩ := hdecl₀
    have hvalue : p.value = some v := hv
    have hn : p.nbytes = p.passedBytes v := by rw [nbytes, hvalue]; rfl
    have hload : p.data = pdata := by
      unfold data
      rw [hvalue, Option.bind_some, hpdata]
      rfl
    have hwords : p.wordBytes = 4 * ((p.passedBytes v - 0 + 3) / 4) := by
      rw [wordBytes, hn, Nat.sub_zero]
    obtain ⟨m, hm, hbyte⟩ := copyParam_ok (a := a) paramMem pdata 0 rfl
      (by rw [Nat.add_zero, ← hwords]; exact hfit₀)
    obtain ⟨m', hm', hbyte'⟩ := ih m hdata
      (fun q hq => (hdecl q hq).setAddress p.name a) hfit
    refine ⟨m', ?_, ?_⟩
    · rw [hvalue, hs]
      dsimp only
      rw [assert_pos htype, ok_bind, hpdata, hm, ok_bind, ← hn, hm']
      rfl
    · rw [hbyte', hbyte, ← hwords, Nat.add_zero, ← hload]
      rfl

/-! ## Declared parameters -/

/-- Every formal parameter has a symbol of its own. -/
structure WellFormed (f : KernelFunction) : Prop where
  declared : ∀ k p, f.params.find? k = some p → p.DeclaredIn f.symtab
  distinct : ∀ k k' p p', f.params.find? k = some p → f.params.find? k' = some p' →
    p.name = p'.name → k = k'

/-- The same parameters, with symbols of the same types. -/
structure SameDecls (f f' : KernelFunction) : Prop where
  params : ∀ k, (f'.params.find? k).map (fun p => (p.name, p.type)) =
    (f.params.find? k).map fun p => (p.name, p.type)
  symtab : ∀ name, (f'.symtab name).map (·.type) = (f.symtab name).map (·.type)

theorem SameDecls.refl (f : KernelFunction) : f.SameDecls f := ⟨fun _ => rfl, fun _ => rfl⟩

theorem SameDecls.trans {f'' : KernelFunction} (h : f.SameDecls f') (h' : f'.SameDecls f'') :
    f.SameDecls f'' :=
  ⟨fun k => (h'.params k).trans (h.params k), fun name => (h'.symtab name).trans (h.symtab name)⟩

theorem SameDecls.exists_param (h : f.SameDecls f') {k : Nat} {p : ParamInfo}
    (hp : f'.params.find? k = some p) :
    ∃ q, f.params.find? k = some q ∧ q.name = p.name ∧ q.type = p.type := by
  have hk := h.params k
  rw [hp, Option.map_some, eq_comm, Option.map_eq_some_iff] at hk
  obtain ⟨q, hq, heq⟩ := hk
  exact ⟨q, hq, (Prod.mk.inj heq).1, (Prod.mk.inj heq).2⟩

theorem WellFormed.of_sameDecls (hf : f.WellFormed) (h : f.SameDecls f') : f'.WellFormed where
  declared k p hp := by
    obtain ⟨q, hq, hname, htype⟩ := h.exists_param hp
    obtain ⟨s, hs, hst⟩ := hf.declared k q hq
    have hsym := h.symtab p.name
    rw [← hname, hs, Option.map_some, Option.map_eq_some_iff] at hsym
    obtain ⟨s', hs', heq⟩ := hsym
    rw [hname] at hs'
    exact ⟨s', hs', heq.trans (hst.trans htype)⟩
  distinct k k' p p' hp hp' heq := by
    obtain ⟨q, hq, hname, -⟩ := h.exists_param hp
    obtain ⟨q', hq', hname', -⟩ := h.exists_param hp'
    exact hf.distinct k k' q q' hq hq' (hname.trans (heq.trans hname'.symm))

theorem map_type_setAddress (t : SymbolTable) (name other : String) (addr : Addr) :
    (t.setAddress name addr other).map (·.type) = (t other).map (·.type) := by
  by_cases h : other = name
  · subst h
    rw [SymbolTable.setAddress_self, Option.map_map]
    rfl
  · rw [SymbolTable.setAddress_of_ne h]

theorem WellFormed.addIdentifier {index : Nat} {d : ParamDecl} (hf : f.WellFormed)
    (h : f.addIdentifier index d = .ok f') : f'.WellFormed := by
  unfold KernelFunction.addIdentifier addParamNameTypeSize at h
  split at h
  case isTrue =>
    cases h
    exact hf
  case isFalse hnew =>
  obtain ⟨_, hfree, h⟩ := bind_eq_ok.mp h
  cases h
  rw [Bool.not_eq_true, Option.isSome_eq_false_iff, Option.isNone_iff_eq_none] at hnew
  -- no parameter has the new name
  have hname : ∀ k p, f.params.find? k = some p → p.name ≠ d.name := by
    intro k p hp heq
    obtain ⟨s, hs, -⟩ := hf.declared k p hp
    rw [heq, hnew] at hs
    cases hs
  constructor
  · intro k p hp
    dsimp only at hp ⊢
    rw [SortedMap.find?_insert] at hp
    split at hp
    case isTrue =>
      cases hp
      exact ⟨_, update_self .., rfl⟩
    case isFalse =>
      obtain ⟨s, hs, htype⟩ := hf.declared k p hp
      exact ⟨s, (update_of_ne (hname k p hp) ..).trans hs, htype⟩
  · intro k k' p p' hp hp' heq
    dsimp only at hp hp'
    rw [SortedMap.find?_insert] at hp hp'
    split at hp <;> split at hp'
    · next hk hk' => exact hk.trans hk'.symm
    · cases hp
      exact absurd heq.symm (hname k' p' hp')
    · cases hp'
      exact absurd heq (hname k p hp)
    · exact hf.distinct k k' p p' hp hp' heq

theorem sameDecls_bindBuffer {argn : Nat} {shared : Bool} {args : SimArg}
    (h : f.bindBuffer argn shared args = .ok f') : f.SameDecls f' ∧ f'.params = f.params := by
  unfold bindBuffer at h
  split at h
  case h_1 => cases h
  case h_2 =>
  split at h
  case h_1 =>
    cases h
    exact ⟨⟨fun _ => rfl, fun name => map_type_setAddress ..⟩, rfl⟩
  case h_2 =>
    obtain ⟨_, -, h⟩ := bind_eq_ok.mp h
    obtain ⟨_, -, h⟩ := bind_eq_ok.mp h
    cases h
    exact ⟨⟨fun _ => rfl, fun name => map_type_setAddress ..⟩, rfl⟩

/-- The argument becomes the value of its parameter, and nothing else changes about the parameters. -/
structure Bound (f : KernelFunction) (argn : Nat) (args : SimArg) (f' : KernelFunction) : Prop
    extends f.SameDecls f' where
  value : ∀ p, f'.params.find? argn = some p → p.isPtrShared = false → p.value = some args
  others : ∀ k, k ≠ argn → f'.params.find? k = f.params.find? k

theorem bound_addParamData {argn : Nat} {args : SimArg} (h : f.addParamData argn args = .ok f') :
    f.Bound argn args f' := by
  unfold addParamData at h
  split at h
  case h_2 hnone =>
    obtain ⟨hsame, hparams⟩ := sameDecls_bindBuffer h
    refine ⟨hsame, fun p hp => ?_, fun k _ => by rw [hparams]⟩
    rw [hparams, hnone] at hp
    cases hp
  case h_1 p hp =>
  split at h
  case isTrue hshared =>
    obtain ⟨_, -, h⟩ := bind_eq_ok.mp h
    obtain ⟨hsame, hparams⟩ := sameDecls_bindBuffer h
    refine ⟨hsame, fun q hq hnot => ?_, fun k _ => by rw [hparams]⟩
    rw [hparams, hp] at hq
    cases hq
    rw [hshared] at hnot
    cases hnot
  case isFalse =>
    obtain ⟨q, hq, h⟩ := bind_eq_ok.mp h
    obtain ⟨_, -, hq⟩ := bind_eq_ok.mp hq
    cases hq
    cases h
    refine ⟨⟨fun k => ?_, fun _ => rfl⟩, fun r hr _ => ?_, fun k hk => ?_⟩
    · dsimp only
      rw [SortedMap.find?_insert]
      split
      case isTrue hk =>
        rw [hk, hp]
        rfl
      case isFalse => rfl
    · rw [SortedMap.find?_insert, if_pos rfl] at hr
      cases hr
      rfl
    · rw [SortedMap.find?_insert, if_neg hk]

theorem bindArgs_spec {argcount argn : Nat} {args : List SimArg}
    (hcount : argcount + 1 = argn + args.length)
    (h : f.bindArgs argcount argn args = .ok f') :
    f.SameDecls f' ∧ (∀ k, args.length ≤ k → f'.params.find? k = f.params.find? k) ∧
      ∀ i arg, args[i]? = some arg → ∀ p, f'.params.find? (args.length - 1 - i) = some p →
        p.isPtrShared = false → p.value = some arg := by
  induction args generalizing f argn with
  | nil =>
    cases h
    exact ⟨.refl _, fun _ _ => rfl, fun i arg hi => by cases hi⟩
  | cons a args ih =>
    obtain ⟨g, hg, h⟩ := bind_eq_ok.mp h
    rw [List.length_cons] at hcount
    have hindex : argcount - argn = args.length := by omega
    rw [hindex] at hg
    have hbound := bound_addParamData hg
    obtain ⟨hsame, hothers, hvalues⟩ := ih (by omega) h
    refine ⟨hbound.toSameDecls.trans hsame, fun k hk => ?_, fun i arg hi p hp hnot => ?_⟩
    · rw [List.length_cons] at hk
      rw [hothers k (by omega), hbound.others k (by omega)]
    · rw [List.length_cons, Nat.add_sub_cancel] at hp
      cases i with
      | zero =>
        cases hi
        rw [Nat.sub_zero, hothers _ (Nat.le_refl _)] at hp
        exact hbound.value p hp hnot
      | succ i =>
        refine hvalues i arg hi p ?_ hnot
        rw [← hp]
        congr 1
        omega

/-! ## Launches -/

theorem mem_formals {p : ParamInfo} : p ∈ f.formals ↔ ∃ k, f.params.find? k = some p := by
  unfold formals
  rw [List.mem_map]
  constructor
  · rintro ⟨⟨k, q⟩, hq, rfl⟩
    exact ⟨k, SortedMap.find?_eq_some_iff.mpr hq⟩
  · rintro ⟨k, hk⟩
    exact ⟨(k, p), SortedMap.find?_eq_some_iff.mp hk, rfl⟩

theorem WellFormed.pairwise_formals (hf : f.WellFormed) :
    f.formals.Pairwise fun p q => p.name ≠ q.name := by
  unfold formals
  rw [List.pairwise_map]
  apply f.params.sorted.imp_of_mem
  intro e e' he he' hlt heq
  have hk := hf.distinct e.1 e'.1 e.2 e'.2 (SortedMap.find?_eq_some_iff.mpr he)
    (SortedMap.find?_eq_some_iff.mpr he') heq
  exact absurd hk hlt.ne

/-- Does every parameter that is not a shared pointer have an argument? -/
def Ready (f : KernelFunction) : Prop := ∀ p ∈ f.formals, p.isPtrShared = false → p.HasData

/-- Do the words that are copied stay within the 32-bit address space? -/
def Fits (f : KernelFunction) : Prop := ParamInfo.Fits f.formals 0

instance : DecidablePred Ready := fun f =>
  inferInstanceAs (Decidable (∀ p ∈ f.formals, p.isPtrShared = false → p.HasData))

instance : DecidablePred Fits := fun f => inferInstanceAs (Decidable (ParamInfo.Fits f.formals 0))

/-- The address of a parameter's symbol. -/
def address (f : KernelFunction) (p : ParamInfo) : Option Addr := (f.symtab p.name).bind (·.address)

/-- The parameter memory holds the arguments of a launch, each at the address of its parameter's
symbol, in ranges that do not overlap. -/
structure Marshalled (f : KernelFunction) (args : List SimArg) (paramMem : ParamMemory) : Prop where
  args : ∀ i arg, args[i]? = some arg → ∀ p, f.params.find? (args.length - 1 - i) = some p →
    p.isPtrShared = false → p.value = some arg
  bytes : ∀ k p, f.params.find? k = some p → p.isPtrShared = false → ∃ v data a, p.value = some v ∧
    v.start = some data ∧ f.address p = some a ∧
      ∀ i < min v.nbytes (p.size / 8), paramMem.byte (a + .ofNat 32 i).toNat = data i
  disjoint : ∀ k k' p p' a a', k ≠ k' → f.params.find? k = some p → f.params.find? k' = some p' →
    p.isPtrShared = false → p'.isPtrShared = false → f.address p = some a → f.address p' = some a' →
      ∀ i < p.nbytes, ∀ i' < p'.nbytes, a + .ofNat 32 i ≠ a' + .ofNat 32 i'

/-- The function after a launch, in which the symbols have the addresses of their parameters. -/
def withAddresses (f : KernelFunction) : KernelFunction :=
  { f with symtab := setAddresses (layout f.formals 0) f.symtab }

theorem finalize_ok (paramMem : ParamMemory) (hf : f.WellFormed) (hready : f.Ready)
    (hfit : ∀ r ∈ layout f.formals 0, r.2.toNat + r.1.wordBytes ≤ 2 ^ 32) :
    ∃ m, f.finalize paramMem = .ok (f.withAddresses, m) ∧
      m.byte = storeAll (layout f.formals 0) paramMem.byte := by
  have hdecl : ∀ p ∈ f.formals, p.DeclaredIn f.symtab := by
    intro p hp
    obtain ⟨k, hk⟩ := mem_formals.mp hp
    exact hf.declared k p hk
  obtain ⟨m, hm, hbyte⟩ := finalizeParams_ok paramMem hready hdecl hfit
  refine ⟨m, ?_, hbyte⟩
  unfold finalize
  rw [hm]
  rfl

theorem address_of_mem (hf : f.WellFormed) {r : ParamInfo × Addr} (hr : r ∈ layout f.formals 0) :
    f.withAddresses.address r.1 = some r.2 := by
  obtain ⟨k, hk⟩ := mem_formals.mp (mem_of_mem_layout hr).1
  obtain ⟨s, hs, -⟩ := hf.declared k r.1 hk
  unfold address withAddresses
  dsimp only
  rw [setAddresses_of_mem (pairwise_layout hf.pairwise_formals) hr, hs]
  rfl

theorem toNat_add_of_fits (hfits : f.Fits) {r : ParamInfo × Addr} (hr : r ∈ layout f.formals 0)
    {i : Nat}
    (hi : i < r.1.nbytes) : (r.2 + .ofNat 32 i).toNat = r.2.toNat + i := by
  obtain ⟨-, hend⟩ := ParamInfo.Fits.bounds hfits hr (Nat.zero_lt_of_lt hi)
  have hle := nbytes_le_wordBytes r.1
  rw [BitVec.toNat_add, BitVec.toNat_ofNat]
  omega

theorem sameDecls_finalizeParams {symtab' : SymbolTable} {m : ParamMemory}
    (h : finalizeParams ps a symtab paramMem = .ok (symtab', m)) (name : String) :
    (symtab' name).map (·.type) = (symtab name).map (·.type) := by
  induction ps generalizing a symtab paramMem with
  | nil =>
    cases h
    rfl
  | cons p ps ih =>
    unfold finalizeParams at h
    split at h
    case isTrue => exact ih h
    case isFalse =>
    split at h
    case h_1 => cases h
    case h_2 =>
    split at h
    case h_1 => cases h
    case h_2 =>
    obtain ⟨_, -, h⟩ := bind_eq_ok.mp h
    obtain ⟨m₁, -, h⟩ := bind_eq_ok.mp h
    exact (ih h).trans (map_type_setAddress ..)

theorem sameDecls_initGrid {args : List SimArg} {m : ParamMemory} (h : f.initGrid args = .ok (f', m)) :
    f.SameDecls f' := by
  obtain ⟨g, hg, h⟩ := bind_eq_ok.mp h
  obtain ⟨⟨symtab, m'⟩, hloop, h⟩ := bind_eq_ok.mp h
  cases h
  exact (bindArgs_spec (Nat.add_comm _ _) hg).1.trans ⟨fun _ => rfl, sameDecls_finalizeParams hloop⟩

section Runs

variable {name : String} {symtab₀ : SymbolTable} {sharedNext₀ : Addr}

theorem WellFormed.step {action : KernelAction} (hf : f.WellFormed)
    (h : (kernelFunction name symtab₀ sharedNext₀).step f action = some (.ok f')) : f'.WellFormed := by
  have hs := Option.some.inj h
  cases action with
  | addIdentifier index d => exact hf.addIdentifier hs
  | initGrid args =>
    dsimp only at hs
    cases hrun : f.initGrid args with
    | error e =>
      rw [hrun] at hs
      cases hs
    | ok r =>
      rw [hrun] at hs
      cases hs
      exact hf.of_sameDecls (sameDecls_initGrid hrun)

theorem wellFormed_of_reachable (h : (kernelFunction name symtab₀ sharedNext₀).Reachable f) :
    f.WellFormed := by
  apply h.invariant
  · constructor
    · intro k p hp
      cases hp
    · intro k k' p p' hp
      cases hp
  · intro f action f' hf _ hs
    exact hf.step hs

/-- **The arguments of a launch are marshalled**, as long as the words that are copied stay within
the 32-bit address space: whatever the sizes, whole words are copied one behind the other, and what
one copy writes behind its parameter belongs to the next. -/
theorem initGrid_marshalled {args : List SimArg}
    (h : (kernelFunction name symtab₀ sharedNext₀).Reachable f)
    (hbind : f.bindArgs args.length 1 args = .ok f') (hready : f'.Ready) (hfits : f'.Fits) :
    ∃ g paramMem, f.initGrid args = .ok (g, paramMem) ∧ g.Marshalled args paramMem := by
  obtain ⟨hsame, -, hvalues⟩ := bindArgs_spec (Nat.add_comm _ _) hbind
  have hf : f'.WellFormed := (wellFormed_of_reachable h).of_sameDecls hsame
  have hcopy : ∀ r ∈ layout f'.formals 0, r.2.toNat + r.1.wordBytes ≤ 2 ^ 32 := by
    intro r hr
    rcases Nat.eq_zero_or_pos r.1.nbytes with hzero | hpos
    · rw [wordBytes_eq_zero hzero]
      exact r.2.isLt.le
    · exact (ParamInfo.Fits.bounds hfits hr hpos).2
  obtain ⟨m, hm, hbyte⟩ := finalize_ok .init hf hready hcopy
  refine ⟨f'.withAddresses, m, by rw [initGrid, hbind, ok_bind, hm], hvalues, ?_, ?_⟩
  · -- the bytes
    intro k p hp hnot
    have hmem : p ∈ f'.formals := mem_formals.mpr ⟨k, hp⟩
    obtain ⟨a, ha⟩ := exists_mem_layout (a := 0) hmem hnot
    obtain ⟨v, hv, hstart⟩ := hready p hmem hnot
    obtain ⟨data, hdata⟩ := Option.isSome_iff_exists.mp hstart
    have hvalue : p.value = some v := hv
    refine ⟨v, data, a, hvalue, hdata, address_of_mem hf ha, fun i hi => ?_⟩
    have hn : p.nbytes = min v.nbytes (p.size / 8) := by
      rw [nbytes, hvalue, ← passedBytes_eq_min]
      rfl
    rw [← hn] at hi
    have hpd : p.data = data := by
      unfold ParamInfo.data
      rw [hvalue, Option.bind_some, hdata]
      rfl
    have hstore :
        storeAll (layout f'.formals 0) (MemorySpaceImpl.init (s := paramBlock)).byte (a.toNat + i) =
        p.data i := ParamInfo.Fits.storeAll_of_mem hfits ha hi
    rw [hbyte, toNat_add_of_fits hfits ha hi, hstore, hpd]
  · -- the ranges
    intro k k' p p' a a' hk hp hp' hnot hnot' hpa hpa' i hi i' hi'
    obtain ⟨b, hb⟩ := exists_mem_layout (a := 0) (mem_formals.mpr ⟨k, hp⟩) hnot
    obtain ⟨b', hb'⟩ := exists_mem_layout (a := 0) (mem_formals.mpr ⟨k', hp'⟩) hnot'
    cases hpa.symm.trans (address_of_mem hf hb)
    cases hpa'.symm.trans (address_of_mem hf hb')
    have hne : (p, b) ≠ (p', b') :=
      fun heq => hk (hf.distinct k k' p p' hp hp' (by rw [(Prod.mk.inj heq).1]))
    intro heq
    have hnat := congrArg BitVec.toNat heq
    rw [toNat_add_of_fits hfits hb hi, toNat_add_of_fits hfits hb' hi'] at hnat
    have hapart : Apart (p, b) (p', b') := (ParamInfo.Fits.pairwise hfits).forall hb hb' hne
    have := hapart (Nat.zero_lt_of_lt hi) (Nat.zero_lt_of_lt hi')
    dsimp only at this hnat
    omega

end Runs

theorem eq_ok_of_toOption {x : Except ParamFault KernelFunction} (h : x.toOption = some f) :
    x = .ok f := by
  cases x with
  | error e => cases h
  | ok g =>
    cases h
    rfl

/-- The declarations of a byte, an array of six and a word. -/
def scaleDecls : List KernelAction :=
  [.addIdentifier 0 ⟨"scale_param_0", 1, 8, .undefined⟩,
   .addIdentifier 1 ⟨"scale_param_1", 2, 48, .undefined⟩,
    .addIdentifier 2 ⟨"scale_param_2", 3, 32, .undefined⟩]

/-- The last argument comes first. -/
def scaleArgs : List SimArg :=
  [⟨some fun _ => 3, 4, 8⟩, ⟨some fun _ => 2, 8, 0⟩, ⟨some fun _ => 1, 1, 8⟩]

/-- Sizes that are not multiples of a word, and an argument that is larger than its parameter. -/
theorem initGrid_marshalled_scale : ∃ f g paramMem,
    (kernelFunction "scale" (fun _ => none) 0).Reachable f ∧ f.formals.map (·.size) = [8, 48, 32] ∧
      f.initGrid scaleArgs = .ok (g, paramMem) ∧ g.Marshalled scaleArgs paramMem := by
  obtain ⟨f, -, hf, hval⟩ :=
    (kernelFunction "scale" (fun _ => none) 0).exists_reachable_of_run scaleDecls
    (fun f : KernelFunction => (f.formals.map ParamInfo.size,
      (f.bindArgs 3 1 scaleArgs).toOption.map fun f' : KernelFunction =>
        decide f'.Ready && decide f'.Fits)) (y := ([8, 48, 32], some true)) (by decide)
  obtain ⟨hsizes, hbind⟩ := Prod.mk.inj hval
  obtain ⟨f', hf', hok⟩ := Option.map_eq_some_iff.mp hbind
  rw [Bool.and_eq_true, decide_eq_true_eq, decide_eq_true_eq] at hok
  have hrun : f.bindArgs scaleArgs.length 1 scaleArgs = .ok f' := eq_ok_of_toOption hf'
  obtain ⟨g, paramMem, hg, hm⟩ := initGrid_marshalled hf hrun hok.1 hok.2
  exact ⟨f, g, paramMem, hf, hsizes, hg, hm⟩

/-- Whatever the sizes, the arguments of every launch are marshalled. -/
def MarshalsAll : Prop :=
  ∀ name symtab₀ sharedNext₀ f f' (args : List SimArg),
    (kernelFunction name symtab₀ sharedNext₀).Reachable f →
      f.bindArgs args.length 1 args = .ok f' → f'.Ready →
      ∃ g paramMem, f.initGrid args = .ok (g, paramMem) ∧ g.Marshalled args paramMem

/-- The declarations of two arrays of `2 ^ 31` bytes and of a byte. -/
def fillDecls : List KernelAction :=
  [.addIdentifier 0 ⟨"fill_param_0", 1, 2 ^ 34, .undefined⟩,
    .addIdentifier 1 ⟨"fill_param_1", 1, 2 ^ 34, .undefined⟩,
    .addIdentifier 2 ⟨"fill_param_2", 2, 8, .undefined⟩]

def fillArgs : List SimArg :=
  [⟨some fun _ => 0, 1, 0⟩, ⟨some fun _ => 0, 2 ^ 31, 0⟩, ⟨some fun _ => 0, 2 ^ 31, 0⟩]

/-- The two arrays fill the address space, and the byte is put at the address of the first one. -/
theorem not_marshalsAll : ¬ MarshalsAll := by
  intro hall
  obtain ⟨f, -, hf, hval⟩ := (kernelFunction "fill" (fun _ => none) 0).exists_reachable_of_run fillDecls
    (fun f : KernelFunction => (f.bindArgs 3 1 fillArgs).toOption.map fun f' : KernelFunction =>
      (decide f'.Ready && decide (∀ r ∈ layout f'.formals 0, r.2.toNat + r.1.wordBytes ≤ 2 ^ 32),
        (f'.params.find? 0).map fun p : ParamInfo =>
          (p.isPtrShared, p.nbytes, f'.withAddresses.address p),
        (f'.params.find? 2).map fun p : ParamInfo =>
          (p.isPtrShared, p.nbytes, f'.withAddresses.address p)))
    (y := some (true, some (false, 2 ^ 31, some 0), some (false, 1, some 0))) (by rfl)
  obtain ⟨f', hf', hval⟩ := Option.map_eq_some_iff.mp hval
  obtain ⟨hok, hval⟩ := Prod.mk.inj hval
  obtain ⟨hfirst, hthird⟩ := Prod.mk.inj hval
  rw [Bool.and_eq_true, decide_eq_true_eq, decide_eq_true_eq] at hok
  have hrun : f.bindArgs fillArgs.length 1 fillArgs = .ok f' := eq_ok_of_toOption hf'
  obtain ⟨g, m, hg, hmarshalled⟩ := hall _ _ _ f f' fillArgs hf hrun hok.1
  -- the launch that there is
  have hwf : f'.WellFormed := (wellFormed_of_reachable hf).of_sameDecls (bindArgs_spec rfl hrun).1
  obtain ⟨m', hm', -⟩ := finalize_ok .init hwf hok.1 hok.2
  have hlaunch : f.initGrid fillArgs = .ok (f'.withAddresses, m') := by
    rw [initGrid, hrun, ok_bind, hm']
  cases hg.symm.trans hlaunch
  obtain ⟨p, hp, hpv⟩ := Option.map_eq_some_iff.mp hfirst
  obtain ⟨q, hq, hqv⟩ := Option.map_eq_some_iff.mp hthird
  obtain ⟨hpnot, hpv⟩ := Prod.mk.inj hpv
  obtain ⟨hpn, hpa⟩ := Prod.mk.inj hpv
  obtain ⟨hqnot, hqv⟩ := Prod.mk.inj hqv
  obtain ⟨hqn, hqa⟩ := Prod.mk.inj hqv
  exact hmarshalled.disjoint 0 2 p q 0 0 (by decide) hp hq hpnot hqnot hpa hqa 0 (by rw [hpn]; decide) 0
    (by rw [hqn]; decide) rfl

end KernelFunction

end GpgpuSimRuby.Ptx
