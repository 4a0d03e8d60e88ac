import GpgpuSimRuby.Ptx.IntegerInstructions

/-!
# Generic addresses

The windows of shared and local memory in the generic address space, `cvta`, and what the address of a
load or store refers to (`decode_space`).
-/

namespace GpgpuSimRuby.Ptx

/-- `addr_t`. -/
abbrev Addr := BitVec 32

/-! ## Windows -/

def GLOBAL_HEAP_START : Addr := 0x80000000
def SHARED_MEM_SIZE_MAX : Addr := 64 * 1024
def LOCAL_MEM_SIZE_MAX : Addr := 8 * 1024
def MAX_STREAMING_MULTIPROCESSORS : Addr := 64
def MAX_THREAD_PER_SM : Addr := 2048
def TOTAL_LOCAL_MEM_PER_SM : Addr := MAX_THREAD_PER_SM * LOCAL_MEM_SIZE_MAX
def TOTAL_SHARED_MEM : Addr := MAX_STREAMING_MULTIPROCESSORS * SHARED_MEM_SIZE_MAX
def TOTAL_LOCAL_MEM : Addr := MAX_STREAMING_MULTIPROCESSORS * MAX_THREAD_PER_SM * LOCAL_MEM_SIZE_MAX
def SHARED_GENERIC_START : Addr := GLOBAL_HEAP_START - TOTAL_SHARED_MEM
def LOCAL_GENERIC_START : Addr := SHARED_GENERIC_START - TOTAL_LOCAL_MEM
def STATIC_ALLOC_LIMIT : Addr := GLOBAL_HEAP_START - (TOTAL_LOCAL_MEM + TOTAL_SHARED_MEM)

/-- The values of `memory_space_t`. -/
inductive MemorySpace where
  | undefined | reg | local | shared | paramUnclassified | paramKernel | paramLocal | const | tex
  | surf | global | generic | instruction
  deriving DecidableEq, Repr

inductive AddrFault where
  | assertion
  | abort
  deriving DecidableEq, Repr

section Windows

variable (smid hwtid addr : Addr)

def sharedToGeneric : Except AddrFault Addr :=
  if addr < SHARED_MEM_SIZE_MAX then
    .ok (SHARED_GENERIC_START + smid * SHARED_MEM_SIZE_MAX + addr)
  else .error .assertion

def globalToGeneric : Addr := addr

def isspaceShared : Bool :=
  let start := SHARED_GENERIC_START + smid * SHARED_MEM_SIZE_MAX
  let stop := SHARED_GENERIC_START + (smid + 1) * SHARED_MEM_SIZE_MAX
  !(stop ≤ addr || addr < start)

def isspaceGlobal : Bool := GLOBAL_HEAP_START ≤ addr || addr < STATIC_ALLOC_LIMIT

def whichspace : MemorySpace :=
  if GLOBAL_HEAP_START ≤ addr ∨ addr < STATIC_ALLOC_LIMIT then .global
  else if SHARED_GENERIC_START ≤ addr then .shared
  else .local

def genericToShared : Except AddrFault Addr :=
  if isspaceShared smid addr then .ok (addr - (SHARED_GENERIC_START + smid * SHARED_MEM_SIZE_MAX))
  else .error .assertion

def localToGeneric : Except AddrFault Addr :=
  if addr < LOCAL_MEM_SIZE_MAX then
    .ok (LOCAL_GENERIC_START + TOTAL_LOCAL_MEM_PER_SM * smid + LOCAL_MEM_SIZE_MAX * hwtid + addr)
  else .error .assertion

def isspaceLocal : Bool :=
  let start := LOCAL_GENERIC_START + TOTAL_LOCAL_MEM_PER_SM * smid + LOCAL_MEM_SIZE_MAX * hwtid
  let stop := LOCAL_GENERIC_START + TOTAL_LOCAL_MEM_PER_SM * smid + LOCAL_MEM_SIZE_MAX * (hwtid + 1)
  !(stop ≤ addr || addr < start)

def genericToLocal : Except AddrFault Addr :=
  if isspaceLocal smid hwtid addr then
    .ok (addr - (LOCAL_GENERIC_START + TOTAL_LOCAL_MEM_PER_SM * smid + LOCAL_MEM_SIZE_MAX * hwtid))
  else .error .assertion

def genericToGlobal : Addr := addr

end Windows

/-! ## Threads -/

/-- What a thread has for its addresses. It runs on one of the SMs and hardware threads that the
windows are made for. -/
structure AddrThread where
  smid : Addr
  hwtid : Addr
  localMemStackPointer : Addr
  ptxVersion : Rat
  smid_lt : smid < MAX_STREAMING_MULTIPROCESSORS
  hwtid_lt : hwtid < MAX_THREAD_PER_SM

/-- The memories that a thread can access. The local memory is its own, and the shared memory that of
its block. -/
inductive Memory where
  | global | tex | surf | param | local | shared
  deriving DecidableEq, Repr

/-- The kind of a `.param` symbol. -/
inductive ParamKind where
  | kernel | local | other
  deriving DecidableEq, Repr

/-- What `decode_space` returns. -/
structure Location where
  space : MemorySpace
  mem : Memory
  addr : Addr
  deriving DecidableEq, Repr

namespace AddrThread

variable (t : AddrThread)

/-- The first `if` of `decode_space`. -/
def classifyParam (space : MemorySpace) (kind : ParamKind) : Except AddrFault MemorySpace :=
  match space, kind with
  | .paramUnclassified, .kernel => .ok .paramKernel
  | .paramUnclassified, .local => .ok .paramLocal
  | .paramUnclassified, .other => .error .abort
  | space, _ => .ok space

/-- `decode_space`, on the address and the space of a load or store. -/
def decodeSpace (space : MemorySpace) (kind : ParamKind) (addr : Addr) : Except AddrFault Location := do
  let space ← classifyParam space kind
  match space with
  | .global => .ok ⟨space, .global, addr⟩
  | .paramLocal | .local => .ok ⟨space, .local, addr + t.localMemStackPointer⟩
  | .tex => .ok ⟨space, .tex, addr⟩
  | .surf => .ok ⟨space, .surf, addr⟩
  | .paramKernel => .ok ⟨space, .param, addr⟩
  | .shared => .ok ⟨space, .shared, addr⟩
  | .const => .ok ⟨space, .global, addr⟩
  | .generic =>
    if 2 ≤ t.ptxVersion then
      match whichspace addr with
      | .global => .ok ⟨.global, .global, genericToGlobal addr⟩
      | .local => do
        let addr ← genericToLocal t.smid t.hwtid addr
        .ok ⟨.local, .local, addr⟩
      | .shared => do
        let addr ← genericToShared t.smid addr
        .ok ⟨.shared, .shared, addr⟩
      | _ => .error .abort
    else .error .abort
  | .paramUnclassified | .undefined | .reg | .instruction => .error .abort

/-- The location that a load or store accesses, from the register that holds its address. -/
def access (space : MemorySpace) (kind : ParamKind) (src : Value) : Except AddrFault Location :=
  t.decodeSpace space kind src.u32

/-- `cvta_impl`. -/
def cvtaImpl (space : MemorySpace) (isTo : Bool) (src : Value) : Except AddrFault Value := do
  let fromAddr := src.u32
  let toAddr ←
    if isTo then
      match space with
      | .shared => genericToShared t.smid fromAddr
      | .local => genericToLocal t.smid t.hwtid fromAddr
      | .global => .ok (genericToGlobal fromAddr)
      | _ => .error .abort
    else
      match space with
      | .shared => sharedToGeneric t.smid fromAddr
      | .local => do
        let addr ← localToGeneric t.smid t.hwtid fromAddr
        .ok (addr + t.localMemStackPointer)
      | .global => .ok (globalToGeneric fromAddr)
      | _ => .error .abort
  .ok (Value.ofMember toAddr)

end AddrThread

/-! ## Where the windows are -/

section Bounds

variable {smid hwtid addr : Addr}

theorem sharedStart_toNat (h : smid < MAX_STREAMING_MULTIPROCESSORS) :
    (SHARED_GENERIC_START + smid * SHARED_MEM_SIZE_MAX).toNat = 0x7FC00000 + 0x10000 * smid.toNat := by
  have hs : smid.toNat < 64 := h
  show (0x7FC00000#32 + smid * 0x10000#32).toNat = _
  rw [BitVec.toNat_add, BitVec.toNat_mul, BitVec.toNat_ofNat, BitVec.toNat_ofNat]
  omega

theorem localStart_toNat (hs : smid < MAX_STREAMING_MULTIPROCESSORS) (ht : hwtid < MAX_THREAD_PER_SM) :
    (LOCAL_GENERIC_START + TOTAL_LOCAL_MEM_PER_SM * smid + LOCAL_MEM_SIZE_MAX * hwtid).toNat =
      0x3FC00000 + 0x1000000 * smid.toNat + 0x2000 * hwtid.toNat := by
  have hs : smid.toNat < 64 := hs
  have ht : hwtid.toNat < 2048 := ht
  show (0x3FC00000#32 + 0x1000000#32 * smid + 0x2000#32 * hwtid).toNat = _
  rw [BitVec.toNat_add, BitVec.toNat_add, BitVec.toNat_mul, BitVec.toNat_mul, BitVec.toNat_ofNat,
    BitVec.toNat_ofNat, BitVec.toNat_ofNat]
  omega

theorem sharedStop_toNat (h : smid < MAX_STREAMING_MULTIPROCESSORS) :
    (SHARED_GENERIC_START + (smid + 1) * SHARED_MEM_SIZE_MAX).toNat =
      0x7FC00000 + 0x10000 * smid.toNat + 0x10000 := by
  have hs : smid.toNat < 64 := h
  show (0x7FC00000#32 + (smid + 1#32) * 0x10000#32).toNat = _
  rw [BitVec.toNat_add, BitVec.toNat_mul, BitVec.toNat_add, BitVec.toNat_ofNat, BitVec.toNat_ofNat,
    BitVec.toNat_ofNat]
  omega

theorem localStop_toNat (hs : smid < MAX_STREAMING_MULTIPROCESSORS) (ht : hwtid < MAX_THREAD_PER_SM) :
    (LOCAL_GENERIC_START + TOTAL_LOCAL_MEM_PER_SM * smid + LOCAL_MEM_SIZE_MAX * (hwtid + 1)).toNat =
      0x3FC00000 + 0x1000000 * smid.toNat + 0x2000 * hwtid.toNat + 0x2000 := by
  have hs : smid.toNat < 64 := hs
  have ht : hwtid.toNat < 2048 := ht
  show (0x3FC00000#32 + 0x1000000#32 * smid + 0x2000#32 * (hwtid + 1#32)).toNat = _
  rw [BitVec.toNat_add, BitVec.toNat_add, BitVec.toNat_mul, BitVec.toNat_mul, BitVec.toNat_add,
    BitVec.toNat_ofNat, BitVec.toNat_ofNat, BitVec.toNat_ofNat, BitVec.toNat_ofNat]
  omega

theorem isspaceShared_iff (h : smid < MAX_STREAMING_MULTIPROCESSORS) : isspaceShared smid addr ↔
    0x7FC00000 + 0x10000 * smid.toNat ≤ addr.toNat ∧
      addr.toNat < 0x7FC00000 + 0x10000 * smid.toNat + 0x10000 := by
  unfold isspaceShared
  simp only [Bool.not_eq_true', Bool.or_eq_false_iff, decide_eq_false_iff_not, BitVec.le_def,
    BitVec.lt_def, sharedStart_toNat h, sharedStop_toNat h]
  omega

theorem isspaceLocal_iff (hs : smid < MAX_STREAMING_MULTIPROCESSORS)
    (ht : hwtid < MAX_THREAD_PER_SM) : isspaceLocal smid hwtid addr ↔
      0x3FC00000 + 0x1000000 * smid.toNat + 0x2000 * hwtid.toNat ≤ addr.toNat ∧
        addr.toNat < 0x3FC00000 + 0x1000000 * smid.toNat + 0x2000 * hwtid.toNat + 0x2000 := by
  unfold isspaceLocal
  simp only [Bool.not_eq_true', Bool.or_eq_false_iff, decide_eq_false_iff_not, BitVec.le_def,
    BitVec.lt_def, localStart_toNat hs ht, localStop_toNat hs ht]
  omega

theorem whichspace_of_isspaceShared (h : smid < MAX_STREAMING_MULTIPROCESSORS)
    (ha : isspaceShared smid addr) : whichspace addr = .shared := by
  have hs : smid.toNat < 64 := h
  have hb := (isspaceShared_iff h).mp ha
  unfold whichspace
  rw [if_neg, if_pos]
  · show 0x7FC00000 ≤ addr.toNat
    omega
  · show ¬ (0x80000000 ≤ addr.toNat ∨ addr.toNat < 0x3FC00000)
    omega

theorem whichspace_of_isspaceLocal (hs : smid < MAX_STREAMING_MULTIPROCESSORS)
    (ht : hwtid < MAX_THREAD_PER_SM) (ha : isspaceLocal smid hwtid addr) : whichspace addr = .local := by
  have hs' : smid.toNat < 64 := hs
  have ht' : hwtid.toNat < 2048 := ht
  have hb := (isspaceLocal_iff hs ht).mp ha
  unfold whichspace
  rw [if_neg, if_neg]
  · show ¬ 0x7FC00000 ≤ addr.toNat
    omega
  · show ¬ (0x80000000 ≤ addr.toNat ∨ addr.toNat < 0x3FC00000)
    omega

theorem isspaceShared_add (h : smid < MAX_STREAMING_MULTIPROCESSORS) (ha : addr < SHARED_MEM_SIZE_MAX) :
    isspaceShared smid (SHARED_GENERIC_START + smid * SHARED_MEM_SIZE_MAX + addr) := by
  have hs : smid.toNat < 64 := h
  have ha : addr.toNat < 0x10000 := ha
  rw [isspaceShared_iff h, BitVec.toNat_add, sharedStart_toNat h]
  omega

theorem isspaceLocal_add_iff (hs : smid < MAX_STREAMING_MULTIPROCESSORS) (ht : hwtid < MAX_THREAD_PER_SM) :
    isspaceLocal smid hwtid
      (LOCAL_GENERIC_START + TOTAL_LOCAL_MEM_PER_SM * smid + LOCAL_MEM_SIZE_MAX * hwtid + addr) ↔
        addr < LOCAL_MEM_SIZE_MAX := by
  have hs' : smid.toNat < 64 := hs
  have ht' : hwtid.toNat < 2048 := ht
  have ha := addr.isLt
  rw [isspaceLocal_iff hs ht, BitVec.toNat_add, localStart_toNat hs ht]
  show _ ↔ addr.toNat < 0x2000
  omega

end Bounds

/-! ## Accesses through converted pointers -/

theorem u32_ofMember (a : Addr) : Value.u32 (Value.ofMember a) = a := by
  show (a.setWidth 64).setWidth 32 = a
  rw [BitVec.setWidth_setWidth_of_le _ (by decide), BitVec.setWidth_eq]

namespace AddrThread

variable {t : AddrThread} {kind : ParamKind} {src : Value} {off : Addr}

/-- The beginning of the window of the thread's local memory. -/
def localStart (t : AddrThread) : Addr :=
  LOCAL_GENERIC_START + TOTAL_LOCAL_MEM_PER_SM * t.smid + LOCAL_MEM_SIZE_MAX * t.hwtid

/-- The beginning of the window of the shared memory of the thread's SM. -/
def sharedStart (t : AddrThread) : Addr := SHARED_GENERIC_START + t.smid * SHARED_MEM_SIZE_MAX

/-- The thread in another function. -/
def atDepth (t : AddrThread) (sp : Addr) : AddrThread := { t with localMemStackPointer := sp }

theorem isspaceLocal_localStart :
    isspaceLocal t.smid t.hwtid (t.localStart + off) ↔ off < LOCAL_MEM_SIZE_MAX :=
  isspaceLocal_add_iff t.smid_lt t.hwtid_lt

theorem isspaceShared_sharedStart (h : off < SHARED_MEM_SIZE_MAX) :
    isspaceShared t.smid (t.sharedStart + off) :=
  isspaceShared_add t.smid_lt h

theorem access_local :
    t.access .local kind src = .ok ⟨.local, .local, src.u32 + t.localMemStackPointer⟩ := rfl

theorem access_shared : t.access .shared kind src = .ok ⟨.shared, .shared, src.u32⟩ := rfl

theorem cvtaImpl_local (h : src.u32 < LOCAL_MEM_SIZE_MAX) : t.cvtaImpl .local false src =
    .ok (Value.ofMember (t.localStart + (src.u32 + t.localMemStackPointer))) := by
  have hgeneric : localToGeneric t.smid t.hwtid src.u32 = .ok (t.localStart + src.u32) := if_pos h
  rw [← BitVec.add_assoc]
  simp only [cvtaImpl, hgeneric, Bool.false_eq_true, if_false]
  rfl

theorem cvtaImpl_shared (h : src.u32 < SHARED_MEM_SIZE_MAX) :
    t.cvtaImpl .shared false src = .ok (Value.ofMember (t.sharedStart + src.u32)) := by
  have hgeneric : sharedToGeneric t.smid src.u32 = .ok (t.sharedStart + src.u32) := if_pos h
  simp only [cvtaImpl, hgeneric, Bool.false_eq_true, if_false]
  rfl

theorem genericToLocal_localStart (h : off < LOCAL_MEM_SIZE_MAX) :
    genericToLocal t.smid t.hwtid (t.localStart + off) = .ok off := by
  unfold genericToLocal
  rw [if_pos (isspaceLocal_localStart.mpr h)]
  show Except.ok (t.localStart + off - t.localStart) = _
  rw [add_sub_cancel_left]

theorem genericToShared_sharedStart (h : off < SHARED_MEM_SIZE_MAX) :
    genericToShared t.smid (t.sharedStart + off) = .ok off := by
  unfold genericToShared
  rw [if_pos (isspaceShared_sharedStart h)]
  show Except.ok (t.sharedStart + off - t.sharedStart) = _
  rw [add_sub_cancel_left]

theorem cvtaImpl_to_local (h : off < LOCAL_MEM_SIZE_MAX) :
    t.cvtaImpl .local true (Value.ofMember (t.localStart + off)) = .ok (Value.ofMember off) := by
  show genericToLocal t.smid t.hwtid (Value.u32 (Value.ofMember (t.localStart + off))) >>= _ = _
  rw [u32_ofMember, genericToLocal_localStart h]
  rfl

theorem cvtaImpl_to_shared (h : off < SHARED_MEM_SIZE_MAX) :
    t.cvtaImpl .shared true (Value.ofMember (t.sharedStart + off)) = .ok (Value.ofMember off) := by
  show genericToShared t.smid (Value.u32 (Value.ofMember (t.sharedStart + off))) >>= _ = _
  rw [u32_ofMember, genericToShared_sharedStart h]
  rfl

theorem access_generic (hv : 2 ≤ t.ptxVersion) (addr : Addr) :
    t.access .generic kind (Value.ofMember addr) =
      match whichspace addr with
      | .global => .ok ⟨.global, .global, genericToGlobal addr⟩
      | .local => (genericToLocal t.smid t.hwtid addr).map (⟨.local, .local, ·⟩)
      | .shared => (genericToShared t.smid addr).map (⟨.shared, .shared, ·⟩)
      | _ => .error .abort := by
  have haccess : t.access .generic kind (Value.ofMember addr) = if 2 ≤ t.ptxVersion then
      match whichspace addr with
      | .global => .ok ⟨.global, .global, genericToGlobal addr⟩
      | .local => (genericToLocal t.smid t.hwtid addr).map (⟨.local, .local, ·⟩)
      | .shared => (genericToShared t.smid addr).map (⟨.shared, .shared, ·⟩)
      | _ => .error .abort
      else .error .abort := by
    show t.decodeSpace .generic kind (Value.u32 (Value.ofMember addr)) = _
    rw [u32_ofMember]
    rfl
  rw [haccess, if_pos hv]

theorem access_generic_local (hv : 2 ≤ t.ptxVersion) (h : off < LOCAL_MEM_SIZE_MAX) :
    t.access .generic kind (Value.ofMember (t.localStart + off)) = .ok ⟨.local, .local, off⟩ := by
  have hspace := whichspace_of_isspaceLocal t.smid_lt t.hwtid_lt
    (isspaceLocal_localStart.mpr h)
  rw [access_generic hv, hspace,
    genericToLocal_localStart h]
  rfl

theorem access_generic_shared (hv : 2 ≤ t.ptxVersion) (h : off < SHARED_MEM_SIZE_MAX) :
    t.access .generic kind (Value.ofMember (t.sharedStart + off)) = .ok ⟨.shared, .shared, off⟩ := by
  have hspace := whichspace_of_isspaceShared t.smid_lt (isspaceShared_sharedStart h)
  rw [access_generic hv, hspace,
    genericToShared_sharedStart h]
  rfl

theorem le_ptxVersion_of_access {l : Location} (h : t.access .generic kind src = .ok l) :
    2 ≤ t.ptxVersion := by
  by_contra hv
  have haccess : t.access .generic kind src = .error .abort := if_neg hv
  rw [haccess] at h
  cases h

theorem lt_of_access_generic {l : Location} (h : t.access .generic kind
    (Value.ofMember (t.localStart + off)) = .ok l) (hl : l.mem = .local) : off < LOCAL_MEM_SIZE_MAX := by
  rw [access_generic (le_ptxVersion_of_access h)] at h
  apply isspaceLocal_localStart.mp
  cases hspace : whichspace (t.localStart + off) with
  | «local» =>
    rw [hspace] at h
    by_contra hnot
    have hfault : genericToLocal t.smid t.hwtid (t.localStart + off) = .error .assertion :=
      if_neg hnot
    simp only [hfault] at h
    cases h
  | global =>
    rw [hspace] at h
    cases h
    cases hl
  | shared =>
    rw [hspace] at h
    cases hg : genericToShared t.smid (t.localStart + off) with
    | error e => simp only [hg] at h; cases h
    | ok a => simp only [hg] at h; cases h; cases hl
  | undefined | reg | paramUnclassified | paramKernel | paramLocal | const | tex | surf | generic
    | instruction =>
    rw [hspace] at h
    cases h

theorem cvtaImpl_to_local_of_not (h : ¬ off < LOCAL_MEM_SIZE_MAX) :
    t.cvtaImpl .local true (Value.ofMember (t.localStart + off)) = .error .assertion := by
  have hfault : genericToLocal t.smid t.hwtid (t.localStart + off) = .error .assertion :=
    if_neg (fun hspace => h (isspaceLocal_localStart.mp hspace))
  show genericToLocal t.smid t.hwtid (Value.u32 (Value.ofMember (t.localStart + off))) >>= _ = _
  rw [u32_ofMember, hfault]
  rfl

end AddrThread

/-- The spaces that have windows. -/
inductive Window where
  | «local» | shared
  deriving DecidableEq, Repr

namespace Window

def space : Window → MemorySpace
  | .local => .local
  | .shared => .shared

def mem : Window → Memory
  | .local => .local
  | .shared => .shared

def size : Window → Addr
  | .local => LOCAL_MEM_SIZE_MAX
  | .shared => SHARED_MEM_SIZE_MAX

/-- The beginning of the window of a thread. -/
def start (t : AddrThread) : Window → Addr
  | .local => t.localStart
  | .shared => t.sharedStart

/-- Where the addresses of the current function begin: those of local memory are relative to its
frame. -/
def frame (t : AddrThread) : Window → Addr
  | .local => t.localMemStackPointer
  | .shared => 0

variable {t : AddrThread} {w : Window} {kind : ParamKind} {src : Value} {off : Addr}

theorem start_atDepth (sp : Addr) : w.start (t.atDepth sp) = w.start t := by
  cases w <;> rfl

theorem access_eq : t.access w.space kind src = .ok ⟨w.space, w.mem, src.u32 + w.frame t⟩ := by
  cases w with
  | «local» => exact AddrThread.access_local
  | shared =>
    show t.access .shared kind src = .ok ⟨.shared, .shared, src.u32 + 0⟩
    rw [add_zero]
    exact AddrThread.access_shared

theorem cvtaImpl_eq (h : src.u32 < w.size) :
    t.cvtaImpl w.space false src = .ok (Value.ofMember (w.start t + (src.u32 + w.frame t))) := by
  cases w with
  | «local» => exact AddrThread.cvtaImpl_local h
  | shared =>
    show t.cvtaImpl .shared false src = .ok (Value.ofMember (t.sharedStart + (src.u32 + 0)))
    rw [add_zero]
    exact AddrThread.cvtaImpl_shared h

theorem access_generic_eq (hv : 2 ≤ t.ptxVersion) (h : off < w.size) :
    t.access .generic kind (Value.ofMember (w.start t + off)) = .ok ⟨w.space, w.mem, off⟩ := by
  cases w with
  | «local» => exact AddrThread.access_generic_local hv h
  | shared => exact AddrThread.access_generic_shared hv h

theorem cvtaImpl_to_eq (h : off < w.size) :
    t.cvtaImpl w.space true (Value.ofMember (w.start t + off)) = .ok (Value.ofMember off) := by
  cases w with
  | «local» => exact AddrThread.cvtaImpl_to_local h
  | shared => exact AddrThread.cvtaImpl_to_shared h

theorem local_start_add_toNat (h : off < LOCAL_MEM_SIZE_MAX) : (t.localStart + off).toNat =
    0x3FC00000 + 0x1000000 * t.smid.toNat + 0x2000 * t.hwtid.toNat + off.toNat := by
  have hs : t.smid.toNat < 64 := t.smid_lt
  have ht : t.hwtid.toNat < 2048 := t.hwtid_lt
  have ho : off.toNat < 0x2000 := h
  have hstart : t.localStart.toNat = _ := localStart_toNat t.smid_lt t.hwtid_lt
  rw [BitVec.toNat_add, hstart]
  omega

theorem shared_start_add_toNat (h : off < SHARED_MEM_SIZE_MAX) :
    (t.sharedStart + off).toNat = 0x7FC00000 + 0x10000 * t.smid.toNat + off.toNat := by
  have hs : t.smid.toNat < 64 := t.smid_lt
  have ho : off.toNat < 0x10000 := h
  have hstart : t.sharedStart.toNat = _ := sharedStart_toNat t.smid_lt
  rw [BitVec.toNat_add, hstart]
  omega

theorem start_add_inj {t' : AddrThread} {w' : Window} {off' : Addr} (h : off < w.size)
    (h' : off' < w'.size) : w.start t + off = w'.start t' + off' ↔ w = w' ∧ t.smid = t'.smid ∧
      (w = .local → t.hwtid = t'.hwtid) ∧ off = off' := by
  have hs : t.smid.toNat < 64 := t.smid_lt
  have hs' : t'.smid.toNat < 64 := t'.smid_lt
  have ht : t.hwtid.toNat < 2048 := t.hwtid_lt
  have ht' : t'.hwtid.toNat < 2048 := t'.hwtid_lt
  simp only [BitVec.toNat_eq]
  cases w with
  | «local» =>
    have ho : off.toNat < 0x2000 := h
    have hl : (start t .local + off).toNat = _ := local_start_add_toNat h
    cases w' with
    | «local» =>
      have ho' : off'.toNat < 0x2000 := h'
      have hl' : (start t' .local + off').toNat = _ := local_start_add_toNat h'
      rw [hl, hl']
      constructor
      · intro heq
        refine ⟨rfl, ?_, fun _ => ?_, ?_⟩ <;> omega
      · rintro ⟨-, hsm, htid, hoff⟩
        rw [hsm, htid rfl, hoff]
    | shared =>
      have hl' : (start t' .shared + off').toNat = _ := shared_start_add_toNat h'
      rw [hl, hl']
      refine ⟨fun heq => ?_, fun heq => by cases heq.1⟩
      omega
  | shared =>
    have ho : off.toNat < 0x10000 := h
    have hl : (start t .shared + off).toNat = _ := shared_start_add_toNat h
    cases w' with
    | «local» =>
      have ho' : off'.toNat < 0x2000 := h'
      have hl' : (start t' .local + off').toNat = _ := local_start_add_toNat h'
      rw [hl, hl']
      refine ⟨fun heq => ?_, fun heq => by cases heq.1⟩
      omega
    | shared =>
      have ho' : off'.toNat < 0x10000 := h'
      have hl' : (start t' .shared + off').toNat = _ := shared_start_add_toNat h'
      rw [hl, hl']
      constructor
      · intro heq
        refine ⟨rfl, ?_, fun hw => (by cases hw), ?_⟩ <;> omega
      · rintro ⟨-, hsm, -, hoff⟩
        rw [hsm, hoff]

end Window

/-- A local or shared address in a register of a thread. -/
structure Pointer where
  thread : AddrThread
  window : Window
  src : Value
  inWindow : src.u32 < window.size

namespace Pointer

variable (p q : Pointer)

/-- The generic address that `cvta` makes of it. -/
def cvta : Except AddrFault Value := p.thread.cvtaImpl p.window.space false p.src

/-- The address in its memory that a direct access has. -/
def offset : Addr := p.src.u32 + p.window.frame p.thread

/-- Through the generic address, at whatever depth of calls it is used, an access is to the location of
the direct access. -/
def GenericPreserved : Prop :=
  ∃ g l, p.cvta = .ok g ∧ ∀ kind, p.thread.access p.window.space kind p.src = .ok l ∧
    ∀ sp, (p.thread.atDepth sp).access .generic kind g = .ok l

/-- An access through what `cvta.to` makes of the generic address is to the location of the direct
access. -/
def BackPreserved : Prop :=
  ∃ g src' l, p.cvta = .ok g ∧ p.thread.cvtaImpl p.window.space true g = .ok src' ∧
    ∀ kind, p.thread.access p.window.space kind p.src = .ok l ∧
      p.thread.access p.window.space kind src' = .ok l

/-- What is accessed is in the window. -/
def Fits : Prop := p.offset < p.window.size

/-- They refer to the same byte. Local memory is a thread's own, shared memory that of its SM. -/
def SameByte : Prop :=
  p.window = q.window ∧ p.thread.smid = q.thread.smid ∧
    (p.window = .local → p.thread.hwtid = q.thread.hwtid) ∧ p.offset = q.offset

variable {p q : Pointer}

theorem cvta_eq (p : Pointer) : p.cvta = .ok (Value.ofMember (p.window.start p.thread + p.offset)) :=
  Window.cvtaImpl_eq p.inWindow

theorem fits_of_frame (h : p.window.frame p.thread = 0) : p.Fits := by
  unfold Fits offset
  rw [h, add_zero]
  exact p.inWindow

theorem genericPreserved_iff : p.GenericPreserved ↔ 2 ≤ p.thread.ptxVersion ∧ p.Fits := by
  constructor
  · rintro ⟨g, l, hg, hl⟩
    obtain ⟨haccess, hgeneric⟩ := hl .other
    have hgeneric := hgeneric 0
    rw [cvta_eq] at hg
    cases hg
    rw [Window.access_eq] at haccess
    cases haccess
    have hv := AddrThread.le_ptxVersion_of_access hgeneric
    refine ⟨hv, ?_⟩
    cases hw : p.window with
    | shared => exact fits_of_frame (by rw [hw]; rfl)
    | «local» =>
      have hoff : p.offset < LOCAL_MEM_SIZE_MAX := by
        rw [hw] at hgeneric
        exact AddrThread.lt_of_access_generic (t := p.thread.atDepth 0) hgeneric rfl
      unfold Fits
      rwa [hw]
  · rintro ⟨hv, hfits⟩
    refine ⟨_, _, cvta_eq p, fun kind => ⟨Window.access_eq, fun sp => ?_⟩⟩
    rw [← Window.start_atDepth]
    exact Window.access_generic_eq hv hfits

theorem backPreserved_iff : p.BackPreserved ↔ p.window.frame p.thread = 0 := by
  constructor
  · rintro ⟨g, src', l, hg, hback, hl⟩
    obtain ⟨haccess, hagain⟩ := hl .other
    rw [cvta_eq] at hg
    cases hg
    by_cases hfits : p.Fits
    · -- what `cvta` has added is added again
      rw [Window.cvtaImpl_to_eq hfits] at hback
      cases hback
      rw [Window.access_eq] at haccess
      cases haccess
      rw [Window.access_eq, u32_ofMember] at hagain
      have haddr := congrArg Location.addr (Except.ok.inj hagain)
      exact add_eq_left.mp haddr
    · cases hw : p.window with
      | shared => rfl
      | «local» =>
        have hnot : ¬ p.offset < LOCAL_MEM_SIZE_MAX := by
          unfold Fits at hfits
          rwa [hw] at hfits
        rw [hw] at hback
        have hfault := AddrThread.cvtaImpl_to_local_of_not (t := p.thread) hnot
        have hok := hfault.symm.trans hback
        cases hok
  · intro hframe
    refine ⟨_, _, _, cvta_eq p, Window.cvtaImpl_to_eq (fits_of_frame hframe),
      fun kind => ⟨Window.access_eq, ?_⟩⟩
    rw [Window.access_eq, u32_ofMember, offset, hframe, add_zero]

theorem cvta_inj (hp : p.Fits) (hq : q.Fits) : p.cvta = q.cvta ↔ p.SameByte q := by
  have hmember : p.cvta = q.cvta ↔
      p.window.start p.thread + p.offset = q.window.start q.thread + q.offset := by
    rw [cvta_eq, cvta_eq]
    constructor
    · intro h
      have hvalue := congrArg Value.u32 (Except.ok.inj h)
      rwa [u32_ofMember, u32_ofMember] at hvalue
    · intro h
      rw [h]
  exact hmember.trans (Window.start_add_inj hp hq)

/-- The accesses through the converted pointers are those of the direct access. -/
def Preserved (p : Pointer) : Prop := p.GenericPreserved ∧ p.BackPreserved

/-- **Conversion of pointers.** An access through the generic address is the direct one if that is in
the window, and the generic addresses of different bytes are different then. An access after the
conversion back is the direct one if the frame of the function is the first one. -/
theorem cvta_preserved_iff (p q : Pointer) :
    (p.Preserved ↔ 2 ≤ p.thread.ptxVersion ∧
      (p.window = .local → p.thread.localMemStackPointer = 0)) ∧
    (p.GenericPreserved ↔ 2 ≤ p.thread.ptxVersion ∧
      (p.window = .local → p.src.u32 + p.thread.localMemStackPointer < LOCAL_MEM_SIZE_MAX)) ∧
    ((p.window = .local → p.src.u32 + p.thread.localMemStackPointer < LOCAL_MEM_SIZE_MAX) →
      (q.window = .local → q.src.u32 + q.thread.localMemStackPointer < LOCAL_MEM_SIZE_MAX) →
        (p.cvta = q.cvta ↔ p.SameByte q)) := by
  have hframe : p.window.frame p.thread = 0 ↔
      (p.window = .local → p.thread.localMemStackPointer = 0) := by
    cases p.window with
    | «local» => exact ⟨fun h _ => h, fun h => h rfl⟩
    | shared => exact ⟨fun _ hw => (by cases hw), fun _ => rfl⟩
  have hfits : ∀ p : Pointer, p.Fits ↔ (p.window = .local →
      p.src.u32 + p.thread.localMemStackPointer < LOCAL_MEM_SIZE_MAX) := by
    rintro ⟨t, w, src, h⟩
    cases w with
    | «local» => exact ⟨fun h _ => h, fun h => h rfl⟩
    | shared => exact ⟨fun _ hw => (by cases hw), fun _ => fits_of_frame (p := ⟨t, .shared, src, h⟩) rfl⟩
  refine ⟨?_, ?_, fun hp hq => ?_⟩
  · unfold Preserved
    rw [genericPreserved_iff, backPreserved_iff, ← hframe]
    exact ⟨fun h => ⟨h.1.1, h.2⟩, fun h => ⟨⟨h.1, fits_of_frame h.2⟩, h.2⟩⟩
  · rw [genericPreserved_iff, hfits]
  · exact cvta_inj ((hfits p).mpr hp) ((hfits q).mpr hq)

end Pointer

/-- A thread in a function whose caller has a frame of 16 bytes. -/
def calledThread : AddrThread where
  smid := 0
  hwtid := 0
  localMemStackPointer := 16
  ptxVersion := 2
  smid_lt := by decide
  hwtid_lt := by decide

/-- The first variable of a called function, converted to a generic address and back: the frame of the
caller is counted twice. -/
theorem not_preserved_calledThread : ¬ Pointer.Preserved ⟨calledThread, .local, 0, by decide⟩ := by
  rintro ⟨-, g, src', l, hg, hback, hl⟩
  obtain ⟨haccess, hagain⟩ := hl .other
  have hcvta : calledThread.cvtaImpl .local false 0 = .ok 0x3FC00010 := by decide
  have hto : calledThread.cvtaImpl .local true 0x3FC00010 = .ok 0x10 := by decide
  cases hcvta.symm.trans hg
  cases hto.symm.trans hback
  have hdirect : calledThread.access .local .other 0 = .ok ⟨.local, .local, 0x10⟩ := by decide
  have htwice : calledThread.access .local .other 0x10 = .ok ⟨.local, .local, 0x20⟩ := by decide
  cases hdirect.symm.trans haccess
  cases htwice.symm.trans hagain

/-! ## The predicate of a space -/

/-- The spaces that `isspacep` asks for. -/
inductive PredicateSpace where
  | shared | «local» | global
  deriving DecidableEq, Repr

def PredicateSpace.space : PredicateSpace → MemorySpace
  | .shared => .shared
  | .local => .local
  | .global => .global

namespace AddrThread

variable (t : AddrThread) (addr : Addr)

/-- The address belongs to the space. -/
def isspace : PredicateSpace → Bool
  | .shared => isspaceShared t.smid addr
  | .local => isspaceLocal t.smid t.hwtid addr
  | .global => isspaceGlobal addr

section Switch

/-! The cases of the `switch` in `isspacep_impl`. None of them ends in a `break`: each assigns `t` and
goes on into the next one. -/

def isspacepDefault (_ : Bool) : Except AddrFault Bool := .error .abort

def isspacepGlobal (_ : Bool) : Except AddrFault Bool := isspacepDefault (isspaceGlobal addr)

def isspacepLocal (_ : Bool) : Except AddrFault Bool :=
  isspacepGlobal addr (isspaceLocal t.smid t.hwtid addr)

def isspacepShared (_ : Bool) : Except AddrFault Bool := t.isspacepLocal addr (isspaceShared t.smid addr)

end Switch

/-- `isspacep_impl`. -/
def isspacepImpl (space : MemorySpace) (src : Value) : Except AddrFault Value := do
  let addr := src.u32
  let r ←
    match space with
    | .shared => t.isspacepShared addr false
    | .local => t.isspacepLocal addr false
    | .global => isspacepGlobal addr false
    | _ => isspacepDefault false
  .ok (if r then 1 else 0)

/-- The predicate is set to whether the address belongs to the space, and that is whether `cvta.to`
accepts it. Everywhere else a set bit stands for false. -/
def IsspacepAgrees (s : PredicateSpace) (src : Value) : Prop :=
  ∃ p, t.isspacepImpl s.space src = .ok p ∧ (p &&& 1 = 0 ↔ t.isspace src.u32 s = true) ∧
    (t.isspace src.u32 s = true ↔ ∃ a, t.cvtaImpl s.space true src = .ok a)

variable {t addr}

theorem isspacepImpl_eq (space : MemorySpace) (src : Value) : t.isspacepImpl space src = .error .abort := by
  cases space <;> rfl

/-- **Space predicates.** For no thread, space and address is the predicate set. -/
theorem isspacep_never (t : AddrThread) (s : PredicateSpace) (src : Value) :
    t.isspacepImpl s.space src = .error .abort ∧ ¬ t.IsspacepAgrees s src := by
  refine ⟨isspacepImpl_eq s.space src, ?_⟩
  rintro ⟨p, hp, -⟩
  rw [isspacepImpl_eq] at hp
  cases hp

end AddrThread

/-- The first byte of the thread's own shared memory, which `cvta.to.shared` accepts. -/
theorem not_isspacepAgrees_first : calledThread.isspace 0x7FC00000 .shared = true ∧
    calledThread.cvtaImpl .shared true 0x7FC00000 = .ok 0 ∧
      ¬ calledThread.IsspacepAgrees .shared 0x7FC00000 := by
  refine ⟨by decide, by decide, ?_⟩
  rintro ⟨p, hp, -⟩
  cases hp

end GpgpuSimRuby.Ptx
