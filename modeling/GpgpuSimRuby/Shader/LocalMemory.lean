import GpgpuSimRuby.Library.Fault
import GpgpuSimRuby.Ptx.GenericAddress

/-!
# Local memory in the timing simulation

`translate_local_memaddr` maps the local memories of all threads to the window of local memory, and
`set_max_cta` gives each core the shape of the CTAs of its kernel. Which bytes of two threads get
different addresses depends on the kernels of the other cores.
-/

namespace GpgpuSimRuby.Shader

open Library Ptx

/-- The options of `shader_core_config` that matter here. `n_thread_per_shader` is checked against
`MAX_THREAD_PER_SM`, and the windows are for `MAX_STREAMING_MULTIPROCESSORS` cores. -/
structure CtaConfig where
  gpgpuLocalMemMap : Bool
  nThreadPerShader : Nat
  warpSize : Nat
  gpgpuShmemSize : Nat
  gpgpuShaderRegisters : Nat
  maxCtaPerCore : Nat
  numShader : Nat
  warpSize_pos : 0 < warpSize
  nThreadPerShader_le : nThreadPerShader ≤ 2048
  numShader_le : numShader ≤ 64

/-- What `max_cta` reads of a kernel. -/
structure CtaKernel where
  threadsPerCta : Nat
  smem : Nat
  regs : Nat
  numBlocks : Nat
  threadsPerCta_pos : 0 < threadsPerCta

inductive LocalFault where
  | maxCta | resources
  | threadBase | datasize | accesses | alignment | wordOverflow
  deriving DecidableEq, Repr

/-! ## The shape of the CTAs -/

namespace CtaConfig

variable (cfg : CtaConfig) (k : CtaKernel)

/-- The threads of a CTA, up to the next warp. -/
def paddedCtaSize : Nat :=
  if k.threadsPerCta % cfg.warpSize ≠ 0 then (k.threadsPerCta / cfg.warpSize + 1) * cfg.warpSize
  else k.threadsPerCta

/-- The CTAs for which a core has threads, shared memory and registers. -/
def resourceLimit : Nat :=
  let resultThread := cfg.nThreadPerShader / cfg.paddedCtaSize k
  let resultShmem := if 0 < k.smem then cfg.gpgpuShmemSize / k.smem else 2 ^ 32 - 1
  -- the registers are rounded up to a multiple of four
  let resultRegs := if 0 < k.regs then
    cfg.gpgpuShaderRegisters / (cfg.paddedCtaSize k * ((k.regs + 3) / 4 * 4)) else 2 ^ 32 - 1
  min (min (min resultThread resultShmem) resultRegs) cfg.maxCtaPerCore

/-- `max_cta`. With few blocks the CTAs are spread over all cores. -/
def maxCta : Except LocalFault Nat := do
  let result := cfg.resourceLimit k
  let result := if k.numBlocks < result * cfg.numShader then
    k.numBlocks / cfg.numShader + (if k.numBlocks % cfg.numShader ≠ 0 then 1 else 0) else result
  assert (result ≤ 32) .maxCta
  assert (1 ≤ result) .resources
  return result

end CtaConfig

/-- What `set_max_cta` sets in a core. -/
structure CtaCore where
  sid : Nat
  kernelMaxCtaPerShader : Nat
  kernelPaddedThreadsPerCta : Nat
  deriving DecidableEq

/-- `set_max_cta`. -/
def setMaxCta (cfg : CtaConfig) (sid : Nat) (k : CtaKernel) : Except LocalFault CtaCore := do
  let n ← cfg.maxCta k
  return ⟨sid, n, cfg.paddedCtaSize k⟩

/-! ## The translation -/

section Translation

variable (cfg : CtaConfig) (core : CtaCore) (localaddr tid datasize : Addr)

def threadBase : Addr :=
  let padded : Addr := .ofNat 32 core.kernelPaddedThreadsPerCta
  if cfg.gpgpuLocalMemMap then
    4 * (padded * (.ofNat 32 core.sid + .ofNat 32 cfg.numShader * (tid / padded)) + tid % padded)
  else 4 * (.ofNat 32 cfg.nThreadPerShader * .ofNat 32 core.sid + tid)

def maxConcurrentThreads : Addr :=
  if cfg.gpgpuLocalMemMap then
    .ofNat 32 core.kernelPaddedThreadsPerCta * .ofNat 32 core.kernelMaxCtaPerShader *
      .ofNat 32 cfg.numShader
  else .ofNat 32 cfg.numShader * .ofNat 32 cfg.nThreadPerShader

/-- `translate_local_memaddr`. -/
def translateLocalMemaddr : Except LocalFault (List Addr) := do
  let base := threadBase cfg core tid
  let threads := maxConcurrentThreads cfg core
  assert (base < 4 * threads) .threadBase
  if 4 ≤ datasize then do
    assert (datasize % 4 = 0) .datasize
    assert (datasize / 4 ≤ 8) .accesses
    assert (localaddr % 4 = 0) .alignment
    return (List.range (datasize / 4).toNat).map fun i =>
      (localaddr / 4 + .ofNat 32 i) * threads * 4 + base + LOCAL_GENERIC_START
  else do
    assert (0 < datasize) .datasize
    assert ((localaddr + datasize - 1) / 4 = localaddr / 4) .wordOverflow
    return [localaddr / 4 * threads * 4 + localaddr % 4 + base + LOCAL_GENERIC_START]

end Translation

/-! ## Threads and accesses -/

/-- A kernel is on a core, and one of its CTAs in a slot with this thread. -/
def Resident (cfg : CtaConfig) (kernels : Fin cfg.numShader → Option CtaKernel) (s : Fin cfg.numShader)
    (core : CtaCore) (tid : Nat) : Prop :=
  ∃ k, kernels s = some k ∧ setMaxCta cfg s k = .ok core ∧ ∃ slot < core.kernelMaxCtaPerShader,
    slot * core.kernelPaddedThreadsPerCta ≤ tid ∧
      tid < slot * core.kernelPaddedThreadsPerCta + k.threadsPerCta

/-- An access to local memory: within a word or a few whole words, below `LOCAL_MEM_SIZE_MAX`. -/
def LocalAccess (localaddr datasize : Nat) : Prop :=
  0 < datasize ∧ localaddr + datasize ≤ 8192 ∧ (datasize < 4 → localaddr % 4 + datasize ≤ 4) ∧
    (4 ≤ datasize → datasize % 4 = 0 ∧ localaddr % 4 = 0 ∧ datasize ≤ 32)

/-- The address of a byte of an access, of which there is an address for each word. -/
def accessByte (addrs : List Addr) (i : Nat) : Option Addr :=
  (addrs[i / 4]?).map (· + .ofNat 32 (i % 4))

section Claim

variable (cfg : CtaConfig) (kernels : Fin cfg.numShader → Option CtaKernel)

/-- Accesses of resident threads are translated, to bytes in the window of local memory. -/
def InWindow : Prop :=
  ∀ s core tid localaddr datasize, Resident cfg kernels s core tid → LocalAccess localaddr datasize →
    ∃ addrs, translateLocalMemaddr cfg core (.ofNat 32 localaddr) (.ofNat 32 tid) (.ofNat 32 datasize) =
        .ok addrs ∧
      ∀ i < datasize, ∃ a, accessByte addrs i = some a ∧ LOCAL_GENERIC_START ≤ a ∧
        a < SHARED_GENERIC_START

/-- Different bytes of the local memories get different addresses. -/
def Separate : Prop :=
  ∀ s core tid localaddr datasize s' core' tid' localaddr' datasize' addrs addrs' i i',
    Resident cfg kernels s core tid → Resident cfg kernels s' core' tid' →
    LocalAccess localaddr datasize → LocalAccess localaddr' datasize' → i < datasize → i' < datasize' →
    translateLocalMemaddr cfg core (.ofNat 32 localaddr) (.ofNat 32 tid)
      (.ofNat 32 datasize) = .ok addrs →
    translateLocalMemaddr cfg core' (.ofNat 32 localaddr') (.ofNat 32 tid') (.ofNat 32 datasize') =
      .ok addrs' →
    accessByte addrs i = accessByte addrs' i' → s = s' ∧ tid = tid' ∧ localaddr + i = localaddr' + i'

end Claim

/-- The words of the interleaved mapping that are of threads of a core: the threads of a CTA are next to
each other, and the blocks of a core `num_shader` blocks of its own size apart. -/
def coreWords (cfg : CtaConfig) (core : CtaCore) (k : CtaKernel) : Set Nat :=
  {w | ∃ j < 2048 * core.kernelMaxCtaPerShader,
    core.kernelPaddedThreadsPerCta * (core.sid + cfg.numShader * j) ≤ w ∧
      w < core.kernelPaddedThreadsPerCta * (core.sid + cfg.numShader * j) + k.threadsPerCta}

/-- The words of any two cores are different ones. -/
def CoresApart (cfg : CtaConfig) (kernels : Fin cfg.numShader → Option CtaKernel) : Prop :=
  ∀ s s' k k' core core', s ≠ s' → kernels s = some k → kernels s' = some k' →
    setMaxCta cfg s k = .ok core → setMaxCta cfg s' k' = .ok core' →
      Disjoint (coreWords cfg core k) (coreWords cfg core' k')

/-! ## The shape of a core -/

section Shape

variable {cfg : CtaConfig} {k : CtaKernel} {core : CtaCore} {sid : Nat}

theorem CtaConfig.threadsPerCta_le (cfg : CtaConfig) (k : CtaKernel) :
    k.threadsPerCta ≤ cfg.paddedCtaSize k := by
  unfold paddedCtaSize
  split
  · have hmod := Nat.mod_lt k.threadsPerCta cfg.warpSize_pos
    have hdiv := Nat.div_add_mod k.threadsPerCta cfg.warpSize
    rw [Nat.add_mul, Nat.mul_comm _ cfg.warpSize]
    omega
  · exact le_rfl

theorem roundUp_le {blocks shaders n : Nat} (h : blocks < n * shaders) :
    blocks / shaders + (if blocks % shaders ≠ 0 then 1 else 0) ≤ n := by
  have hpos : 0 < shaders := Nat.pos_of_mul_pos_left (Nat.zero_lt_of_lt h)
  have hdiv : blocks / shaders < n := (Nat.div_lt_iff_lt_mul hpos).mpr h
  split <;> omega

theorem CtaConfig.resourceLimit_le (cfg : CtaConfig) (k : CtaKernel) :
    cfg.resourceLimit k ≤ cfg.nThreadPerShader / cfg.paddedCtaSize k :=
  (min_le_left _ _).trans ((min_le_left _ _).trans (min_le_left _ _))

theorem CtaConfig.maxCta_ok {n : Nat} (h : cfg.maxCta k = .ok n) :
    1 ≤ n ∧ n ≤ cfg.nThreadPerShader / cfg.paddedCtaSize k := by
  obtain ⟨_, -, h⟩ := bind_eq_ok.mp h
  obtain ⟨_, hpos, h⟩ := bind_eq_ok.mp h
  have hpos := assert_eq_ok.mp hpos
  obtain rfl := Except.ok.inj h
  refine ⟨hpos, le_trans ?_ (cfg.resourceLimit_le k)⟩
  split
  · exact roundUp_le ‹_›
  · exact le_rfl

theorem setMaxCta_ok (h : setMaxCta cfg sid k = .ok core) :
    core.sid = sid ∧ core.kernelPaddedThreadsPerCta = cfg.paddedCtaSize k ∧
    0 < core.kernelMaxCtaPerShader ∧
      core.kernelPaddedThreadsPerCta * core.kernelMaxCtaPerShader ≤ cfg.nThreadPerShader := by
  obtain ⟨n, hn, hcore⟩ := bind_eq_ok.mp h
  obtain ⟨hpos, hle⟩ := CtaConfig.maxCta_ok hn
  obtain rfl := Except.ok.inj hcore
  exact ⟨rfl, rfl, hpos, (Nat.mul_le_mul_left _ hle).trans (Nat.mul_div_le _ _)⟩

/-- What the mapping needs to know of a core and one of its threads. -/
structure Mapped (cfg : CtaConfig) (core : CtaCore) (tid : Nat) : Prop where
  sid_lt : core.sid < cfg.numShader
  padded_pos : 0 < core.kernelPaddedThreadsPerCta
  threads_le : core.kernelPaddedThreadsPerCta * core.kernelMaxCtaPerShader ≤ cfg.nThreadPerShader
  tid_lt : tid < core.kernelPaddedThreadsPerCta * core.kernelMaxCtaPerShader

theorem Resident.mapped {kernels : Fin cfg.numShader → Option CtaKernel} {s : Fin cfg.numShader}
    {tid : Nat} (h : Resident cfg kernels s core tid) : Mapped cfg core tid := by
  obtain ⟨k, -, hset, slot, hslot, -, htid⟩ := h
  obtain ⟨hsid, hpadded, -, hthreads⟩ := setMaxCta_ok hset
  have hle := cfg.threadsPerCta_le k
  have hpos := k.threadsPerCta_pos
  have hmul := Nat.mul_le_mul_left core.kernelPaddedThreadsPerCta (Nat.succ_le_of_lt hslot)
  rw [Nat.mul_succ, Nat.mul_comm _ slot] at hmul
  exact ⟨hsid ▸ s.isLt, by omega, hthreads, by omega⟩

end Shape

/-! ## Word indices -/

section Words

/-- The threads whose words at one local address are next to each other. -/
def threadCount (cfg : CtaConfig) (core : CtaCore) : Nat :=
  if cfg.gpgpuLocalMemMap = true then
    core.kernelPaddedThreadsPerCta * core.kernelMaxCtaPerShader * cfg.numShader
  else cfg.numShader * cfg.nThreadPerShader

/-- The word of the first local address. -/
def threadWord (cfg : CtaConfig) (core : CtaCore) (tid : Nat) : Nat :=
  if cfg.gpgpuLocalMemMap = true then
    core.kernelPaddedThreadsPerCta *
      (core.sid + cfg.numShader * (tid / core.kernelPaddedThreadsPerCta)) +
      tid % core.kernelPaddedThreadsPerCta
  else cfg.nThreadPerShader * core.sid + tid

/-- The byte of a local address, from the beginning of the window. -/
def byteIndex (cfg : CtaConfig) (core : CtaCore) (tid x : Nat) : Nat :=
  4 * (x / 4 * threadCount cfg core + threadWord cfg core tid) + x % 4

variable {cfg : CtaConfig} {core : CtaCore} {tid : Nat}

theorem Mapped.threadCount_le (h : Mapped cfg core tid) : threadCount cfg core ≤ 64 * 2048 := by
  have hthreads := h.threads_le
  have hn := cfg.nThreadPerShader_le
  have hs := cfg.numShader_le
  unfold threadCount
  split
  · exact (Nat.mul_le_mul (h.threads_le.trans hn) hs).trans (by decide)
  · exact Nat.mul_le_mul hs hn

theorem Mapped.threadWord_lt (h : Mapped cfg core tid) :
    threadWord cfg core tid < threadCount cfg core := by
  unfold threadCount threadWord
  split
  · have hslot : tid / core.kernelPaddedThreadsPerCta < core.kernelMaxCtaPerShader :=
      Nat.div_lt_of_lt_mul h.tid_lt
    have hmod := Nat.mod_lt tid h.padded_pos
    have hblock : core.sid + cfg.numShader * (tid / core.kernelPaddedThreadsPerCta) <
        core.kernelMaxCtaPerShader * cfg.numShader := by
      have := Nat.mul_le_mul_left cfg.numShader (Nat.succ_le_of_lt hslot)
      have := h.sid_lt
      rw [Nat.mul_succ, Nat.mul_comm _ core.kernelMaxCtaPerShader] at *
      omega
    have := Nat.mul_le_mul_left core.kernelPaddedThreadsPerCta (Nat.succ_le_of_lt hblock)
    rw [Nat.mul_succ, ← Nat.mul_assoc] at this
    omega
  · have := Nat.mul_le_mul_left cfg.nThreadPerShader (Nat.succ_le_of_lt h.sid_lt)
    have := h.threads_le
    have := h.tid_lt
    rw [Nat.mul_succ, Nat.mul_comm _ cfg.numShader] at *
    omega

theorem Mapped.byteIndex_lt (h : Mapped cfg core tid) {x : Nat} (hx : x < 8192) :
    byteIndex cfg core tid x < 2 ^ 30 := by
  have hcount := h.threadCount_le
  have hword := h.threadWord_lt
  have hmul := Nat.mul_le_mul (show x / 4 + 1 ≤ 2048 by omega) hcount
  rw [Nat.add_mul, Nat.one_mul] at hmul
  unfold byteIndex
  omega

end Words

/-! ## Addresses -/

section Addresses

theorem ofNat_div {a b : Nat} (ha : a < 2 ^ 32) (hb : b < 2 ^ 32) :
    (BitVec.ofNat 32 a / BitVec.ofNat 32 b : Addr) = .ofNat 32 (a / b) := by
  apply BitVec.eq_of_toNat_eq
  have hdiv : a / b < 2 ^ 32 := (Nat.div_le_self a b).trans_lt ha
  rw [BitVec.toNat_udiv, BitVec.toNat_ofNat, BitVec.toNat_ofNat, BitVec.toNat_ofNat,
    Nat.mod_eq_of_lt ha, Nat.mod_eq_of_lt hb, Nat.mod_eq_of_lt hdiv]

theorem ofNat_mod {a b : Nat} (ha : a < 2 ^ 32) (hb : b < 2 ^ 32) :
    (BitVec.ofNat 32 a % BitVec.ofNat 32 b : Addr) = .ofNat 32 (a % b) := by
  apply BitVec.eq_of_toNat_eq
  have hmod : a % b < 2 ^ 32 := (Nat.mod_le a b).trans_lt ha
  rw [BitVec.toNat_umod, BitVec.toNat_ofNat, BitVec.toNat_ofNat, BitVec.toNat_ofNat,
    Nat.mod_eq_of_lt ha, Nat.mod_eq_of_lt hb, Nat.mod_eq_of_lt hmod]

theorem toNat_ofNat_of_lt {a : Nat} (ha : a < 2 ^ 32) : (BitVec.ofNat 32 a : Addr).toNat = a := by
  rw [BitVec.toNat_ofNat, Nat.mod_eq_of_lt ha]

variable {cfg : CtaConfig} {core : CtaCore} {tid : Nat}

theorem Mapped.padded_lt (h : Mapped cfg core tid) : core.kernelPaddedThreadsPerCta < 2 ^ 32 := by
  have hn := cfg.nThreadPerShader_le
  have hthreads := h.threads_le
  have hpos : 0 < core.kernelMaxCtaPerShader := Nat.pos_of_mul_pos_left (Nat.zero_lt_of_lt h.tid_lt)
  have := Nat.le_mul_of_pos_right core.kernelPaddedThreadsPerCta hpos
  omega

theorem Mapped.tid_lt_two_pow (h : Mapped cfg core tid) : tid < 2 ^ 32 := by
  have hn := cfg.nThreadPerShader_le
  have hthreads := h.threads_le
  have htid := h.tid_lt
  omega

theorem Mapped.threadBase_eq (h : Mapped cfg core tid) :
    threadBase cfg core (.ofNat 32 tid) = .ofNat 32 (4 * threadWord cfg core tid) := by
  unfold threadBase threadWord
  split
  · simp only [ofNat_div h.tid_lt_two_pow h.padded_lt, ofNat_mod h.tid_lt_two_pow h.padded_lt,
      BitVec.ofNat_mul, BitVec.ofNat_add]
    rfl
  · simp only [BitVec.ofNat_mul, BitVec.ofNat_add]
    rfl

theorem maxConcurrentThreads_eq : maxConcurrentThreads cfg core = .ofNat 32 (threadCount cfg core) := by
  unfold maxConcurrentThreads threadCount
  split <;> simp only [BitVec.ofNat_mul]

theorem Mapped.threadBase_lt (h : Mapped cfg core tid) :
    threadBase cfg core (.ofNat 32 tid) < 4 * maxConcurrentThreads cfg core := by
  have hword := h.threadWord_lt
  have hcount := h.threadCount_le
  rw [h.threadBase_eq, maxConcurrentThreads_eq, show (4 : Addr) = .ofNat 32 4 from rfl,
    ← BitVec.ofNat_mul, BitVec.lt_def, toNat_ofNat_of_lt (by omega), toNat_ofNat_of_lt (by omega)]
  omega

/-- The address of a byte. -/
def byteAddress (cfg : CtaConfig) (core : CtaCore) (tid x : Nat) : Addr :=
  .ofNat 32 (0x3FC00000 + byteIndex cfg core tid x)

theorem Mapped.toNat_byteAddress (h : Mapped cfg core tid) {x : Nat} (hx : x < 8192) :
    (byteAddress cfg core tid x).toNat = 0x3FC00000 + byteIndex cfg core tid x := by
  have hlt := h.byteIndex_lt hx
  exact toNat_ofNat_of_lt (by omega)

theorem Mapped.translate_ok (h : Mapped cfg core tid) {localaddr datasize : Nat}
    (haccess : LocalAccess localaddr datasize) :
    ∃ addrs, translateLocalMemaddr cfg core (.ofNat 32 localaddr) (.ofNat 32 tid) (.ofNat 32 datasize) =
        .ok addrs ∧ ∀ i < datasize,
          accessByte addrs i = some (byteAddress cfg core tid (localaddr + i)) := by
  obtain ⟨hpos, hend, hsub, hwords⟩ := haccess
  have hword : (BitVec.ofNat 32 localaddr / 4 : Addr) = .ofNat 32 (localaddr / 4) :=
    ofNat_div (b := 4) (by omega) (by decide)
  have hbyte : ∀ x, x / 4 * threadCount cfg core * 4 + 4 * threadWord cfg core tid + 0x3FC00000 +
      x % 4 = 0x3FC00000 + byteIndex cfg core tid x := by
    intro x
    unfold byteIndex
    ring
  unfold translateLocalMemaddr
  simp only [assert_pos h.threadBase_lt, ok_bind]
  by_cases hsize : 4 ≤ datasize
  · obtain ⟨hd, hl, hmax⟩ := hwords hsize
    have hsize' : (4 : Addr) ≤ .ofNat 32 datasize := by
      rw [BitVec.le_def, toNat_ofNat_of_lt (by omega)]
      exact hsize
    have hdiv : (BitVec.ofNat 32 datasize / 4 : Addr) = .ofNat 32 (datasize / 4) :=
      ofNat_div (b := 4) (by omega) (by decide)
    have hmod : (BitVec.ofNat 32 datasize % 4 : Addr) = 0 := by
      rw [show (BitVec.ofNat 32 datasize % 4 : Addr) = .ofNat 32 (datasize % 4) from
        ofNat_mod (b := 4) (by omega) (by decide), hd]
      rfl
    have haligned : (BitVec.ofNat 32 localaddr % 4 : Addr) = 0 := by
      rw [show (BitVec.ofNat 32 localaddr % 4 : Addr) = .ofNat 32 (localaddr % 4) from
        ofNat_mod (b := 4) (by omega) (by decide), hl]
      rfl
    have height : (BitVec.ofNat 32 datasize / 4 : Addr) ≤ 8 := by
      rw [hdiv, BitVec.le_def, toNat_ofNat_of_lt (by omega)]
      show datasize / 4 ≤ 8
      omega
    rw [if_pos hsize', assert_pos hmod, ok_bind, assert_pos height, ok_bind, assert_pos haligned,
      ok_bind]
    refine ⟨_, rfl, fun i hi => ?_⟩
    unfold accessByte
    rw [hdiv, toNat_ofNat_of_lt (by omega), List.getElem?_map, List.getElem?_range (by omega)]
    have hx : localaddr / 4 + i / 4 = (localaddr + i) / 4 := by omega
    have hoff : i % 4 = (localaddr + i) % 4 := by omega
    refine congrArg some (Eq.trans ?_ (congrArg (BitVec.ofNat 32) (hbyte (localaddr + i))))
    show (BitVec.ofNat 32 localaddr / 4 + BitVec.ofNat 32 (i / 4)) * maxConcurrentThreads cfg core * 4 +
      threadBase cfg core (.ofNat 32 tid) + LOCAL_GENERIC_START + BitVec.ofNat 32 (i % 4) = _
    rw [hword, h.threadBase_eq, maxConcurrentThreads_eq, hoff, ← BitVec.ofNat_add, hx]
    simp only [BitVec.ofNat_mul, BitVec.ofNat_add]
    rfl
  · -- one access within a word
    have hsize' : ¬ (4 : Addr) ≤ .ofNat 32 datasize := by
      rw [BitVec.le_def, toNat_ofNat_of_lt (by omega)]
      exact hsize
    have hpos' : (0 : Addr) < .ofNat 32 datasize := by
      rw [BitVec.lt_def, toNat_ofNat_of_lt (by omega)]
      exact hpos
    have hoff : (BitVec.ofNat 32 localaddr % 4 : Addr) = .ofNat 32 (localaddr % 4) :=
      ofNat_mod (b := 4) (by omega) (by decide)
    have hlast : ((BitVec.ofNat 32 localaddr + BitVec.ofNat 32 datasize - 1) / 4 : Addr) =
        BitVec.ofNat 32 localaddr / 4 := by
      have hsub : (BitVec.ofNat 32 localaddr + BitVec.ofNat 32 datasize - 1 : Addr) =
          .ofNat 32 (localaddr + datasize - 1) := by
        apply BitVec.eq_of_toNat_eq
        rw [BitVec.toNat_sub, BitVec.toNat_add, toNat_ofNat_of_lt (by omega),
          toNat_ofNat_of_lt (by omega), toNat_ofNat_of_lt (by omega)]
        show (2 ^ 32 - 1 + _) % 2 ^ 32 = _
        omega
      rw [hsub, hword, show ((.ofNat 32 (localaddr + datasize - 1) : Addr) / 4) =
        .ofNat 32 ((localaddr + datasize - 1) / 4) from ofNat_div (b := 4) (by omega) (by decide)]
      congr 1
      have := hsub
      omega
    rw [if_neg hsize', assert_pos hpos', ok_bind, assert_pos hlast, ok_bind]
    refine ⟨_, rfl, fun i hi => ?_⟩
    have hzero : i / 4 = 0 := by omega
    have hx : localaddr / 4 = (localaddr + i) / 4 := by omega
    have hmod : localaddr % 4 + i % 4 = (localaddr + i) % 4 := by omega
    unfold accessByte
    rw [hzero]
    have hsum : (localaddr + i) / 4 * threadCount cfg core * 4 + localaddr % 4 +
        4 * threadWord cfg core tid + 0x3FC00000 + i % 4 = 0x3FC00000 + byteIndex cfg core tid (localaddr + i) := by
      rw [← hbyte, ← hmod]
      ring
    refine congrArg some (Eq.trans ?_ (congrArg (BitVec.ofNat 32) hsum))
    show BitVec.ofNat 32 localaddr / 4 * maxConcurrentThreads cfg core * 4 +
        BitVec.ofNat 32 localaddr % 4 +
      threadBase cfg core (.ofNat 32 tid) + LOCAL_GENERIC_START + BitVec.ofNat 32 (i % 4) = _
    rw [hword, h.threadBase_eq, maxConcurrentThreads_eq, hoff, hx]
    simp only [BitVec.ofNat_mul, BitVec.ofNat_add]
    rfl

end Addresses

/-! ## Different bytes -/

section Injective

variable {cfg : CtaConfig} {core core' : CtaCore} {tid tid' x x' : Nat}

theorem mul_add_inj {b q r q' r' : Nat} (hr : r < b) (hr' : r' < b) (h : b * q + r = b * q' + r') :
    q = q' ∧ r = r' := by
  have hpos : 0 < b := Nat.zero_lt_of_lt hr
  have hq : q = q' := by
    have := congrArg (· / b) h
    simpa [Nat.mul_add_div hpos, Nat.div_eq_of_lt hr, Nat.div_eq_of_lt hr'] using this
  subst hq
  omega

theorem byteIndex_eq_iff : byteIndex cfg core tid x = byteIndex cfg core' tid' x' ↔
    x / 4 * threadCount cfg core + threadWord cfg core tid =
      x' / 4 * threadCount cfg core' + threadWord cfg core' tid' ∧ x % 4 = x' % 4 := by
  unfold byteIndex
  omega

theorem Mapped.threadWord_inj (h : Mapped cfg core tid)
    (hword : threadWord cfg core tid = threadWord cfg core tid') : tid = tid' := by
  unfold threadWord at hword
  split at hword
  · obtain ⟨hblock, hmod⟩ :=
      mul_add_inj (Nat.mod_lt tid h.padded_pos) (Nat.mod_lt tid' h.padded_pos) hword
    have hslot := Nat.eq_of_mul_eq_mul_left (Nat.zero_lt_of_lt h.sid_lt) (Nat.add_left_cancel hblock)
    rw [← Nat.div_add_mod tid core.kernelPaddedThreadsPerCta, hslot, hmod, Nat.div_add_mod]
  · exact Nat.add_left_cancel hword

theorem Mapped.byteIndex_inj (h : Mapped cfg core tid) (h' : Mapped cfg core tid')
    (hbyte : byteIndex cfg core tid x = byteIndex cfg core tid' x') : tid = tid' ∧ x = x' := by
  obtain ⟨hword, hoff⟩ := byteIndex_eq_iff.mp hbyte
  rw [Nat.mul_comm, Nat.mul_comm (x' / 4)] at hword
  obtain ⟨hx, hthread⟩ := mul_add_inj h.threadWord_lt h'.threadWord_lt hword
  exact ⟨h.threadWord_inj hthread, by omega⟩

theorem Mapped.sid_eq_of_legacy (hlegacy : cfg.gpgpuLocalMemMap = false) (h : Mapped cfg core tid)
    (h' : Mapped cfg core' tid') (hbyte : byteIndex cfg core tid x = byteIndex cfg core' tid' x') :
    core.sid = core'.sid := by
  obtain ⟨hword, -⟩ := byteIndex_eq_iff.mp hbyte
  have hlt := h.threadWord_lt
  have hlt' := h'.threadWord_lt
  have hno : ¬ cfg.gpgpuLocalMemMap = true := by rw [hlegacy]; exact Bool.false_ne_true
  have hcount : threadCount cfg core' = threadCount cfg core := by
    unfold threadCount
    rw [if_neg hno, if_neg hno]
  rw [hcount] at hlt' hword
  rw [Nat.mul_comm, Nat.mul_comm (x' / 4)] at hword
  obtain ⟨-, hthread⟩ := mul_add_inj hlt hlt' hword
  unfold threadWord at hthread
  rw [if_neg hno, if_neg hno] at hthread
  exact (mul_add_inj (h.tid_lt.trans_le h.threads_le) (h'.tid_lt.trans_le h'.threads_le) hthread).1

theorem word_eq (hmap : cfg.gpgpuLocalMemMap = true) (core : CtaCore) (tid lw : Nat) :
    lw * threadCount cfg core + threadWord cfg core tid =
      core.kernelPaddedThreadsPerCta * (core.sid + cfg.numShader *
        (tid / core.kernelPaddedThreadsPerCta + core.kernelMaxCtaPerShader * lw)) +
          tid % core.kernelPaddedThreadsPerCta := by
  unfold threadCount threadWord
  rw [if_pos hmap, if_pos hmap]
  ring

variable {kernels : Fin cfg.numShader → Option CtaKernel} {s : Fin cfg.numShader} {k : CtaKernel}

theorem mem_coreWords_iff (hmap : cfg.gpgpuLocalMemMap = true) (hk : kernels s = some k)
    (hset : setMaxCta cfg s k = .ok core) {w : Nat} :
    w ∈ coreWords cfg core k ↔ ∃ tid lw, Resident cfg kernels s core tid ∧ lw < 2048 ∧
      lw * threadCount cfg core + threadWord cfg core tid = w := by
  obtain ⟨-, hpadded, hpos, -⟩ := setMaxCta_ok hset
  have hle : k.threadsPerCta ≤ core.kernelPaddedThreadsPerCta := hpadded ▸ cfg.threadsPerCta_le k
  have hpadpos := k.threadsPerCta_pos.trans_le hle
  constructor
  · rintro ⟨j, hj, hlow, hhigh⟩
    -- The slot and the local word of the block, and the thread in it.
    obtain ⟨o, rfl⟩ := Nat.exists_eq_add_of_le hlow
    have ho : o < k.threadsPerCta := by omega
    have hdiv : (j % core.kernelMaxCtaPerShader * core.kernelPaddedThreadsPerCta + o) /
        core.kernelPaddedThreadsPerCta = j % core.kernelMaxCtaPerShader := by
      rw [Nat.mul_comm, Nat.mul_add_div hpadpos, Nat.div_eq_of_lt (ho.trans_le hle), Nat.add_zero]
    have hmod : (j % core.kernelMaxCtaPerShader * core.kernelPaddedThreadsPerCta + o) %
        core.kernelPaddedThreadsPerCta = o := by
      rw [Nat.mul_comm, Nat.mul_add_mod, Nat.mod_eq_of_lt (ho.trans_le hle)]
    refine ⟨j % core.kernelMaxCtaPerShader * core.kernelPaddedThreadsPerCta + o,
      j / core.kernelMaxCtaPerShader, ⟨k, hk, hset, _, Nat.mod_lt j hpos, Nat.le_add_right _ _, by omega⟩,
      Nat.div_lt_of_lt_mul (by rwa [Nat.mul_comm]), ?_⟩
    rw [word_eq hmap, hdiv, hmod, Nat.mod_add_div]
  · rintro ⟨tid, lw, ⟨k', hk', hset', slot, hslot, hlow, hhigh⟩, hlw, rfl⟩
    obtain rfl : k = k' := Option.some.inj (hk.symm.trans hk')
    obtain ⟨o, rfl⟩ := Nat.exists_eq_add_of_le hlow
    have ho : o < k.threadsPerCta := by omega
    rw [word_eq hmap, Nat.mul_comm slot, Nat.mul_add_div hpadpos, Nat.mul_add_mod,
      Nat.mod_eq_of_lt (ho.trans_le hle), Nat.div_eq_of_lt (ho.trans_le hle), Nat.add_zero]
    refine ⟨slot + core.kernelMaxCtaPerShader * lw, ?_, Nat.le_add_right _ _, by omega⟩
    have := Nat.mul_le_mul_left core.kernelMaxCtaPerShader (Nat.succ_le_of_lt hlw)
    rw [Nat.mul_succ, Nat.mul_comm _ 2048] at this
    omega

end Injective

/-! ## Cores with different kernels -/

section Cores

variable (cfg : CtaConfig) (kernels : Fin cfg.numShader → Option CtaKernel)

theorem inWindow : InWindow cfg kernels := by
  intro s core tid localaddr datasize hres haccess
  have h := hres.mapped
  obtain ⟨addrs, hok, hbytes⟩ := h.translate_ok haccess
  refine ⟨addrs, hok, fun i hi => ⟨_, hbytes i hi, ?_⟩⟩
  have hx : localaddr + i < 8192 := by
    have := haccess.2.1
    omega
  have hlt := h.byteIndex_lt hx
  rw [BitVec.le_def, BitVec.lt_def, h.toNat_byteAddress hx]
  show 0x3FC00000 ≤ _ ∧ _ < 0x7FC00000
  omega

theorem separate_iff : Separate cfg kernels ↔ ∀ s core tid x s' core' tid' x',
    Resident cfg kernels s core tid → Resident cfg kernels s' core' tid' → x < 8192 → x' < 8192 →
      byteIndex cfg core tid x = byteIndex cfg core' tid' x' → s = s' ∧ tid = tid' ∧ x = x' := by
  constructor
  · intro h s core tid x s' core' tid' x' hres hres' hx hx' hbyte
    -- An access of one byte.
    have haccess : ∀ y < 8192, LocalAccess y 1 := by
      intro y hy
      exact ⟨Nat.one_pos, by omega, fun _ => by omega, fun h => absurd h (by decide)⟩
    obtain ⟨addrs, hok, hbytes⟩ := hres.mapped.translate_ok (haccess x hx)
    obtain ⟨addrs', hok', hbytes'⟩ := hres'.mapped.translate_ok (haccess x' hx')
    refine h s core tid x 1 s' core' tid' x' 1 addrs addrs' 0 0 hres hres' (haccess x hx)
      (haccess x' hx')
      Nat.one_pos Nat.one_pos hok hok' ?_
    rw [hbytes 0 Nat.one_pos, hbytes' 0 Nat.one_pos]
    exact congrArg (fun b => some (BitVec.ofNat 32 (0x3FC00000 + b))) hbyte
  · intro h s core tid l d s' core' tid' l' d' addrs addrs' i i' hres hres' ha ha' hi hi' hok hok' heq
    obtain ⟨r, hr, hbytes⟩ := hres.mapped.translate_ok ha
    obtain ⟨r', hr', hbytes'⟩ := hres'.mapped.translate_ok ha'
    obtain rfl : r = addrs := Except.ok.inj (hr.symm.trans hok)
    obtain rfl : r' = addrs' := Except.ok.inj (hr'.symm.trans hok')
    have hx : l + i < 8192 := by
      have := ha.2.1
      omega
    have hx' : l' + i' < 8192 := by
      have := ha'.2.1
      omega
    rw [hbytes i hi, hbytes' i' hi'] at heq
    have hnat := congrArg BitVec.toNat (Option.some.inj heq)
    rw [hres.mapped.toNat_byteAddress hx, hres'.mapped.toNat_byteAddress hx'] at hnat
    exact h s core tid _ s' core' tid' _ hres hres' hx hx' (Nat.add_left_cancel hnat)

/-- **Local-memory address translation.** Whatever kernels the cores run, the translation of a resident
thread's access fails no assertion and stays in the window of local memory; and different bytes get
different addresses exactly when the mapping is the legacy one or no word is of two cores. -/
theorem translate_separate_iff : (InWindow cfg kernels ∧ Separate cfg kernels) ↔
    (cfg.gpgpuLocalMemMap = true → CoresApart cfg kernels) := by
  rw [separate_iff, and_iff_right (inWindow cfg kernels)]
  constructor
  · intro h hmap s s' k k' core core' hne hk hk' hset hset'
    refine Set.disjoint_left.mpr fun w hw hw' => hne ?_
    obtain ⟨tid, lw, hres, hlw, hword⟩ := (mem_coreWords_iff hmap hk hset).mp hw
    obtain ⟨tid', lw', hres', hlw', hword'⟩ := (mem_coreWords_iff hmap hk' hset').mp hw'
    refine (h s core tid (4 * lw) s' core' tid' (4 * lw') hres hres' (by omega) (by omega) ?_).1
    rw [byteIndex_eq_iff, Nat.mul_div_cancel_left _ (by decide), Nat.mul_div_cancel_left _ (by decide),
      hword, hword', Nat.mul_mod_right, Nat.mul_mod_right]
    exact ⟨rfl, rfl⟩
  · intro h s core tid x s' core' tid' x' hres hres' hx hx' hbyte
    have hs : s = s' := by
      cases hmap : cfg.gpgpuLocalMemMap with
      | false =>
        obtain ⟨k, -, hset, -⟩ := id hres
        obtain ⟨k', -, hset', -⟩ := id hres'
        have hsid := Mapped.sid_eq_of_legacy hmap hres.mapped hres'.mapped hbyte
        rw [(setMaxCta_ok hset).1, (setMaxCta_ok hset').1] at hsid
        exact Fin.ext hsid
      | true =>
        by_contra hne
        obtain ⟨k, hk, hset, -⟩ := id hres
        obtain ⟨k', hk', hset', -⟩ := id hres'
        refine Set.disjoint_left.mp (h hmap s s' k k' core core' hne hk hk' hset hset')
          ((mem_coreWords_iff hmap hk hset).mpr ⟨tid, x / 4, hres, by omega, rfl⟩)
          ((mem_coreWords_iff hmap hk' hset').mpr ⟨tid', x' / 4, hres', by omega, ?_⟩)
        exact (byteIndex_eq_iff.mp hbyte).1.symm
    subst hs
    obtain ⟨k, hk, hset, -⟩ := id hres
    obtain ⟨k', hk', hset', -⟩ := id hres'
    obtain rfl : k = k' := Option.some.inj (hk.symm.trans hk')
    obtain rfl : core = core' := Except.ok.inj (hset.symm.trans hset')
    exact ⟨rfl, hres.mapped.byteIndex_inj hres'.mapped hbyte⟩

end Cores

theorem thirtyTwo_pos : 0 < 32 := by decide

theorem sixtyFour_pos : 0 < 64 := by decide

/-- Two cores of up to eight CTAs. -/
def twoCores : CtaConfig where
  gpgpuLocalMemMap := true
  nThreadPerShader := 1024
  warpSize := 32
  gpgpuShmemSize := 16384
  gpgpuShaderRegisters := 16384
  maxCtaPerCore := 8
  numShader := 2
  warpSize_pos := thirtyTwo_pos
  nThreadPerShader_le := by decide
  numShader_le := by decide

/-- A kernel of one warp per CTA on the first core, and one of two warps on the second. -/
def twoKernels (s : Fin twoCores.numShader) : Option CtaKernel :=
  if s.val = 0 then some ⟨32, 0, 0, 100, thirtyTwo_pos⟩ else some ⟨64, 0, 0, 100, sixtyFour_pos⟩

/-- The second CTA of the one and the first of the other have the same addresses. -/
theorem not_separate_twoKernels :
    translateLocalMemaddr twoCores ⟨0, 8, 32⟩ 0 32 4 = .ok [0x3FC00100] ∧
      translateLocalMemaddr twoCores ⟨1, 8, 64⟩ 0 0 4 = .ok [0x3FC00100] ∧
      ¬ Separate twoCores twoKernels := by
  have hset : setMaxCta twoCores 0 ⟨32, 0, 0, 100, thirtyTwo_pos⟩ = .ok ⟨0, 8, 32⟩ := by decide
  have hset' : setMaxCta twoCores 1 ⟨64, 0, 0, 100, sixtyFour_pos⟩ = .ok ⟨1, 8, 64⟩ := by decide
  refine ⟨by decide, by decide, fun h => ?_⟩
  have hbytes := (separate_iff twoCores twoKernels).mp h ⟨0, by decide⟩ ⟨0, 8, 32⟩ 32 0 ⟨1, by decide⟩
    ⟨1, 8, 64⟩ 0 0 ⟨_, rfl, hset, 1, by decide, by decide, by decide⟩
    ⟨_, rfl, hset', 0, by decide, by decide, by decide⟩ (by decide) (by decide) (by decide)
  exact absurd hbytes.2.1 (by decide)

end GpgpuSimRuby.Shader
