import GpgpuSimRuby.Library.ByteMap
import GpgpuSimRuby.Library.Fault
import GpgpuSimRuby.Library.Machine
import GpgpuSimRuby.Ptx.GenericAddress

/-!
# Functional memory

`memory_space_impl`: blocks of bytes that are allocated when they are first written. An access within a
block goes straight to it, any other is cut at the bounds of the blocks. Sizes and bounds are 32-bit, so
the bound of the last block is 0.
-/

namespace GpgpuSimRuby.Ptx

open Library

/-! ## Blocks -/

/-- `BSIZE`, of which the constructor asserts that it has a single bit. -/
structure BlockSize where
  log2 : Nat
  lt : log2 < 32

namespace BlockSize

variable (s : BlockSize) (addr : Addr)

def bsize : Addr := BitVec.ofNat 32 (2 ^ s.log2)

def page : Addr := addr >>> s.log2

def offset : Addr := addr &&& (s.bsize - 1)

/-- The bytes of an access that are in its first block. -/
def txBytes (nbytesRemain : Addr) : Addr :=
  (if s.bsize < s.offset addr + nbytesRemain then s.bsize else s.offset addr + nbytesRemain) - s.offset addr

variable {s addr}

theorem bsize_pos (s : BlockSize) : 0 < 2 ^ s.log2 := Nat.two_pow_pos s.log2

theorem bsize_le (s : BlockSize) : 2 * 2 ^ s.log2 ≤ 2 ^ 32 := by
  rw [← Nat.pow_succ']
  exact Nat.pow_le_pow_right (by decide) s.lt

@[simp]
theorem toNat_bsize : s.bsize.toNat = 2 ^ s.log2 := by
  have := bsize_le s
  unfold bsize
  rw [BitVec.toNat_ofNat, Nat.mod_eq_of_lt (by have := bsize_pos s; omega)]

@[simp]
theorem toNat_page : (s.page addr).toNat = addr.toNat / 2 ^ s.log2 := by
  rw [page, BitVec.toNat_ushiftRight, Nat.shiftRight_eq_div_pow]

@[simp]
theorem toNat_offset : (s.offset addr).toNat = addr.toNat % 2 ^ s.log2 := by
  have hpos := bsize_pos s
  have hle := bsize_le s
  have hmask : (s.bsize - 1).toNat = 2 ^ s.log2 - 1 := by
    rw [BitVec.toNat_sub_of_le (by rw [BitVec.le_def, toNat_bsize]; exact hpos), toNat_bsize]
    rfl
  rw [offset, BitVec.toNat_and, hmask, Nat.and_two_pow_sub_one_eq_mod]

theorem offset_lt (s : BlockSize) (addr : Addr) : (s.offset addr).toNat < 2 ^ s.log2 := by
  rw [toNat_offset]
  exact Nat.mod_lt _ (bsize_pos s)

theorem sub_txBytes_lt {nbytesRemain : Addr} (h : nbytesRemain ≠ 0) :
    (nbytesRemain - s.txBytes addr nbytesRemain).toNat < nbytesRemain.toNat := by
  have hoff := offset_lt s addr
  rw [← toNat_bsize] at hoff
  unfold txBytes
  split
  case isTrue hlt => bv_omega
  case isFalse => bv_omega

end BlockSize

inductive MemoryFault where
  /-- an assertion of `mem_storage` -/
  | assertion
  /-- `throw 1` of `read_single_block` -/
  | thrown
  deriving DecidableEq, Repr

/-- The bytes of a `mem_storage`. -/
abbrev MemStorage := Nat → UInt8

namespace MemStorage

variable (s : BlockSize) (b : MemStorage)

def calloc : MemStorage := fun _ => 0

def write (offset : Nat) (data : List UInt8) : Except MemoryFault MemStorage := do
  assert (offset + data.length ≤ 2 ^ s.log2) .assertion
  .ok (ByteMap.store b offset data)

def read (offset length : Nat) : Except MemoryFault (List UInt8) := do
  assert (offset + length ≤ 2 ^ s.log2) .assertion
  .ok (ByteMap.load b offset length)

end MemStorage

/-! ## Spaces -/

/-- `memory_space_impl`, the map from block indices to blocks. -/
structure MemorySpaceImpl (s : BlockSize) where
  data : Nat → Option MemStorage

namespace MemorySpaceImpl

variable {s : BlockSize} (m : MemorySpaceImpl s)

def init : MemorySpaceImpl s := ⟨fun _ => none⟩

/-- `m_data[page].write`. -/
def writeBlock (page offset : Addr) (data : List UInt8) : Except MemoryFault (MemorySpaceImpl s) := do
  let block ← ((m.data page.toNat).getD .calloc).write s offset.toNat data
  .ok { m with data := Function.update m.data page.toNat (some block) }

/-- The slow route of `write`. -/
def writeBlocks (m : MemorySpaceImpl s) (currentAddr nbytesRemain : Addr) (data : List UInt8) :
    Except MemoryFault (MemorySpaceImpl s) :=
  if nbytesRemain = 0 then .ok m
  else do
    let txBytes := s.txBytes currentAddr nbytesRemain
    let m ← m.writeBlock (s.page currentAddr) (s.offset currentAddr) (data.take txBytes.toNat)
    m.writeBlocks (currentAddr + txBytes) (nbytesRemain - txBytes) (data.drop txBytes.toNat)
termination_by nbytesRemain.toNat
decreasing_by exact BlockSize.sub_txBytes_lt ‹_›

/-- Does an access take the fast route? The end of the range is a `size_t`, the bound of the block
is not. -/
def IntraBlock (s : BlockSize) (addr : Addr) (length : Nat) : Prop :=
  addr.toNat + length ≤ ((s.page addr + 1) * s.bsize).toNat

instance (addr : Addr) (length : Nat) : Decidable (IntraBlock s addr length) :=
  inferInstanceAs (Decidable (_ ≤ _))

/-- `write` of a buffer. -/
def write (addr : Addr) (data : List UInt8) : Except MemoryFault (MemorySpaceImpl s) :=
  let nbytes : Addr := BitVec.ofNat 32 data.length
  if IntraBlock s addr data.length then
    m.writeBlock (s.page addr) (s.offset addr) (data.take nbytes.toNat)
  else m.writeBlocks addr nbytes data

def readSingleBlock (blkIdx addr : Addr) (length : Nat) : Except MemoryFault (List UInt8) :=
  if ((blkIdx + 1) * s.bsize).toNat < addr.toNat + length then .error .thrown
  else
    match m.data blkIdx.toNat with
    | none => .ok (List.replicate length 0)
    | some block => block.read s (s.offset addr).toNat (BitVec.ofNat 32 length : Addr).toNat

/-- The slow route of `read`, into the rest of the caller's buffer. -/
def readBlocks (m : MemorySpaceImpl s) (currentAddr nbytesRemain : Addr) (buffer : List UInt8) :
    Except MemoryFault (List UInt8) :=
  if nbytesRemain = 0 then .ok buffer
  else do
    let txBytes := s.txBytes currentAddr nbytesRemain
    let bytes ← m.readSingleBlock (s.page currentAddr) currentAddr txBytes.toNat
    let rest ← m.readBlocks (currentAddr + txBytes) (nbytesRemain - txBytes) (buffer.drop txBytes.toNat)
    .ok (bytes ++ rest)
termination_by nbytesRemain.toNat
decreasing_by exact BlockSize.sub_txBytes_lt ‹_›

/-- `read` into the caller's buffer. -/
def read (addr : Addr) (buffer : List UInt8) : Except MemoryFault (List UInt8) :=
  if IntraBlock s addr buffer.length then m.readSingleBlock (s.page addr) addr buffer.length
  else m.readBlocks addr (BitVec.ofNat 32 buffer.length) buffer

/-! ## Blocks as parts of a flat memory -/

variable {m} {m' : MemorySpaceImpl s} {addr nbytes : Addr} {n : Nat} {data buffer : List UInt8}

/-- The bytes of the space. -/
def byte (m : MemorySpaceImpl s) : ByteMap UInt8 := fun a =>
  (m.data (a / 2 ^ s.log2)).getD .calloc (a % 2 ^ s.log2)

theorem page_offset (s : BlockSize) (addr : Addr) :
    2 ^ s.log2 * (s.page addr).toNat + (s.offset addr).toNat = addr.toNat := by
  rw [BlockSize.toNat_page, BlockSize.toNat_offset, Nat.div_add_mod]

theorem writeBlock_ok (h : (s.offset addr).toNat + data.length ≤ 2 ^ s.log2) :
    ∃ m', m.writeBlock (s.page addr) (s.offset addr) data = .ok m' ∧
      m'.byte = m.byte.store addr.toNat data := by
  refine ⟨_, by rw [writeBlock, MemStorage.write, assert_pos h]; rfl, ?_⟩
  funext a
  have haddr := page_offset s addr
  have hpos := BlockSize.bsize_pos s
  have ha := Nat.div_add_mod a (2 ^ s.log2)
  have hmod := Nat.mod_lt a hpos
  by_cases hpage : a / 2 ^ s.log2 = (s.page addr).toNat
  · -- in the block
    have hold : m.byte a = (m.data (s.page addr).toNat).getD .calloc (a % 2 ^ s.log2) := by
      rw [byte, hpage]
    simp only [byte, hpage, Function.update_self, Option.getD_some]
    rw [hpage] at ha
    show ByteMap.store _ _ _ _ = m.byte.store addr.toNat data a
    unfold ByteMap.store
    by_cases hlt : a < addr.toNat
    · rw [if_pos hlt, if_pos (by omega), hold]
    · rw [if_neg hlt, if_neg (by omega), hold]
      congr 1
      omega
  · -- in another one
    trans m.byte a
    · simp only [byte, Function.update_of_ne hpage]
    rcases Nat.lt_or_gt_of_ne hpage with hlt | hgt
    · have := (Nat.div_lt_iff_lt_mul hpos).mp hlt
      rw [Nat.mul_comm] at this
      rw [ByteMap.store_of_lt (by omega)]
    · have := (Nat.le_div_iff_mul_le hpos).mp hgt
      rw [Nat.succ_mul, Nat.mul_comm] at this
      rw [ByteMap.store_of_le (by omega)]

/-! ## Writes -/

theorem toNat_txBytes (h : (s.offset addr).toNat + nbytes.toNat < 2 ^ 32) :
    (s.txBytes addr nbytes).toNat = min (2 ^ s.log2 - (s.offset addr).toNat) nbytes.toNat := by
  have hoff := BlockSize.offset_lt s addr
  have hsum : (s.offset addr + nbytes).toNat = (s.offset addr).toNat + nbytes.toNat := by
    rw [BitVec.toNat_add, Nat.mod_eq_of_lt h]
  unfold BlockSize.txBytes
  split
  case isTrue hlt =>
    rw [BitVec.lt_def, hsum, BlockSize.toNat_bsize] at hlt
    rw [BitVec.toNat_sub_of_le (by rw [BitVec.le_def, BlockSize.toNat_bsize]; omega), BlockSize.toNat_bsize]
    omega
  case isFalse hle =>
    rw [BitVec.lt_def, hsum, BlockSize.toNat_bsize] at hle
    rw [BitVec.toNat_sub_of_le (by rw [BitVec.le_def, hsum]; omega), hsum]
    omega

theorem txBytes_wrap (h : (s.offset addr).toNat + nbytes.toNat = 2 ^ 32) :
    s.txBytes addr nbytes = nbytes := by
  have hsum : (s.offset addr + nbytes).toNat = 0 := by
    rw [BitVec.toNat_add, h]
    rfl
  have hnot : ¬ s.bsize < s.offset addr + nbytes := by
    rw [BitVec.lt_def, hsum]
    exact Nat.not_lt_zero _
  unfold BlockSize.txBytes
  rw [if_neg hnot]
  bv_omega

theorem rest_of_access (h : (s.offset addr).toNat + nbytes.toNat < 2 ^ 32)
    (hend : addr.toNat + nbytes.toNat ≤ 2 ^ 32) :
    let txBytes := s.txBytes addr nbytes
    (nbytes - txBytes).toNat = nbytes.toNat - txBytes.toNat ∧
      (nbytes.toNat ≠ txBytes.toNat → (addr + txBytes).toNat = addr.toNat + txBytes.toNat ∧
        (s.offset (addr + txBytes)).toNat = 0) := by
  have htx := toNat_txBytes h
  have hle : (s.txBytes addr nbytes).toNat ≤ nbytes.toNat := by omega
  refine ⟨BitVec.toNat_sub_of_le (BitVec.le_def.mpr hle), fun hne => ?_⟩
  have hsum : (addr + s.txBytes addr nbytes).toNat = addr.toNat + (s.txBytes addr nbytes).toNat := by
    rw [BitVec.toNat_add, Nat.mod_eq_of_lt (by omega)]
  have haddr := page_offset s addr
  have hoff := BlockSize.offset_lt s addr
  refine ⟨hsum, ?_⟩
  have hnext : addr.toNat + (s.txBytes addr nbytes).toNat = 2 ^ s.log2 * ((s.page addr).toNat + 1) := by
    rw [Nat.mul_succ]
    omega
  rw [BlockSize.toNat_offset, hsum, hnext, Nat.mul_mod_right]

theorem writeBlocks_step (h : nbytes ≠ 0) : m.writeBlocks addr nbytes data =
    m.writeBlock (s.page addr) (s.offset addr) (data.take (s.txBytes addr nbytes).toNat) >>= fun m =>
      m.writeBlocks (addr + s.txBytes addr nbytes) (nbytes - s.txBytes addr nbytes)
        (data.drop (s.txBytes addr nbytes).toNat) := by
  rw [writeBlocks, if_neg h]

theorem writeBlocks_ok (hlen : data.length = nbytes.toNat)
    (h : (s.offset addr).toNat + nbytes.toNat < 2 ^ 32) (hend : addr.toNat + nbytes.toNat ≤ 2 ^ 32) :
    ∃ m', m.writeBlocks addr nbytes data = .ok m' ∧ m'.byte = m.byte.store addr.toNat data := by
  induction m, addr, nbytes, data using writeBlocks.induct with
  | case1 m addr data =>
    have hnil : data = [] := List.length_eq_zero_iff.mp hlen
    subst hnil
    exact ⟨m, by rw [writeBlocks, if_pos rfl], by rw [ByteMap.store_nil]⟩
  | case2 m addr nbytes data hne txBytes ih =>
    have htxBytes : s.txBytes addr nbytes = txBytes := rfl
    have htx := toNat_txBytes h
    obtain ⟨hrest, hnext⟩ := rest_of_access h hend
    rw [htxBytes] at htx hrest hnext
    have hoff := BlockSize.offset_lt s addr
    have htake : (data.take txBytes.toNat).length = txBytes.toNat := by
      rw [List.length_take]
      omega
    have hfits : (s.offset addr).toNat + (data.take txBytes.toNat).length ≤ 2 ^ s.log2 := by omega
    obtain ⟨m₁, hm₁, hbyte₁⟩ := writeBlock_ok (m := m) hfits
    have hdrop : (data.drop txBytes.toNat).length = (nbytes - txBytes).toNat := by
      rw [List.length_drop, hrest, hlen]
    rw [writeBlocks_step hne, htxBytes, hm₁, ok_bind]
    by_cases hall : nbytes.toNat = txBytes.toNat
    · -- the last block of the access
      have hnil : nbytes - txBytes = 0 := by
        apply BitVec.eq_of_toNat_eq
        rw [hrest, hall, Nat.sub_self]
        rfl
      rw [hnil, writeBlocks, if_pos rfl]
      refine ⟨m₁, rfl, ?_⟩
      rw [hbyte₁, List.take_of_length_le (by omega)]
    · obtain ⟨haddr, hzero⟩ := hnext hall
      obtain ⟨m₂, hm₂, hbyte₂⟩ := ih m₁ hdrop (by rw [hzero]; omega) (by omega)
      refine ⟨m₂, hm₂, ?_⟩
      have happend : m.byte.store addr.toNat (data.take txBytes.toNat ++ data.drop txBytes.toNat) =
          (m.byte.store addr.toNat (data.take txBytes.toNat)).store
            (addr.toNat + (data.take txBytes.toNat).length) (data.drop txBytes.toNat) :=
        ByteMap.store_append _
      rw [List.take_append_drop, htake] at happend
      rw [hbyte₂, hbyte₁, haddr, happend]

theorem bound_eq (h : 2 ^ s.log2 * ((s.page addr).toNat + 1) < 2 ^ 32) :
    ((s.page addr + 1) * s.bsize).toNat = 2 ^ s.log2 * ((s.page addr).toNat + 1) := by
  have hpos := BlockSize.bsize_pos s
  have hle : (s.page addr).toNat + 1 ≤ 2 ^ s.log2 * ((s.page addr).toNat + 1) :=
    Nat.le_mul_of_pos_left _ hpos
  have hone : (1 : Addr).toNat = 1 := rfl
  rw [BitVec.toNat_mul, BitVec.toNat_add, hone, BlockSize.toNat_bsize,
    Nat.mod_eq_of_lt (lt_of_le_of_lt hle h), Nat.mul_comm, Nat.mod_eq_of_lt h]

theorem bound_le (s : BlockSize) (addr : Addr) :
    ((s.page addr + 1) * s.bsize).toNat ≤ 2 ^ s.log2 * ((s.page addr).toNat + 1) := by
  have hone : (1 : Addr).toNat = 1 := rfl
  rw [BitVec.toNat_mul, BitVec.toNat_add, hone, BlockSize.toNat_bsize, Nat.mul_comm (2 ^ s.log2)]
  exact (Nat.mod_le _ _).trans (Nat.mul_le_mul_right _ (Nat.mod_le _ _))

theorem tile (s : BlockSize) : 2 ^ s.log2 * 2 ^ (32 - s.log2) = 2 ^ 32 := by
  rw [← Nat.pow_add]
  congr 1
  have := s.lt
  omega

theorem bound_le_space (s : BlockSize) (addr : Addr) : 2 ^ s.log2 * ((s.page addr).toNat + 1) ≤ 2 ^ 32 := by
  have hlt : (s.page addr).toNat < 2 ^ (32 - s.log2) := by
    rw [BlockSize.toNat_page, Nat.div_lt_iff_lt_mul (BlockSize.bsize_pos s), Nat.mul_comm, tile]
    exact addr.isLt
  rw [← tile s]
  exact Nat.mul_le_mul_left _ hlt

theorem bound_next (h : 2 ^ s.log2 * ((s.page addr).toNat + 1) < 2 ^ 32) :
    2 ^ s.log2 * ((s.page addr).toNat + 1) + 2 ^ s.log2 ≤ 2 ^ 32 := by
  rw [← tile s] at h ⊢
  exact Nat.mul_le_mul_left _ (Nat.lt_of_mul_lt_mul_left h)

theorem bound_last (s : BlockSize) {addr : Addr} (h : 2 ^ s.log2 * ((s.page addr).toNat + 1) = 2 ^ 32) :
    ((s.page addr + 1) * s.bsize).toNat = 0 := by
  have hone : (1 : Addr).toNat = 1 := rfl
  rw [BitVec.toNat_mul, BitVec.toNat_add, hone, BlockSize.toNat_bsize, Nat.mod_mul_mod,
    Nat.mul_comm, h, Nat.mod_self]

theorem IntraBlock.end_le (h : IntraBlock s addr n) :
    (s.offset addr).toNat + n ≤ 2 ^ s.log2 ∧ n < 2 ^ 32 := by
  have hlt := ((s.page addr + 1) * s.bsize).isLt
  have hle := bound_le s addr
  have haddr := page_offset s addr
  unfold IntraBlock at h
  rw [Nat.mul_succ] at hle
  omega

theorem write_eq : m.write addr data =
    if IntraBlock s addr data.length then
      m.writeBlock (s.page addr) (s.offset addr) (data.take (BitVec.ofNat 32 data.length).toNat)
    else m.writeBlocks addr (BitVec.ofNat 32 data.length) data := rfl

/-- A write does what it does to a flat memory, unless it is of all the space from the first block
on. -/
theorem write_ok (hend : addr.toNat + data.length ≤ 2 ^ 32)
    (h : ¬ (addr.toNat < 2 ^ s.log2 ∧ addr.toNat + data.length = 2 ^ 32)) :
    ∃ m', m.write addr data = .ok m' ∧ m'.byte = m.byte.store addr.toNat data := by
  have hpos := BlockSize.bsize_pos s
  have haddr := page_offset s addr
  have hlen : data.length < 2 ^ 32 := by omega
  have hnbytes : (BitVec.ofNat 32 data.length).toNat = data.length := by
    rw [BitVec.toNat_ofNat, Nat.mod_eq_of_lt hlen]
  rw [write_eq]
  split
  case isTrue hfast =>
    rw [hnbytes, List.take_length]
    exact writeBlock_ok hfast.end_le.1
  case isFalse =>
    apply writeBlocks_ok hnbytes.symm ?_ (by rw [hnbytes]; exact hend)
    rw [hnbytes]
    by_contra hwrap
    have hpage : (s.page addr).toNat = 0 := by
      by_contra hne
      have : 2 ^ s.log2 ≤ 2 ^ s.log2 * (s.page addr).toNat := Nat.le_mul_of_pos_right _ (by omega)
      omega
    rw [hpage, Nat.mul_zero, Nat.zero_add] at haddr
    have := BlockSize.offset_lt s addr
    exact h ⟨by omega, by omega⟩

/-- The write of all the space from the first block on does nothing or trips the assertion of the
block. -/
theorem write_all (h : addr.toNat < 2 ^ s.log2) (hend : addr.toNat + data.length = 2 ^ 32) :
    m.write addr data = .ok m ∨ m.write addr data = .error .assertion := by
  have hpos := BlockSize.bsize_pos s
  have hle := BlockSize.bsize_le s
  have hpage : (s.page addr).toNat = 0 := by rw [BlockSize.toNat_page, Nat.div_eq_of_lt h]
  have haddr := page_offset s addr
  rw [hpage, Nat.mul_zero, Nat.zero_add] at haddr
  have hslow : ¬ IntraBlock s addr data.length := fun hfast => by
    have := hfast.end_le
    omega
  rw [write_eq, if_neg hslow]
  by_cases hzero : addr.toNat = 0
  · left
    have hnil : (BitVec.ofNat 32 data.length : Addr) = 0 := by
      apply BitVec.eq_of_toNat_eq
      rw [BitVec.toNat_ofNat, show data.length = 2 ^ 32 by omega]
      rfl
    rw [hnil, writeBlocks, if_pos rfl]
  · right
    obtain ⟨nbytes, hnbytes⟩ : ∃ nbytes : Addr, nbytes = BitVec.ofNat 32 data.length := ⟨_, rfl⟩
    have hlen : nbytes.toNat = data.length := by
      rw [hnbytes, BitVec.toNat_ofNat, Nat.mod_eq_of_lt (by omega)]
    have htx : s.txBytes addr nbytes = nbytes := txBytes_wrap (by rw [haddr, hlen, hend])
    have hne : nbytes ≠ 0 := by
      intro h0
      rw [h0] at hlen
      have : (0 : Addr).toNat = 0 := rfl
      omega
    have hassert : ¬ (s.offset addr).toNat + (data.take nbytes.toNat).length ≤ 2 ^ s.log2 := by
      rw [List.length_take, haddr]
      omega
    rw [← hnbytes, writeBlocks_step hne, htx]
    unfold writeBlock MemStorage.write
    rw [assert_neg hassert]
    rfl

/-! ## Reads -/

theorem readSingleBlock_ok (hblock : 2 ^ s.log2 * ((s.page addr).toNat + 1) < 2 ^ 32)
    (h : (s.offset addr).toNat + n ≤ 2 ^ s.log2) :
    m.readSingleBlock (s.page addr) addr n = .ok (m.byte.load addr.toNat n) := by
  have haddr := page_offset s addr
  have hpos := BlockSize.bsize_pos s
  have hle := BlockSize.bsize_le s
  -- the bytes of the range are those of the block
  have hbyte : ∀ i < n, m.byte (addr.toNat + i) =
      (m.data (s.page addr).toNat).getD .calloc ((s.offset addr).toNat + i) := by
    intro i hi
    have hsum : addr.toNat + i = 2 ^ s.log2 * (s.page addr).toNat + ((s.offset addr).toNat + i) := by omega
    have hlt : (s.offset addr).toNat + i < 2 ^ s.log2 := by omega
    rw [byte, hsum, Nat.mul_add_div hpos, Nat.div_eq_of_lt hlt, Nat.mul_add_mod, Nat.mod_eq_of_lt hlt,
      Nat.add_zero]
  unfold readSingleBlock
  rw [bound_eq hblock, if_neg (by rw [Nat.mul_succ]; omega)]
  cases hdata : m.data (s.page addr).toNat with
  | none =>
    rw [hdata] at hbyte
    show Except.ok (List.replicate n 0) = _
    congr 1
    apply List.ext_getElem
    · rw [List.length_replicate, ByteMap.length_load]
    · intro i hi _
      rw [List.length_replicate] at hi
      rw [List.getElem_replicate]
      simp only [ByteMap.load, List.getElem_map, List.getElem_range]
      rw [hbyte i hi]
      rfl
  | some block =>
    rw [hdata] at hbyte
    have hn : (BitVec.ofNat 32 n : Addr).toNat = n := by
      rw [BitVec.toNat_ofNat, Nat.mod_eq_of_lt (by omega)]
    show block.read s (s.offset addr).toNat (BitVec.ofNat 32 n : Addr).toNat = _
    rw [hn, MemStorage.read, assert_pos h, ok_bind]
    congr 1
    exact (ByteMap.load_congr hbyte).symm

theorem readBlocks_step (h : nbytes ≠ 0) : m.readBlocks addr nbytes buffer =
    m.readSingleBlock (s.page addr) addr (s.txBytes addr nbytes).toNat >>= fun bytes =>
      m.readBlocks (addr + s.txBytes addr nbytes) (nbytes - s.txBytes addr nbytes)
        (buffer.drop (s.txBytes addr nbytes).toNat) >>= fun rest => .ok (bytes ++ rest) := by
  rw [readBlocks, if_neg h]

theorem bound_lt (h : addr.toNat + 2 ^ s.log2 < 2 ^ 32) :
    2 ^ s.log2 * ((s.page addr).toNat + 1) < 2 ^ 32 := by
  have haddr := page_offset s addr
  rw [Nat.mul_succ]
  omega

theorem readBlocks_ok (hlen : buffer.length = nbytes.toNat)
    (hend : nbytes.toNat = 0 ∨ addr.toNat + nbytes.toNat + 2 ^ s.log2 ≤ 2 ^ 32) :
    m.readBlocks addr nbytes buffer = .ok (m.byte.load addr.toNat nbytes.toNat) := by
  induction addr, nbytes, buffer using readBlocks.induct (s := s) with
  | case1 addr buffer =>
    have hnil : buffer = [] := List.length_eq_zero_iff.mp hlen
    rw [readBlocks, if_pos rfl, hnil]
    rfl
  | case2 addr nbytes buffer hne txBytes ih =>
    have hpos : 0 < nbytes.toNat := by
      rw [Nat.pos_iff_ne_zero]
      exact fun h0 => hne (BitVec.eq_of_toNat_eq h0)
    have hend : addr.toNat + nbytes.toNat + 2 ^ s.log2 ≤ 2 ^ 32 := by omega
    have hoff := BlockSize.offset_lt s addr
    have haddr := page_offset s addr
    have htxBytes : s.txBytes addr nbytes = txBytes := rfl
    have hwrap : (s.offset addr).toNat + nbytes.toNat < 2 ^ 32 := by omega
    have htx := toNat_txBytes hwrap
    obtain ⟨hrest, hnext⟩ := rest_of_access hwrap (by omega)
    rw [htxBytes] at htx hrest hnext
    have hbound : addr.toNat + 2 ^ s.log2 < 2 ^ 32 := by omega
    have hblock := readSingleBlock_ok (m := m) (n := txBytes.toNat) (bound_lt hbound) (by omega)
    have hdrop : (buffer.drop txBytes.toNat).length = (nbytes - txBytes).toNat := by
      rw [List.length_drop, hrest, hlen]
    have hle : txBytes.toNat ≤ nbytes.toNat := by omega
    have hsplit : m.byte.load addr.toNat nbytes.toNat = m.byte.load addr.toNat txBytes.toNat ++
          m.byte.load (addr.toNat + txBytes.toNat) (nbytes.toNat - txBytes.toNat) := by
      rw [← ByteMap.load_add, Nat.add_sub_cancel' hle]
    rw [readBlocks_step hne, htxBytes, hblock, ok_bind]
    by_cases hall : nbytes.toNat = txBytes.toNat
    · rw [ih hdrop (.inl (by omega)), ok_bind, hrest, hsplit, hall, Nat.sub_self]
      rfl
    · obtain ⟨hsum, -⟩ := hnext hall
      rw [ih hdrop (.inr (by omega)), ok_bind, hrest, hsplit, hsum]

theorem readBlocks_ne_ok (hpos : 0 < nbytes.toNat) (hend : addr.toNat + nbytes.toNat ≤ 2 ^ 32)
    (hlast : 2 ^ 32 < addr.toNat + nbytes.toNat + 2 ^ s.log2) {bytes : List UInt8} :
    m.readBlocks addr nbytes buffer ≠ .ok bytes := by
  induction addr, nbytes, buffer using readBlocks.induct (s := s) generalizing bytes with
  | case1 addr buffer => exact absurd hpos (Nat.lt_irrefl 0)
  | case2 addr nbytes buffer hne txBytes ih =>
    have hoff := BlockSize.offset_lt s addr
    have haddr := page_offset s addr
    have hspace := bound_le_space s addr
    have hbound := bound_le s addr
    have hsize := BlockSize.bsize_le s
    have htxBytes : s.txBytes addr nbytes = txBytes := rfl
    -- an access beyond the bound of its block
    have hthrow : ((s.page addr + 1) * s.bsize).toNat < addr.toNat + txBytes.toNat →
        m.readBlocks addr nbytes buffer ≠ .ok bytes := by
      intro hlt
      rw [readBlocks_step hne, htxBytes]
      unfold readSingleBlock
      rw [if_pos hlt]
      exact fun h => by cases h
    rw [Nat.mul_succ] at hspace hbound
    by_cases hwrap : (s.offset addr).toNat + nbytes.toNat < 2 ^ 32
    · have htx := toNat_txBytes hwrap
      obtain ⟨hrest, hnext⟩ := rest_of_access hwrap hend
      rw [htxBytes] at htx hrest hnext
      by_cases hblock : 2 ^ s.log2 * ((s.page addr).toNat + 1) < 2 ^ 32
      · -- the last block is still to come
        have hnextBlock := bound_next hblock
        rw [Nat.mul_succ] at hnextBlock
        have hnotall : nbytes.toNat ≠ txBytes.toNat := by omega
        obtain ⟨hsum, -⟩ := hnext hnotall
        rw [readBlocks_step hne, htxBytes]
        intro h
        obtain ⟨first, -, h⟩ := bind_eq_ok.mp h
        obtain ⟨rest, h, -⟩ := bind_eq_ok.mp h
        exact ih (by omega) (by omega) (by omega) h
      · -- the last block
        apply hthrow
        rw [bound_last s (by rw [Nat.mul_succ] at hblock ⊢; omega)]
        omega
    · -- all of the space from the first block on
      apply hthrow
      have hpage : (s.page addr).toNat = 0 := by
        by_contra hp
        have : 2 ^ s.log2 ≤ 2 ^ s.log2 * (s.page addr).toNat := Nat.le_mul_of_pos_right _ (by omega)
        omega
      rw [hpage, Nat.mul_zero, Nat.zero_add] at haddr hbound
      have htx : s.txBytes addr nbytes = nbytes := txBytes_wrap (by omega)
      rw [← htxBytes, htx]
      omega

theorem read_ok (hend : buffer.length = 0 ∨ addr.toNat + buffer.length + 2 ^ s.log2 ≤ 2 ^ 32) :
    m.read addr buffer = .ok (m.byte.load addr.toNat buffer.length) := by
  have hpos := BlockSize.bsize_pos s
  have hlen : buffer.length < 2 ^ 32 := by omega
  have hnbytes : (BitVec.ofNat 32 buffer.length).toNat = buffer.length := by
    rw [BitVec.toNat_ofNat, Nat.mod_eq_of_lt hlen]
  unfold read
  split
  case isTrue hfast =>
    apply readSingleBlock_ok ?_ hfast.end_le.1
    by_contra hlast
    have hspace := bound_le_space s addr
    have hzero : ((s.page addr + 1) * s.bsize).toNat = 0 := bound_last s (by omega)
    have haddr := page_offset s addr
    have hsize := BlockSize.bsize_le s
    unfold IntraBlock at hfast
    rw [Nat.mul_succ] at hlast
    omega
  case isFalse =>
    rw [readBlocks_ok hnbytes.symm (by rw [hnbytes]; exact hend), hnbytes]

/-- A read that gets to the last block throws, unless it is of the whole space and leaves the buffer. -/
theorem read_last (hend : addr.toNat + buffer.length ≤ 2 ^ 32) (hpos : 0 < buffer.length)
    (hlast : 2 ^ 32 < addr.toNat + buffer.length + 2 ^ s.log2) :
    buffer.length = 2 ^ 32 ∧ m.read addr buffer = .ok buffer ∨ ∀ bytes, m.read addr buffer ≠ .ok bytes := by
  have hslow : ¬ IntraBlock s addr buffer.length := by
    intro hfast
    have hspace := bound_le_space s addr
    have hbound := bound_le s addr
    unfold IntraBlock at hfast
    by_cases hblock : 2 ^ s.log2 * ((s.page addr).toNat + 1) < 2 ^ 32
    · have := bound_next hblock
      omega
    · rw [bound_last s (by omega)] at hfast
      omega
  unfold read
  rw [if_neg hslow]
  by_cases hall : buffer.length = 2 ^ 32
  · refine .inl ⟨hall, ?_⟩
    have hnil : (BitVec.ofNat 32 buffer.length : Addr) = 0 := by
      apply BitVec.eq_of_toNat_eq
      rw [BitVec.toNat_ofNat, hall]
      rfl
    rw [hnil, readBlocks, if_pos rfl]
  · right
    have hnbytes : (BitVec.ofNat 32 buffer.length).toNat = buffer.length := by
      rw [BitVec.toNat_ofNat, Nat.mod_eq_of_lt (by omega)]
    intro bytes
    apply readBlocks_ne_ok
    · rw [hnbytes]
      exact hpos
    · rw [hnbytes]
      exact hend
    · rw [hnbytes]
      exact hlast

end MemorySpaceImpl

/-! ## Runs -/

/-- A space and the writes that were made to it, the latest first. -/
structure FunctionalMemory (s : BlockSize) where
  mem : MemorySpaceImpl s
  writes : List (Nat × List UInt8)

inductive Access where
  | write (addr : Addr) (data : List UInt8)
  | read (addr : Addr) (buffer : List UInt8)

namespace Access

/-- Is the range within the 32-bit address space? -/
def InSpace : Access → Prop
  | write addr data => addr.toNat + data.length ≤ 2 ^ 32
  | read addr buffer => addr.toNat + buffer.length ≤ 2 ^ 32

instance : DecidablePred InSpace
  | write addr data => inferInstanceAs (Decidable (addr.toNat + data.length ≤ 2 ^ 32))
  | read addr buffer => inferInstanceAs (Decidable (addr.toNat + buffer.length ≤ 2 ^ 32))

end Access

def functionalMemory (s : BlockSize) : Machine (FunctionalMemory s) Access MemoryFault where
  init := ⟨.init, []⟩
  step st a :=
    if a.InSpace then
      some (match a with
        | .write addr data => (st.mem.write addr data).map fun m => ⟨m, (addr.toNat, data) :: st.writes⟩
        | .read addr buffer => (st.mem.read addr buffer).map fun _ => st)
    else none

namespace FunctionalMemory

variable {s : BlockSize} (st : FunctionalMemory s) (addr : Addr) (length : Nat)

/-- The read gives each byte the value of the latest write that covers it, or zero if there is none. -/
def ReadsLatest : Prop := ∀ buffer : List UInt8, buffer.length = length →
  st.mem.read addr buffer = .ok ((ByteMap.latest 0 st.writes).load addr.toNat length)

/-- The write is the latest one for the bytes that it covers. -/
def WritesAll : Prop := ∀ data : List UInt8, data.length = length →
  ∃ m, st.mem.write addr data = .ok m ∧ m.byte = ByteMap.latest 0 ((addr.toNat, data) :: st.writes)

/-- Does a read stay clear of the last block? -/
def ReadSafe (s : BlockSize) (addr : Addr) (length : Nat) : Prop :=
  length = 0 ∨ addr.toNat + length + 2 ^ s.log2 ≤ 2 ^ 32

/-- Is a write anything but one of all the space from the first block on? -/
def WriteSafe (s : BlockSize) (addr : Addr) (length : Nat) : Prop :=
  ¬ (addr.toNat < 2 ^ s.log2 ∧ addr.toNat + length = 2 ^ 32)

instance : Decidable (ReadSafe s addr length) := inferInstanceAs (Decidable (_ ∨ _))

instance : Decidable (WriteSafe s addr length) := inferInstanceAs (Decidable (¬ _))

/-- The accesses that do what they do to a flat memory. -/
def Safe (s : BlockSize) : Access → Prop
  | .write addr data => WriteSafe s addr data.length
  | .read addr buffer => ReadSafe s addr buffer.length

instance : DecidablePred (Safe s)
  | .write addr data => inferInstanceAs (Decidable (WriteSafe s addr data.length))
  | .read addr buffer => inferInstanceAs (Decidable (ReadSafe s addr buffer.length))

variable {st addr length}

theorem byte_eq_latest (h : (functionalMemory s).ReachableUnder (fun _ a => Safe s a) st) :
    st.mem.byte = ByteMap.latest 0 st.writes := by
  induction h with
  | init => rfl
  | @step st a st' _ hsafe hs ih =>
    simp only [functionalMemory] at hs
    split at hs
    case isFalse => cases hs
    case isTrue hin =>
    rw [Option.some.injEq] at hs
    cases a with
    | write addr data =>
      simp only at hs
      obtain ⟨m, hm, hbyte⟩ := MemorySpaceImpl.write_ok (m := st.mem) hin hsafe
      rw [hm] at hs
      cases hs
      rw [hbyte, ih]
      rfl
    | read addr buffer =>
      simp only at hs
      rw [MemorySpaceImpl.read_ok (m := st.mem) hsafe] at hs
      cases hs
      exact ih

/-- **Functional memory is a flat byte map**, exactly for the reads that do not get to the last block of
the space and the writes that are not of all the space from the first block on. -/
theorem flat_iff (h : (functionalMemory s).ReachableUnder (fun _ a => Safe s a) st)
    (hend : addr.toNat + length ≤ 2 ^ 32) :
    (st.ReadsLatest addr length ↔ ReadSafe s addr length) ∧
      (st.WritesAll addr length ↔ WriteSafe s addr length) := by
  have hbyte := byte_eq_latest h
  constructor
  · constructor
    · intro hreads
      by_contra hsafe
      obtain ⟨hne, hlast⟩ := not_or.mp hsafe
      -- a buffer of zeros and one of ones cannot both be right
      have hbuffer : ∀ b : UInt8,
          (ByteMap.latest 0 st.writes).load addr.toNat length = List.replicate length b := by
        intro b
        have hlen : (List.replicate length b).length = length := List.length_replicate
        have hread := hreads _ hlen
        rcases MemorySpaceImpl.read_last (m := st.mem) (by rw [hlen]; exact hend) (by rw [hlen]; omega)
          (by rw [hlen]; omega) with ⟨-, hok⟩ | herror
        · rw [hok] at hread
          exact (Except.ok.inj hread).symm
        · exact absurd hread (herror _)
      have heq := (hbuffer 0).symm.trans (hbuffer 1)
      rw [List.replicate_inj] at heq
      rcases heq.2 with h0 | h01
      · exact hne h0
      · exact absurd h01 (by decide)
    · intro hsafe buffer hlen
      subst hlen
      rw [MemorySpaceImpl.read_ok hsafe, hbyte]
  · constructor
    · intro hwrites hall
      obtain ⟨hfirst, hend⟩ := hall
      -- a byte other than the one at the first address
      obtain ⟨b, hb⟩ : ∃ b : UInt8, b ≠ st.mem.byte addr.toNat := by
        by_cases h0 : st.mem.byte addr.toNat = 0
        · exact ⟨1, by rw [h0]; decide⟩
        · exact ⟨0, fun h => h0 h.symm⟩
      have hlen : (List.replicate length b).length = length := List.length_replicate
      obtain ⟨m, hm, hmb⟩ := hwrites _ hlen
      have hall : addr.toNat + (List.replicate length b).length = 2 ^ 32 := by rw [hlen, hend]
      have hwrite := MemorySpaceImpl.write_all (m := st.mem) hfirst hall
      rw [hm] at hwrite
      rcases hwrite with hsame | herror
      · cases hsame
        have hsize := BlockSize.bsize_le s
        have hb' : st.mem.byte addr.toNat = b := by
          rw [hmb]
          show ByteMap.store _ _ _ _ = _
          rw [ByteMap.store_of_mem (Nat.le_refl _) (by rw [hlen]; omega)]
          exact List.getElem_replicate _
        exact hb hb'.symm
      · cases herror
    · intro hsafe data hlen
      subst hlen
      obtain ⟨m, hm, hmb⟩ := MemorySpaceImpl.write_ok (m := st.mem) hend hsafe
      exact ⟨m, hm, by rw [hmb, hbyte]; rfl⟩

/-- Every access within the address space does what it does to a flat memory, in every run. -/
def FlatInAllRuns : Prop :=
  ∀ (s : BlockSize) (st : FunctionalMemory s), (functionalMemory s).Reachable st → ∀ addr length,
    addr.toNat + length ≤ 2 ^ 32 → st.ReadsLatest addr length ∧ st.WritesAll addr length

def bytes32 : BlockSize := ⟨5, by decide⟩

/-- A word is written in the first block, and read. -/
theorem flat_iff_word : ∃ st : FunctionalMemory bytes32,
    (functionalMemory bytes32).Reachable st ∧ st.writes = [(4, [1, 2, 3, 4])] ∧ st.ReadsLatest 4 4 := by
  obtain ⟨st, -, hst, hwrites⟩ := (functionalMemory bytes32).exists_reachableUnder_of_run
    (fun _ a => Safe bytes32 a) [.write 4 [1, 2, 3, 4]] (·.writes) (y := [(4, [1, 2, 3, 4])]) (by decide)
    (by rfl)
  exact ⟨st, hst.reachable, hwrites, (flat_iff hst (by decide)).1.mpr (by decide)⟩

/-- The last word of the space cannot be read. -/
theorem not_flatInAllRuns : ¬ FlatInAllRuns := by
  intro hflat
  have hread := (hflat bytes32 ⟨.init, []⟩ .init 0xfffffffc 4 (by decide)).1 [0, 0, 0, 0] rfl
  have hend : (0xfffffffc : Addr).toNat + ([0, 0, 0, 0] : List UInt8).length ≤ 2 ^ 32 := by decide
  rcases MemorySpaceImpl.read_last (s := bytes32) (m := .init) hend (by decide) (by decide) with
    ⟨hall, -⟩ | herror
  · exact absurd hall (by decide)
  · exact herror _ hread

end FunctionalMemory

end GpgpuSimRuby.Ptx
