import GpgpuSimRuby.Coalescing.WarpInst

/-!
# Constant and texture accesses

There is one access for each cache block, and it has the right lanes; but all of them have the bytes
of the whole warp. So the byte masks are right if every block is accessed at the same offsets.
-/

namespace GpgpuSimRuby.Coalescing

open Library

namespace WarpInst

variable {cfg : CoreConfig} {inst : WarpInst cfg} {blockSize : Nat}

theorem mem_threads_all {t : Nat} : t ∈ inst.threads 0 cfg.warpSize ↔ t ∈ inst.active := by
  rw [mem_threads]
  constructor
  · exact And.left
  · intro h
    exact ⟨h, Nat.zero_le _, by rw [Nat.zero_add]; exact inst.active_lt t h⟩

/-! ## The loop -/

/-- Where a thread's bytes begin in the byte mask. -/
def offset (inst : WarpInst cfg) (blockSize t : Nat) : Nat :=
  (inst.address t - lineSizeBasedTagFunc (inst.address t) blockSize) % 2 ^ 32

/-- The byte mask has the bits. -/
def InRange (inst : WarpInst cfg) (blockSize t : Nat) : Prop :=
  inst.dataSize = 0 ∨ inst.offset blockSize t + inst.dataSize ≤ MAX_MEMORY_ACCESS_SIZE

def offsets (inst : WarpInst cfg) (blockSize t : Nat) : Finset Nat :=
  Finset.Ico (inst.offset blockSize t) (inst.offset blockSize t + inst.dataSize)

theorem addToBlock_eq_ok {acc acc' : SortedMap Nat (Finset Nat) × Finset Nat} {t : Nat} :
    inst.addToBlock blockSize acc t = .ok acc' ↔ inst.InRange blockSize t ∧
      (acc.1.alter (lineSizeBasedTagFunc (inst.address t) blockSize) ∅ (insert t),
        acc.2 ∪ inst.offsets blockSize t) = acc' := by
  unfold addToBlock
  rw [bind_eq_ok]
  constructor
  · rintro ⟨byteMask, hset, h⟩
    obtain ⟨hrange, rfl⟩ := setBytes_eq_ok.mp hset
    cases h
    exact ⟨hrange, rfl⟩
  · rintro ⟨hrange, rfl⟩
    exact ⟨_, setBytes_eq_ok.mpr ⟨hrange, rfl⟩, rfl⟩

/-- The bytes of all. -/
def allOffsets (inst : WarpInst cfg) (blockSize : Nat) (l : List Nat) : Finset Nat :=
  l.foldl (fun bytes t => bytes ∪ inst.offsets blockSize t) ∅

theorem mem_allOffsets {l : List Nat} {j : Nat} :
    j ∈ inst.allOffsets blockSize l ↔ ∃ t ∈ l, j ∈ inst.offsets blockSize t := by
  unfold allOffsets
  induction l using List.reverseRecOn with
  | nil => simp
  | append_singleton l t ih =>
    rw [List.foldl_append, List.foldl_cons, List.foldl_nil, Finset.mem_union, ih]
    simp [or_and_right, exists_or]

/-- The lanes, by block. -/
def lanes (inst : WarpInst cfg) (blockSize : Nat) (l : List Nat) : SortedMap Nat (Finset Nat) :=
  SortedMap.gather (fun t => lineSizeBasedTagFunc (inst.address t) blockSize) ∅ insert l .empty

theorem foldl_insert (l : List Nat) : l.foldl (fun s t => insert t s) ∅ = l.toFinset := by
  induction l using List.reverseRecOn with
  | nil => rfl
  | append_singleton l t ih =>
    rw [List.foldl_append, List.foldl_cons, List.foldl_nil, ih]
    ext x
    simp

theorem mem_entries_lanes {l : List Nat} {p : Nat × Finset Nat} : p ∈ (inst.lanes blockSize l).entries ↔
    (∃ t ∈ l, lineSizeBasedTagFunc (inst.address t) blockSize = p.1) ∧
      p.2 = (l.filter fun t => lineSizeBasedTagFunc (inst.address t) blockSize = p.1).toFinset := by
  unfold lanes
  rw [SortedMap.mem_entries_gather, foldl_insert]

/-- **The loop** ends well if the byte mask has all bits. -/
theorem foldlM_addToBlock {l : List Nat} {acc : SortedMap Nat (Finset Nat) × Finset Nat} :
    l.foldlM (inst.addToBlock blockSize) (.empty, ∅) = .ok acc ↔ (∀ t ∈ l, inst.InRange blockSize t) ∧
      (inst.lanes blockSize l, inst.allOffsets blockSize l) = acc := by
  have hpair : l.foldl (fun (acc : SortedMap Nat (Finset Nat) × Finset Nat) t =>
      (acc.1.alter (lineSizeBasedTagFunc (inst.address t) blockSize) ∅ (insert t),
        acc.2 ∪ inst.offsets blockSize t)) (.empty, ∅) =
      (inst.lanes blockSize l, inst.allOffsets blockSize l) := by
    unfold lanes allOffsets SortedMap.gather
    induction l using List.reverseRecOn with
    | nil => rfl
    | append_singleton l t ih =>
      rw [List.foldl_append, List.foldl_append, List.foldl_append, ih]
      rfl
  rw [← hpair]
  exact foldlM_checked fun _ _ _ => addToBlock_eq_ok

/-! ## Constant and texture accesses -/

/-- A constant or texture access that is to be split. -/
structure IsCacheAccess (inst : WarpInst cfg) : Prop where
  due : inst.IsDue
  space : inst.space = .const ∨ inst.space = .paramKernel ∨ inst.space = .tex
  queue : inst.accessq = []

/-- One access for each block that is touched, with the lanes that touch it and their bytes in it. -/
structure EmitsBlocks (inst : WarpInst cfg) (q : List MemAccess) : Prop where
  once : (q.map MemAccess.addr).Nodup
  blocks : ∀ b, (∃ a ∈ q, a.addr = b) ↔ ∃ t ∈ inst.active, blockOf inst.cacheBlockSize (inst.address t) = b
  lanes : ∀ a ∈ q, ∀ t, t ∈ a.warpMask ↔
    t ∈ inst.active ∧ blockOf inst.cacheBlockSize (inst.address t) = a.addr
  bytes : ∀ a ∈ q, ∀ j, j ∈ a.byteMask ↔ ∃ t ∈ a.warpMask, ∃ i < inst.dataSize,
    blockOf inst.cacheBlockSize (inst.address t + i) = a.addr ∧ inst.address t + i = a.addr + j

/-- No access leaves its block, or the 128 bytes of a byte mask, and the blocks are accessed at the same
offsets. -/
structure SameOffsets (inst : WarpInst cfg) : Prop where
  size : inst.active.Nonempty → inst.cacheBlockSize ≠ 0
  addresses : ∀ t ∈ inst.active, inst.address t < 2 ^ 32
  inside : ∀ t ∈ inst.active, ∀ i < inst.dataSize,
    blockOf inst.cacheBlockSize (inst.address t + i) = blockOf inst.cacheBlockSize (inst.address t) ∧
      inst.address t + i < blockOf inst.cacheBlockSize (inst.address t) + MAX_MEMORY_ACCESS_SIZE
  same : ∀ t ∈ inst.active, ∀ i < inst.dataSize, ∀ t' ∈ inst.active, ∃ t'' ∈ inst.active,
    ∃ i'' < inst.dataSize,
      blockOf inst.cacheBlockSize (inst.address t'') = blockOf inst.cacheBlockSize (inst.address t') ∧
        inst.address t'' + i'' + blockOf inst.cacheBlockSize (inst.address t) =
          inst.address t + i + blockOf inst.cacheBlockSize (inst.address t')

theorem IsCacheAccess.accessType (h : inst.IsCacheAccess) :
    inst.accessType = .ok (some (if inst.space = .tex then .textureAccR else .constAccR)) := by
  unfold WarpInst.accessType
  rcases h.space with hs | hs | hs <;> rw [hs] <;> rfl

theorem IsCacheAccess.newAccesses (h : inst.IsCacheAccess) {accessType : Cache.MemAccessType} :
    inst.newAccesses accessType = if inst.cacheBlockSize ≠ 0 then
      inst.cacheBlockAccesses inst.cacheBlockSize accessType else .ok [] := by
  have hspace : ¬ (inst.space = .global ∨ inst.space = .local ∨ inst.space = .paramLocal) := by
    rcases h.space with hs | hs | hs <;> rw [hs] <;> decide
  unfold WarpInst.newAccesses
  rw [if_neg hspace, assert_pos h.queue, ok_bind]

theorem IsCacheAccess.generate (h : inst.IsCacheAccess) (hactive : inst.active.Nonempty) :
    inst.generateMemAccesses =
      (inst.newAccesses (if inst.space = .tex then .textureAccR else .constAccR) >>= fun accesses =>
        .ok { inst with accessq := inst.accessq ++ accesses, memAccessesCreated := true }) := by
  rw [h.due.generate hactive, h.accessType, ok_bind]

theorem cacheBlockAccesses_eq {accessType : Cache.MemAccessType}
    (hrange : ∀ t ∈ inst.active, inst.InRange blockSize t) :
    inst.cacheBlockAccesses blockSize accessType =
      .ok ((inst.lanes blockSize (inst.threads 0 cfg.warpSize)).entries.map fun a =>
        ⟨accessType, a.1, blockSize, inst.isStore, a.2,
          inst.allOffsets blockSize (inst.threads 0 cfg.warpSize)⟩) := by
  unfold cacheBlockAccesses
  rw [foldlM_addToBlock.mpr ⟨fun t ht => hrange t (mem_threads_all.mp ht), rfl⟩]
  rfl

theorem inRange_of_cacheBlockAccesses {accessType : Cache.MemAccessType} {q : List MemAccess}
    (h : inst.cacheBlockAccesses blockSize accessType = .ok q) {t : Nat} (ht : t ∈ inst.active) :
    inst.InRange blockSize t := by
  obtain ⟨acc, hloop, -⟩ := bind_eq_ok.mp h
  exact (foldlM_addToBlock.mp hloop).1 t (mem_threads_all.mpr ht)

/-! ### What the accesses are -/

section Emitted

variable {accessType : Cache.MemAccessType} {a : MemAccess}

/-- The accesses of a split. -/
def emitted (inst : WarpInst cfg) (blockSize : Nat) (accessType : Cache.MemAccessType) : List MemAccess :=
  (inst.lanes blockSize (inst.threads 0 cfg.warpSize)).entries.map fun a =>
    ⟨accessType, a.1, blockSize, inst.isStore, a.2,
      inst.allOffsets blockSize (inst.threads 0 cfg.warpSize)⟩

theorem mem_emitted : a ∈ inst.emitted blockSize accessType ↔
    (∃ t ∈ inst.active, lineSizeBasedTagFunc (inst.address t) blockSize = a.addr) ∧
      a = ⟨accessType, a.addr, blockSize, inst.isStore,
        inst.active.filter fun t => lineSizeBasedTagFunc (inst.address t) blockSize = a.addr,
        inst.allOffsets blockSize (inst.threads 0 cfg.warpSize)⟩ := by
  have hlanes (b : Nat) :
      ((inst.threads 0 cfg.warpSize).filter fun t =>
        lineSizeBasedTagFunc (inst.address t) blockSize = b).toFinset =
      inst.active.filter fun t => lineSizeBasedTagFunc (inst.address t) blockSize = b := by
    ext t
    rw [List.mem_toFinset, List.mem_filter, mem_threads_all, Finset.mem_filter, decide_eq_true_iff]
  unfold emitted
  rw [List.mem_map]
  constructor
  · rintro ⟨p, hp, rfl⟩
    obtain ⟨⟨t, ht, hblock⟩, hp⟩ := mem_entries_lanes.mp hp
    refine ⟨⟨t, mem_threads_all.mp ht, hblock⟩, ?_⟩
    dsimp only
    rw [hp, hlanes]
  · rintro ⟨⟨t, ht, hblock⟩, ha⟩
    refine ⟨(a.addr, inst.active.filter fun t => lineSizeBasedTagFunc (inst.address t) blockSize = a.addr),
      mem_entries_lanes.mpr ⟨⟨t, mem_threads_all.mpr ht, hblock⟩, ?_⟩, ha.symm⟩
    exact (hlanes _).symm

theorem nodup_emitted : ((inst.emitted blockSize accessType).map MemAccess.addr).Nodup := by
  unfold emitted
  rw [List.map_map]
  exact (List.pairwise_map.mpr (SortedMap.sorted _)).imp ne_of_lt

theorem mem_offsets {t j : Nat} (ht : inst.address t < 2 ^ 32) : j ∈ inst.offsets blockSize t ↔
    ∃ i < inst.dataSize, inst.address t + i = blockOf blockSize (inst.address t) + j := by
  have hle := blockOf_le blockSize (inst.address t)
  have hoffset : inst.offset blockSize t = inst.address t - blockOf blockSize (inst.address t) := by
    unfold offset
    rw [lineSizeBasedTagFunc_of_lt ht]
    exact Nat.mod_eq_of_lt (by omega)
  unfold offsets
  rw [hoffset, Finset.mem_Ico]
  constructor
  · rintro ⟨hge, hlt⟩
    exact ⟨j - (inst.address t - blockOf blockSize (inst.address t)), by omega, by omega⟩
  · rintro ⟨i, hi, heq⟩
    omega

end Emitted

/-! ### The condition -/

theorem cacheBlockSize_lt : inst.cacheBlockSize < 2 ^ 32 := by
  unfold cacheBlockSize
  split
  · exact cfg.constl1Linesize_lt
  · exact cfg.constl1Linesize_lt
  · exact cfg.texl1Linesize_lt
  · decide

theorem SameOffsets.emitsBlocks (h : inst.SameOffsets) {accessType : Cache.MemAccessType} :
    inst.EmitsBlocks (inst.emitted inst.cacheBlockSize accessType) where
  once := nodup_emitted
  blocks b := by
    constructor
    · rintro ⟨a, ha, rfl⟩
      obtain ⟨⟨t, ht, hblock⟩, -⟩ := mem_emitted.mp ha
      rw [lineSizeBasedTagFunc_of_lt (h.addresses t ht)] at hblock
      exact ⟨t, ht, hblock⟩
    · rintro ⟨t, ht, rfl⟩
      obtain ⟨p, hp⟩ : ∃ p : MemAccess, p = ⟨accessType, blockOf inst.cacheBlockSize (inst.address t),
          inst.cacheBlockSize, inst.isStore, inst.active.filter fun t' =>
            lineSizeBasedTagFunc (inst.address t') inst.cacheBlockSize =
              blockOf inst.cacheBlockSize (inst.address t),
          inst.allOffsets inst.cacheBlockSize (inst.threads 0 cfg.warpSize)⟩ := ⟨_, rfl⟩
      have haddr : p.addr = blockOf inst.cacheBlockSize (inst.address t) := by rw [hp]
      refine ⟨p, mem_emitted.mpr ⟨⟨t, ht, ?_⟩, ?_⟩, haddr⟩
      · rw [haddr]
        exact lineSizeBasedTagFunc_of_lt (h.addresses t ht)
      · rw [haddr]
        exact hp
  lanes a ha t := by
    obtain ⟨-, ha⟩ := mem_emitted.mp ha
    rw [ha, Finset.mem_filter]
    apply and_congr_right
    intro ht
    rw [lineSizeBasedTagFunc_of_lt (h.addresses t ht)]
  bytes a ha j := by
    obtain ⟨⟨t', ht', hblock'⟩, ha⟩ := mem_emitted.mp ha
    rw [lineSizeBasedTagFunc_of_lt (h.addresses t' ht')] at hblock'
    rw [ha]
    dsimp only
    rw [mem_allOffsets]
    constructor
    · rintro ⟨t, ht, hj⟩
      have ht := mem_threads_all.mp ht
      obtain ⟨i, hi, heq⟩ := (mem_offsets (h.addresses t ht)).mp hj
      obtain ⟨t'', ht'', i'', hi'', hblock, hsame⟩ := h.same t ht i hi t' ht'
      refine ⟨t'', Finset.mem_filter.mpr ⟨ht'', ?_⟩, i'', hi'', ?_, ?_⟩
      · rw [lineSizeBasedTagFunc_of_lt (h.addresses t'' ht''), hblock, hblock']
      · rw [(h.inside t'' ht'' i'' hi'').1, hblock, hblock']
      · omega
    · rintro ⟨t, ht, i, hi, -, heq⟩
      obtain ⟨ht, hblock⟩ := Finset.mem_filter.mp ht
      rw [lineSizeBasedTagFunc_of_lt (h.addresses t ht)] at hblock
      refine ⟨t, mem_threads_all.mpr ht, (mem_offsets (h.addresses t ht)).mpr ⟨i, hi, ?_⟩⟩
      rw [hblock]
      exact heq

theorem SameOffsets.inRange (h : inst.SameOffsets) {t : Nat} (ht : t ∈ inst.active) :
    inst.InRange inst.cacheBlockSize t := by
  by_cases hsize : inst.dataSize = 0
  · exact .inl hsize
  · have hlast := (h.inside t ht (inst.dataSize - 1) (by omega)).2
    have hle := blockOf_le inst.cacheBlockSize (inst.address t)
    have hlt := h.addresses t ht
    unfold InRange offset
    rw [lineSizeBasedTagFunc_of_lt hlt, Nat.mod_eq_of_lt (by omega)]
    exact .inr (by omega)

theorem EmitsBlocks.sameOffsets {accessType : Cache.MemAccessType} (hsize : inst.cacheBlockSize ≠ 0)
    (hrange : ∀ t ∈ inst.active, inst.InRange inst.cacheBlockSize t)
    (h : inst.EmitsBlocks (inst.emitted inst.cacheBlockSize accessType)) : inst.SameOffsets := by
  -- a block above 32 bits would be truncated
  have haddresses : ∀ t ∈ inst.active, inst.address t < 2 ^ 32 := by
    intro t ht
    obtain ⟨a, ha, hblock⟩ := (h.blocks _).mpr ⟨t, ht, rfl⟩
    obtain ⟨⟨t', -, htag⟩, -⟩ := mem_emitted.mp ha
    by_contra hge
    have hupper := blockOf_ge (Nat.pos_of_ne_zero hsize) cacheBlockSize_lt (not_lt.mp hge)
      (inst.memreqaddr_lt t 0)
    rw [← htag, lineSizeBasedTagFunc_eq] at hblock
    have hlt := Nat.mod_lt (blockOf inst.cacheBlockSize (inst.address t')) (show 0 < 2 ^ 32 by decide)
    omega
  -- every byte is in every byte mask
  have hsame : ∀ t ∈ inst.active, ∀ i < inst.dataSize, ∀ t' ∈ inst.active, ∃ t'' ∈ inst.active,
      ∃ i'' < inst.dataSize,
        blockOf inst.cacheBlockSize (inst.address t'') = blockOf inst.cacheBlockSize (inst.address t') ∧
        blockOf inst.cacheBlockSize (inst.address t'' + i'') = blockOf inst.cacheBlockSize (inst.address t') ∧
        inst.address t'' + i'' + blockOf inst.cacheBlockSize (inst.address t) =
          inst.address t + i + blockOf inst.cacheBlockSize (inst.address t') := by
    intro t ht i hi t' ht'
    obtain ⟨a, ha, hblock⟩ := (h.blocks _).mpr ⟨t', ht', rfl⟩
    have hle := blockOf_le inst.cacheBlockSize (inst.address t)
    have hj : inst.address t + i - blockOf inst.cacheBlockSize (inst.address t) ∈ a.byteMask := by
      rw [(mem_emitted.mp ha).2]
      exact mem_allOffsets.mpr ⟨t, mem_threads_all.mpr ht,
        (mem_offsets (haddresses t ht)).mpr ⟨i, hi, by omega⟩⟩
    obtain ⟨t'', ht'', i'', hi'', hin, heq⟩ := (h.bytes a ha _).mp hj
    obtain ⟨ht'', hblock''⟩ := (h.lanes a ha t'').mp ht''
    refine ⟨t'', ht'', i'', hi'', hblock''.trans hblock, hin.trans hblock, ?_⟩
    rw [hblock] at heq
    omega
  refine ⟨fun _ => hsize, haddresses, ?_, ?_⟩
  · intro t ht i hi
    obtain ⟨t'', ht'', i'', hi'', hblock, hin, heq⟩ := hsame t ht i hi t ht
    rw [show inst.address t'' + i'' = inst.address t + i by omega] at hin
    refine ⟨hin, ?_⟩
    have hle := blockOf_le inst.cacheBlockSize (inst.address t)
    have hlt := haddresses t ht
    rcases hrange t ht with hzero | hlast
    · omega
    · unfold offset at hlast
      rw [lineSizeBasedTagFunc_of_lt hlt, Nat.mod_eq_of_lt (by omega)] at hlast
      omega
  · intro t ht i hi t' ht'
    obtain ⟨t'', ht'', i'', hi'', hblock, -, heq⟩ := hsame t ht i hi t' ht'
    exact ⟨t'', ht'', i'', hi'', hblock, heq⟩

theorem emitsBlocks_of_empty (hactive : inst.active = ∅) : inst.EmitsBlocks [] := by
  refine ⟨.nil, ?_, fun a ha => absurd ha List.not_mem_nil, fun a ha => absurd ha List.not_mem_nil⟩
  intro b
  constructor
  · rintro ⟨a, ha, -⟩
    exact absurd ha List.not_mem_nil
  · rintro ⟨t, ht, -⟩
    rw [hactive] at ht
    exact absurd ht (Finset.notMem_empty t)

theorem sameOffsets_of_empty (hactive : inst.active = ∅) : inst.SameOffsets := by
  constructor
  · intro h
    exact absurd hactive h.ne_empty
  all_goals
    intro t ht
    rw [hactive] at ht
    exact absurd ht (Finset.notMem_empty t)

/-- **Constant and texture accesses** are split as they should if and only if the blocks are
accessed at the same offsets. -/
theorem generate_emitsBlocks_iff (h : inst.IsCacheAccess) :
    (∃ inst', inst.generateMemAccesses = .ok inst' ∧ inst.EmitsBlocks inst'.accessq) ↔ inst.SameOffsets := by
  rcases inst.active.eq_empty_or_nonempty with hactive | hactive
  · rw [h.due.generate_of_empty hactive]
    constructor
    · exact fun _ => sameOffsets_of_empty hactive
    · intro _
      refine ⟨inst, rfl, ?_⟩
      rw [h.queue]
      exact emitsBlocks_of_empty hactive
  rw [h.generate hactive, h.newAccesses, h.queue]
  constructor
  · rintro ⟨inst', hrun, hemits⟩
    obtain ⟨q, hq, hrun⟩ := bind_eq_ok.mp hrun
    cases hrun
    dsimp only [List.nil_append] at hemits
    by_cases hsize : inst.cacheBlockSize ≠ 0
    · rw [if_pos hsize] at hq
      have hrange := fun t ht => inRange_of_cacheBlockAccesses hq (t := t) ht
      rw [cacheBlockAccesses_eq hrange] at hq
      cases hq
      exact EmitsBlocks.sameOffsets hsize hrange hemits
    · rw [if_neg hsize] at hq
      cases hq
      obtain ⟨t, ht⟩ := hactive
      obtain ⟨a, ha, -⟩ := (hemits.blocks _).mpr ⟨t, ht, rfl⟩
      exact absurd ha List.not_mem_nil
  · intro hsame
    rw [if_pos (hsame.size hactive), cacheBlockAccesses_eq fun t ht => hsame.inRange ht]
    exact ⟨_, rfl, hsame.emitsBlocks⟩

/-! ### Two threads -/

/-- A warp of two threads that loads from constant memory. -/
def constLoad (a b : Nat) (ha : a < 2 ^ 64) (hb : b < 2 ^ 64) :
    WarpInst ⟨2, by decide, 13, false, 16, 1, 64, 64, linesize_lt, linesize_lt⟩ where
  isEmpty := false
  op := .load
  memoryOp := .memoryLoad
  space := .const
  dataSize := 4
  active := {0, 1}
  active_lt := by decide
  isAtomic := false
  perScalarThreadValid := true
  memreqaddr := fun t _ => if t = 0 then a else b
  memreqaddr_lt := by
    intro t i
    split
    · exact ha
    · exact hb
  memAccessesCreated := false
  cycles := 1
  accessq := []

theorem isCacheAccess_constLoad {a b : Nat} (ha : a < 2 ^ 64) (hb : b < 2 ^ 64) :
    (constLoad a b ha hb).IsCacheAccess :=
  ⟨⟨rfl, rfl, .inl rfl, rfl⟩, .inl rfl, rfl⟩

theorem generate_emitsBlocks_iff_const :
    (∃ inst', (constLoad 0 68 (by decide) (by decide)).generateMemAccesses = .ok inst' ∧
      (constLoad 0 68 (by decide) (by decide)).EmitsBlocks inst'.accessq) ↔
      (constLoad 0 68 (by decide) (by decide)).SameOffsets :=
  generate_emitsBlocks_iff (isCacheAccess_constLoad _ _)

/-- Bytes 0 to 3 of one block and 4 to 7 of the next: both accesses have bytes 0 to 7. -/
theorem not_emitsBlocks_const : ∃ inst',
    (constLoad 0 68 (by decide) (by decide)).generateMemAccesses = .ok inst' ∧
      ((inst'.accessq).map fun a => (a.addr, a.warpMask, a.byteMask)) =
        [(0, {0}, {0, 1, 2, 3, 4, 5, 6, 7}), (64, {1}, {0, 1, 2, 3, 4, 5, 6, 7})] ∧
      ¬ (constLoad 0 68 (by decide) (by decide)).EmitsBlocks inst'.accessq := by
  refine ⟨_, rfl, by decide, ?_⟩
  intro h
  obtain ⟨t, ht, i, hi, -, heq⟩ := (h.bytes _ List.mem_cons_self 4).mp (by decide)
  obtain rfl : t = 0 := by simpa using ht
  have hzero : (constLoad 0 68 (by decide) (by decide)).address 0 = 0 := rfl
  have hfour : (constLoad 0 68 (by decide) (by decide)).dataSize = 4 := rfl
  rw [hzero] at heq
  dsimp only at heq
  omega

end WarpInst

end GpgpuSimRuby.Coalescing
