import GpgpuSimRuby.Coalescing.Segments

/-!
# Coalesced accesses

What `memory_coalescing_arch_13` sends: for each subwarp and each segment that its threads access
one access, with these threads and all of their bytes. Of the chunks it has the one that each access
begins in; so an access that ends in the next chunk can be left out when the segment is reduced.
-/

namespace GpgpuSimRuby.Coalescing

open Library
open Cache (MemAccessType)

namespace WarpInst

variable {cfg : CoreConfig} {inst : WarpInst cfg} {m m' : SortedMap Nat TransactionInfo}
  {x : Nat × Nat} {l : List (Nat × Nat)} {accessType : MemAccessType}

/-! ## The loops -/

/-- The assertions about an access. -/
def Passes (inst : WarpInst cfg) (x : Nat × Nat) : Prop :=
  lineSizeBasedTagFunc x.2 inst.segmentSize = lineSizeBasedTagFunc
    ((x.2 + inst.dataSizeCoales + (2 ^ 64 - 1)) % 2 ^ 64) inst.segmentSize ∧
  (inst.dataSizeCoales = 0 ∨ x.2 % 128 + inst.dataSizeCoales ≤ MAX_MEMORY_ACCESS_SIZE)

/-- What an access adds to its transaction. -/
def addInfo (inst : WarpInst cfg) (x : Nat × Nat) (info : TransactionInfo) : TransactionInfo where
  chunks := insert (chunk x.2) info.chunks
  bytes := info.bytes ∪ Finset.Ico (x.2 % 128) (x.2 % 128 + inst.dataSizeCoales)
  active := insert x.1 info.active

theorem addAccess_eq_ok : inst.addAccess m x = .ok m' ↔
    inst.Passes x ∧ m.alter (lineSizeBasedTagFunc x.2 inst.segmentSize) {} (inst.addInfo x) = m' := by
  unfold addAccess Passes
  rw [bind_eq_ok]
  constructor
  · rintro ⟨_, hsegment, h⟩
    obtain ⟨_, hrange, h⟩ := bind_eq_ok.mp h
    exact ⟨⟨assert_eq_ok.mp hsegment, assert_eq_ok.mp hrange⟩, Except.ok.inj h⟩
  · rintro ⟨⟨hsegment, hrange⟩, rfl⟩
    refine ⟨(), assert_pos hsegment, ?_⟩
    dsimp only
    rw [assert_pos hrange]
    rfl

/-- The accesses of a thread. -/
def accesses (inst : WarpInst cfg) (t : Nat) : List (Nat × Nat) :=
  (List.range inst.numAccesses).map fun access => (t, inst.memreqaddr t access)

theorem mem_accesses {t : Nat} : x ∈ inst.accesses t ↔
    x.1 = t ∧ ∃ k < inst.numAccesses, inst.memreqaddr t k = x.2 := by
  unfold accesses
  rw [List.mem_map]
  constructor
  · rintro ⟨k, hk, rfl⟩
    exact ⟨rfl, k, List.mem_range.mp hk, rfl⟩
  · rintro ⟨rfl, k, hk, heq⟩
    exact ⟨k, List.mem_range.mpr hk, Prod.ext rfl heq⟩

/-- The transactions of a list of accesses. -/
def transactions (inst : WarpInst cfg) (l : List (Nat × Nat)) (m : SortedMap Nat TransactionInfo) :
    SortedMap Nat TransactionInfo :=
  SortedMap.gather (fun x => lineSizeBasedTagFunc x.2 inst.segmentSize) {} inst.addInfo l m

theorem addThread_eq_ok {t : Nat} : inst.addThread m t = .ok m' ↔
    (inst.numAccesses ≤ MAX_ACCESSES_PER_INSN_PER_THREAD ∧ ∀ x ∈ inst.accesses t, inst.Passes x) ∧
      inst.transactions (inst.accesses t) m = m' := by
  have hloop : (inst.accesses t).foldlM inst.addAccess m = .ok m' ↔
      (∀ x ∈ inst.accesses t, inst.Passes x) ∧ inst.transactions (inst.accesses t) m = m' :=
    foldlM_checked fun _ _ _ => addAccess_eq_ok
  unfold addThread
  rw [bind_eq_ok, and_assoc, ← hloop]
  constructor
  · rintro ⟨_, hnum, h⟩
    exact ⟨assert_eq_ok.mp hnum, h⟩
  · rintro ⟨hnum, h⟩
    exact ⟨(), assert_pos hnum, h⟩

theorem foldlM_addThread {threads : List Nat} : threads.foldlM inst.addThread m = .ok m' ↔
    (∀ t ∈ threads, inst.numAccesses ≤ MAX_ACCESSES_PER_INSN_PER_THREAD ∧
      ∀ x ∈ inst.accesses t, inst.Passes x) ∧
        inst.transactions (threads.flatMap inst.accesses) m = m' := by
  have hflat : inst.transactions (threads.flatMap inst.accesses) m =
      threads.foldl (fun m t => inst.transactions (inst.accesses t) m) m := by
    unfold transactions SortedMap.gather
    rw [List.foldl_flatMap]
  rw [hflat]
  exact foldlM_checked fun _ _ _ => addThread_eq_ok

/-! ## Transactions -/

/-- A transaction of the accesses of a list. -/
def gathered (inst : WarpInst cfg) (l : List (Nat × Nat)) : TransactionInfo :=
  l.foldl (fun info x => inst.addInfo x info) {}

theorem gathered_append : inst.gathered (l ++ [x]) = inst.addInfo x (inst.gathered l) := by
  unfold gathered
  rw [List.foldl_append]
  rfl

theorem mem_chunks {c : Nat} : c ∈ (inst.gathered l).chunks ↔ ∃ x ∈ l, chunk x.2 = c := by
  induction l using List.reverseRecOn with
  | nil => simp [gathered]
  | append_singleton l x ih =>
    rw [gathered_append, addInfo, Finset.mem_insert, ih]
    simp only [List.mem_append, List.mem_singleton, or_and_right, exists_or, exists_eq_left]
    rw [or_comm, eq_comm]

theorem mem_bytes {j : Nat} : j ∈ (inst.gathered l).bytes ↔
    ∃ x ∈ l, x.2 % 128 ≤ j ∧ j < x.2 % 128 + inst.dataSizeCoales := by
  induction l using List.reverseRecOn with
  | nil => simp [gathered]
  | append_singleton l x ih =>
    rw [gathered_append, addInfo, Finset.mem_union, ih, Finset.mem_Ico]
    simp only [List.mem_append, List.mem_singleton, or_and_right, exists_or, exists_eq_left]

theorem mem_active {t : Nat} : t ∈ (inst.gathered l).active ↔ ∃ x ∈ l, x.1 = t := by
  induction l using List.reverseRecOn with
  | nil => simp [gathered]
  | append_singleton l x ih =>
    rw [gathered_append, addInfo, Finset.mem_insert, ih]
    simp only [List.mem_append, List.mem_singleton, or_and_right, exists_or, exists_eq_left]
    rw [or_comm, eq_comm]

/-- The accesses of a list to the segment at `b`. -/
def toSegment (inst : WarpInst cfg) (l : List (Nat × Nat)) (b : Nat) : List (Nat × Nat) :=
  l.filter fun x => lineSizeBasedTagFunc x.2 inst.segmentSize = b

theorem mem_toSegment {b : Nat} :
    x ∈ inst.toSegment l b ↔ x ∈ l ∧ lineSizeBasedTagFunc x.2 inst.segmentSize = b := by
  unfold toSegment
  rw [List.mem_filter, decide_eq_true_iff]

theorem mem_entries_transactions {p : Nat × TransactionInfo} :
    p ∈ (inst.transactions l .empty).entries ↔
      (∃ x ∈ l, lineSizeBasedTagFunc x.2 inst.segmentSize = p.1) ∧
        p.2 = inst.gathered (inst.toSegment l p.1) :=
  SortedMap.mem_entries_gather

/-! ## Subwarps -/

def subwarpSize (cfg : CoreConfig) : Nat := cfg.warpSize / cfg.memWarpParts

/-- The accesses of a subwarp. -/
def subwarpAccesses (inst : WarpInst cfg) (subwarp : Nat) : List (Nat × Nat) :=
  (inst.threads (subwarp * subwarpSize cfg) (subwarpSize cfg)).flatMap inst.accesses

theorem mem_subwarpAccesses {subwarp : Nat} : x ∈ inst.subwarpAccesses subwarp ↔
    x.1 ∈ inst.active ∧ (subwarp * subwarpSize cfg ≤ x.1 ∧ x.1 < (subwarp + 1) * subwarpSize cfg) ∧
      ∃ k < inst.numAccesses, inst.memreqaddr x.1 k = x.2 := by
  unfold subwarpAccesses
  rw [List.mem_flatMap, Nat.succ_mul]
  constructor
  · rintro ⟨t, ht, hx⟩
    obtain ⟨rfl, hk⟩ := mem_accesses.mp hx
    obtain ⟨hactive, hrange⟩ := mem_threads.mp ht
    exact ⟨hactive, hrange, hk⟩
  · rintro ⟨hactive, hrange, hk⟩
    exact ⟨x.1, mem_threads.mpr ⟨hactive, hrange⟩, mem_accesses.mpr ⟨rfl, hk⟩⟩

theorem foldlM_subwarp {subwarp : Nat} :
    (inst.threads (subwarp * subwarpSize cfg) (subwarpSize cfg)).foldlM inst.addThread m = .ok m' ↔
      (∀ t ∈ inst.threads (subwarp * subwarpSize cfg) (subwarpSize cfg),
        inst.numAccesses ≤ MAX_ACCESSES_PER_INSN_PER_THREAD ∧ ∀ x ∈ inst.accesses t, inst.Passes x) ∧
        inst.transactions (inst.subwarpAccesses subwarp) m = m' :=
  foldlM_addThread

/-- What a subwarp sends. -/
def coalesceSubwarp (inst : WarpInst cfg) (accessType : MemAccessType) (subwarp : Nat) :
    Except Fault (List MemAccess) := do
  let subwarpTransactions ←
    (inst.threads (subwarp * subwarpSize cfg) (subwarpSize cfg)).foldlM inst.addThread .empty
  subwarpTransactions.entries.mapM
    (inst.memoryCoalescingArch13ReduceAndSend accessType inst.segmentSize)

variable {q : List MemAccess}

theorem memoryCoalescingArch13_eq_ok :
    inst.memoryCoalescingArch13 accessType = .ok q ↔ cfg.memWarpParts ≠ 0 ∧
      ∃ queues, (List.range cfg.memWarpParts).mapM (inst.coalesceSubwarp accessType) = .ok queues ∧
        queues.flatten = q := by
  have heq : inst.memoryCoalescingArch13 accessType = (do
      assert (cfg.memWarpParts ≠ 0) .divisionByZero
      let queues ← (List.range cfg.memWarpParts).mapM (inst.coalesceSubwarp accessType)
      .ok queues.flatten) := rfl
  rw [heq, bind_eq_ok]
  constructor
  · rintro ⟨_, hparts, h⟩
    obtain ⟨queues, hqueues, h⟩ := bind_eq_ok.mp h
    exact ⟨assert_eq_ok.mp hparts, queues, hqueues, Except.ok.inj h⟩
  · rintro ⟨hparts, queues, hqueues, rfl⟩
    rw [hqueues, ok_bind]
    exact ⟨(), assert_pos hparts, rfl⟩

/-- What is sent for a segment. -/
def Sends (inst : WarpInst cfg) (accessType : MemAccessType) (subwarp b : Nat) (a : MemAccess) : Prop :=
  (∃ x ∈ inst.subwarpAccesses subwarp, lineSizeBasedTagFunc x.2 inst.segmentSize = b) ∧
    inst.memoryCoalescingArch13ReduceAndSend accessType inst.segmentSize
      (b, inst.gathered (inst.toSegment (inst.subwarpAccesses subwarp) b)) = .ok a

theorem mem_coalesceSubwarp {subwarp : Nat}
    (h : inst.coalesceSubwarp accessType subwarp = .ok q) {a : MemAccess} :
    a ∈ q ↔ ∃ b, inst.Sends accessType subwarp b a := by
  obtain ⟨m, hm, hq⟩ := bind_eq_ok.mp h
  obtain ⟨-, rfl⟩ := foldlM_subwarp.mp hm
  constructor
  · intro ha
    obtain ⟨p, hp, hsend⟩ := exists_of_mem_mapM hq ha
    obtain ⟨hx, hinfo⟩ := mem_entries_transactions.mp hp
    refine ⟨p.1, hx, ?_⟩
    rw [← hsend]
    exact congrArg _ (Prod.ext rfl hinfo.symm)
  · rintro ⟨b, hx, hsend⟩
    obtain ⟨a', ha', hsend'⟩ := exists_mem_of_mapM hq
      (mem_entries_transactions.mpr ⟨hx, rfl⟩ :
        (b, inst.gathered (inst.toSegment (inst.subwarpAccesses subwarp) b)) ∈ _)
    cases hsend.symm.trans hsend'
    exact ha'

theorem mem_of_memoryCoalescingArch13
    (h : inst.memoryCoalescingArch13 accessType = .ok q) (a : MemAccess) :
    a ∈ q ↔ ∃ subwarp < cfg.memWarpParts, ∃ b, inst.Sends accessType subwarp b a := by
  obtain ⟨-, queues, hqueues, rfl⟩ := memoryCoalescingArch13_eq_ok.mp h
  rw [List.mem_flatten]
  constructor
  · rintro ⟨q, hq, ha⟩
    obtain ⟨subwarp, hsub, hok⟩ := exists_of_mem_mapM hqueues hq
    exact ⟨subwarp, List.mem_range.mp hsub, (mem_coalesceSubwarp hok).mp ha⟩
  · rintro ⟨subwarp, hsub, hsend⟩
    obtain ⟨q, hq, hok⟩ := exists_mem_of_mapM hqueues (List.mem_range.mpr hsub)
    exact ⟨q, hq, (mem_coalesceSubwarp hok).mpr hsend⟩

theorem Sends.threads {subwarp b : Nat} {a : MemAccess} (h : inst.Sends accessType subwarp b a) :
    a.warpMask = (inst.gathered (inst.toSegment (inst.subwarpAccesses subwarp) b)).active ∧
      a.byteMask = (inst.gathered (inst.toSegment (inst.subwarpAccesses subwarp) b)).bytes := by
  obtain ⟨_, -, hsend⟩ := bind_eq_ok.mp h.2
  obtain ⟨_, -, hsend⟩ := bind_eq_ok.mp hsend
  obtain ⟨p, -, hsend⟩ := bind_eq_ok.mp hsend
  cases hsend
  exact ⟨rfl, rfl⟩

theorem Sends.mem_warpMask {subwarp b t : Nat} {a : MemAccess} (h : inst.Sends accessType subwarp b a) :
    t ∈ a.warpMask ↔ ∃ x ∈ inst.subwarpAccesses subwarp,
      lineSizeBasedTagFunc x.2 inst.segmentSize = b ∧ x.1 = t := by
  rw [h.threads.1, mem_active]
  simp only [mem_toSegment, and_assoc]

/-! ## The sizes of accesses -/

def Has32Bits (inst : WarpInst cfg) : Prop :=
  ∀ t ∈ inst.active, ∀ k < inst.numAccesses, inst.memreqaddr t k < 2 ^ 32

section Sizes

variable (hsize : inst.HasSegments)

include hsize

theorem dataSizeCoales_le : 0 < inst.dataSizeCoales ∧ inst.dataSizeCoales ≤ 16 := by
  unfold dataSizeCoales
  split
  · decide
  · rcases hsize with h | h | h | h | h <;> rw [h] <;> decide

theorem numAccesses_le : inst.numAccesses ≤ 4 := by
  unfold numAccesses
  split
  · rcases hsize with h | h | h | h | h <;> rw [h] <;> decide
  · decide

theorem numAccesses_eq_one (hseg : inst.segmentSize ≠ 128) : inst.numAccesses = 1 := by
  unfold numAccesses
  apply if_neg
  intro hsplit
  unfold isSplit at hsplit
  have hfour : 4 ≤ inst.dataSize := (of_decide_eq_true hsplit).2
  apply hseg
  unfold segmentSize
  rcases hsize with h | h | h | h | h
  · omega
  · omega
  all_goals
    rw [h]
    rfl

end Sizes

theorem numAccesses_pos (hpos : 0 < inst.dataSize) :
    0 < inst.numAccesses ∧ 0 < inst.dataSizeCoales := by
  unfold numAccesses dataSizeCoales
  by_cases hsplit : inst.isSplit = true
  · have hfour : 4 ≤ inst.dataSize := (of_decide_eq_true hsplit).2
    rw [if_pos hsplit, if_pos hsplit]
    exact ⟨Nat.div_pos hfour (by decide), by decide⟩
  · rw [if_neg hsplit, if_neg hsplit]
    exact ⟨by decide, hpos⟩

/-- The access lies in one segment. -/
def Fits (inst : WarpInst cfg) (x : Nat × Nat) : Prop :=
  InSegment inst.segmentSize x.2 inst.dataSizeCoales

theorem passes_iff (hsize : inst.HasSegments) (hx : x.2 < 2 ^ 32) : inst.Passes x ↔ inst.Fits x := by
  obtain ⟨hpos, hle⟩ := dataSizeCoales_le hsize
  have hlast := (hsize.segment).last_iff (hx.trans (by decide)) hpos (hle.trans (by decide))
  unfold Passes Fits
  rw [hlast]
  constructor
  · exact And.left
  · intro hin
    exact ⟨hin, .inr ((hsize.segment).range hin)⟩

theorem lt_of_mem_subwarpAccesses (h32 : inst.Has32Bits) {subwarp : Nat}
    (hx : x ∈ inst.subwarpAccesses subwarp) : x.2 < 2 ^ 32 := by
  obtain ⟨hactive, -, k, hk, heq⟩ := mem_subwarpAccesses.mp hx
  rw [← heq]
  exact h32 x.1 hactive k hk

/-! ## What is sent -/

/-- The access that is sent for the segment at `b`. -/
def IsSent (inst : WarpInst cfg) (accessType : MemAccessType) (l : List (Nat × Nat)) (b : Nat)
    (a : MemAccess) : Prop :=
  ∃ p, Reduced inst.segmentSize (inst.gathered (inst.toSegment l b)).chunks b p ∧
    a = ⟨accessType, p.1, p.2, inst.isStore, (inst.gathered (inst.toSegment l b)).active,
      (inst.gathered (inst.toSegment l b)).bytes⟩

theorem send_ok (accessType : MemAccessType) (hsize : inst.HasSegments) {b : Nat} (hx : x ∈ l)
    (hlt : x.2 < 2 ^ 32)
    (hb : lineSizeBasedTagFunc x.2 inst.segmentSize = b) :
    ∃ a, inst.memoryCoalescingArch13ReduceAndSend accessType inst.segmentSize
      (b, inst.gathered (inst.toSegment l b)) = .ok a ∧ inst.IsSent accessType l b a := by
  have hseg := hsize.segment
  rw [hseg.tag_of_lt hlt] at hb
  have hdvd : inst.segmentSize ∣ b := ⟨x.2 / inst.segmentSize, by rw [← hb, Nat.mul_comm]⟩
  have hmem : chunk x.2 ∈ (inst.gathered (inst.toSegment l b)).chunks :=
    mem_chunks.mpr ⟨x, mem_toSegment.mpr ⟨hx, by rw [hseg.tag_of_lt hlt, hb]⟩, rfl⟩
  have hplace : b ≤ x.2 ∧ x.2 < b + inst.segmentSize ∧ b + inst.segmentSize ≤ 2 ^ 32 := by
    rcases hseg with h | h | h <;> rw [h] at hb ⊢ <;> omega
  obtain ⟨p, hp, hreduced⟩ := reduce_ok hseg hdvd hmem ⟨x.2, hplace.1, hplace.2.1, rfl⟩
  have haddr : p.1 % 2 ^ 32 = p.1 := by
    apply Nat.mod_eq_of_lt
    have hupper := hreduced.upper
    rcases hreduced.segment with h | h | h <;> rw [h] at hupper <;> omega
  refine ⟨_, ?_, p, hreduced, rfl⟩
  have hcard : 1 ≤ (inst.gathered (inst.toSegment l b)).chunks.card := Finset.card_pos.mpr ⟨_, hmem⟩
  unfold memoryCoalescingArch13ReduceAndSend
  dsimp only
  rw [assert_pos (hseg.aligned hdvd), ok_bind, assert_pos hcard, ok_bind, hp, ok_bind]
  rw [haddr]

theorem addThread_error (hsize : inst.HasSegments) (h32 : inst.Has32Bits) {t : Nat}
    (ht : t ∈ inst.active)
    {e : Fault} (h : inst.addThread m t = .error e) : e = .segment := by
  rcases bind_eq_error.mp h with h | ⟨_, -, h⟩
  · exact absurd ((numAccesses_le hsize).trans (by decide)) (assert_eq_error.mp h).1
  · obtain ⟨x, hx, m', hfail⟩ := exists_of_foldlM_error h
    obtain ⟨hthread, k, hk, heq⟩ := mem_accesses.mp hx
    have hlt : x.2 < 2 ^ 32 := heq ▸ h32 t ht k hk
    have hseg := hsize.segment
    obtain ⟨hpos, hle⟩ := dataSizeCoales_le hsize
    rcases bind_eq_error.mp hfail with hfail | ⟨_, hsegment, hfail⟩
    · exact (assert_eq_error.mp hfail).2.symm
    have hfail := bind_return_eq_error.mp hfail
    have hin := (hseg.last_iff (hlt.trans (by decide)) hpos (hle.trans (by decide))).mp
      (assert_eq_ok.mp hsegment)
    exact absurd (.inr (hseg.range hin)) (assert_eq_error.mp hfail).1

theorem coalesceSubwarp_error (hsize : inst.HasSegments) (h32 : inst.Has32Bits) {subwarp : Nat}
    {e : Fault}
    (h : inst.coalesceSubwarp accessType subwarp = .error e) : e = .segment := by
  rcases bind_eq_error.mp h with h | ⟨m, hm, h⟩
  · obtain ⟨t, ht, m, h⟩ := exists_of_foldlM_error h
    exact addThread_error hsize h32 (mem_threads.mp ht).1 h
  · obtain ⟨p, hp, hfail⟩ := exists_of_mapM_error h
    obtain ⟨-, heq⟩ := foldlM_subwarp.mp hm
    rw [← heq] at hp
    obtain ⟨⟨x, hx, hb⟩, hinfo⟩ := mem_entries_transactions.mp hp
    have hlt := lt_of_mem_subwarpAccesses h32 hx
    obtain ⟨a, ha, -⟩ := send_ok accessType hsize hx hlt hb
    rw [← hinfo] at ha
    cases hfail.symm.trans ha

theorem fits_of_coalesceSubwarp (hsize : inst.HasSegments) (h32 : inst.Has32Bits) {subwarp : Nat}
    (h : inst.coalesceSubwarp accessType subwarp = .ok q)
    (hx : x ∈ inst.subwarpAccesses subwarp) : inst.Fits x := by
  obtain ⟨m, hm, -⟩ := bind_eq_ok.mp h
  obtain ⟨hall, -⟩ := foldlM_subwarp.mp hm
  obtain ⟨t, ht, hxt⟩ := List.mem_flatMap.mp hx
  exact (passes_iff hsize (lt_of_mem_subwarpAccesses h32 hx)).mp ((hall t ht).2 x hxt)

theorem memoryCoalescingArch13_cases (hsize : inst.HasSegments) (h32 : inst.Has32Bits)
    (hparts : cfg.memWarpParts ≠ 0) : (∃ q, inst.memoryCoalescingArch13 accessType = .ok q) ∨
      inst.memoryCoalescingArch13 accessType = .error .segment := by
  cases h : inst.memoryCoalescingArch13 accessType with
  | ok q => exact .inl ⟨q, rfl⟩
  | error e =>
    right
    rcases bind_eq_error.mp h with h | ⟨_, -, h⟩
    · exact absurd hparts (assert_eq_error.mp h).1
    have h := bind_return_eq_error.mp h
    obtain ⟨subwarp, -, h⟩ := exists_of_mapM_error h
    rw [coalesceSubwarp_error hsize h32 h]

/-! ## What is covered -/

/-- The accesses are right: every byte of a thread is in an access of that thread, the accesses are
segments, their byte masks have the bytes of their threads, and their threads access them. -/
structure Covers (inst : WarpInst cfg) (q : List MemAccess) : Prop where
  covered : ∀ t ∈ inst.active, ∀ k < inst.numAccesses, ∀ i < inst.dataSizeCoales, ∃ a ∈ q,
    t ∈ a.warpMask ∧ a.addr ≤ inst.memreqaddr t k + i ∧ inst.memreqaddr t k + i < a.addr + a.reqSize
  aligned : ∀ a ∈ q, IsSegmentSize a.reqSize ∧ a.reqSize ∣ a.addr
  bytes : ∀ a ∈ q, ∀ j, j ∈ a.byteMask ↔ j < 128 ∧ ∃ t ∈ a.warpMask, ∃ k < inst.numAccesses,
    ∃ i < inst.dataSizeCoales, inst.memreqaddr t k + i = a.addr / 128 * 128 + j
  touched : ∀ a ∈ q, ∀ t ∈ a.warpMask, t ∈ inst.active ∧ ∃ k < inst.numAccesses,
    ∃ i < inst.dataSizeCoales,
      a.addr ≤ inst.memreqaddr t k + i ∧ inst.memreqaddr t k + i < a.addr + a.reqSize

/-- A thread of the same subwarp begins an access to the same segment in the chunk `c`. -/
def Begins (inst : WarpInst cfg) (t addr c : Nat) : Prop :=
  ∃ t' ∈ inst.active, t' / subwarpSize cfg = t / subwarpSize cfg ∧ ∃ k < inst.numAccesses,
    inst.memreqaddr t' k / inst.segmentSize = addr / inst.segmentSize ∧ chunk (inst.memreqaddr t' k) = c

/-- The sizes have segments, the subwarps have all threads, and an access ends in a chunk that some
access begins in, unless both halves of 128 bytes are begun in. -/
structure Coalesces (inst : WarpInst cfg) : Prop where
  size : inst.HasSegments
  lanes : ∀ t ∈ inst.active, t < cfg.memWarpParts * subwarpSize cfg
  ends : ∀ t ∈ inst.active, ∀ k < inst.numAccesses,
    inst.Begins t (inst.memreqaddr t k) (chunk (inst.memreqaddr t k + inst.dataSizeCoales - 1)) ∨
      inst.segmentSize = 128 ∧
        (inst.Begins t (inst.memreqaddr t k) 0 ∨ inst.Begins t (inst.memreqaddr t k) 1) ∧
        (inst.Begins t (inst.memreqaddr t k) 2 ∨ inst.Begins t (inst.memreqaddr t k) 3)

/-! ### The segment of an access -/

theorem tag_eq_iff (hsize : inst.HasSegments) {y z : Nat} (hy : y < 2 ^ 32) (hz : z < 2 ^ 32) :
    lineSizeBasedTagFunc y inst.segmentSize = lineSizeBasedTagFunc z inst.segmentSize ↔
      y / inst.segmentSize = z / inst.segmentSize := by
  have hseg := hsize.segment
  rw [hseg.tag_of_lt hy, hseg.tag_of_lt hz]
  rcases hseg with h | h | h <;> rw [h] <;> omega

theorem mem_subwarp_iff {subwarp t : Nat} (hpos : 0 < subwarpSize cfg) :
    subwarp * subwarpSize cfg ≤ t ∧ t < (subwarp + 1) * subwarpSize cfg ↔
      t / subwarpSize cfg = subwarp := by
  rw [Nat.div_eq_iff hpos]
  constructor
  · rintro ⟨hge, hlt⟩
    rw [Nat.succ_mul] at hlt
    exact ⟨hge, by omega⟩
  · rintro ⟨hge, hle⟩
    rw [Nat.succ_mul]
    exact ⟨hge, by omega⟩

theorem bytes_in_segment (hsize : inst.HasSegments) {b : Nat} (hfits : inst.Fits x) (hx : x.2 < 2 ^ 32)
    (hb : lineSizeBasedTagFunc x.2 inst.segmentSize = b) {i : Nat} (hi : i < inst.dataSizeCoales) :
    b ≤ x.2 + i ∧ x.2 + i < b + inst.segmentSize := by
  have hseg := hsize.segment
  rw [hseg.tag_of_lt hx] at hb
  unfold Fits InSegment at hfits
  rcases hseg with h | h | h <;> rw [h] at hb hfits ⊢ <;> omega

section Segment

variable (hsize : inst.HasSegments) (h32 : inst.Has32Bits) {t k subwarp b : Nat} {a : MemAccess}

include hsize h32

theorem mem_chunks_iff_begins (ht : t ∈ inst.active) (hk : k < inst.numAccesses)
    (hpos : 0 < subwarpSize cfg)
    (hb : lineSizeBasedTagFunc (inst.memreqaddr t k) inst.segmentSize = b) {c : Nat} :
    c ∈ (inst.gathered (inst.toSegment (inst.subwarpAccesses (t / subwarpSize cfg)) b)).chunks ↔
      inst.Begins t (inst.memreqaddr t k) c := by
  rw [mem_chunks]
  constructor
  · rintro ⟨x, hx, hchunk⟩
    obtain ⟨hx, htag⟩ := mem_toSegment.mp hx
    have hlt := lt_of_mem_subwarpAccesses h32 hx
    obtain ⟨hactive, hrange, k', hk', heq⟩ := mem_subwarpAccesses.mp hx
    refine ⟨x.1, hactive, (mem_subwarp_iff hpos).mp hrange, k', hk', ?_, ?_⟩
    · rw [heq]
      exact (tag_eq_iff hsize hlt (h32 t ht k hk)).mp (htag.trans hb.symm)
    · rw [heq]
      exact hchunk
  · rintro ⟨t', ht', hsub, k', hk', hseg, hchunk⟩
    refine ⟨(t', inst.memreqaddr t' k'), mem_toSegment.mpr ⟨mem_subwarpAccesses.mpr
      ⟨ht', (mem_subwarp_iff hpos).mpr hsub, k', hk', rfl⟩, ?_⟩, hchunk⟩
    rw [← hb]
    exact (tag_eq_iff hsize (h32 t' ht' k' hk') (h32 t ht k hk)).mpr hseg

theorem left_iff_begins (ht : t ∈ inst.active) (hk : k < inst.numAccesses) (hpos : 0 < subwarpSize cfg)
    (hb : lineSizeBasedTagFunc (inst.memreqaddr t k) inst.segmentSize = b) {c : Nat} :
    Left inst.segmentSize
        (inst.gathered (inst.toSegment (inst.subwarpAccesses (t / subwarpSize cfg)) b)).chunks c ↔
      inst.Begins t (inst.memreqaddr t k) c ∨ inst.segmentSize = 128 ∧
        (inst.Begins t (inst.memreqaddr t k) 0 ∨ inst.Begins t (inst.memreqaddr t k) 1) ∧
        (inst.Begins t (inst.memreqaddr t k) 2 ∨ inst.Begins t (inst.memreqaddr t k) 3) := by
  unfold Left
  simp only [mem_chunks_iff_begins hsize h32 ht hk hpos hb]

theorem Sends.isSent (h : inst.Sends accessType subwarp b a) :
    inst.IsSent accessType (inst.subwarpAccesses subwarp) b a := by
  obtain ⟨⟨x, hx, hb⟩, hsend⟩ := h
  obtain ⟨a', ha', hsent⟩ := send_ok accessType hsize hx (lt_of_mem_subwarpAccesses h32 hx) hb
  cases hsend.symm.trans ha'
  exact hsent

theorem IsSent.first_byte (hsent : inst.IsSent accessType (inst.subwarpAccesses subwarp) b a)
    (hx : x ∈ inst.subwarpAccesses subwarp) (hfits : inst.Fits x)
    (hb : lineSizeBasedTagFunc x.2 inst.segmentSize = b) :
    a.addr ≤ x.2 ∧ x.2 < a.addr + a.reqSize ∧ a.addr / 128 = x.2 / 128 := by
  obtain ⟨p, hreduced, rfl⟩ := hsent
  have hlt := lt_of_mem_subwarpAccesses h32 hx
  obtain ⟨hge, hlt'⟩ := bytes_in_segment hsize hfits hlt hb (dataSizeCoales_le hsize).1
  have hin := (hreduced.left x.2 hge hlt').mpr
    (.inl (mem_chunks.mpr ⟨x, mem_toSegment.mpr ⟨hx, hb⟩, rfl⟩))
  refine ⟨hin.1, hin.2, ?_⟩
  have haligned := hreduced.aligned
  dsimp only
  rcases hreduced.segment with h | h | h <;> rw [h] at hin haligned <;> omega

theorem Sends.bytes (h : inst.Sends accessType subwarp b a)
    (hfits : ∀ x ∈ inst.subwarpAccesses subwarp, inst.Fits x) (j : Nat) :
    j ∈ a.byteMask ↔ j < 128 ∧ ∃ t ∈ a.warpMask, ∃ k < inst.numAccesses,
      ∃ i < inst.dataSizeCoales, inst.memreqaddr t k + i = a.addr / 128 * 128 + j := by
  have hseg := hsize.segment
  have hsent := h.isSent hsize h32
  rw [h.threads.2, mem_bytes]
  constructor
  · rintro ⟨x, hx, hge, hlt⟩
    obtain ⟨hx, hb⟩ := mem_toSegment.mp hx
    obtain ⟨-, -, hbase⟩ := hsent.first_byte hsize h32 hx (hfits x hx) hb
    have hrange := hseg.range (hfits x hx)
    obtain ⟨-, -, k, hk, heq⟩ := mem_subwarpAccesses.mp hx
    unfold MAX_MEMORY_ACCESS_SIZE at hrange
    refine ⟨by omega, x.1, h.mem_warpMask.mpr ⟨x, hx, hb, rfl⟩, k, hk, j - x.2 % 128, by omega, ?_⟩
    rw [heq, hbase]
    omega
  · rintro ⟨hj, t, ht, k, hk, i, hi, heq⟩
    obtain ⟨x, hx, hb, rfl⟩ := h.mem_warpMask.mp ht
    obtain ⟨-, -, hbase⟩ := hsent.first_byte hsize h32 hx (hfits x hx) hb
    obtain ⟨hactive, hrange, k', hk', hx'⟩ := mem_subwarpAccesses.mp hx
    have hy : (x.1, inst.memreqaddr x.1 k) ∈ inst.subwarpAccesses subwarp :=
      mem_subwarpAccesses.mpr ⟨hactive, hrange, k, hk, rfl⟩
    have hlt := h32 x.1 hactive k hk
    -- the other accesses of the thread are in the segment, too, if they are in its 128 bytes
    have htag : lineSizeBasedTagFunc (inst.memreqaddr x.1 k) inst.segmentSize = b := by
      by_cases h128 : inst.segmentSize = 128
      · have hxlt := lt_of_mem_subwarpAccesses h32 hx
        rw [← hb]
        apply (tag_eq_iff hsize hlt hxlt).mpr
        obtain ⟨hge, hlt'⟩ := bytes_in_segment hsize (hfits _ hy) hlt rfl hi
        rw [hseg.tag_of_lt hlt, h128] at hge hlt'
        rw [h128]
        dsimp only at hge hlt'
        omega
      · have hone := numAccesses_eq_one hsize h128
        have hkk : k = k' := by omega
        rw [hkk, hx']
        exact hb
    obtain ⟨hge, hlt'⟩ := bytes_in_segment hsize (hfits _ hy) hlt htag hi
    refine ⟨_, mem_toSegment.mpr ⟨hy, htag⟩, ?_⟩
    obtain ⟨-, -, hbase'⟩ := hsent.first_byte hsize h32 hy (hfits _ hy) htag
    have hrange' := hseg.range (hfits _ hy)
    unfold MAX_MEMORY_ACCESS_SIZE at hrange'
    dsimp only at hbase' hrange' ⊢
    omega

end Segment

/-! ### The condition is enough -/

theorem fits_of_run (hsize : inst.HasSegments) (h32 : inst.Has32Bits)
    (hrun : inst.memoryCoalescingArch13 accessType = .ok q) {subwarp : Nat}
    (hsub : subwarp < cfg.memWarpParts)
    (hx : x ∈ inst.subwarpAccesses subwarp) : inst.Fits x := by
  obtain ⟨-, queues, hqueues, -⟩ := memoryCoalescingArch13_eq_ok.mp hrun
  obtain ⟨q', -, hok⟩ := exists_mem_of_mapM hqueues (List.mem_range.mpr hsub)
  exact fits_of_coalesceSubwarp hsize h32 hok hx

theorem chunk_cases {addr n i : Nat} (hn : n ≤ 16) (hi : i < n) (hrange : addr % 128 + n ≤ 128) :
    chunk (addr + i) = chunk addr ∨ chunk (addr + i) = chunk (addr + n - 1) := by
  unfold chunk
  omega

theorem Coalesces.covers (h : inst.Coalesces) (h32 : inst.Has32Bits)
    (hrun : inst.memoryCoalescingArch13 accessType = .ok q) : inst.Covers q := by
  have hsize := h.size
  have hfits {subwarp : Nat} (hsub : subwarp < cfg.memWarpParts) :
      ∀ x ∈ inst.subwarpAccesses subwarp, inst.Fits x := fun x hx => fits_of_run hsize h32 hrun hsub hx
  have hmem := mem_of_memoryCoalescingArch13 hrun
  constructor
  case covered =>
    intro t ht k hk i hi
    have hlt := h.lanes t ht
    have hpos : 0 < subwarpSize cfg := Nat.pos_of_lt_mul_left hlt
    have hsub : t / subwarpSize cfg < cfg.memWarpParts :=
      Nat.div_lt_of_lt_mul (by rwa [Nat.mul_comm] at hlt)
    have hx : (t, inst.memreqaddr t k) ∈ inst.subwarpAccesses (t / subwarpSize cfg) :=
      mem_subwarpAccesses.mpr ⟨ht, (mem_subwarp_iff hpos).mpr rfl, k, hk, rfl⟩
    obtain ⟨a, ha, hsent⟩ := send_ok accessType hsize hx (h32 t ht k hk) rfl
    have hsends : inst.Sends accessType (t / subwarpSize cfg) _ a := ⟨⟨_, hx, rfl⟩, ha⟩
    refine ⟨a, (hmem _).mpr ⟨_, hsub, _, hsends⟩, hsends.mem_warpMask.mpr ⟨_, hx, rfl, rfl⟩, ?_⟩
    obtain ⟨p, hreduced, rfl⟩ := hsent
    obtain ⟨hge, hlt'⟩ := bytes_in_segment hsize (hfits hsub _ hx) (h32 t ht k hk) rfl hi
    apply (hreduced.left _ hge hlt').mpr
    apply (left_iff_begins hsize h32 ht hk hpos rfl).mpr
    rcases chunk_cases (dataSizeCoales_le hsize).2 hi ((hsize.segment).range (hfits hsub _ hx)) with
      heq | heq
    · exact .inl ⟨t, ht, rfl, k, hk, rfl, heq.symm⟩
    · dsimp only at heq ⊢
      rw [heq]
      exact h.ends t ht k hk
  case aligned =>
    intro a ha
    obtain ⟨subwarp, -, b, hsends⟩ := (hmem _).mp ha
    obtain ⟨p, hreduced, rfl⟩ := hsends.isSent hsize h32
    exact ⟨hreduced.segment, hreduced.aligned⟩
  case bytes =>
    intro a ha j
    obtain ⟨subwarp, hsub, b, hsends⟩ := (hmem _).mp ha
    exact hsends.bytes hsize h32 (hfits hsub) j
  case touched =>
    intro a ha t ht
    obtain ⟨subwarp, hsub, b, hsends⟩ := (hmem _).mp ha
    obtain ⟨x, hx, hb, rfl⟩ := hsends.mem_warpMask.mp ht
    obtain ⟨hactive, -, k, hk, heq⟩ := mem_subwarpAccesses.mp hx
    obtain ⟨hge, hlt, -⟩ := (hsends.isSent hsize h32).first_byte hsize h32 hx (hfits hsub x hx) hb
    refine ⟨hactive, k, hk, 0, (dataSizeCoales_le hsize).1, ?_⟩
    rw [heq]
    exact ⟨hge, hlt⟩

/-! ### The condition is needed -/

theorem reqSize_of_not_hasSegments (hsize : ¬ inst.HasSegments) {subwarp b : Nat} {a : MemAccess}
    (h : inst.Sends accessType subwarp b a) : a.reqSize = 0 := by
  have hzero : inst.segmentSize = 0 := by
    unfold HasSegments at hsize
    unfold segmentSize
    split
    all_goals first | rfl | omega
  obtain ⟨_, -, hsend⟩ := bind_eq_ok.mp h.2
  obtain ⟨_, -, hsend⟩ := bind_eq_ok.mp hsend
  obtain ⟨p, hp, hsend⟩ := bind_eq_ok.mp hsend
  cases hsend
  rw [hzero] at hp
  cases hp
  rfl

theorem Covers.coalesces (hpos : 0 < inst.dataSize) (hactive : inst.active.Nonempty)
    (h32 : inst.Has32Bits)
    (hrun : inst.memoryCoalescingArch13 accessType = .ok q) (h : inst.Covers q) :
    inst.Coalesces := by
  have hmem := mem_of_memoryCoalescingArch13 hrun
  obtain ⟨hnum, hbytes⟩ := numAccesses_pos hpos
  have hsize : inst.HasSegments := by
    by_contra hnot
    obtain ⟨t, ht⟩ := hactive
    obtain ⟨a, ha, -⟩ := h.covered t ht 0 hnum 0 hbytes
    obtain ⟨subwarp, -, b, hsends⟩ := (hmem _).mp ha
    have hzero := reqSize_of_not_hasSegments hnot hsends
    rcases (h.aligned a ha).1 with heq | heq | heq <;> omega
  -- a thread that is in a mask is in a subwarp
  have hlane {t : Nat} {a : MemAccess} (ha : a ∈ q) (ht : t ∈ a.warpMask) :
      ∃ subwarp < cfg.memWarpParts, ∃ b, inst.Sends accessType subwarp b a ∧
        subwarp * subwarpSize cfg ≤ t ∧ t < (subwarp + 1) * subwarpSize cfg := by
    obtain ⟨subwarp, hsub, b, hsends⟩ := (hmem _).mp ha
    obtain ⟨x, hx, -, rfl⟩ := hsends.mem_warpMask.mp ht
    exact ⟨subwarp, hsub, b, hsends, (mem_subwarpAccesses.mp hx).2.1⟩
  refine ⟨hsize, ?_, ?_⟩
  · intro t ht
    obtain ⟨a, ha, hta, -⟩ := h.covered t ht 0 hnum 0 hbytes
    obtain ⟨subwarp, hsub, -, -, -, hlt⟩ := hlane ha hta
    exact Nat.lt_of_lt_of_le hlt (Nat.mul_le_mul_right _ hsub)
  · intro t ht k hk
    obtain ⟨hn, hle⟩ := dataSizeCoales_le hsize
    obtain ⟨a, ha, hta, hge, hlt⟩ := h.covered t ht k hk (inst.dataSizeCoales - 1) (by omega)
    obtain ⟨subwarp, hsub, b, hsends, hrange⟩ := hlane ha hta
    have hsubpos : 0 < subwarpSize cfg := Nat.pos_of_lt_mul_left hrange.2
    obtain rfl := (mem_subwarp_iff hsubpos).mp hrange
    have hx : (t, inst.memreqaddr t k) ∈ inst.subwarpAccesses (t / subwarpSize cfg) :=
      mem_subwarpAccesses.mpr ⟨ht, hrange, k, hk, rfl⟩
    have hlast := bytes_in_segment hsize (fits_of_run hsize h32 hrun hsub hx) (h32 t ht k hk) rfl
      (show inst.dataSizeCoales - 1 < inst.dataSizeCoales by omega)
    obtain ⟨⟨y, hy, hyb⟩, -⟩ := id hsends
    obtain ⟨p, hreduced, rfl⟩ := hsends.isSent hsize h32
    -- the last byte is in the segment of the access, so this is the segment that was sent
    have hseg := hsize.segment
    have hb : lineSizeBasedTagFunc (inst.memreqaddr t k) inst.segmentSize = b := by
      rw [hseg.tag_of_lt (h32 t ht k hk)] at hlast ⊢
      rw [hseg.tag_of_lt (lt_of_mem_subwarpAccesses h32 hy)] at hyb
      have hlower := hreduced.lower
      have hupper := hreduced.upper
      dsimp only at hge hlt hlast
      rcases hseg with hs | hs | hs <;> rw [hs] at hlast hyb hupper ⊢ <;> omega
    rw [hb] at hlast
    have hleft := (hreduced.left _ hlast.1 hlast.2).mp ⟨hge, hlt⟩
    have hbegins := (left_iff_begins hsize h32 ht hk hsubpos hb).mp hleft
    rwa [← Nat.add_sub_assoc hn] at hbegins

/-- **Coalescing** covers exactly what is accessed if and only if the condition holds. -/
theorem memoryCoalescingArch13_covers_iff (hpos : 0 < inst.dataSize) (hactive : inst.active.Nonempty)
    (h32 : inst.Has32Bits) (hsegment : inst.memoryCoalescingArch13 accessType ≠ .error .segment) :
    (∃ q, inst.memoryCoalescingArch13 accessType = .ok q ∧ inst.Covers q) ↔ inst.Coalesces := by
  constructor
  · rintro ⟨q, hrun, hcovers⟩
    exact hcovers.coalesces hpos hactive h32 hrun
  · intro h
    have hparts : cfg.memWarpParts ≠ 0 := by
      intro hzero
      obtain ⟨t, ht⟩ := hactive
      have hlt := h.lanes t ht
      rw [hzero, Nat.zero_mul] at hlt
      exact Nat.not_lt_zero t hlt
    rcases memoryCoalescingArch13_cases h.size h32 hparts with ⟨q, hrun⟩ | herror
    · exact ⟨q, hrun, h.covers h32 hrun⟩
    · exact absurd herror hsegment

/-! ### Examples -/

/-- A load of 4 bytes at `addr` by the one thread of a warp. -/
def globalLoad (addr : Nat) (h : addr < 2 ^ 64) :
    WarpInst ⟨1, by decide, 13, false, 16, 1, 64, 64, linesize_lt, linesize_lt⟩ where
  isEmpty := false
  op := .load
  memoryOp := .memoryLoad
  space := .global
  dataSize := 4
  active := {0}
  active_lt := by decide
  isAtomic := false
  perScalarThreadValid := true
  memreqaddr := fun _ _ => addr
  memreqaddr_lt := fun _ _ => h
  memAccessesCreated := false
  cycles := 1
  accessq := []

theorem memoryCoalescingArch13_covers_iff_load :
    (∃ q, (globalLoad 32 (by decide)).memoryCoalescingArch13 .globalAccR = .ok q ∧
      (globalLoad 32 (by decide)).Covers q) ↔ (globalLoad 32 (by decide)).Coalesces := by
  apply memoryCoalescingArch13_covers_iff
  · decide
  · exact ⟨0, by decide⟩
  · intro t ht k hk
    exact (by decide : 32 < 2 ^ 32)
  · decide

/-- Bytes 30 to 33: only the 32 bytes from 0 on are asked for. -/
theorem not_covers_misaligned : ∃ q,
    (globalLoad 30 (by decide)).memoryCoalescingArch13 .globalAccR = .ok q ∧
      q.map (fun a => (a.addr, a.reqSize, a.warpMask, a.byteMask)) =
        [(0, 32, {0}, {30, 31, 32, 33})] ∧
      ¬ (globalLoad 30 (by decide)).Covers q := by
  refine ⟨_, rfl, by decide, ?_⟩
  intro h
  obtain ⟨a, ha, -, -, hlt⟩ := h.covered 0 (by decide) 0 (by decide) 3 (by decide)
  obtain rfl := List.mem_singleton.mp ha
  exact absurd hlt (by decide)

end WarpInst

end GpgpuSimRuby.Coalescing
