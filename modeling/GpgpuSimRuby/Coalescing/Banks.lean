import GpgpuSimRuby.Coalescing.WarpInst

/-!
# Bank conflicts in shared memory

The count for a subwarp is the maximum over the banks. Without a limit on broadcasts a bank takes a
cycle for each word of it that is accessed; with the limit one word of one bank is served at once
and every other access takes a cycle of its own, so there are at least as many cycles.
-/

namespace GpgpuSimRuby.Coalescing

open Library

namespace WarpInst

variable {cfg : CoreConfig} {inst : WarpInst cfg} {t : Nat} {threads : List Nat}
variable {b : Nat × SortedMap Nat Nat}

/-! ## Banks and words -/

/-- The word that a thread accesses, and its bank. -/
def word (inst : WarpInst cfg) (t : Nat) : Nat := lineSizeBasedTagFunc (inst.memreqaddr t 0) WORD_SIZE
def bank (inst : WarpInst cfg) (t : Nat) : Nat := shmemBankFunc cfg (inst.memreqaddr t 0)

/-- The words of the threads, with the numbers of their accesses. -/
def words (inst : WarpInst cfg) (threads : List Nat) : SortedMap Nat Nat :=
  SortedMap.gather inst.word 0 (fun _ n => n + 1) threads .empty

/-- The distinct words of a bank that the threads access. -/
def distinctWords (inst : WarpInst cfg) (threads : List Nat) (b : Nat) : Nat :=
  ((threads.filter fun t => inst.bank t = b).toFinset.image inst.word).card

theorem foldl_count (l : List Nat) : l.foldl (fun n _ => n + 1) 0 = l.length := by
  induction l using List.reverseRecOn with
  | nil => rfl
  | append_singleton l t ih =>
    rw [List.foldl_append, List.foldl_cons, List.foldl_nil, ih, List.length_append]
    rfl

theorem mem_entries_words {p : Nat × Nat} : p ∈ (inst.words threads).entries ↔
    (∃ t ∈ threads, inst.word t = p.1) ∧ p.2 = (threads.filter fun t => inst.word t = p.1).length := by
  unfold words
  rw [SortedMap.mem_entries_gather, foldl_count]

theorem mem_entries_bankAccs :
    b ∈ (inst.bankAccs threads).entries ↔ (∃ t ∈ threads, inst.bank t = b.1) ∧
      b.2 = inst.words (threads.filter fun t => inst.bank t = b.1) := by
  unfold bankAccs
  rw [SortedMap.mem_entries_gather]
  rfl

theorem keys_words :
    ((inst.words threads).entries.map Prod.fst).toFinset = threads.toFinset.image inst.word := by
  ext w
  rw [List.mem_toFinset, List.mem_map, Finset.mem_image]
  constructor
  · rintro ⟨p, hp, rfl⟩
    obtain ⟨⟨t, ht, hw⟩, -⟩ := mem_entries_words.mp hp
    exact ⟨t, List.mem_toFinset.mpr ht, hw⟩
  · rintro ⟨t, ht, rfl⟩
    exact ⟨(inst.word t, (threads.filter fun t' => inst.word t' = inst.word t).length),
      mem_entries_words.mpr ⟨⟨t, List.mem_toFinset.mp ht, rfl⟩, rfl⟩, rfl⟩

theorem nodup_keys {κ α : Type} [LinearOrder κ] (m : SortedMap κ α) : (m.entries.map Prod.fst).Nodup :=
  (List.pairwise_map.mpr m.sorted).imp ne_of_lt

theorem length_words (threads : List Nat) :
    (inst.words threads).entries.length = (threads.toFinset.image inst.word).card := by
  rw [← keys_words, List.toFinset_card_of_nodup (nodup_keys _), List.length_map]

theorem sum_words (threads : List Nat) :
    ((inst.words threads).entries.map Prod.snd).sum = threads.length := by
  have hcount : (inst.words threads).entries.map Prod.snd =
      ((inst.words threads).entries.map Prod.fst).map fun w => (threads.map inst.word).count w := by
    rw [List.map_map]
    apply List.map_congr_left
    intro p hp
    rw [(mem_entries_words.mp hp).2, Function.comp_apply, List.count_eq_countP, List.countP_map,
      List.countP_eq_length_filter]
    rfl
  have hsub : ∀ w ∈ threads.map inst.word, w ∈ ((inst.words threads).entries.map Prod.fst).toFinset := by
    intro w hw
    obtain ⟨t, ht, rfl⟩ := List.mem_map.mp hw
    rw [keys_words]
    exact Finset.mem_image_of_mem _ (List.mem_toFinset.mpr ht)
  rw [hcount, ← List.sum_toFinset _ (nodup_keys _)]
  have hsum := Multiset.sum_count_eq_card (m := (threads.map inst.word : Multiset Nat)) hsub
  simpa only [Multiset.coe_count, Multiset.coe_card, List.length_map] using hsum

/-! ## Maxima -/

theorem foldl_max_le_iff {l : List Nat} {a n : Nat} : l.foldl max a ≤ n ↔ a ≤ n ∧ ∀ x ∈ l, x ≤ n := by
  induction l generalizing a with
  | nil => simp
  | cons x l ih =>
    rw [List.foldl_cons, ih, max_le_iff, List.forall_mem_cons]
    exact and_assoc

theorem le_foldl_max {l : List Nat} {a x : Nat} (hx : x ∈ l) : x ≤ l.foldl max a :=
  (foldl_max_le_iff.mp le_rfl).2 x hx

/-- The maximum over the banks of the distinct words. -/
def maxWords (inst : WarpInst cfg) (threads : List Nat) : Nat :=
  (Finset.range cfg.numShmemBank).sup (inst.distinctWords threads)

theorem distinctWords_eq_zero {b : Nat} (h : ∀ t ∈ threads, inst.bank t ≠ b) :
    inst.distinctWords threads b = 0 := by
  have hnil : (threads.filter fun t => inst.bank t = b) = [] := by
    rw [List.filter_eq_nil_iff]
    intro t ht heq
    exact h t ht (of_decide_eq_true heq)
  unfold distinctWords
  rw [hnil]
  rfl

theorem length_of_mem_bankAccs
    (hb : b ∈ (inst.bankAccs threads).entries) : b.2.entries.length = inst.distinctWords threads b.1 := by
  rw [(mem_entries_bankAccs.mp hb).2, length_words]
  rfl

theorem bank_lt (hbanks : cfg.numShmemBank ≠ 0) (t : Nat) : inst.bank t < cfg.numShmemBank :=
  Nat.mod_lt _ (Nat.pos_of_ne_zero hbanks)

/-- **Without a limit** the maximum over the entries is that over the banks. -/
theorem foldl_max_length (hbanks : cfg.numShmemBank ≠ 0) :
    ((inst.bankAccs threads).entries.map fun b => b.2.entries.length).foldl max 0 =
      inst.maxWords threads := by
  apply eq_of_forall_ge_iff
  intro n
  unfold maxWords
  rw [foldl_max_le_iff, Finset.sup_le_iff, and_iff_right (Nat.zero_le n)]
  constructor
  · intro h b _
    by_cases hb : ∃ t ∈ threads, inst.bank t = b
    · have hmem : (b, inst.words (threads.filter fun t => inst.bank t = b)) ∈
          (inst.bankAccs threads).entries := mem_entries_bankAccs.mpr ⟨hb, rfl⟩
      have hle := h _ (List.mem_map_of_mem hmem)
      dsimp only at hle
      rw [length_words] at hle
      exact hle
    · rw [distinctWords_eq_zero fun t ht heq => hb ⟨t, ht, heq⟩]
      exact Nat.zero_le n
  · intro h x hx
    obtain ⟨b, hb, rfl⟩ := List.mem_map.mp hx
    obtain ⟨⟨t, -, hbank⟩, -⟩ := mem_entries_bankAccs.mp hb
    rw [length_of_mem_bankAccs hb]
    apply h
    rw [Finset.mem_range, ← hbank]
    exact bank_lt hbanks t

/-! ## Limited broadcasts -/

theorem length_le_sum {l : List (Nat × Nat)} (hpos : ∀ p ∈ l, 1 ≤ p.2) : l.length ≤ (l.map Prod.snd).sum := by
  rw [← List.length_map (f := Prod.snd)]
  apply List.length_le_sum_of_one_le
  intro c hc
  obtain ⟨p, hp, rfl⟩ := List.mem_map.mp hc
  exact hpos p hp

theorem length_add_le_sum {l : List (Nat × Nat)} (hpos : ∀ p ∈ l, 1 ≤ p.2) {w n : Nat}
    (hmem : (w, n) ∈ l) : l.length + n ≤ (l.map Prod.snd).sum + 1 := by
  induction l with
  | nil => cases hmem
  | cons p l ih =>
    obtain ⟨hhead, htail⟩ := List.forall_mem_cons.mp hpos
    rw [List.length_cons, List.map_cons, List.sum_cons]
    rcases List.mem_cons.mp hmem with rfl | hmem
    · have hrest := length_le_sum htail
      dsimp only at hhead ⊢
      omega
    · have hrest := ih htail hmem
      omega

theorem one_le_of_mem_words {p : Nat × Nat} (hp : p ∈ (inst.words threads).entries) : 1 ≤ p.2 := by
  obtain ⟨⟨t, ht, hw⟩, hcount⟩ := mem_entries_words.mp hp
  rw [hcount]
  apply List.length_pos_of_mem (a := t)
  rw [List.mem_filter, decide_eq_true_iff]
  exact ⟨ht, hw⟩

theorem broadcastWord_some {accs : BankAccs} {b w : Nat} (h : broadcastWord accs = some (b, w)) :
    ∃ words n, (b, words) ∈ accs.entries ∧ (w, n) ∈ words.entries ∧ 1 < n := by
  unfold broadcastWord at h
  obtain ⟨l₁, ⟨b', words⟩, l₂, hl, hfound, -⟩ := List.findSome?_eq_some_iff.mp h
  obtain ⟨⟨w', n⟩, hfind, heq⟩ := Option.map_eq_some_iff.mp hfound
  obtain ⟨rfl, rfl⟩ := Prod.mk.inj heq
  have hlt := List.find?_some hfind
  refine ⟨words, n, ?_, List.mem_of_find?_eq_some hfind, of_decide_eq_true hlt⟩
  rw [hl]
  exact List.mem_append_right _ List.mem_cons_self

/-- A bank takes at least as many cycles as it has words, and at most as many as it has accesses. -/
theorem bankAccesses_ok (hb : b ∈ (inst.bankAccs threads).entries) :
    ∃ n, bankAccesses (broadcastWord (inst.bankAccs threads)) b = .ok n ∧
      inst.distinctWords threads b.1 ≤ n ∧ n ≤ threads.length := by
  have hwords := (mem_entries_bankAccs.mp hb).2
  have hpos : ∀ p ∈ b.2.entries, 1 ≤ p.2 := by
    intro p hp
    rw [hwords] at hp
    exact one_le_of_mem_words hp
  have hsum : (b.2.entries.map Prod.snd).sum ≤ threads.length := by
    rw [hwords, sum_words]
    exact List.length_filter_le _ _
  have hlength : b.2.entries.length ≤ (b.2.entries.map Prod.snd).sum := length_le_sum hpos
  rw [← length_of_mem_bankAccs hb]
  unfold bankAccesses
  dsimp only
  cases hword : broadcastWord (inst.bankAccs threads) with
  | none => exact ⟨_, rfl, hlength, hsum⟩
  | some p =>
    obtain ⟨bank, w⟩ := p
    dsimp only
    cases hfind : b.2.find? w with
    | none => exact ⟨_, rfl, hlength, hsum⟩
    | some n =>
      dsimp only
      split_ifs with hbank
      · subst hbank
        -- the words of this bank are those that the broadcast word was found among
        obtain ⟨words, n', hmem, hn', hlt⟩ := broadcastWord_some hword
        have hsame : words = b.2 := Option.some.inj
          ((SortedMap.find?_eq_some_iff.mpr hmem).symm.trans (SortedMap.find?_eq_some_iff.mpr hb))
        rw [hsame] at hn'
        obtain rfl : n' = n := Option.some.inj ((SortedMap.find?_eq_some_iff.mpr hn').symm.trans hfind)
        have hle := length_add_le_sum hpos hn'
        have hone : 1 ≤ b.2.entries.length := List.length_pos_of_mem hn'
        rw [assert_pos hlt, ok_bind, assert_pos (by omega), ok_bind]
        exact ⟨_, rfl, by omega, by omega⟩
      · exact ⟨_, rfl, hlength, hsum⟩

/-- **The count of a subwarp.** -/
theorem maxBankAccesses_ok (inst : WarpInst cfg) (threads : List Nat) (hbanks : cfg.numShmemBank ≠ 0)
    (limited : Bool) :
    ∃ n, maxBankAccesses limited (inst.bankAccs threads) = .ok n ∧ inst.maxWords threads ≤ n ∧
      n ≤ threads.length ∧ (limited = false → n = inst.maxWords threads) := by
  cases limited with
  | false =>
    refine ⟨_, rfl, (foldl_max_length hbanks).ge, ?_, fun _ => foldl_max_length hbanks⟩
    rw [foldl_max_le_iff]
    refine ⟨Nat.zero_le _, ?_⟩
    intro x hx
    obtain ⟨b, hb, rfl⟩ := List.mem_map.mp hx
    obtain ⟨n, -, hge, hle⟩ := bankAccesses_ok hb
    rw [length_of_mem_bankAccs hb]
    exact hge.trans hle
  | true =>
    obtain ⟨counts, hcounts⟩ := mapM_ok (l := (inst.bankAccs threads).entries) fun _ hb =>
      (bankAccesses_ok hb).imp fun _ hn => hn.1
    refine ⟨counts.foldl max 0, ?_, ?_, ?_, fun h => by cases h⟩
    · unfold maxBankAccesses
      rw [if_pos rfl, hcounts]
      rfl
    · rw [← foldl_max_length hbanks, foldl_max_le_iff]
      refine ⟨Nat.zero_le _, ?_⟩
      intro x hx
      obtain ⟨b, hb, rfl⟩ := List.mem_map.mp hx
      obtain ⟨n, hn, hok⟩ := exists_mem_of_mapM hcounts hb
      obtain ⟨n', hok', hge, -⟩ := bankAccesses_ok hb
      cases hok.symm.trans hok'
      rw [length_of_mem_bankAccs hb]
      exact hge.trans (le_foldl_max hn)
    · rw [foldl_max_le_iff]
      refine ⟨Nat.zero_le _, ?_⟩
      intro n hn
      obtain ⟨b, hb, hok⟩ := exists_of_mem_mapM hcounts hn
      obtain ⟨n', hok', -, hle⟩ := bankAccesses_ok hb
      cases hok.symm.trans hok'
      exact hle

/-! ## The instruction -/

def subwarpThreads (inst : WarpInst cfg) (subwarp : Nat) : List Nat :=
  inst.threads (subwarp * (cfg.warpSize / cfg.memWarpParts)) (cfg.warpSize / cfg.memWarpParts)

theorem length_subwarpThreads_le (subwarp : Nat) :
    (inst.subwarpThreads subwarp).length ≤ cfg.warpSize / cfg.memWarpParts := by
  unfold subwarpThreads threads
  exact (List.length_filter_le _ _).trans (List.length_range' ..).le

/-- The cycles without a limit on broadcasts. -/
def unrestrictedCycles (inst : WarpInst cfg) : Nat :=
  ((List.range cfg.memWarpParts).map fun subwarp => inst.maxWords (inst.subwarpThreads subwarp)).sum

/-- A subwarp that has a bank for its threads. -/
def countSubwarp (inst : WarpInst cfg) (subwarp : Nat) : Except Fault Nat := do
  assert (inst.subwarpThreads subwarp = [] ∨ cfg.numShmemBank ≠ 0) .divisionByZero
  maxBankAccesses cfg.shmemLimitedBroadcast (inst.bankAccs (inst.subwarpThreads subwarp))

theorem sharedCycles_eq_ok {n : Nat} : inst.sharedCycles = .ok n ↔ cfg.memWarpParts ≠ 0 ∧
    ∃ counts, (List.range cfg.memWarpParts).mapM inst.countSubwarp = .ok counts ∧
      (0 < counts.sum ∧ counts.sum ≤ cfg.warpSize) ∧ counts.sum = n := by
  have hcount : inst.sharedCycles = (do
      assert (cfg.memWarpParts ≠ 0) .divisionByZero
      let counts ← (List.range cfg.memWarpParts).mapM inst.countSubwarp
      assert (0 < counts.sum ∧ counts.sum ≤ cfg.warpSize) .cycles
      .ok counts.sum) := rfl
  rw [hcount, bind_eq_ok]
  constructor
  · rintro ⟨_, hparts, h⟩
    obtain ⟨counts, hcounts, h⟩ := bind_eq_ok.mp h
    obtain ⟨_, hbounds, h⟩ := bind_eq_ok.mp h
    exact ⟨assert_eq_ok.mp hparts, counts, hcounts, assert_eq_ok.mp hbounds, Except.ok.inj h⟩
  · rintro ⟨hparts, counts, hcounts, hbounds, rfl⟩
    rw [hcounts, ok_bind, assert_pos hbounds]
    exact ⟨(), assert_pos hparts, rfl⟩

theorem countSubwarp_of_nil {subwarp n : Nat} (hnil : inst.subwarpThreads subwarp = [])
    (h : inst.countSubwarp subwarp = .ok n) : n = 0 := by
  unfold countSubwarp at h
  rw [hnil, assert_pos (.inl rfl), ok_bind] at h
  cases hlimited : cfg.shmemLimitedBroadcast with
  | false =>
    rw [hlimited] at h
    exact (Except.ok.inj h).symm
  | true =>
    rw [hlimited] at h
    exact (Except.ok.inj h).symm

theorem countSubwarp_ok (inst : WarpInst cfg) (hbanks : cfg.numShmemBank ≠ 0) (subwarp : Nat) :
    ∃ n, inst.countSubwarp subwarp = .ok n ∧ inst.maxWords (inst.subwarpThreads subwarp) ≤ n ∧
      n ≤ cfg.warpSize / cfg.memWarpParts ∧
      (cfg.shmemLimitedBroadcast = false → n = inst.maxWords (inst.subwarpThreads subwarp)) := by
  obtain ⟨n, hn, hge, hle, heq⟩ := inst.maxBankAccesses_ok (inst.subwarpThreads subwarp) hbanks
    cfg.shmemLimitedBroadcast
  refine ⟨n, ?_, hge, hle.trans (length_subwarpThreads_le subwarp), heq⟩
  unfold countSubwarp
  rw [assert_pos (.inr hbanks), ok_bind]
  exact hn

theorem maxWords_pos (inst : WarpInst cfg) (hbanks : cfg.numShmemBank ≠ 0)
    (ht : t ∈ threads) : 0 < inst.maxWords threads := by
  have hle : inst.distinctWords threads (inst.bank t) ≤ inst.maxWords threads :=
    Finset.le_sup (f := inst.distinctWords threads) (Finset.mem_range.mpr (bank_lt hbanks t))
  apply Nat.lt_of_lt_of_le _ hle
  unfold distinctWords
  rw [Finset.card_pos]
  refine ⟨inst.word t, Finset.mem_image_of_mem _ ?_⟩
  rw [List.mem_toFinset, List.mem_filter, decide_eq_true_iff]
  exact ⟨ht, rfl⟩

theorem mem_subwarpThreads (ht : t ∈ inst.active)
    (hlt : t < cfg.memWarpParts * (cfg.warpSize / cfg.memWarpParts)) :
    ∃ subwarp < cfg.memWarpParts, t ∈ inst.subwarpThreads subwarp := by
  have hpos : 0 < cfg.warpSize / cfg.memWarpParts := by
    by_contra hzero
    rw [Nat.eq_zero_of_not_pos hzero, Nat.mul_zero] at hlt
    exact Nat.not_lt_zero t hlt
  refine ⟨t / (cfg.warpSize / cfg.memWarpParts), Nat.div_lt_of_lt_mul (by rwa [Nat.mul_comm] at hlt), ?_⟩
  unfold subwarpThreads threads
  rw [List.mem_filter, List.mem_range'_1, decide_eq_true_iff]
  have hdiv := Nat.div_add_mod t (cfg.warpSize / cfg.memWarpParts)
  have hmod := Nat.mod_lt t hpos
  rw [Nat.mul_comm] at hdiv
  exact ⟨⟨by omega, by omega⟩, ht⟩

/-- The cycles of a shared memory access. -/
structure CountsConflicts (inst : WarpInst cfg) (cycles : Nat) : Prop where
  pos : 1 ≤ cycles
  le : cycles ≤ cfg.warpSize
  unrestricted : cfg.shmemLimitedBroadcast = false → cycles = inst.unrestrictedCycles
  limited : inst.unrestrictedCycles ≤ cycles

theorem sharedCycles_countsConflicts (hbanks : cfg.numShmemBank ≠ 0) (ht : t ∈ inst.active)
    (hlt : t < cfg.memWarpParts * (cfg.warpSize / cfg.memWarpParts)) :
    ∃ n, inst.sharedCycles = .ok n ∧ inst.CountsConflicts n := by
  obtain ⟨counts, hcounts⟩ := mapM_ok (l := List.range cfg.memWarpParts) fun subwarp _ =>
    (inst.countSubwarp_ok hbanks subwarp).imp fun n hn => hn.1
  have hall := mapM_eq_ok.mp hcounts
  have hspec : List.Forall₂ (fun subwarp n => inst.maxWords (inst.subwarpThreads subwarp) ≤ n ∧
      (cfg.shmemLimitedBroadcast = false → inst.maxWords (inst.subwarpThreads subwarp) = n))
      (List.range cfg.memWarpParts) counts := by
    apply hall.imp
    intro subwarp n hn
    obtain ⟨n', hn', hge, -, heq⟩ := inst.countSubwarp_ok hbanks subwarp
    cases hn.symm.trans hn'
    exact ⟨hge, fun h => (heq h).symm⟩
  have hge : inst.unrestrictedCycles ≤ counts.sum :=
    List.Forall₂.sum_le_sum (List.forall₂_map_left_iff.mpr (hspec.imp fun _ _ h => h.1))
  have hle : counts.sum ≤ cfg.warpSize := by
    have hbound : counts.sum ≤ counts.length • (cfg.warpSize / cfg.memWarpParts) := by
      apply List.sum_le_card_nsmul
      intro n hn
      obtain ⟨subwarp, -, hok⟩ := exists_of_mem_mapM hcounts hn
      obtain ⟨n', hn', -, hle, -⟩ := inst.countSubwarp_ok hbanks subwarp
      cases hok.symm.trans hn'
      exact hle
    rw [← hall.length_eq, List.length_range, smul_eq_mul] at hbound
    exact hbound.trans (Nat.mul_div_le _ _)
  have hpos : 0 < counts.sum := by
    obtain ⟨subwarp, hsub, hmem⟩ := mem_subwarpThreads ht hlt
    obtain ⟨n, hn, hok⟩ := exists_mem_of_mapM hcounts (List.mem_range.mpr hsub)
    obtain ⟨n', hn', hge', -⟩ := inst.countSubwarp_ok hbanks subwarp
    cases hok.symm.trans hn'
    have hone := inst.maxWords_pos hbanks hmem
    have hsum := List.single_le_sum (fun x _ => Nat.zero_le x) n hn
    omega
  have hparts : cfg.memWarpParts ≠ 0 := by
    intro hzero
    rw [hzero, Nat.zero_mul] at hlt
    exact Nat.not_lt_zero t hlt
  refine ⟨counts.sum, sharedCycles_eq_ok.mpr ⟨hparts, counts, hcounts, ⟨hpos, hle⟩, rfl⟩, hpos, hle, ?_, hge⟩
  intro hunlimited
  have heq := List.forall₂_map_left_iff.mpr (hspec.imp fun _ _ h => h.2 hunlimited)
  rw [List.forall₂_eq_eq_eq] at heq
  exact congrArg List.sum heq.symm

/-- A shared memory access whose conflicts are to be counted. -/
structure IsSharedAccess (inst : WarpInst cfg) : Prop where
  due : inst.IsDue
  space : inst.space = .shared
  active : inst.active.Nonempty

theorem IsSharedAccess.generate (h : inst.IsSharedAccess) : inst.generateMemAccesses =
    inst.sharedCycles >>= fun cycles => .ok { inst with cycles, memAccessesCreated := true } := by
  have htype : inst.accessType = .ok none := by
    unfold accessType
    rw [h.space]
  rw [h.due.generate h.active, htype, ok_bind]

/-- **Bank conflicts** are counted as they should if and only if there are banks and a subwarp has
an active thread. -/
theorem generate_countsConflicts_iff (h : inst.IsSharedAccess) :
    (∃ inst', inst.generateMemAccesses = .ok inst' ∧ inst.CountsConflicts inst'.cycles) ↔
      cfg.numShmemBank ≠ 0 ∧
        ∃ t ∈ inst.active, t < cfg.memWarpParts * (cfg.warpSize / cfg.memWarpParts) := by
  rw [h.generate]
  constructor
  · rintro ⟨inst', hrun, -⟩
    obtain ⟨n, hn, -⟩ := bind_eq_ok.mp hrun
    obtain ⟨-, counts, hcounts, ⟨hpos, -⟩, -⟩ := sharedCycles_eq_ok.mp hn
    obtain ⟨c, hc, hne⟩ := List.exists_mem_ne_zero_of_sum_ne_zero hpos.ne'
    obtain ⟨subwarp, hsub, hok⟩ := exists_of_mem_mapM hcounts hc
    have hthreads : inst.subwarpThreads subwarp ≠ [] := fun hnil => hne (countSubwarp_of_nil hnil hok)
    obtain ⟨_, hbanks, -⟩ := bind_eq_ok.mp hok
    obtain ⟨t, ht⟩ := List.exists_mem_of_ne_nil _ hthreads
    refine ⟨(assert_eq_ok.mp hbanks).resolve_left hthreads, t, ?_⟩
    unfold subwarpThreads threads at ht
    rw [List.mem_filter, List.mem_range'_1, decide_eq_true_iff] at ht
    obtain ⟨⟨-, hlt⟩, hactive⟩ := ht
    refine ⟨hactive, Nat.lt_of_lt_of_le hlt ?_⟩
    rw [← Nat.succ_mul]
    exact Nat.mul_le_mul_right _ (List.mem_range.mp hsub)
  · rintro ⟨hbanks, t, ht, hlt⟩
    obtain ⟨n, hn, hcounts⟩ := sharedCycles_countsConflicts hbanks ht hlt
    rw [hn]
    exact ⟨_, rfl, hcounts⟩

/-! ### Examples -/

/-- A warp of four threads, two parts, sixteen banks, where words are broadcast one at a time. -/
def sharedConfig (memWarpParts : Nat) : CoreConfig :=
  ⟨4, by decide, 13, true, 16, memWarpParts, 64, 64, linesize_lt, linesize_lt⟩

/-- A load from shared memory, every thread from its own bank. -/
def sharedLoad (memWarpParts : Nat) (active : Finset Nat) (h : ∀ t ∈ active, t < 4) :
    WarpInst (sharedConfig memWarpParts) where
  isEmpty := false
  op := .load
  memoryOp := .memoryLoad
  space := .shared
  dataSize := 4
  active
  active_lt := h
  isAtomic := false
  perScalarThreadValid := true
  memreqaddr := fun t _ => if t < 4 then 4 * t else 0
  memreqaddr_lt := by
    intro t i
    split <;> omega
  memAccessesCreated := false
  cycles := 1
  accessq := []

theorem generate_countsConflicts_iff_two :
    (∃ inst', (sharedLoad 2 {0, 3} (by decide)).generateMemAccesses = .ok inst' ∧
      (sharedLoad 2 {0, 3} (by decide)).CountsConflicts inst'.cycles) ↔
      (sharedConfig 2).numShmemBank ≠ 0 ∧ ∃ t ∈ (sharedLoad 2 {0, 3} (by decide)).active,
        t < (sharedConfig 2).memWarpParts * ((sharedConfig 2).warpSize / (sharedConfig 2).memWarpParts) :=
  generate_countsConflicts_iff ⟨⟨rfl, rfl, .inl rfl, rfl⟩, rfl, by decide⟩

/-- Three parts of one thread each: the last thread is in none, and no cycle is counted for it. -/
theorem not_countsConflicts_three : (sharedLoad 3 {3} (by decide)).IsSharedAccess ∧
    (sharedLoad 3 {3} (by decide)).generateMemAccesses.map WarpInst.cycles = .error .cycles ∧
    ¬ ∃ inst', (sharedLoad 3 {3} (by decide)).generateMemAccesses = .ok inst' ∧
      (sharedLoad 3 {3} (by decide)).CountsConflicts inst'.cycles := by
  have herror : (sharedLoad 3 {3} (by decide)).generateMemAccesses.map WarpInst.cycles =
      .error .cycles := by decide
  refine ⟨⟨⟨rfl, rfl, .inl rfl, rfl⟩, rfl, by decide⟩, herror, ?_⟩
  rintro ⟨inst', hrun, -⟩
  rw [hrun] at herror
  cases herror

end WarpInst

end GpgpuSimRuby.Coalescing
