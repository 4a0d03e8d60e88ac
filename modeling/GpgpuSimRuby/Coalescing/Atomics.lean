import GpgpuSimRuby.Coalescing.Segments

/-!
# Atomics

`memory_coalescing_arch_13_atomic`. A thread goes to the first transaction of its segment with which
it has no byte in common. So every transaction before its own has one of its bytes, and the threads
that access the same bytes are in transactions one after the other, in the order of the lanes.
-/

namespace GpgpuSimRuby.Coalescing

open Library
open Cache (MemAccessType)

namespace WarpInst

variable {cfg : CoreConfig} {inst : WarpInst cfg} {l l' : List TransactionInfo} {t n : Nat}
  {idx : Nat → Nat}

/-! ## First fit -/

/-- The bytes of a thread, of the 128. -/
def span (idx : Nat → Nat) (n t : Nat) : Finset Nat := Finset.Ico (idx t) (idx t + n)

/-- The thread goes to `info`: the transactions before it have a byte of the thread, and `info` has
none. A transaction that is new comes last. -/
structure FirstFit (idx : Nat → Nat) (n t : Nat) (l : List TransactionInfo) (l₁ : List TransactionInfo)
    (info : TransactionInfo) (l₂ : List TransactionInfo) : Prop where
  place : l = l₁ ++ info :: l₂ ∨ l = l₁ ∧ info = {} ∧ l₂ = []
  before : ∀ i ∈ l₁, ¬ Disjoint i.bytes (span idx n t)
  free : Disjoint info.bytes (span idx n t)

/-- The transaction with the thread in it. -/
def withThread (idx : Nat → Nat) (n t : Nat) (info : TransactionInfo) : TransactionInfo where
  chunks := insert (idx t / 32) info.chunks
  bytes := info.bytes ∪ span idx n t
  active := insert t info.active

variable {info : TransactionInfo}

theorem addThread_ok (hrange : idx t + n ≤ MAX_MEMORY_ACCESS_SIZE)
    (h : Disjoint info.bytes (span idx n t)) :
    info.addThread t (idx t) n = .ok (withThread idx n t info) := by
  unfold TransactionInfo.addThread
  rw [assert_pos (show Disjoint info.bytes (Finset.Ico (idx t) (idx t + n)) from h), ok_bind,
    setBytes_eq_ok.mpr ⟨.inr hrange, rfl⟩]
  rfl

theorem testBytes_eq (info : TransactionInfo) (hn : 0 < n)
    (hrange : idx t + n ≤ MAX_MEMORY_ACCESS_SIZE) :
    info.testBytes (idx t) ((idx t + n + (2 ^ 32 - 1)) % 2 ^ 32) =
      .ok (decide (¬ Disjoint info.bytes (span idx n t))) := by
  have hlast : (idx t + n + (2 ^ 32 - 1)) % 2 ^ 32 = idx t + n - 1 := by
    unfold MAX_MEMORY_ACCESS_SIZE at hrange
    omega
  have hiff : (∃ i ∈ info.bytes, idx t ≤ i ∧ i ≤ idx t + n - 1) ↔
      ¬ Disjoint info.bytes (span idx n t) := by
    rw [Finset.not_disjoint_iff]
    apply exists_congr
    intro i
    unfold span
    rw [Finset.mem_Ico]
    constructor
    · rintro ⟨hi, hge, hle⟩
      exact ⟨hi, hge, by omega⟩
    · rintro ⟨hi, hge, hlt⟩
      exact ⟨hi, hge, by omega⟩
  unfold TransactionInfo.testBytes
  rw [hlast]
  by_cases h : ¬ Disjoint info.bytes (span idx n t)
  · rw [if_pos (hiff.mpr h), decide_eq_true h]
  · rw [if_neg fun hex => h (hiff.mp hex), assert_pos (.inr (by omega)), ok_bind, decide_eq_false h]

/-- **The search** ends at the first transaction that fits. -/
theorem addToFirst_ok (idx : Nat → Nat) (t : Nat) (l : List TransactionInfo) (hn : 0 < n)
    (hrange : idx t + n ≤ MAX_MEMORY_ACCESS_SIZE) :
    ∃ l₁ info l₂, addToFirst t (idx t) n l = .ok (l₁ ++ withThread idx n t info :: l₂) ∧
      FirstFit idx n t l l₁ info l₂ := by
  induction l with
  | nil =>
    have hfree : Disjoint ({} : TransactionInfo).bytes (span idx n t) := Finset.disjoint_empty_left _
    refine ⟨[], {}, [], ?_, .inr ⟨rfl, rfl, rfl⟩, fun i hi => absurd hi List.not_mem_nil, hfree⟩
    unfold addToFirst
    rw [addThread_ok hrange hfree]
    rfl
  | cons i l ih =>
    unfold addToFirst
    rw [testBytes_eq i hn hrange, ok_bind]
    by_cases hconflict : ¬ Disjoint i.bytes (span idx n t)
    · obtain ⟨l₁, info, l₂, hrest, hfit⟩ := ih
      rw [decide_eq_true hconflict, if_pos rfl, hrest]
      refine ⟨i :: l₁, info, l₂, rfl, ?_, List.forall_mem_cons.mpr ⟨hconflict, hfit.before⟩, hfit.free⟩
      rcases hfit.place with rfl | ⟨rfl, hinfo, hl₂⟩
      · exact .inl rfl
      · exact .inr ⟨rfl, hinfo, hl₂⟩
    · have hfree := not_not.mp hconflict
      rw [decide_eq_false hconflict, if_neg (by decide), addThread_ok hrange hfree]
      exact ⟨[], i, l, rfl, .inl rfl, fun _ hi => absurd hi List.not_mem_nil, hfree⟩

/-! ## The transactions of a segment -/

/-- A transaction has the bytes of its threads, which have none in common. -/
structure Sound (idx : Nat → Nat) (n : Nat) (info : TransactionInfo) : Prop where
  bytes : ∀ j, j ∈ info.bytes ↔ ∃ t ∈ info.active, j ∈ span idx n t
  chunks : ∀ t ∈ info.active, idx t / 32 ∈ info.chunks
  separate : ∀ t ∈ info.active, ∀ t' ∈ info.active, t ≠ t' → Disjoint (span idx n t) (span idx n t')

/-- A transaction and a later one: they have different threads, in the order of the lanes where
these access the same bytes, and the threads of the later one did not fit into the earlier one. -/
structure Before (idx : Nat → Nat) (n : Nat) (a b : TransactionInfo) : Prop where
  ne : ∀ t ∈ a.active, ∀ t' ∈ b.active, t ≠ t'
  order : ∀ t ∈ a.active, ∀ t' ∈ b.active, idx t = idx t' → t < t'
  first : ∀ t' ∈ b.active, ¬ Disjoint a.bytes (span idx n t')

/-- The transactions of the threads `ds` of a segment. -/
structure Transactions (idx : Nat → Nat) (n : Nat) (ds : List Nat) (l : List TransactionInfo) :
    Prop where
  nonempty : ∀ info ∈ l, info.active.Nonempty
  sound : ∀ info ∈ l, Sound idx n info
  before : l.Pairwise (Before idx n)
  threads : ∀ t, (∃ info ∈ l, t ∈ info.active) ↔ t ∈ ds

theorem transactions_nil : Transactions idx n [] [] where
  nonempty _ h := absurd h List.not_mem_nil
  sound _ h := absurd h List.not_mem_nil
  before := .nil
  threads t := by simp

theorem Sound.withThread (h : Sound idx n info) (ht : t ∉ info.active)
    (hfree : Disjoint info.bytes (span idx n t)) : Sound idx n (WarpInst.withThread idx n t info) := by
  have hnew : ∀ t' ∈ info.active, Disjoint (span idx n t') (span idx n t) := by
    intro t' ht'
    apply Finset.disjoint_of_subset_left _ hfree
    intro j hj
    exact (h.bytes j).mpr ⟨t', ht', hj⟩
  constructor
  · intro j
    unfold WarpInst.withThread
    dsimp only
    rw [Finset.mem_union, h.bytes]
    simp only [Finset.mem_insert, or_and_right, exists_or, exists_eq_left]
    exact or_comm
  · intro t' ht'
    rcases Finset.mem_insert.mp ht' with rfl | ht'
    · exact Finset.mem_insert_self _ _
    · exact Finset.mem_insert_of_mem (h.chunks t' ht')
  · intro t₁ h₁ t₂ h₂ hne
    rcases Finset.mem_insert.mp h₁ with heq₁ | hmem₁ <;>
      rcases Finset.mem_insert.mp h₂ with heq₂ | hmem₂
    · exact absurd (heq₁.trans heq₂.symm) hne
    · rw [heq₁]
      exact (hnew t₂ hmem₂).symm
    · rw [heq₂]
      exact hnew t₁ hmem₁
    · exact h.separate t₁ hmem₁ t₂ hmem₂ hne

variable {ds : List Nat}

/-- **A step**: one more thread, which comes after all of the others. -/
theorem Transactions.firstFit (h : Transactions idx n ds l) (hlt : ∀ d ∈ ds, d < t)
    {l₁ l₂ : List TransactionInfo} (hfit : FirstFit idx n t l l₁ info l₂) :
    Transactions idx n (ds ++ [t]) (l₁ ++ withThread idx n t info :: l₂) := by
  have hold : ∀ i ∈ l, ∀ t' ∈ i.active, t' < t :=
    fun i hi t' ht' => hlt t' ((h.threads t').mp ⟨i, hi, ht'⟩)
  -- what is known of the transaction that the thread goes to, be it new or not
  obtain ⟨hsound, hsub, hbefore, hlinfo⟩ : Sound idx n info ∧ (∀ i ∈ l₁ ++ l₂, i ∈ l) ∧
      ((l₁ ++ info :: l₂).Pairwise (Before idx n)) ∧ (∀ t' ∈ info.active, t' < t) := by
    rcases hfit.place with rfl | ⟨rfl, rfl, rfl⟩
    · refine ⟨h.sound _ (by simp), ?_, h.before, hold _ (by simp)⟩
      intro i hi
      rcases List.mem_append.mp hi with hi | hi
      · exact List.mem_append_left _ hi
      · exact List.mem_append_right _ (List.mem_cons_of_mem _ hi)
    · refine ⟨⟨by simp, by simp, by simp⟩, by simp, ?_, by simp⟩
      rw [List.pairwise_append]
      refine ⟨h.before, List.pairwise_singleton _ _, ?_⟩
      intro a _ b hb
      obtain rfl := List.mem_singleton.mp hb
      exact ⟨by simp, by simp, by simp⟩
  have hthreads :
      ∀ t', (∃ i ∈ l, t' ∈ i.active) ↔ (∃ i ∈ l₁ ++ l₂, t' ∈ i.active) ∨ t' ∈ info.active := by
    intro t'
    rcases hfit.place with rfl | ⟨rfl, rfl, rfl⟩
    · simp only [List.mem_append, List.mem_cons, or_and_right, exists_or, exists_eq_left]
      grind
    · simp
  obtain ⟨hl₁, hcons, hcross⟩ := List.pairwise_append.mp hbefore
  obtain ⟨hinfo, hl₂⟩ := List.pairwise_cons.mp hcons
  constructor
  · intro i hi
    rcases List.mem_append.mp hi with hi | hi
    · exact h.nonempty i (hsub i (List.mem_append_left _ hi))
    rcases List.mem_cons.mp hi with rfl | hi
    · exact ⟨t, Finset.mem_insert_self _ _⟩
    · exact h.nonempty i (hsub i (List.mem_append_right _ hi))
  · intro i hi
    rcases List.mem_append.mp hi with hi | hi
    · exact h.sound i (hsub i (List.mem_append_left _ hi))
    rcases List.mem_cons.mp hi with rfl | hi
    · exact hsound.withThread (fun ht => lt_irrefl t (hlinfo t ht)) hfit.free
    · exact h.sound i (hsub i (List.mem_append_right _ hi))
  · rw [List.pairwise_append, List.pairwise_cons]
    refine ⟨hl₁, ⟨?_, hl₂⟩, ?_⟩
    · intro c hc
      have hwas := hinfo c hc
      have hclt : ∀ t' ∈ c.active, t' < t := hold c (hsub c (List.mem_append_right _ hc))
      constructor
      · intro t₁ h₁ t₂ h₂
        rcases Finset.mem_insert.mp h₁ with rfl | h₁
        · exact (hclt t₂ h₂).ne'
        · exact hwas.ne t₁ h₁ t₂ h₂
      · intro t₁ h₁ t₂ h₂ heq
        rcases Finset.mem_insert.mp h₁ with rfl | h₁
        · -- a later transaction has no thread with the same bytes: that one did not fit into this one
          have hspan : span idx n t₂ = span idx n t₁ := by
            unfold span
            rw [heq]
          exact absurd hfit.free (hspan ▸ hwas.first t₂ h₂)
        · exact hwas.order t₁ h₁ t₂ h₂ heq
      · intro t₂ h₂ hdisjoint
        exact hwas.first t₂ h₂ (Finset.disjoint_of_subset_left Finset.subset_union_left hdisjoint)
    · intro a ha b hb
      rcases List.mem_cons.mp hb with rfl | hb
      · have hwas := hcross a ha info List.mem_cons_self
        have halt : ∀ t' ∈ a.active, t' < t := hold a (hsub a (List.mem_append_left _ ha))
        constructor
        · intro t₁ h₁ t₂ h₂
          rcases Finset.mem_insert.mp h₂ with rfl | h₂
          · exact (halt t₁ h₁).ne
          · exact hwas.ne t₁ h₁ t₂ h₂
        · intro t₁ h₁ t₂ h₂ heq
          rcases Finset.mem_insert.mp h₂ with rfl | h₂
          · exact halt t₁ h₁
          · exact hwas.order t₁ h₁ t₂ h₂ heq
        · intro t₂ h₂
          rcases Finset.mem_insert.mp h₂ with rfl | h₂
          · exact hfit.before a ha
          · exact hwas.first t₂ h₂
      · exact hcross a ha b (List.mem_cons_of_mem _ hb)
  · intro t'
    rw [List.mem_append, List.mem_singleton, ← h.threads t', hthreads t']
    simp only [List.mem_append, List.mem_cons, or_and_right, exists_or, exists_eq_left, withThread,
      Finset.mem_insert]
    grind

/-! ## The loop over a subwarp -/

/-- The place of a thread's bytes in 128 bytes. -/
def place (inst : WarpInst cfg) (t : Nat) : Nat := inst.address t % 128

/-- The segment of a thread. -/
def segmentOf (inst : WarpInst cfg) (t : Nat) : Nat :=
  lineSizeBasedTagFunc (inst.address t) inst.segmentSize

/-- The transactions of the threads of each segment. -/
def Loop (inst : WarpInst cfg) (done : List Nat) (m : SortedMap Nat (List TransactionInfo)) : Prop :=
  ∀ b, Transactions inst.place inst.dataSize (done.filter fun t => inst.segmentOf t = b)
    ((m.find? b).getD [])

/-- The access of a thread is in one segment. -/
def OneSegment (inst : WarpInst cfg) (t : Nat) : Prop :=
  InSegment inst.segmentSize (inst.address t) inst.dataSize

section Loop

variable {m m' : SortedMap Nat (List TransactionInfo)} {done : List Nat}

/-- **A round** adds a thread that comes after the others to its segment. -/
theorem addAtomic_ok (hsize : inst.HasSegments) (h : inst.Loop done m) (hlt : ∀ d ∈ done, d < t)
    (hone : inst.OneSegment t) : ∃ m', inst.addAtomic m t = .ok m' ∧ inst.Loop (done ++ [t]) m' := by
  obtain ⟨hpos, hle⟩ := hsize.pos
  have hlast := (hsize.segment.last_iff (inst.memreqaddr_lt t 0) hpos (hle.trans (by decide))).mpr hone
  obtain ⟨l₁, info, l₂, hadd, hfit⟩ := addToFirst_ok inst.place t
    ((m.find? (inst.segmentOf t)).getD []) hpos (hsize.segment.range hone)
  refine ⟨m.alter (inst.segmentOf t) [] fun _ =>
    l₁ ++ withThread inst.place inst.dataSize t info :: l₂, ?_, ?_⟩
  · unfold addAtomic
    dsimp only
    rw [assert_pos hlast, ok_bind]
    exact congrArg
      (· >>= fun transactions => Except.ok (m.alter (inst.segmentOf t) [] fun _ => transactions))
      hadd
  · intro b
    rw [SortedMap.find?_alter, List.filter_append]
    split
    · next hb =>
      have hsingle : ([t].filter fun t => inst.segmentOf t = b) = [t] := by simp [hb]
      rw [hsingle, hb]
      exact (h _).firstFit (fun d hd => hlt d (List.mem_filter.mp hd).1) hfit
    · next hb =>
      have hnone : ([t].filter fun t => inst.segmentOf t = b) = [] := by simp [Ne.symm hb]
      rw [hnone, List.append_nil]
      exact h b

theorem loop_nil : inst.Loop [] .empty := fun _ => transactions_nil

theorem foldlM_addAtomic (hsize : inst.HasSegments) {threads : List Nat}
    (hsorted : threads.Pairwise (· < ·))
    (hone : ∀ t ∈ threads, inst.OneSegment t) :
    ∃ m, threads.foldlM inst.addAtomic .empty = .ok m ∧ inst.Loop threads m := by
  apply foldlM_invariant _ loop_nil
  intro done t rest m hthreads hloop
  subst hthreads
  apply addAtomic_ok hsize hloop
  · intro d hd
    exact (List.pairwise_append.mp hsorted).2.2 d hd t List.mem_cons_self
  · exact hone t (List.mem_append_right _ List.mem_cons_self)

end Loop

/-! ## What is sent -/

/-- Accesses that have a byte in common are the same. -/
def Coincide (inst : WarpInst cfg) : Prop :=
  ∀ t ∈ inst.active, ∀ t' ∈ inst.active, ∀ i < inst.dataSize, ∀ i' < inst.dataSize,
    (inst.address t + i) % 2 ^ 32 = (inst.address t' + i') % 2 ^ 32 → inst.address t = inst.address t'

/-- The subwarp of a thread. -/
def halfOf (cfg : CoreConfig) (t : Nat) : Nat := t / (cfg.warpSize / 2)

/-- The transactions of the threads `D`: every thread is in one, of its own segment; no two threads
of one have a byte in common; and threads that access the same bytes are in different ones, in their
order, and in one subwarp next to each other if accesses with common bytes are the same. -/
structure Separated (inst : WarpInst cfg) (D : Nat → Prop) (q : List MemAccess) : Prop where
  covered : ∀ t, D t → ∃ a ∈ q, t ∈ a.warpMask
  members : ∀ a ∈ q, ∀ t ∈ a.warpMask, D t ∧
    a.addr / inst.segmentSize * inst.segmentSize = inst.segmentOf t
  separate : ∀ a ∈ q, ∀ t ∈ a.warpMask, ∀ t' ∈ a.warpMask, t ≠ t' →
    ∀ i < inst.dataSize, ∀ i' < inst.dataSize, inst.address t + i ≠ inst.address t' + i'
  once : q.Pairwise fun a b => ∀ t ∈ a.warpMask, ∀ t' ∈ b.warpMask, t ≠ t'
  order : q.Pairwise fun a b => ∀ t ∈ a.warpMask, ∀ t' ∈ b.warpMask,
    inst.address t = inst.address t' → t < t'
  next : ∀ t t', D t → D t' → t < t' → inst.address t = inst.address t' → halfOf cfg t = halfOf cfg t' →
    inst.Coincide → (∀ t'', D t'' → t < t'' → t'' < t' → inst.address t'' ≠ inst.address t) →
    ∃ A B, [A, B] <:+: q.map MemAccess.warpMask ∧ t ∈ A ∧ t' ∈ B

section Separated

variable {D D₁ D₂ : Nat → Prop} {q q₁ q₂ : List MemAccess}

theorem Separated.congr (h : inst.Separated D₁ q) (hiff : ∀ t, D₁ t ↔ D₂ t) : inst.Separated D₂ q := by
  rwa [← funext fun t => propext (hiff t)]

theorem separated_nil (hD : ∀ t, ¬ D t) : inst.Separated D [] where
  covered t ht := absurd ht (hD t)
  members _ ha := absurd ha List.not_mem_nil
  separate _ ha := absurd ha List.not_mem_nil
  once := .nil
  order := .nil
  next t _ ht := absurd ht (hD t)

theorem Separated.append (h₁ : inst.Separated D₁ q₁) (h₂ : inst.Separated D₂ q₂)
    (hne : ∀ t t', D₁ t → D₂ t' → t ≠ t')
    (hcross : ∀ t t', D₁ t → D₂ t' → inst.address t = inst.address t' →
      t < t' ∧ halfOf cfg t ≠ halfOf cfg t') :
    inst.Separated (fun t => D₁ t ∨ D₂ t) (q₁ ++ q₂) where
  covered t ht := by
    rcases ht with ht | ht
    · obtain ⟨a, ha, hta⟩ := h₁.covered t ht
      exact ⟨a, List.mem_append_left _ ha, hta⟩
    · obtain ⟨a, ha, hta⟩ := h₂.covered t ht
      exact ⟨a, List.mem_append_right _ ha, hta⟩
  members a ha t ht := by
    rcases List.mem_append.mp ha with ha | ha
    · exact (h₁.members a ha t ht).imp_left .inl
    · exact (h₂.members a ha t ht).imp_left .inr
  separate a ha := by
    rcases List.mem_append.mp ha with ha | ha
    · exact h₁.separate a ha
    · exact h₂.separate a ha
  once := List.pairwise_append.mpr ⟨h₁.once, h₂.once, fun a ha b hb t ht t' ht' =>
    hne t t' (h₁.members a ha t ht).1 (h₂.members b hb t' ht').1⟩
  order := List.pairwise_append.mpr ⟨h₁.order, h₂.order, fun a ha b hb t ht t' ht' heq =>
    (hcross t t' (h₁.members a ha t ht).1 (h₂.members b hb t' ht').1 heq).1⟩
  next t t' ht ht' hlt heq hhalf hcoincide hbetween := by
    rw [List.map_append]
    rcases ht with ht | ht <;> rcases ht' with ht' | ht'
    · obtain ⟨A, B, hinfix, hA, hB⟩ := h₁.next t t' ht ht' hlt heq hhalf hcoincide
        fun t'' ht'' => hbetween t'' (.inl ht'')
      exact ⟨A, B, hinfix.trans (List.prefix_append _ _).isInfix, hA, hB⟩
    · exact absurd hhalf (hcross t t' ht ht' heq).2
    · exact absurd hlt (hcross t' t ht' ht heq.symm).1.asymm
    · obtain ⟨A, B, hinfix, hA, hB⟩ := h₂.next t t' ht ht' hlt heq hhalf hcoincide
        fun t'' ht'' => hbetween t'' (.inr ht'')
      exact ⟨A, B, hinfix.trans (List.suffix_append _ _).isInfix, hA, hB⟩

end Separated

/-! ### One segment -/

theorem not_disjoint_span_self {t' : Nat} (hn : 0 < n) (h : idx t = idx t') :
    ¬ Disjoint (span idx n t) (span idx n t') := by
  rw [Finset.not_disjoint_iff]
  exact ⟨idx t, Finset.mem_Ico.mpr ⟨le_rfl, by omega⟩, Finset.mem_Ico.mpr ⟨h.ge, by omega⟩⟩

/-- Threads with the same bytes are in neighbouring transactions if none between them has these
bytes. -/
theorem Transactions.next (h : Transactions idx n ds l) (hn : 0 < n) {t t' : Nat} (ht : t ∈ ds)
    (ht' : t' ∈ ds) (hlt : t < t') (hidx : idx t = idx t')
    (hcoincide : ∀ t₁ ∈ ds, ∀ t₂ ∈ ds, ¬ Disjoint (span idx n t₁) (span idx n t₂) → idx t₁ = idx t₂)
    (hbetween : ∀ t'' ∈ ds, t < t'' → t'' < t' → idx t'' ≠ idx t) :
    ∃ A B, [A, B] <:+: l ∧ t ∈ A.active ∧ t' ∈ B.active := by
  obtain ⟨A, hA, htA⟩ := (h.threads t).mpr ht
  obtain ⟨B, hB, htB⟩ := (h.threads t').mpr ht'
  obtain ⟨X, Y, rfl⟩ := List.append_of_mem hA
  obtain ⟨-, hAY, hXA⟩ := List.pairwise_append.mp h.before
  obtain ⟨hAY, hY⟩ := List.pairwise_cons.mp hAY
  have hself := not_disjoint_span_self hn hidx
  rcases List.mem_append.mp hB with hB | hB
  · exact absurd ((hXA B hB A List.mem_cons_self).order t' htB t htA hidx.symm) hlt.asymm
  rcases List.mem_cons.mp hB with rfl | hB
  · exact absurd ((h.sound B hA).separate t htA t' htB hlt.ne) hself
  cases Y with
  | nil => cases hB
  | cons C Z =>
    rcases List.mem_cons.mp hB with rfl | hBZ
    · exact ⟨A, B, ⟨X, Z, by simp⟩, htA, htB⟩
    · -- the thread did not fit into `C`, which is between
      have hCB := (List.pairwise_cons.mp hY).1 B hBZ
      obtain ⟨j, hjC, hj⟩ := Finset.not_disjoint_iff.mp (hCB.first t' htB)
      have hC : C ∈ X ++ A :: C :: Z := by simp
      obtain ⟨t'', ht'', hj''⟩ := ((h.sound C hC).bytes j).mp hjC
      have hds'' : t'' ∈ ds := (h.threads t'').mp ⟨C, hC, ht''⟩
      have hsame := hcoincide t'' hds'' t' ht' (Finset.not_disjoint_iff.mpr ⟨j, hj'', hj⟩)
      have hlt₁ := (hAY C List.mem_cons_self).order t htA t'' ht'' (hidx.trans hsame.symm)
      have hlt₂ := hCB.order t'' ht'' t' htB hsame
      exact absurd (hsame.trans hidx.symm) (hbetween t'' hds'' hlt₁ hlt₂)

section Segment

variable {accessType : MemAccessType} {b : Nat}

theorem segmentOf_spec (hsize : inst.HasSegments) (hone : inst.OneSegment t)
    (hb : inst.segmentOf t = b) :
    inst.segmentSize ∣ b ∧ b + inst.segmentSize ≤ 2 ^ 32 ∧
      b ≤ inst.address t % 2 ^ 32 ∧ inst.address t % 2 ^ 32 + inst.dataSize ≤ b + inst.segmentSize ∧
      inst.address t % 2 ^ 32 = b / 128 * 128 + inst.place t := by
  have hseg := hsize.segment
  have haddr : inst.address t < 2 ^ 64 := inst.memreqaddr_lt t 0
  unfold segmentOf at hb
  rw [hseg.tag haddr] at hb
  unfold OneSegment InSegment at hone
  unfold place
  rcases hseg with h | h | h <;> rw [h] at hone hb ⊢ <;> omega

theorem sendAtomic_ok (hsize : inst.HasSegments) (hsound : Sound inst.place n info)
    (ht : t ∈ info.active) (hone : inst.OneSegment t) (hb : inst.segmentOf t = b) :
    ∃ a, inst.memoryCoalescingArch13ReduceAndSend accessType inst.segmentSize (b, info) = .ok a ∧
      a.warpMask = info.active ∧ a.addr / inst.segmentSize * inst.segmentSize = b := by
  have hseg := hsize.segment
  have hpos := hsize.pos.1
  obtain ⟨hdvd, htop, hge, hle, haddr⟩ := segmentOf_spec hsize hone hb
  have hmem : inst.place t / 32 ∈ info.chunks := hsound.chunks t ht
  have hchunk : chunk (inst.address t % 2 ^ 32) = inst.place t / 32 := by
    unfold chunk place
    omega
  obtain ⟨p, hp, hreduced⟩ := reduce_ok hseg hdvd hmem ⟨inst.address t % 2 ^ 32, hge, by omega, hchunk⟩
  have hlower := hreduced.lower
  have hupper := hreduced.upper
  have hinside : p.1 < b + inst.segmentSize := by
    rcases hreduced.segment with h | h | h <;> rw [h] at hupper <;> omega
  have hcard : 1 ≤ info.chunks.card := Finset.card_pos.mpr ⟨_, hmem⟩
  refine ⟨⟨accessType, p.1 % 2 ^ 32, p.2, inst.isStore, info.active, info.bytes⟩, ?_, rfl, ?_⟩
  · unfold memoryCoalescingArch13ReduceAndSend
    dsimp only
    rw [assert_pos (hseg.aligned hdvd), ok_bind, assert_pos hcard, ok_bind, hp, ok_bind]
  · dsimp only
    rw [Nat.mod_eq_of_lt (by omega)]
    rcases hseg with h | h | h <;> rw [h] at hdvd hinside ⊢ <;> omega

variable {t' : Nat}

theorem place_add_eq (hsize : inst.HasSegments) {i i' : Nat} (hone : inst.OneSegment t)
    (hone' : inst.OneSegment t') (hb : inst.segmentOf t = inst.segmentOf t')
    (h : (inst.address t + i) % 2 ^ 32 = (inst.address t' + i') % 2 ^ 32) (hi : i < inst.dataSize)
    (hi' : i' < inst.dataSize) : inst.place t + i = inst.place t' + i' := by
  obtain ⟨-, htop, -, hle, haddr⟩ := segmentOf_spec hsize hone hb
  obtain ⟨-, -, -, hle', haddr'⟩ := segmentOf_spec hsize hone' rfl
  omega

theorem address_add_mod_eq (hsize : inst.HasSegments) {i i' : Nat} (hone : inst.OneSegment t)
    (hone' : inst.OneSegment t') (hb : inst.segmentOf t = inst.segmentOf t')
    (h : inst.place t + i = inst.place t' + i') :
    (inst.address t + i) % 2 ^ 32 = (inst.address t' + i') % 2 ^ 32 := by
  obtain ⟨-, -, -, -, haddr⟩ := segmentOf_spec hsize hone hb
  obtain ⟨-, -, -, -, haddr'⟩ := segmentOf_spec hsize hone' rfl
  omega

theorem Coincide.address_eq (h : inst.Coincide) (hsize : inst.HasSegments) (ht : t ∈ inst.active)
    (ht' : t' ∈ inst.active) (hone : inst.OneSegment t) (hone' : inst.OneSegment t')
    (hb : inst.segmentOf t = inst.segmentOf t')
    (hoverlap : ¬ Disjoint (span inst.place inst.dataSize t) (span inst.place inst.dataSize t')) :
    inst.address t = inst.address t' := by
  obtain ⟨j, hj, hj'⟩ := Finset.not_disjoint_iff.mp hoverlap
  obtain ⟨hge, hlt⟩ := Finset.mem_Ico.mp hj
  obtain ⟨hge', hlt'⟩ := Finset.mem_Ico.mp hj'
  apply h t ht t' ht' (j - inst.place t) (by omega) (j - inst.place t') (by omega)
  apply address_add_mod_eq hsize hone hone' hb
  omega

theorem map_warpMask_eq {q : List MemAccess} {f : TransactionInfo → Except Fault MemAccess}
    (hq : l.mapM f = .ok q) (hmask : ∀ info ∈ l, ∀ a, f info = .ok a → a.warpMask = info.active) :
    q.map MemAccess.warpMask = l.map TransactionInfo.active := by
  induction mapM_eq_ok.mp hq with
  | nil => rfl
  | @cons info a l q ha htail ih =>
    rw [List.map_cons, List.map_cons, hmask info List.mem_cons_self a ha,
      ih (mapM_eq_ok.mpr htail) fun info hinfo => hmask info (List.mem_cons_of_mem _ hinfo)]

/-- **A segment**: its transactions are separated when they are sent. -/
theorem Transactions.separated (accessType : MemAccessType) (hsize : inst.HasSegments)
    (h : Transactions inst.place inst.dataSize ds l) (hone : ∀ t ∈ ds, inst.OneSegment t)
    (hactive : ∀ t ∈ ds, t ∈ inst.active) (hb : ∀ t ∈ ds, inst.segmentOf t = b) :
    ∃ q, l.mapM (fun info =>
      inst.memoryCoalescingArch13ReduceAndSend accessType inst.segmentSize (b, info)) =
      .ok q ∧ inst.Separated (· ∈ ds) q := by
  have hsend : ∀ info ∈ l, ∃ a,
      inst.memoryCoalescingArch13ReduceAndSend accessType inst.segmentSize (b, info) = .ok a ∧
        a.warpMask = info.active ∧ a.addr / inst.segmentSize * inst.segmentSize = b := by
    intro info hinfo
    obtain ⟨t, ht⟩ := h.nonempty info hinfo
    have hds := (h.threads t).mp ⟨info, hinfo, ht⟩
    exact sendAtomic_ok hsize (h.sound info hinfo) ht (hone t hds) (hb t hds)
  have hsent : ∀ info ∈ l, ∀ a,
      inst.memoryCoalescingArch13ReduceAndSend accessType inst.segmentSize (b, info) = .ok a →
        a.warpMask = info.active ∧ a.addr / inst.segmentSize * inst.segmentSize = b := by
    intro info hinfo a ha
    obtain ⟨a', ha', hspec⟩ := hsend info hinfo
    cases ha.symm.trans ha'
    exact hspec
  obtain ⟨q, hq⟩ := mapM_ok fun info hinfo => (hsend info hinfo).imp fun a ha => ha.1
  have hmasks : q.map MemAccess.warpMask = l.map TransactionInfo.active :=
    map_warpMask_eq hq fun info hinfo a ha => (hsent info hinfo a ha).1
  have hfrom : ∀ a ∈ q, ∃ info ∈ l, a.warpMask = info.active ∧
      a.addr / inst.segmentSize * inst.segmentSize = b := by
    intro a ha
    obtain ⟨info, hinfo, hok⟩ := exists_of_mem_mapM hq ha
    exact ⟨info, hinfo, hsent info hinfo a hok⟩
  have hsame {t t' : Nat} (ht : t ∈ ds) (ht' : t' ∈ ds) : inst.segmentOf t = inst.segmentOf t' :=
    (hb t ht).trans (hb t' ht').symm
  have hbefore : (l.map TransactionInfo.active).Pairwise fun A B => ∀ t ∈ A, ∀ t' ∈ B,
      t ≠ t' ∧ (inst.place t = inst.place t' → t < t') :=
    List.pairwise_map.mpr (h.before.imp fun hab t ht t' ht' =>
      ⟨hab.ne t ht t' ht', hab.order t ht t' ht'⟩)
  rw [← hmasks, List.pairwise_map] at hbefore
  refine ⟨q, hq, ?_⟩
  constructor
  case covered =>
    intro t ht
    obtain ⟨info, hinfo, hmem⟩ := (h.threads t).mpr ht
    obtain ⟨a, ha, hok⟩ := exists_mem_of_mapM hq hinfo
    exact ⟨a, ha, (hsent info hinfo a hok).1 ▸ hmem⟩
  case members =>
    intro a ha t ht
    obtain ⟨info, hinfo, hmask, haddr⟩ := hfrom a ha
    have hds := (h.threads t).mp ⟨info, hinfo, hmask ▸ ht⟩
    exact ⟨hds, haddr.trans (hb t hds).symm⟩
  case separate =>
    intro a ha t ht t' ht' hne i hi i' hi' heq
    obtain ⟨info, hinfo, hmask, -⟩ := hfrom a ha
    rw [hmask] at ht ht'
    have hds := (h.threads t).mp ⟨info, hinfo, ht⟩
    have hds' := (h.threads t').mp ⟨info, hinfo, ht'⟩
    have hplace := place_add_eq hsize (hone t hds) (hone t' hds') (hsame hds hds')
      (congrArg (· % 2 ^ 32) heq) hi hi'
    apply Finset.disjoint_left.mp ((h.sound info hinfo).separate t ht t' ht' hne)
      (Finset.mem_Ico.mpr ⟨Nat.le_add_right _ i, by omega⟩)
    exact Finset.mem_Ico.mpr ⟨by omega, by omega⟩
  case once => exact hbefore.imp fun hab t ht t' ht' => (hab t ht t' ht').1
  case order =>
    apply hbefore.imp
    intro a c hac t ht t' ht' heq
    apply (hac t ht t' ht').2
    unfold place
    rw [heq]
  case next =>
    intro t t' ht ht' hlt heq _ hcoincide hbetween
    have hidx : inst.place t = inst.place t' := by
      unfold place
      rw [heq]
    have haddress {t₁ t₂ : Nat} (h₁ : t₁ ∈ ds) (h₂ : t₂ ∈ ds) :=
      hcoincide.address_eq hsize (hactive t₁ h₁) (hactive t₂ h₂) (hone t₁ h₁) (hone t₂ h₂) (hsame h₁ h₂)
    obtain ⟨A, B, ⟨X, Y, hl⟩, hA, hB⟩ := h.next hsize.pos.1 ht ht' hlt hidx
      (fun t₁ h₁ t₂ h₂ hoverlap => congrArg (· % 128) (haddress h₁ h₂ hoverlap))
      fun t'' hds'' hlt₁ hlt₂ hplace => hbetween t'' hds'' hlt₁ hlt₂
        (haddress hds'' ht (not_disjoint_span_self hsize.pos.1 hplace))
    refine ⟨A.active, B.active, ⟨X.map (·.active), Y.map (·.active), ?_⟩, hA, hB⟩
    rw [hmasks, ← hl]
    simp

/-! ### All segments and both subwarps -/

theorem separated_entries (accessType : MemAccessType) (hsize : inst.HasSegments)
    (hone : ∀ t ∈ ds, inst.OneSegment t)
    (hactive : ∀ t ∈ ds, t ∈ inst.active) {entries : List (Nat × List TransactionInfo)}
    (hsorted : entries.Pairwise fun e e' => e.1 < e'.1)
    (h : ∀ e ∈ entries, Transactions inst.place inst.dataSize
      (ds.filter fun t => inst.segmentOf t = e.1) e.2) :
    ∃ qs, (entries.mapM fun e => e.2.mapM fun info =>
        inst.memoryCoalescingArch13ReduceAndSend accessType inst.segmentSize (e.1, info)) = .ok qs ∧
      inst.Separated (fun t => t ∈ ds ∧ ∃ e ∈ entries, inst.segmentOf t = e.1) qs.flatten := by
  induction entries with
  | nil =>
    refine ⟨[], rfl, separated_nil ?_⟩
    rintro t ⟨-, e, he, -⟩
    exact absurd he List.not_mem_nil
  | cons e entries ih =>
    obtain ⟨hhead, hrest⟩ := List.pairwise_cons.mp hsorted
    obtain ⟨qs, hqs, hsep⟩ := ih hrest fun e' he' => h e' (List.mem_cons_of_mem _ he')
    have hsub : ∀ t ∈ ds.filter (fun t => inst.segmentOf t = e.1), t ∈ ds ∧ inst.segmentOf t = e.1 := by
      intro t ht
      rwa [List.mem_filter, decide_eq_true_iff] at ht
    obtain ⟨q, hq, hsepq⟩ := (h e List.mem_cons_self).separated accessType hsize
      (fun t ht => hone t (hsub t ht).1) (fun t ht => hactive t (hsub t ht).1) fun t ht => (hsub t ht).2
    have hother : ∀ t t', t ∈ ds.filter (fun t => inst.segmentOf t = e.1) →
        (t' ∈ ds ∧ ∃ e' ∈ entries, inst.segmentOf t' = e'.1) →
          inst.segmentOf t ≠ inst.segmentOf t' := by
      rintro t t' ht ⟨-, e', he', hb'⟩ heq
      have hlt := hhead e' he'
      rw [← (hsub t ht).2, heq, hb'] at hlt
      exact lt_irrefl _ hlt
    refine ⟨q :: qs, ?_, ?_⟩
    · rw [List.mapM_cons, hq, ok_bind, hqs, ok_bind]
      rfl
    · apply (hsepq.append hsep ?_ ?_).congr
      · intro t
        rw [List.mem_filter, decide_eq_true_iff]
        simp only [List.mem_cons, or_and_right, exists_or, exists_eq_left]
        tauto
      · rintro t t' ht ht' rfl
        exact hother t t ht ht' rfl
      · intro t t' ht ht' heq
        refine absurd ?_ (hother t t' ht ht')
        unfold segmentOf
        rw [heq]

/-- A subwarp of the two. -/
def coalesceAtomics (inst : WarpInst cfg) (accessType : MemAccessType) (threads : List Nat) :
    Except Fault (List MemAccess) := do
  let subwarpTransactions ← threads.foldlM inst.addAtomic .empty
  let sent ← subwarpTransactions.entries.mapM fun t =>
    t.2.mapM fun info =>
      inst.memoryCoalescingArch13ReduceAndSend accessType inst.segmentSize (t.1, info)
  .ok sent.flatten

theorem coalesceAtomics_ok (accessType : MemAccessType) (hsize : inst.HasSegments)
    (hone : ∀ t ∈ inst.active, inst.OneSegment t) (first len : Nat) :
    ∃ q, inst.coalesceAtomics accessType (inst.threads first len) = .ok q ∧
      inst.Separated (· ∈ inst.threads first len) q := by
  have hactive : ∀ t ∈ inst.threads first len, t ∈ inst.active := fun t ht => (mem_threads.mp ht).1
  have hsorted : (inst.threads first len).Pairwise (· < ·) :=
    List.Pairwise.filter _ List.pairwise_lt_range'
  obtain ⟨m, hm, hloop⟩ := foldlM_addAtomic hsize hsorted fun t ht => hone t (hactive t ht)
  obtain ⟨qs, hqs, hsep⟩ := separated_entries accessType hsize
    (fun t ht => hone t (hactive t ht)) hactive m.sorted fun e he => by
      have h := hloop e.1
      rwa [SortedMap.find?_eq_some_iff.mpr he] at h
  refine ⟨qs.flatten, ?_, hsep.congr ?_⟩
  · unfold coalesceAtomics
    rw [hm, ok_bind, hqs, ok_bind]
  · intro t
    refine ⟨And.left, fun ht => ⟨ht, ?_⟩⟩
    obtain ⟨info, hinfo, -⟩ := ((hloop (inst.segmentOf t)).threads t).mpr
      (List.mem_filter.mpr ⟨ht, decide_eq_true rfl⟩)
    cases hfind : m.find? (inst.segmentOf t) with
    | none =>
      rw [hfind] at hinfo
      exact absurd hinfo List.not_mem_nil
    | some l => exact ⟨_, SortedMap.find?_eq_some_iff.mp hfind, rfl⟩

end Segment

/-- **Atomics** whose accesses lie in one segment each are sent, and separated. -/
theorem memoryCoalescingArch13Atomic_separates (accessType : MemAccessType)
    (hspace : inst.space = .global)
    (hsize : inst.HasSegments) (hone : ∀ t ∈ inst.active, inst.OneSegment t) :
    ∃ q, inst.memoryCoalescingArch13Atomic accessType = .ok q ∧
      inst.Separated (fun t => t ∈ inst.active ∧ t < 2 * (cfg.warpSize / 2)) q := by
  obtain ⟨q₀, hq₀, hsep₀⟩ := coalesceAtomics_ok accessType hsize hone
    (0 * (cfg.warpSize / 2)) (cfg.warpSize / 2)
  obtain ⟨q₁, hq₁, hsep₁⟩ := coalesceAtomics_ok accessType hsize hone
    (1 * (cfg.warpSize / 2)) (cfg.warpSize / 2)
  have hqueues : (List.range 2).mapM (fun subwarp => inst.coalesceAtomics accessType
      (inst.threads (subwarp * (cfg.warpSize / 2)) (cfg.warpSize / 2))) = .ok [q₀, q₁] :=
    mapM_eq_ok.mpr (.cons hq₀ (.cons hq₁ .nil))
  have hsep := hsep₀.append hsep₁ (fun t t' ht ht' => by
      have hlt := (mem_threads.mp ht).2.2
      have hge := (mem_threads.mp ht').2.1
      omega)
    (fun t t' ht ht' _ => by
      have hlt := (mem_threads.mp ht).2.2
      have hge := (mem_threads.mp ht').2.1
      rw [Nat.zero_mul, Nat.zero_add] at hlt
      rw [Nat.one_mul] at hge
      have hhalf : halfOf cfg t = 0 := Nat.div_eq_of_lt hlt
      have hhalf' : 0 < halfOf cfg t' := Nat.div_pos hge (by omega)
      exact ⟨by omega, by omega⟩)
  refine ⟨q₀ ++ q₁, ?_, hsep.congr ?_⟩
  · unfold memoryCoalescingArch13Atomic
    rw [assert_pos hspace, ok_bind]
    have hflatten : [q₀, q₁].flatten = q₀ ++ q₁ := by simp
    rw [← hflatten]
    exact bind_eq_ok.mpr ⟨_, hqueues, rfl⟩
  · intro t
    rw [mem_threads, mem_threads]
    constructor
    · rintro (⟨hactive, -, hlt⟩ | ⟨hactive, -, hlt⟩)
      · exact ⟨hactive, by omega⟩
      · exact ⟨hactive, by omega⟩
    · rintro ⟨hactive, hlt⟩
      by_cases h : t < cfg.warpSize / 2
      · exact .inl ⟨hactive, by omega, by omega⟩
      · exact .inr ⟨hactive, by omega, by omega⟩

/-! ### Examples -/

/-- An atomic of `n` bytes by all lanes of a warp. -/
def atomicOp (warpSize : Nat) (hwarp : warpSize ≤ MAX_WARP_SIZE) (n : Nat) (addr : Nat → Nat)
    (haddr : ∀ t, addr t < 2 ^ 64) :
    WarpInst ⟨warpSize, hwarp, 13, false, 16, 2, 64, 64, linesize_lt, linesize_lt⟩ where
  isEmpty := false
  op := .load
  memoryOp := .memoryLoad
  space := .global
  dataSize := n
  active := Finset.range warpSize
  active_lt := fun _ => Finset.mem_range.mp
  isAtomic := true
  perScalarThreadValid := true
  memreqaddr := fun t _ => addr t
  memreqaddr_lt := fun t _ => haddr t
  memAccessesCreated := false
  cycles := 1
  accessq := []

theorem memoryCoalescingArch13Atomic_separates_two : ∃ q,
    (atomicOp 2 (by decide) 4 (fun _ => 128) fun _ => by decide).memoryCoalescingArch13Atomic
      .globalAccW = .ok q ∧ (atomicOp 2 (by decide) 4 (fun _ => 128) fun _ => by decide).Separated
        (fun t => t ∈ Finset.range 2 ∧ t < 2 * (2 / 2)) q := by
  apply memoryCoalescingArch13Atomic_separates
  · rfl
  · exact .inr (.inr (.inl rfl))
  · intro t _
    exact (by decide : 128 % 128 + 4 ≤ 128)

/-- Four bytes from 126 on are in two segments; the last lane of an odd number is left out; lanes
with the same bytes in both subwarps have other transactions between theirs, as lanes of one subwarp
have when a third one has a part of the bytes; and three bytes have no segment. -/
theorem not_separates :
    (atomicOp 2 (by decide) 4 (fun _ => 126) fun _ => by decide).memoryCoalescingArch13Atomic
      .globalAccW = .error .segment ∧
    (∃ q,
      (atomicOp 3 (by decide) 4 (fun _ => 0) fun _ => by decide).memoryCoalescingArch13Atomic
        .globalAccW =
      .ok q ∧ q.map (·.warpMask) = [{0}, {1}]) ∧
    (∃ q, (atomicOp 4 (by decide) 4 (fun t => 128 * (t % 2))
      fun t => by omega).memoryCoalescingArch13Atomic
      .globalAccW = .ok q ∧ q.map (fun a => (a.addr, a.warpMask)) =
        [(0, {0}), (128, {1}), (0, {2}), (128, {3})]) ∧
    (∃ q, (atomicOp 6 (by decide) 4 (fun t => 2 * (t % 2))
      fun t => by omega).memoryCoalescingArch13Atomic
      .globalAccW = .ok q ∧ (q.map (·.warpMask)).take 3 = [{0}, {1}, {2}]) ∧
    ∃ q, (atomicOp 2 (by decide) 3 (fun _ => 0) fun _ => by decide).memoryCoalescingArch13Atomic
      .globalAccW = .ok q ∧ q.map (·.reqSize) = [0, 0] := by
  refine ⟨by decide, ⟨_, rfl, by decide⟩, ⟨_, rfl, by decide⟩, ⟨_, rfl, by decide⟩, ⟨_, rfl, by decide⟩⟩

end WarpInst

end GpgpuSimRuby.Coalescing
