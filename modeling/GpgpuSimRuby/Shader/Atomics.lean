import GpgpuSimRuby.Shader.LoadCompletion

/-!
# Atomics

The callbacks that the pipeline is still to run and the atomics that `m_n_atomic` still counts are two
weights of what is in it. Every action but issue moves one into what has been executed and takes the
other off the count, so both balance in every run.
-/

open Function (update update_self update_of_ne)

namespace GpgpuSimRuby.Shader

open Library Ptx

/-! ## Weights -/

/-- A weight of the accesses of atomics. That of a `mem_fetch` may change when it leaves the memory
partition. -/
structure Weight (M : Type) [AddCommMonoid M] where
  access : WarpInst → Finset Nat → M
  fetch : MemFetch → M
  access_plain : ∀ w mask, w.isatomic = false → access w mask = 0
  access_empty : ∀ w, access w ∅ = 0
  access_union : ∀ w a b, Disjoint a b → access w (a ∪ b) = access w a + access w b
  fetch_plain : ∀ f, f.inst.isatomic = false → fetch f = 0
  fetch_sent : ∀ w mask, fetch ⟨w, mask, false⟩ = access w mask

namespace Weight

/-- The callbacks that are still to run. Without Ruby they run when the access leaves the memory
partition. -/
def runs (cfg : Config) : Weight (Multiset Callback) where
  access w mask := w.runs mask
  fetch f := if cfg.useRuby = false ∧ f.replied = true then 0 else f.inst.runs f.mask
  access_plain w mask h := by simp [WarpInst.runs, h]
  access_empty w := by simp [WarpInst.runs]
  access_union w a b h := by
    unfold WarpInst.runs
    split
    case isTrue =>
      rw [← Multiset.map_add, ← Finset.disjUnion_eq_union a b h]
      rfl
    case isFalse => rfl
  fetch_plain f h := by simp [WarpInst.runs, h]
  fetch_sent w mask := by simp

/-- The lanes that the count of a warp still has. -/
def atomics (warp : Nat) : Weight Nat where
  access w mask := if w.warp = warp then w.atomics mask else 0
  fetch f := if f.inst.warp = warp then f.inst.atomics f.mask else 0
  access_plain w mask h := by simp [WarpInst.atomics, h]
  access_empty w := by simp [WarpInst.atomics]
  access_union w a b h := by
    unfold WarpInst.atomics
    by_cases hw : w.warp = warp <;> by_cases ha : w.isatomic = true <;>
      simp [hw, ha, Finset.card_union_of_disjoint h]
  fetch_plain f h := by simp [WarpInst.atomics, h]
  fetch_sent w mask := rfl

variable {M : Type} [AddCommMonoid M] (μ : Weight M)

theorem sum_access (w : WarpInst) {accessq : List (Finset Nat)} (h : accessq.Pairwise Disjoint) :
    (accessq.map (μ.access w)).sum = μ.access w (accessq.foldr (· ∪ ·) ∅) := by
  induction accessq with
  | nil => rw [List.map_nil, List.sum_nil, List.foldr_nil, μ.access_empty]
  | cons mask accessq ih =>
    obtain ⟨hmask, hrest⟩ := List.pairwise_cons.mp h
    have hdisj : Disjoint mask (accessq.foldr (· ∪ ·) ∅) := by
      clear ih h hrest
      induction accessq with
      | nil => exact Finset.disjoint_empty_right mask
      | cons m accessq ih =>
        rw [List.foldr_cons, Finset.disjoint_union_right]
        exact ⟨hmask m List.mem_cons_self, ih fun b hb => hmask b (List.mem_cons_of_mem m hb)⟩
    rw [List.map_cons, List.sum_cons, List.foldr_cons, μ.access_union w _ _ hdisj, ih hrest]

end Weight

theorem mem_foldr_union {accessq : List (Finset Nat)} {lane : Nat} :
    lane ∈ accessq.foldr (· ∪ ·) ∅ ↔ ∃ mask ∈ accessq, lane ∈ mask := by
  induction accessq with
  | nil => simp
  | cons mask accessq ih => simp [ih]

/-- What an instruction weighs on its way to memory. -/
def PipelineReg.weigh {M : Type} [AddCommMonoid M] (μ : Weight M) (p : PipelineReg) : M :=
  if p.inst.space = .shared then μ.access p.inst p.inst.active else (p.accessq.map (μ.access p.inst)).sum

namespace Core

variable {cfg : Config} {c c' : Core} {w : WarpInst} {M : Type} [AddCommMonoid M] {μ : Weight M}
variable {n : Nat} {i : Inst} {x : Exec} {f : MemFetch} {cb : Callback} {p : PipelineReg}
variable {lanes : List Lane}

def weigh (μ : Weight M) (c : Core) : M :=
  (c.collector.map (·.weigh μ)).sum + (c.dispatchReg.toList.map (·.weigh μ)).sum +
    (c.pipelineReg.map fun w => μ.access w w.active).sum + (c.fetches.map μ.fetch).sum

/-- An action that changes neither what has run nor what is still to run, beyond moving one to the
other, nor the difference of a count and what it counts. -/
structure Flow (cfg : Config) (c c' : Core) : Prop where
  issued : c'.issued = c.issued
  executed : c'.executed + c'.weigh (.runs cfg) = c.executed + c.weigh (.runs cfg)
  nAtomic : ∀ warp,
    c'.nAtomic warp + c.weigh (.atomics warp) = c.nAtomic warp + c'.weigh (.atomics warp)

namespace Flow

theorem rfl' (c : Core) : Flow cfg c c := ⟨rfl, rfl, fun _ => rfl⟩

theorem trans {c₁ : Core} (h : Flow cfg c c₁) (h' : Flow cfg c₁ c') : Flow cfg c c' where
  issued := h'.issued.trans h.issued
  executed := h'.executed.trans h.executed
  nAtomic warp := by
    have h₁ := h.nAtomic warp
    have h₂ := h'.nAtomic warp
    omega

theorem of_weigh (hissued : c'.issued = c.issued) (hexecuted : c'.executed = c.executed)
    (hn : c'.nAtomic = c.nAtomic) (hruns : c'.weigh (.runs cfg) = c.weigh (.runs cfg))
    (hatomics : ∀ warp, c'.weigh (.atomics warp) = c.weigh (.atomics warp)) : Flow cfg c c' where
  issued := hissued
  executed := by rw [hexecuted, hruns]
  nAtomic warp := by rw [hn, hatomics]

end Flow

theorem sum_eraseIdx {α : Type} (f : α → M) {l : List α} {a : α} (h : l[n]? = some a) :
    (l.map f).sum = f a + ((l.eraseIdx n).map f).sum := by
  rw [← ((perm_cons_eraseIdx h).map f).sum_eq, List.map_cons, List.sum_cons]

/-! ## Issue -/

theorem not_atomic_of_not_load (hok : w.Ok) (hload : w.isLoad = false) : w.isatomic = false := by
  by_contra hatom
  rw [Bool.not_eq_false] at hatom
  rw [Inst.isLoad_of_atom _ (hok.atom hatom)] at hload
  cases hload

variable {accessq : List (Finset Nat)} {warp : Nat} {mask : Finset Nat}

theorem Issued.weigh_eq (h : Issued cfg c warp i lanes accessq x) :
    (⟨x.inst, accessq⟩ : PipelineReg).weigh μ = μ.access x.inst x.inst.active := by
  unfold PipelineReg.weigh
  split
  case isTrue => rfl
  case isFalse hspace =>
  have hacc := h.accesses
  unfold WarpInst.MemAccesses at hacc
  cases hatom : x.inst.isatomic with
  | false =>
    rw [μ.access_plain _ _ hatom]
    exact List.sum_eq_zero fun y hy => by
      obtain ⟨mask, -, rfl⟩ := List.mem_map.mp hy
      exact μ.access_plain _ _ hatom
  | true =>
    split at hacc
    case isTrue hgen =>
      obtain ⟨hmask, hcover, hdisj⟩ := hacc
      rw [μ.sum_access x.inst (hdisj hatom)]
      congr 1
      ext lane
      rw [mem_foldr_union]
      exact ⟨fun ⟨mask, hm, hl⟩ => (hmask mask hm).2 hl, hcover lane⟩
    case isFalse hgen =>
      have hload : x.inst.isLoad = true := Inst.isLoad_of_atom _ (h.ok.atom hatom)
      have hempty : x.inst.active = ∅ := by
        by_contra hne
        exact hgen ⟨⟨.inl hload, hne⟩, hspace⟩
      rw [hacc, hempty, μ.access_empty]
      rfl

theorem Issued.weigh_afterIssue
    (h : Issued cfg c warp i lanes accessq x) :
    (c.afterIssue warp x accessq).weigh μ = μ.access x.inst x.inst.active + c.weigh μ := by
  by_cases ha : x.inst.op = .alu
  · have hatom := not_atomic_of_not_load h.ok (by simp [Inst.isLoad, ha])
    rw [μ.access_plain _ _ hatom, zero_add]
    simp only [weigh, afterIssue, ha, if_true]
  · simp only [weigh, afterIssue, ha, if_false, List.map_cons, List.sum_cons, h.weigh_eq]
    abel

/-! ## A cycle of the dispatch register -/

theorem weigh_dispatch (hp : c.dispatchReg = some p) :
    c.weigh μ = p.weigh μ + weigh μ { c with dispatchReg := none } := by
  simp only [weigh, hp, Option.toList_some, Option.toList_none, List.map_cons, List.map_nil, List.sum_cons,
    List.sum_nil, add_zero]
  abel

theorem retire_flow {w : WarpInst} (hp : c.dispatchReg = some ⟨w, []⟩) (hok : w.Ok) :
    Flow cfg c (c.retire ⟨w, []⟩) := by
  have hweigh : ∀ {M : Type} [AddCommMonoid M] (μ : Weight M), (c.retire ⟨w, []⟩).weigh μ = c.weigh μ := by
    intro M _ μ
    rw [weigh_dispatch hp, retire_eq]
    unfold PipelineReg.weigh
    by_cases hs : w.space = .shared
    · cases hload : w.isLoad with
      | true =>
        simp only [weigh, hs, and_self, if_true, List.map_append, List.sum_append, List.map_cons,
          List.map_nil, List.sum_cons, List.sum_nil, add_zero]
        abel
      | false =>
        have hatom := not_atomic_of_not_load hok hload
        simp only [weigh, hs, if_true, μ.access_plain _ _ hatom, zero_add, Bool.false_eq_true,
          false_and, if_false]
    · simp only [weigh, hs, and_false, if_false, List.map_nil, List.sum_nil, zero_add]
  refine .of_weigh ?_ ?_ ?_ (hweigh _) fun warp => hweigh _ <;> rw [retire_eq]

theorem weigh_rest (hp : c.dispatchReg = some p) (hs : p.inst.space ≠ .shared)
    {rest : List (Finset Nat)} (hq : p.accessq = mask :: rest) :
    c.weigh μ = μ.access p.inst mask + weigh μ { c with dispatchReg := some ⟨p.inst, rest⟩ } := by
  rw [weigh_dispatch hp, weigh_dispatch (c := { c with dispatchReg := some ⟨p.inst, rest⟩ }) rfl]
  simp only [PipelineReg.weigh, if_neg hs, hq, List.map_cons, List.sum_cons, add_assoc]

theorem weigh_fetches : weigh μ { c with fetches := f :: c.fetches } = μ.fetch f + c.weigh μ := by
  simp only [weigh, List.map_cons, List.sum_cons]
  abel

theorem Sent.flow (hp : c.dispatchReg = some p) (hok : p.Ok)
    {rest : List (Finset Nat)} (hq : p.accessq = mask :: rest) {c₁ : Core} (h : Sent cfg c p.inst mask c₁) :
    Flow cfg c { c₁ with dispatchReg := some ⟨p.inst, rest⟩ } := by
  have hs := (hok.generates hq).2
  have hmask := hok.mask_subset hq
  -- an instruction that is no atomic has no weight to lose, in the queue or in flight
  have hplain : p.inst.isatomic = false → ∀ {M : Type} [AddCommMonoid M] (μ : Weight M),
      weigh μ { c with dispatchReg := some ⟨p.inst, rest⟩ } = c.weigh μ := by
    intro hatom M _ μ
    rw [weigh_rest hp hs hq, μ.access_plain _ _ hatom, zero_add]
  cases h with
  | hit hload hatom => exact .of_weigh rfl rfl rfl (hplain hatom _) fun warp => hplain hatom _
  | written hstore =>
    have hatom := not_atomic_of_not_load hok.inst hstore
    exact .of_weigh rfl rfl rfl (hplain hatom _) fun warp => hplain hatom _
  | store replied hstore =>
    have hatom := not_atomic_of_not_load hok.inst hstore
    have hsent : ∀ {M : Type} [AddCommMonoid M] (μ : Weight M), weigh μ { c with
        fetches := ⟨p.inst, mask, replied⟩ :: c.fetches
        dispatchReg := some ⟨p.inst, rest⟩ } = c.weigh μ := by
      intro M _ μ
      rw [weigh_fetches (c := { c with dispatchReg := some ⟨p.inst, rest⟩ }), μ.fetch_plain _ hatom, zero_add,
        hplain hatom]
    exact .of_weigh rfl rfl rfl (hsent _) fun warp => hsent _
  | load hload =>
    have hsent : ∀ {M : Type} [AddCommMonoid M] (μ : Weight M), weigh μ { c with
        fetches := ⟨p.inst, mask, false⟩ :: c.fetches
        dispatchReg := some ⟨p.inst, rest⟩ } = c.weigh μ := by
      intro M _ μ
      rw [weigh_fetches (c := { c with dispatchReg := some ⟨p.inst, rest⟩ }), μ.fetch_sent,
        weigh_rest hp hs hq]
    exact .of_weigh rfl rfl rfl (hsent _) fun warp => hsent _
  | perfect hload hruby h =>
    rw [doAtomic_eq hok.inst hmask] at h
    cases h
    refine ⟨rfl, ?_, fun warp => ?_⟩
    · show c.executed + p.inst.runs mask + weigh (.runs cfg) { c with
        fetches := ⟨p.inst, mask, true⟩ :: c.fetches
        dispatchReg := some ⟨p.inst, rest⟩ } = _
      rw [weigh_fetches (c := { c with dispatchReg := some ⟨p.inst, rest⟩ }), weigh_rest hp hs hq]
      have hzero : (Weight.runs cfg).fetch ⟨p.inst, mask, true⟩ = 0 := if_pos ⟨hruby, rfl⟩
      rw [hzero, zero_add, add_assoc]
      rfl
    · show c.nAtomic warp + _ = c.nAtomic warp + weigh (.atomics warp) { c with
        fetches := ⟨p.inst, mask, true⟩ :: c.fetches
        dispatchReg := some ⟨p.inst, rest⟩ }
      rw [weigh_fetches (c := { c with dispatchReg := some ⟨p.inst, rest⟩ }), weigh_rest hp hs hq]
      rfl

theorem Dispatched.flow (hp : c.dispatchReg = some p) (hok : p.Ok)
    (h : Dispatched cfg c p c') : Flow cfg c c' := by
  obtain ⟨w, queue⟩ := p
  cases h with
  | stall => exact .rfl' c
  | idle hq =>
    cases hq
    exact retire_flow hp hok.inst
  | sent hq h => exact h.flow hp hok hq
  | last hq h =>
    have := (h.flow hp hok hq).trans (retire_flow rfl hok.inst)
    rwa [retire_dispatchReg] at this
  | membar hop =>
    cases queue_membar hok hop
    have hflow : Flow cfg c { c with membar := update c.membar w.warp false } :=
      .of_weigh rfl rfl rfl rfl fun _ => rfl
    exact hflow.trans (retire_flow hp hok.inst)
  | memfence hop =>
    cases queue_membar hok hop
    have hflow : Flow cfg c { c with memfences := w.warp :: c.memfences } :=
      .of_weigh rfl rfl rfl rfl fun _ => rfl
    exact hflow.trans (retire_flow hp hok.inst)

/-! ## The other actions -/

theorem weigh_eraseIdx (hf : c.fetches[n]? = some f) :
    c.weigh μ = μ.fetch f + weigh μ { c with fetches := c.fetches.eraseIdx n } := by
  simp only [weigh, sum_eraseIdx μ.fetch hf]
  abel

theorem atomicsDone_add (hle : w.atomics mask ≤ c.nAtomic w.warp) (warp : Nat) :
    c.atomicsDone w mask warp + (Weight.atomics warp).access w mask = c.nAtomic warp := by
  show c.atomicsDone w mask warp + (if w.warp = warp then w.atomics mask else 0) = _
  unfold atomicsDone
  by_cases hw : w.warp = warp
  · subst hw
    rw [update_self, if_pos rfl]
    omega
  · rw [update_of_ne (Ne.symm hw), if_neg hw, add_zero]

theorem erase_flow (hf : c.fetches[n]? = some f) (hissued : c'.issued = c.issued)
    (hweigh : ∀ {M : Type} [AddCommMonoid M] (μ : Weight M),
      c'.weigh μ = weigh μ { c with fetches := c.fetches.eraseIdx n })
    (hexecuted : c'.executed = c.executed + (Weight.runs cfg).fetch f)
    (hn : ∀ warp, c'.nAtomic warp + (Weight.atomics warp).fetch f = c.nAtomic warp) : Flow cfg c c' where
  issued := hissued
  executed := by rw [hexecuted, hweigh, weigh_eraseIdx hf, add_assoc]
  nAtomic warp := by
    rw [hweigh, weigh_eraseIdx hf, ← hn warp]
    ring

theorem Moved.flow {a : Act} (hok : c.Ok) (h : Moved cfg c a c') :
    Flow cfg c c' ∨ ∃ warp i lanes accessq x, a = .issue warp i lanes accessq ∧
      Issued cfg c warp i lanes accessq x ∧ c' = c.afterIssue warp x accessq := by
  cases h with
  | issue h => exact .inr ⟨_, _, _, _, _, rfl, h, rfl⟩
  | unitWriteback h =>
    left
    rw [releaseRegisters_eq]
    exact .of_weigh rfl rfl rfl rfl fun _ => rfl
  | ldstIssue hfree h =>
    left
    refine .of_weigh rfl rfl rfl ?_ fun warp => ?_ <;>
      simp only [weigh, hfree, sum_eraseIdx _ h, Option.toList_some, Option.toList_none, List.map_cons,
        List.map_nil, List.sum_cons, List.sum_nil] <;> abel
  | cycle hp hpok h => exact .inl (h.flow hp hpok)
  | @writeback w x hwb h =>
    left
    have hx := writeback_frame h
    have hcore : ∀ core : Core, core = { x.1 with completed := core.completed } → Flow cfg c core := by
      intro core hcore
      rw [hcore, hx]
      exact .of_weigh rfl rfl rfl rfl fun _ => rfl
    apply hcore
    split <;> rfl
  | @serviceShared w rest hwb hpipe hle =>
    left
    have hweigh : ∀ {M : Type} [AddCommMonoid M] (μ : Weight M),
        c.weigh μ = μ.access w w.active + weigh μ { c with pipelineReg := rest } := by
      intro M _ μ
      simp only [weigh, hpipe, List.map_cons, List.sum_cons]
      abel
    refine ⟨rfl, ?_, fun warp => ?_⟩
    · rw [hweigh, ← add_assoc]
      rfl
    · rw [hweigh, ← atomicsDone_add hle warp]
      show c.atomicsDone w w.active warp + _ = _ + weigh (.atomics warp) { c with pipelineReg := rest }
      ring
  | @cached n f hwb hf hatom =>
    refine .inl (erase_flow hf rfl (fun μ => rfl) ?_ fun warp => ?_)
    · rw [(Weight.runs cfg).fetch_plain f hatom, add_zero]
    · rw [(Weight.atomics warp).fetch_plain f hatom, add_zero]
  | @uncached n f hruby hwb hf hreplied hle =>
    refine .inl (erase_flow hf rfl (fun μ => rfl) ?_ fun warp => atomicsDone_add hle warp)
    have hzero : (Weight.runs cfg).fetch f = 0 := if_pos ⟨hruby, hreplied⟩
    rw [hzero, add_zero]
  | @ruby n f hruby hwb hf hle =>
    refine .inl (erase_flow hf rfl (fun μ => rfl) ?_ fun warp => atomicsDone_add hle warp)
    have hruns : (Weight.runs cfg).fetch f = f.inst.runs f.mask := if_neg fun h => by simp [hruby] at h
    rw [hruns]
  | serviceMemfence => exact .inl (.of_weigh rfl rfl rfl rfl fun _ => rfl)
  | @reply n f hruby hf hreplied =>
    left
    have hset : ∀ {M : Type} [AddCommMonoid M] (μ : Weight M), weigh μ { c with
        fetches := c.fetches.set n { f with replied := true } } =
          μ.fetch { f with replied := true } + weigh μ { c with fetches := c.fetches.eraseIdx n } := by
      intro M _ μ
      obtain ⟨hn, -⟩ := List.getElem?_eq_some_iff.mp hf
      have hget : (c.fetches.set n { f with replied := true })[n]? = some { f with replied := true } := by
        simp [hn]
      rw [weigh_eraseIdx (c := { c with fetches := c.fetches.set n { f with replied := true } }) hget,
        List.eraseIdx_set_eq]
    refine ⟨rfl, ?_, fun warp => ?_⟩
    · show c.executed + f.inst.runs f.mask + weigh (.runs cfg) { c with
        fetches := c.fetches.set n { f with replied := true } } = _
      have hzero : (Weight.runs cfg).fetch { f with replied := true } = 0 := if_pos ⟨hruby, rfl⟩
      have hruns : (Weight.runs cfg).fetch f = f.inst.runs f.mask := if_neg fun h => by simp [hreplied] at h
      rw [hset, weigh_eraseIdx hf, hzero, hruns, zero_add, add_assoc]
    · show c.nAtomic warp + _ = c.nAtomic warp + weigh (.atomics warp) { c with
        fetches := c.fetches.set n { f with replied := true } }
      rw [hset, weigh_eraseIdx hf]
      rfl
  | @storeAck n f hruby hf hstore =>
    have hatom := not_atomic_of_not_load (fetch_ok hok hf).1 (by
      simp only [Inst.isStore, decide_eq_true_eq] at hstore
      simp [Inst.isLoad, hstore])
    refine .inl (erase_flow hf rfl (fun μ => rfl) ?_ fun warp => ?_)
    · rw [(Weight.runs cfg).fetch_plain f hatom, add_zero]
    · rw [(Weight.atomics warp).fetch_plain f hatom, add_zero]

/-! ## Runs -/

/-- What has run and what is still to run are the callbacks of the lanes of all instructions issued, and
the counts of the warps are what is still to come back. -/
structure AtomInv (cfg : Config) (c : Core) : Prop where
  executed : c.executed + c.weigh (.runs cfg) = (c.issued.map fun w => w.runs w.active).sum
  nAtomic : ∀ warp, c.nAtomic warp = c.weigh (.atomics warp)
  nodup : (c.issued.map (·.uid)).Nodup

theorem AtomInv.init : AtomInv cfg .init where
  executed := rfl
  nAtomic _ := rfl
  nodup := List.nodup_nil

theorem AtomInv.flow (hc : AtomInv cfg c) (h : Flow cfg c c') : AtomInv cfg c' where
  executed := by rw [h.executed, h.issued, hc.executed]
  nAtomic warp := by
    have := h.nAtomic warp
    rw [hc.nAtomic warp] at this
    omega
  nodup := by
    rw [h.issued]
    exact hc.nodup

theorem AtomInv.issue (hc : AtomInv cfg c) (hinv : c.LoadInv)
    (h : Issued cfg c warp i lanes accessq x) :
    AtomInv cfg (c.afterIssue warp x accessq) where
  executed := by
    rw [h.weigh_afterIssue]
    show c.executed + (x.inst.runs x.inst.active + c.weigh (.runs cfg)) = _
    have hissued : (c.afterIssue warp x accessq).issued = x.inst :: c.issued := rfl
    rw [hissued, List.map_cons, List.sum_cons, ← hc.executed, add_left_comm]
  nAtomic v := by
    have hn := h.executed.nAtomic
    have hcard : x.inst.atomics x.inst.active = if i.opcode = .atom then x.inst.active.card else 0 := by
      unfold WarpInst.atomics
      by_cases hatom : x.inst.isatomic = true
      · rw [if_pos hatom, if_pos (h.executed.atomic.mp hatom).1]
      · rw [if_neg hatom]
        split
        case isFalse => rfl
        case isTrue hop =>
          have hnil : lanes = [] := by
            by_contra hne
            exact hatom (h.executed.atomic.mpr ⟨hop, hne⟩)
          rw [h.executed.active, hnil]
          rfl
    rw [h.weigh_afterIssue, ← hc.nAtomic v]
    show update c.nAtomic warp x.nAtomic v = (if x.inst.warp = v then _ else 0) + _
    rw [h.warp_eq]
    by_cases hv : warp = v
    · subst hv
      rw [update_self, if_pos rfl, hn, hcard, add_comm]
    · rw [update_of_ne (Ne.symm hv), if_neg hv, zero_add]
  nodup := by
    show ((x.inst :: c.issued).map (·.uid)).Nodup
    refine List.nodup_cons.mpr ⟨fun hmem => ?_, hc.nodup⟩
    obtain ⟨w, hw, huid⟩ := List.mem_map.mp hmem
    have hle := hinv.uid_le w hw
    have huid : w.uid = x.inst.uid := huid
    rw [huid, h.uid_eq] at hle
    omega

theorem atomInv_of_reachableUnder {ok : Core → Act → Prop} (h : (core cfg).ReachableUnder ok c) :
    AtomInv cfg c := by
  induction h with
  | init => exact .init
  | step hc _ hs ih =>
    have hok := ok_of_reachableUnder hc
    rcases (step_ok hok hs).flow hok with hflow | ⟨warp, i, lanes, accessq, x, -, h, rfl⟩
    · exact ih.flow hflow
    · exact ih.issue (loadInv_of_reachableUnder hc) h

/-! ## Once and for all -/

theorem mem_sum_map {α β : Type} {f : α → Multiset β} {l : List α} {b : β} :
    b ∈ (l.map f).sum ↔ ∃ a ∈ l, b ∈ f a := by
  induction l with
  | nil => simp
  | cons a l ih => simp [ih]

theorem mem_runs :
    cb ∈ w.runs mask ↔ w.isatomic = true ∧ cb.uid = w.uid ∧ cb.pc = w.pc ∧ cb.lane ∈ mask := by
  obtain ⟨uid, lane, pc⟩ := cb
  unfold WarpInst.runs
  split
  case isTrue hatom =>
    simp only [Multiset.mem_map, Finset.mem_val, Callback.mk.injEq, hatom, true_and]
    constructor
    · rintro ⟨l, hl, rfl, rfl, rfl⟩
      exact ⟨rfl, rfl, hl⟩
    · rintro ⟨rfl, rfl, hl⟩
      exact ⟨lane, hl, rfl, rfl, rfl⟩
  case isFalse hatom => simp [hatom]

theorem count_runs (hatom : w.isatomic = true) (mask : Finset Nat) (lane : Nat) :
    (w.runs mask).count ⟨w.uid, lane, w.pc⟩ = if lane ∈ mask then 1 else 0 := by
  have hinj : Function.Injective fun l : Nat => (⟨w.uid, l, w.pc⟩ : Callback) := fun a b h => by
    simpa using h
  unfold WarpInst.runs
  rw [if_pos hatom, Multiset.count_map_eq_count' _ _ hinj, Multiset.count_eq_of_nodup mask.nodup]
  rfl

theorem count_issued {issued : List WarpInst} (hnodup : (issued.map (·.uid)).Nodup) (hw : w ∈ issued)
    (hcb : cb.uid = w.uid) :
    (issued.map fun w : WarpInst => w.runs w.active).sum.count cb = (w.runs w.active).count cb := by
  induction issued with
  | nil => cases hw
  | cons v issued ih =>
    obtain ⟨hv, hnodup⟩ := List.nodup_cons.mp hnodup
    rw [List.map_cons, List.sum_cons, Multiset.count_add]
    rcases List.mem_cons.mp hw with rfl | hw
    · have hzero : (issued.map fun w : WarpInst => w.runs w.active).sum.count cb = 0 := by
        rw [Multiset.count_eq_zero, mem_sum_map]
        rintro ⟨u, hu, hrun⟩
        apply hv
        have huid : u.uid = w.uid := (mem_runs.mp hrun).2.1.symm.trans hcb
        exact List.mem_map.mpr ⟨u, hu, huid⟩
      rw [hzero, add_zero]
    · have hzero : (v.runs v.active).count cb = 0 := by
        rw [Multiset.count_eq_zero]
        intro hrun
        apply hv
        have huid : w.uid = v.uid := hcb.symm.trans (mem_runs.mp hrun).2.1
        exact List.mem_map.mpr ⟨w, hw, huid⟩
      rw [hzero, zero_add, ih hnodup hw]

theorem outstanding_collector (hp : p ∈ c.collector) : (c.place p.inst).Outstanding :=
  .inl (List.count_pos_iff.mpr (List.mem_map_of_mem hp))

theorem outstanding_dispatch (hp : c.dispatchReg = some p) : (c.place p.inst).Outstanding := by
  refine .inr (.inr (.inl ?_))
  rw [place_dispatch hp]
  rfl

theorem outstanding_pipelineReg (hw : w ∈ c.pipelineReg) : (c.place w).Outstanding :=
  .inr (.inr (.inr (.inl (List.count_pos_iff.mpr hw))))

theorem outstanding_fetches (hf : f ∈ c.fetches) : (c.place f.inst).Outstanding :=
  .inr (.inr (.inr (.inr (.inl (List.count_pos_iff.mpr (List.mem_map_of_mem hf))))))

theorem mem_weigh_runs (h : cb ∈ c.weigh (.runs cfg)) : ∃ v, (c.place v).Outstanding ∧ cb.uid = v.uid := by
  have hreg : ∀ p : PipelineReg, cb ∈ p.weigh (.runs cfg) → cb.uid = p.inst.uid := by
    intro p hp
    unfold PipelineReg.weigh at hp
    split at hp
    · exact (mem_runs.mp hp).2.1
    · obtain ⟨mask, -, hm⟩ := mem_sum_map.mp hp
      exact (mem_runs.mp hm).2.1
  unfold weigh at h
  simp only [Multiset.mem_add] at h
  rcases h with ((h | h) | h) | h
  · obtain ⟨p, hp, hcb⟩ := mem_sum_map.mp h
    exact ⟨p.inst, outstanding_collector hp, hreg p hcb⟩
  · obtain ⟨p, hp, hcb⟩ := mem_sum_map.mp h
    exact ⟨p.inst, outstanding_dispatch (Option.mem_toList.mp hp), hreg p hcb⟩
  · obtain ⟨w, hw, hcb⟩ := mem_sum_map.mp h
    exact ⟨w, outstanding_pipelineReg hw, (mem_runs.mp hcb).2.1⟩
  · obtain ⟨f, hf, hcb⟩ := mem_sum_map.mp h
    have hcb : cb ∈ if cfg.useRuby = false ∧ f.replied = true then 0 else f.inst.runs f.mask := hcb
    split at hcb
    · cases Multiset.notMem_zero _ hcb
    · exact ⟨f.inst, outstanding_fetches hf, (mem_runs.mp hcb).2.1⟩

theorem weigh_atomics_eq_zero
    (h : ∀ v, (c.place v).Outstanding → v.warp = warp → v.isatomic = false) :
    c.weigh (.atomics warp) = 0 := by
  have haccess : ∀ v, (c.place v).Outstanding → ∀ mask, (Weight.atomics warp).access v mask = 0 := by
    intro v hv mask
    show (if v.warp = warp then v.atomics mask else 0) = 0
    split
    case isTrue hw => simp [WarpInst.atomics, h v hv hw]
    case isFalse => rfl
  have hreg : ∀ p : PipelineReg, (c.place p.inst).Outstanding → p.weigh (.atomics warp) = 0 := by
    intro p hp
    unfold PipelineReg.weigh
    split
    · exact haccess _ hp _
    · apply List.sum_eq_zero
      intro n hn
      obtain ⟨mask, -, rfl⟩ := List.mem_map.mp hn
      exact haccess _ hp mask
  have hsum : ∀ {α : Type} (f : α → Nat) (l : List α), (∀ a ∈ l, f a = 0) → (l.map f).sum = 0 := by
    intro α f l hl
    apply List.sum_eq_zero
    intro n hn
    obtain ⟨a, ha, rfl⟩ := List.mem_map.mp hn
    exact hl a ha
  have hfetch : ∀ f ∈ c.fetches, (Weight.atomics warp).fetch f = 0 := fun f hf =>
    haccess f.inst (outstanding_fetches hf) f.mask
  unfold weigh
  rw [hsum _ _ fun p hp => hreg p (outstanding_collector hp),
    hsum _ _ fun p hp => hreg p (outstanding_dispatch (Option.mem_toList.mp hp)),
    hsum _ _ fun w hw => haccess w (outstanding_pipelineReg hw) _,
    hsum _ _ hfetch]

theorem atomics_le_weigh (hf : c.fetches[n]? = some f)
    (hwarp : f.inst.warp = warp) : f.inst.atomics f.mask ≤ c.weigh (.atomics warp) := by
  have hfetch : (Weight.atomics warp).fetch f = f.inst.atomics f.mask := if_pos hwarp
  rw [weigh_eraseIdx hf, hfetch]
  exact Nat.le_add_right _ _

/-- **Atomics execute once.** In every reachable state the callback of a lane of an atomic has run at
most once, and only if the lane passed its guard; when the atomic has no access outstanding it has. The
count of a warp is raised by the lanes that passed their guard and is zero when the atomics are through,
and the assertions on callbacks and counts hold. -/
theorem atomicsOnce (cfg : Config) {c : Core} (h : (core cfg).Reachable c) :
    (∀ w ∈ c.issued, w.isatomic = true → ∀ lane,
      c.executed.count ⟨w.uid, lane, w.pc⟩ ≤ (if lane ∈ w.active then 1 else 0) ∧
        (¬ (c.place w).Outstanding →
          c.executed.count ⟨w.uid, lane, w.pc⟩ = if lane ∈ w.active then 1 else 0)) ∧
      (∀ cb ∈ c.executed, ∃ w ∈ c.issued,
        w.isatomic = true ∧ cb.uid = w.uid ∧ cb.pc = w.pc ∧ cb.lane ∈ w.active) ∧
      (∀ warp, (∀ w ∈ c.issued, w.warp = warp → w.isatomic = true → ¬ (c.place w).Outstanding) →
        c.nAtomic warp = 0) ∧
      (∀ warp i lanes accessq c', (core cfg).step c (.issue warp i lanes accessq) = some (.ok c') →
        i.opcode = .atom → ∃ w, c'.issued = w :: c.issued ∧ w.toInst = i ∧ w.warp = warp ∧
          w.active = ((lanes.filter (·.guard)).map (·.id)).toFinset ∧ (w.isatomic = true ↔ lanes ≠ []) ∧
          c'.nAtomic warp = c.nAtomic warp + w.active.card) ∧
      ∀ a e, (core cfg).step c a = some (.error e) →
        e ≠ .notAtomic ∧ e ≠ .nullCallback ∧ e ≠ .atomicUnderflow := by
  have hok := ok_of_reachableUnder h
  have hinv := loadInv_of_reachableUnder h
  have hatom := atomInv_of_reachableUnder h
  refine ⟨?_, ?_, ?_, ?_, ?_⟩
  · intro w hw hwa lane
    have htotal : c.executed.count ⟨w.uid, lane, w.pc⟩ + (c.weigh (.runs cfg)).count ⟨w.uid, lane, w.pc⟩ =
        if lane ∈ w.active then 1 else 0 := by
      rw [← Multiset.count_add, hatom.executed, count_issued hatom.nodup hw rfl, count_runs hwa]
    refine ⟨htotal ▸ Nat.le_add_right _ _, fun hdone => ?_⟩
    have hzero : (c.weigh (.runs cfg)).count ⟨w.uid, lane, w.pc⟩ = 0 := by
      rw [Multiset.count_eq_zero]
      intro hmem
      obtain ⟨v, hv, huid⟩ := mem_weigh_runs hmem
      have hvi : v ∈ c.issued := by
        apply hinv.mem_issued
        intro hnowhere
        rw [hnowhere] at hv
        exact absurd hv (by decide)
      rw [← hinv.uid_inj w hw v hvi huid] at hv
      exact hdone hv
    rwa [hzero, add_zero] at htotal
  · intro cb hcb
    have hmem : cb ∈ (c.issued.map fun w => w.runs w.active).sum := by
      rw [← hatom.executed]
      exact Multiset.mem_add.mpr (.inl hcb)
    obtain ⟨w, hw, hrun⟩ := mem_sum_map.mp hmem
    exact ⟨w, hw, mem_runs.mp hrun⟩
  · intro warp hdone
    rw [hatom.nAtomic]
    apply weigh_atomics_eq_zero
    intro v hv hwarp
    by_contra hva
    have hvi : v ∈ c.issued := by
      apply hinv.mem_issued
      intro hnowhere
      rw [hnowhere] at hv
      exact absurd hv (by decide)
    exact hdone v hvi hwarp (by simpa using hva) hv
  · intro warp i lanes accessq c' hs hop
    obtain ⟨x, hx, rfl⟩ := issue_ok hs
    refine ⟨x.inst, rfl, hx.toInst, hx.warp_eq, hx.executed.active, ?_, ?_⟩
    · rw [hx.executed.atomic]
      exact and_iff_right hop
    · show update c.nAtomic warp x.nAtomic warp = _
      rw [update_self, hx.executed.nAtomic, if_pos hop]
  · intro a e he
    cases step_error hok hinv he with
    | issue h => rcases h with (rfl | rfl | rfl) | rfl | rfl <;> decide
    | cycle h => rcases h with rfl | rfl <;> decide
    | @serviceShared w rest hpipe hlt =>
      have hle : w.atomics w.active ≤ c.weigh (.atomics w.warp) := by
        have haccess : (Weight.atomics w.warp).access w w.active = w.atomics w.active := if_pos rfl
        simp only [weigh, hpipe, List.map_cons, List.sum_cons, haccess]
        omega
      rw [hatom.nAtomic] at hlt
      omega
    | serviceFetch hf hready hlt =>
      have hle := atomics_le_weigh hf rfl
      rw [hatom.nAtomic] at hlt
      omega
    | _ => decide

/-- Every atomic on generic addresses of the local window can be issued. -/
def GenericLocalAtomicsIssue : Prop :=
  ∀ (cfg : Config) (c : Core), (core cfg).Reachable c → ∀ warp i lanes accessq, i.opcode = .atom →
    i.spaceSpec = .undefined → (∀ l ∈ lanes, whichspace l.addr = .local) →
    ∀ e, (core cfg).step c (.issue warp i lanes accessq) ≠ some (.error e)

section Runs

def atomGlobal : Inst := atomInst .global [1] [2, 3]

def atomGeneric : Inst := atomInst .undefined [1] [2, 3]

/-- Of two lanes, one fails its guard. The reply of the other leaves the memory and is written back. -/
def atomTwice : List Act :=
  [.issue 0 atomGlobal [⟨0, true, 0, .global⟩, ⟨1, false, 0, .global⟩] [{0}], .ldstIssue 0,
    .cycle false .miss, .reply 0, .serviceFetch 0, .writeback]

theorem atomicsOnce_atomGlobal : ∃ c, (core (uncached .looseRoundRobin)).Reachable c ∧
    ∃ w ∈ c.issued, c.executed.count ⟨w.uid, 0, w.pc⟩ = 1 ∧ c.executed.count ⟨w.uid, 1, w.pc⟩ = 0 := by
  obtain ⟨c, -, hc, hp⟩ := (core (uncached .looseRoundRobin)).exists_reachable_of_run atomTwice
    (fun c => c.issued.map fun w => (w.isatomic, w.active, decide (c.place w).Outstanding))
    (y := [(true, {0}, false)]) (by rfl)
  obtain ⟨w, hw, hprogress⟩ := List.mem_map.mp (hp ▸ List.mem_cons_self)
  simp only [Prod.mk.injEq, decide_eq_false_iff_not] at hprogress
  obtain ⟨hatom, hactive, hdone⟩ := hprogress
  have hcount := fun lane => ((atomicsOnce _ hc).1 w hw hatom lane).2 hdone
  exact ⟨c, hc, w, hw, by rw [hcount, hactive]; rfl, by rw [hcount, hactive]; rfl⟩

/-- A generic address in the local window stops the atomic. -/
theorem not_genericLocalAtomicsIssue : ¬ GenericLocalAtomicsIssue := by
  intro h
  refine h (uncached .looseRoundRobin) .init .init 0 atomGeneric [⟨0, true, LOCAL_GENERIC_START, .local⟩]
    [{0}] rfl rfl ?_ .atomSpace ?_
  · intro l hl
    rw [List.mem_singleton.mp hl]
    decide
  · rfl

end Runs

end Core

end GpgpuSimRuby.Shader
