import GpgpuSimRuby.Shader.Steps

/-!
# Memory barriers

When the barrier of a warp completes, its loads should have written back and its stores should have been
acknowledged. The loose round robin scheduler waits for the pending registers of the warp before it
issues the barrier, the two level scheduler does not, neither waits for the stores, and the `ldst_unit`
clears the barrier as soon as it gets there. So the law holds as long as a barrier is issued by a warp
that has nothing under way (`MembarReady`), and not otherwise.
-/

open Function (update update_self update_of_ne)

namespace GpgpuSimRuby.Shader

open Library Ptx

namespace Core

variable {cfg : Config} {c c' : Core} {warp : Nat}

/-- No store of the warp is unacknowledged or still has accesses to send. -/
def StoresAcknowledged (c : Core) (warp : Nat) : Prop :=
  c.storesOutstanding warp = 0 ∧
    ∀ p ∈ c.regs, p.inst.warp = warp → p.inst.isStore = true → p.accessq = []

/-- What a memory barrier of the warp stands for. -/
def MembarLaw (c : Core) (warp : Nat) : Prop := ¬ c.hasPendingWrites warp ∧ c.StoresAcknowledged warp

instance : Decidable (c.StoresAcknowledged warp) :=
  inferInstanceAs (Decidable (_ ∧ ∀ p ∈ c.regs, _))

instance : Decidable (c.MembarLaw warp) := inferInstanceAs (Decidable (_ ∧ _))

/-- The condition on the issue of a barrier: the stores of the warp are acknowledged and, where the
scheduler does not look, none of its registers is pending. -/
def MembarReady (cfg : Config) (c : Core) : Act → Prop
  | .issue warp i _ _ => i.op = .memoryBarrier →
      c.StoresAcknowledged warp ∧ (cfg.scheduler = .twoLevel → ¬ c.hasPendingWrites warp)
  | _ => True

instance (cfg : Config) (c : Core) : ∀ a, Decidable (c.MembarReady cfg a)
  | .issue .. => inferInstanceAs (Decidable (_ → _))
  | .unitWriteback _ | .ldstIssue _ | .cycle _ _ | .writeback | .serviceShared | .serviceFetch _
  | .serviceMemfence _ | .reply _ | .storeAck _ => .isTrue trivial

/-! ## Draining -/

/-- The warp has no more under way in `c'` than in `c`. -/
structure Drains (warp : Nat) (c c' : Core) : Prop where
  regTable : c'.regTable warp ⊆ c.regTable warp
  stores : c'.storesOutstanding warp ≤ c.storesOutstanding warp
  regs : ∀ p ∈ c'.regs, p.inst.warp = warp →
    ∃ q ∈ c.regs, q.inst = p.inst ∧ (q.accessq = [] → p.accessq = [])

theorem MembarLaw.of_drains (hlaw : c.MembarLaw warp) (h : Drains warp c c') : c'.MembarLaw warp := by
  obtain ⟨hpending, hstores, hregs⟩ := hlaw
  refine ⟨?_, ?_, ?_⟩
  · rw [hasPendingWrites, not_not] at hpending ⊢
    exact Finset.subset_empty.mp (hpending ▸ h.regTable)
  · exact Nat.le_zero.mp (hstores ▸ h.stores)
  · intro p hp hw hs
    obtain ⟨q, hq, hi, hnil⟩ := h.regs p hp hw
    exact hnil (hregs q hq (hi ▸ hw) (hi ▸ hs))

theorem Drains.of_eq (hregTable : c'.regTable warp ⊆ c.regTable warp)
    (hstores : c'.storesOutstanding warp ≤ c.storesOutstanding warp) (hregs : ∀ p ∈ c'.regs, p ∈ c.regs) :
    Drains warp c c' :=
  ⟨hregTable, hstores, fun p hp _ => ⟨p, hregs p hp, rfl, id⟩⟩

theorem releaseRegister_subset (c : Core) (w : WarpInst) (r : Nat) :
    (c.releaseRegister w r).regTable warp ⊆ c.regTable warp := by
  show update c.regTable w.warp _ warp ⊆ _
  by_cases hw : warp = w.warp
  · subst hw
    rw [update_self]
    exact Finset.erase_subset _ _
  · rw [update_of_ne hw]

theorem releaseRegisters_subset (c : Core) (w : WarpInst) :
    (c.releaseRegisters w).regTable warp ⊆ c.regTable warp := by
  rw [releaseRegisters_eq]
  show update c.regTable w.warp _ warp ⊆ _
  by_cases hw : warp = w.warp
  · subst hw
    rw [update_self]
    exact Finset.sdiff_subset
  · rw [update_of_ne hw]

theorem retire_subset (c : Core) (p : PipelineReg) : (c.retire p).regTable warp ⊆ c.regTable warp := by
  unfold retire
  by_cases hload : p.inst.isLoad = true
  · by_cases hspace : p.inst.space = .shared
    · simp [hload, hspace]
    · simp only [hload, hspace, if_true, if_false]
      split
      · exact Finset.Subset.refl _
      · exact releaseRegisters_subset _ _
  · simp [hload, warpInstComplete]

theorem writeback_subset (warp : Nat) {w : WarpInst} {out : List Nat} {x y : Core × Bool}
    (h : out.foldlM (writebackRegister w) x = .ok y) : y.1.regTable warp ⊆ x.1.regTable warp := by
  induction out generalizing x with
  | nil =>
    cases h
    exact Finset.Subset.refl _
  | cons r out ih =>
    simp only [List.foldlM_cons] at h
    obtain ⟨z, hz, h⟩ := bind_eq_ok.mp h
    apply (ih h).trans
    unfold writebackRegister at hz
    split at hz
    · split at hz
      · split at hz <;> cases hz
        · exact releaseRegister_subset _ w r
        · exact Finset.Subset.refl _
      · cases hz
    · cases hz
      exact releaseRegister_subset _ w r

theorem Sent.storesOutstanding_le {w : WarpInst} {mask : Finset Nat} {c₁ : Core} (hok : w.Ok)
    (hmask : mask ⊆ w.active) (hw : w.warp = warp → w.isLoad = true) (h : Sent cfg c w mask c₁) :
    c₁.storesOutstanding warp ≤ c.storesOutstanding warp := by
  cases h with
  | store replied hstore =>
    show update c.storesOutstanding w.warp _ warp ≤ _
    rw [update_of_ne]
    intro hwarp
    rw [hw hwarp.symm] at hstore
    cases hstore
  | perfect hload hruby h =>
    rw [doAtomic_eq hok hmask] at h
    cases h
    exact Nat.le_refl _
  | _ => exact Nat.le_refl _

theorem Dispatched.drains {p : PipelineReg} (hp : c.dispatchReg = some p) (hok : p.Ok)
    (hstores : c.StoresAcknowledged warp) (h : Dispatched cfg c p c') : Drains warp c c' := by
  have hmem : p ∈ c.regs := by simp [regs, hp]
  -- the instruction in the dispatch register is no store of the warp with an access to send
  have hload : p.accessq ≠ [] → p.inst.warp = warp → p.inst.isLoad = true := by
    intro hne hw
    refine (hok.accessq.mp hne).1.1.resolve_right fun hs => ?_
    exact hne (hstores.2 p hmem hw hs)
  have hcollector : ∀ q ∈ c.collector, q ∈ c.regs := fun q hq => List.mem_append_left _ hq
  have hretire : ∀ {c₁ : Core} {q : PipelineReg}, c₁.regTable = c.regTable → c₁.collector = c.collector →
      c₁.storesOutstanding warp ≤ c.storesOutstanding warp → Drains warp c (c₁.retire q) := by
    intro c₁ q hr hcol hs
    refine .of_eq ?_ ?_ ?_
    · exact hr ▸ retire_subset c₁ q
    · rw [retire_eq]
      exact hs
    · rw [retire_eq]
      intro q hq
      refine hcollector q (hcol ▸ ?_)
      simpa [regs] using hq
  cases h with
  | stall => exact .of_eq (Finset.Subset.refl _) (Nat.le_refl _) fun _ hq => hq
  | idle => exact hretire rfl rfl (Nat.le_refl _)
  | @sent mask next rest c₁ hq hsent =>
    have hne : p.accessq ≠ [] := by
      rw [hq]
      exact List.cons_ne_nil _ _
    have hmask := hok.mask_subset hq
    have hframe := hsent.frame hok.inst hmask
    have hle := hsent.storesOutstanding_le hok.inst hmask (hload hne)
    refine ⟨?_, hle, ?_⟩
    · rw [hframe]
    · intro q hq' _
      rw [hframe] at hq'
      rcases List.mem_append.mp hq' with hq' | hq'
      · exact ⟨q, hcollector q hq', rfl, id⟩
      · cases List.mem_singleton.mp (by simpa using hq' : q ∈ [(⟨p.inst, next :: rest⟩ : PipelineReg)])
        exact ⟨p, hmem, rfl, fun hnil => absurd hnil hne⟩
  | @last mask c₁ hq hsent =>
    have hne : p.accessq ≠ [] := by
      rw [hq]
      exact List.cons_ne_nil _ _
    have hmask := hok.mask_subset hq
    have hframe := hsent.frame hok.inst hmask
    exact hretire (by rw [hframe]) (by rw [hframe])
      (hsent.storesOutstanding_le hok.inst hmask (hload hne))
  | membar => exact hretire rfl rfl (Nat.le_refl _)
  | memfence => exact hretire rfl rfl (Nat.le_refl _)

theorem Moved.drains {a : Act} (hset : c.membar warp = true) (hstores : c.StoresAcknowledged warp)
    (h : Moved cfg c a c') : Drains warp c c' := by
  have hsame : ∀ {c₁ : Core}, c₁.regTable = c.regTable → c₁.storesOutstanding = c.storesOutstanding →
      c₁.collector = c.collector → c₁.dispatchReg = c.dispatchReg → Drains warp c c₁ := by
    intro c₁ hr hs hcol hd
    refine .of_eq (by rw [hr]) (by rw [hs]) ?_
    rw [regs, hcol, hd]
    exact fun p hp => hp
  have hack : ∀ v : Nat, update c.storesOutstanding v (c.storesOutstanding v - 1) warp ≤
      c.storesOutstanding warp := by
    intro v
    by_cases hv : warp = v
    · subst hv
      rw [update_self]
      exact Nat.sub_le _ _
    · rw [update_of_ne hv]
  cases h with
  | @issue v i lanes accessq x h =>
    have hv : v ≠ warp := by
      rintro rfl
      exact h.canIssue.1 (.inl hset)
    refine ⟨?_, Nat.le_refl _, ?_⟩
    · show update c.regTable v _ warp ⊆ _
      rw [update_of_ne hv.symm]
    · intro p hp hw
      by_cases ha : x.inst.op = .alu
      · exact ⟨p, by simpa [regs, afterIssue, ha] using hp, rfl, id⟩
      · have hp' : p = ⟨x.inst, accessq⟩ ∨ p ∈ c.regs := by
          simpa [regs, afterIssue, ha, or_assoc] using hp
        rcases hp' with rfl | hp'
        · exact absurd (h.warp_eq.symm.trans hw) hv
        · exact ⟨p, hp', rfl, id⟩
  | unitWriteback h =>
    exact .of_eq (releaseRegisters_subset _ _) (by rw [releaseRegisters_eq]; exact Nat.le_refl _)
      (by rw [releaseRegisters_eq]; exact fun p hp => hp)
  | ldstIssue hfree h =>
    refine .of_eq (Finset.Subset.refl _) (Nat.le_refl _) ?_
    intro q hq
    refine List.mem_append_left _ ?_
    rcases List.mem_append.mp hq with hq | hq
    · exact List.mem_of_mem_eraseIdx hq
    · cases List.mem_singleton.mp hq
      exact List.mem_of_getElem? h
  | cycle hp hok h => exact h.drains hp hok hstores
  | @writeback w x hwb h =>
    have hx := writeback_frame h
    have hsub := writeback_subset warp h
    have hcore : ∀ core : Core, core = { x.1 with completed := core.completed } →
        Drains warp c core := by
      intro core hcore
      rw [hcore]
      exact .of_eq hsub (by rw [hx]) (by rw [hx]; exact fun p hp => hp)
    apply hcore
    split <;> rfl
  | ruby hruby hwb hf hle =>
    refine .of_eq (Finset.Subset.refl _) ?_ fun p hp => hp
    show (if _ then _ else _ : Nat → Nat) warp ≤ _
    split
    · exact hack _
    · exact Nat.le_refl _
  | storeAck hruby hf hstore => exact .of_eq (Finset.Subset.refl _) (hack _) fun p hp => hp
  | _ => exact hsame rfl rfl rfl rfl

/-! ## The law -/

theorem Dispatched.membar_of_set {p : PipelineReg} (hok : p.Ok) (h : Dispatched cfg c p c')
    (hset : c'.membar warp = true) : c.membar warp = true := by
  have hsent : ∀ {mask rest c₁}, p.accessq = mask :: rest → Sent cfg c p.inst mask c₁ →
      c₁.membar = c.membar := by
    intro mask rest c₁ hq hsent
    rw [hsent.frame hok.inst (hok.mask_subset hq)]
  cases h with
  | stall => exact hset
  | idle =>
    rw [retire_eq] at hset
    exact hset
  | sent hq h =>
    rw [← hsent hq h]
    exact hset
  | last hq h =>
    rw [retire_eq] at hset
    rw [← hsent hq h]
    exact hset
  | membar hop hold =>
    rw [retire_eq] at hset
    by_cases hw : warp = p.inst.warp
    · exact hw ▸ hold
    · simpa only [update_of_ne hw] using hset
  | memfence =>
    rw [retire_eq] at hset
    exact hset

theorem Moved.membar_of_set {a : Act} (h : Moved cfg c a c') (hset : c'.membar warp = true) :
    c.membar warp = true ∨ ∃ i lanes accessq x, a = .issue warp i lanes accessq ∧
      Issued cfg c warp i lanes accessq x ∧ x.inst.op = .memoryBarrier ∧
      c' = c.afterIssue warp x accessq := by
  cases h with
  | @issue v i lanes accessq x h =>
    by_cases hop : x.inst.op = .memoryBarrier
    · by_cases hv : warp = v
      · subst hv
        exact .inr ⟨i, lanes, accessq, x, rfl, h, hop, rfl⟩
      · simp only [afterIssue, hop, if_true, update_of_ne hv] at hset
        exact .inl hset
    · simp only [afterIssue, hop, if_false] at hset
      exact .inl hset
  | unitWriteback =>
    rw [releaseRegisters_eq] at hset
    exact .inl hset
  | cycle hp hok h => exact .inl (h.membar_of_set hok hset)
  | @writeback w x hwb h =>
    have hx := writeback_frame h
    have hcore : ∀ core : Core, core = { x.1 with completed := core.completed } →
        core.membar = c.membar := by
      intro core hcore
      rw [hcore, hx]
    rw [hcore _ (by split <;> rfl)] at hset
    exact .inl hset
  | @serviceMemfence n v hwb h hold =>
    by_cases hv : warp = v
    · exact .inl (hv ▸ hold)
    · simp only [update_of_ne hv] at hset
      exact .inl hset
  | _ => exact .inl hset

theorem Issued.membarLaw_afterIssue {i : Inst} {lanes : List Lane} {accessq : List (Finset Nat)} {x : Exec}
    (h : Issued cfg c warp i lanes accessq x) (hop : x.inst.op = .memoryBarrier)
    (hready : c.MembarReady cfg (.issue warp i lanes accessq)) :
    (c.afterIssue warp x accessq).MembarLaw warp := by
  have hi : i.op = .memoryBarrier := h.toInst ▸ hop
  obtain ⟨hstores, htwo⟩ := hready hi
  have hpending : ¬ c.hasPendingWrites warp := by
    have hcan := h.canIssue.2
    cases hsched : cfg.scheduler with
    | twoLevel => exact htwo hsched
    | looseRoundRobin =>
      rw [hsched] at hcan
      exact fun hp => hcan.2 ⟨hi, hp⟩
  have hout : x.inst.out = [] := Inst.out_eq_nil _ (by rw [hop]; decide) (by rw [hop]; decide)
  refine ⟨?_, hstores.1, ?_⟩
  · simpa [hasPendingWrites, afterIssue, hout] using hpending
  · intro p hp hw hstore
    have hp' : p = ⟨x.inst, accessq⟩ ∨ p ∈ c.regs := by
      simpa [regs, afterIssue, hop, or_assoc] using hp
    rcases hp' with rfl | hp'
    · simp [Inst.isStore, hop] at hstore
    · exact hstores.2 p hp' hw hstore

/-- Where every barrier is issued by a warp that is ready for it, a warp at a barrier has nothing under
way. -/
theorem membarLaw_of_membar (h : (core cfg).ReachableUnder (MembarReady cfg) c) (warp : Nat)
    (hset : c.membar warp = true) : c.MembarLaw warp := by
  induction h with
  | init => cases hset
  | step hc hready hs ih =>
    have hmoved := step_ok (ok_of_reachableUnder hc) hs
    rcases hmoved.membar_of_set hset with hold | ⟨i, lanes, accessq, x, rfl, hissued, hop, rfl⟩
    · have hlaw := ih hold
      exact hlaw.of_drains (hmoved.drains hold hlaw.2)
    · exact hissued.membarLaw_afterIssue hop hready

/-- **The memory barrier law**, in every run that issues barriers only for warps that are ready: at
the action that clears a barrier, the loads of the warp have written back and its stores have been
acknowledged. -/
theorem membarLaw (cfg : Config) {c : Core} (h : (core cfg).ReachableUnder (MembarReady cfg) c) :
    ∀ a c' warp, (core cfg).step c a = some (.ok c') → c.membar warp = true → c'.membar warp = false →
      c'.MembarLaw warp := by
  intro a c' warp hs hset _
  have hlaw := membarLaw_of_membar h warp hset
  exact hlaw.of_drains ((step_ok (ok_of_reachableUnder h) hs).drains hset hlaw.2)

/-- The law for every run under a scheduler, without Ruby. -/
def MembarLawUnder (scheduler : Scheduler) : Prop :=
  ∀ (cfg : Config) (c : Core), cfg.scheduler = scheduler → cfg.useRuby = false → (core cfg).Reachable c →
    ∀ a c' warp, (core cfg).step c a = some (.ok c') → c.membar warp = true → c'.membar warp = false →
      c'.MembarLaw warp

section Runs

/-- A core without Ruby and without an L1D. -/
def uncached (scheduler : Scheduler) : Config where
  scheduler := scheduler
  smid := 0
  useRuby := false
  hasL1D := false
  gmemSkipL1D := false
  sendMemfenceToProtocol := false
  perfectMem := false

def stGlobal : Inst := ⟨0, .st, .global, none, [], [1], by decide, by decide, by decide, by decide⟩

def ldGlobal : Inst := ⟨0, .ld, .global, none, [1], [2], by decide, by decide, by decide, by decide⟩

def membarGl : Inst := ⟨8, .membar, .undefined, none, [], [], by decide, by decide, by decide, by decide⟩

/-- One lane of warp 0 accesses memory, and its access is sent. -/
def accessOnce (i : Inst) : List Act :=
  [.issue 0 i [⟨0, true, 0, .global⟩] [{0}], .ldstIssue 0, .cycle false .miss]

/-- A barrier of warp 0 is issued and gets to the dispatch register. -/
def membarOnce : List Act := [.issue 0 membarGl [⟨0, true, 0, .undefined⟩] [], .ldstIssue 0]

/-- What the next cycle of the dispatch register does to the barrier of warp 0. -/
def nextCycle (cfg : Config) (c : Core) : Option (Bool × Bool × Bool) :=
  match (core cfg).step c (.cycle false .miss) with
  | some (.ok c') => some (c.membar 0, c'.membar 0, decide (c'.MembarLaw 0))
  | _ => none

theorem nextCycle_eq_some {b : Bool} (h : nextCycle cfg c = some (true, false, b)) :
    ∃ c', (core cfg).step c (.cycle false .miss) = some (.ok c') ∧ c.membar 0 = true ∧
      c'.membar 0 = false ∧ decide (c'.MembarLaw 0) = b := by
  unfold nextCycle at h
  split at h
  case h_1 c' hs =>
    simp only [Option.some.injEq, Prod.mk.injEq] at h
    exact ⟨c', hs, h.1, h.2.1, h.2.2⟩
  case h_2 => cases h

/-- The store is acknowledged before the barrier is issued. -/
theorem membarLaw_store : ∃ c c', (core (uncached .looseRoundRobin)).step c (.cycle false .miss) =
    some (.ok c') ∧ c.membar 0 = true ∧ c'.membar 0 = false ∧ c'.MembarLaw 0 := by
  obtain ⟨c, -, hc, hnext⟩ := (core (uncached .looseRoundRobin)).exists_reachableUnder_of_run
    (MembarReady (uncached .looseRoundRobin)) (accessOnce stGlobal ++ [.storeAck 0] ++ membarOnce)
    (nextCycle (uncached .looseRoundRobin)) (y := some (true, false, true)) (by decide) (by rfl)
  obtain ⟨c', hs, hset, hclear, -⟩ := nextCycle_eq_some hnext
  exact ⟨c, c', hs, hset, hclear, membarLaw _ hc _ c' 0 hs hset hclear⟩

/-- Under either scheduler a barrier clears with a store of its warp in flight, and under the two level
one with a load in flight as well. -/
theorem not_membarLawUnder : ¬ MembarLawUnder .looseRoundRobin ∧ ¬ MembarLawUnder .twoLevel := by
  have hrun : ∀ scheduler i, (((core (uncached scheduler)).run (accessOnce i ++ membarOnce)
      (core (uncached scheduler)).init).map (nextCycle (uncached scheduler)) =
        some (some (true, false, false))) → ¬ MembarLawUnder scheduler := by
    intro scheduler i h hlaw
    obtain ⟨c, -, hc, hnext⟩ := Machine.exists_reachable_of_run _ _ _ h
    obtain ⟨c', hs, hset, hclear, hfalse⟩ := nextCycle_eq_some hnext
    exact of_decide_eq_false hfalse (hlaw _ c rfl rfl hc _ c' 0 hs hset hclear)
  exact ⟨hrun .looseRoundRobin stGlobal (by rfl), hrun .twoLevel ldGlobal (by rfl)⟩

end Runs

end Core

end GpgpuSimRuby.Shader
