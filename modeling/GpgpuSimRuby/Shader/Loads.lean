import GpgpuSimRuby.Shader.LoadInvariant

/-!
# Load completion

Every action keeps the invariant of the loads under way, so the counts of `m_pending_writes` are
right in every reachable state, the assertions on them hold, and a load with a destination register
releases its registers and completes once, with its last access.
-/

open Function (update update_eq_self)

namespace GpgpuSimRuby.Shader

open Library Ptx

namespace Core

variable {cfg : Config} {c c' : Core} {w v : WarpInst} {n : Nat} {f : MemFetch} {p : PipelineReg}
variable {executed : Multiset Callback}

/-! ## Where the actions move an instruction -/

theorem count_map_eraseIdx {α : Type} (f : α → WarpInst) {l : List α} {a : α}
    (h : l[n]? = some a) (v : WarpInst) :
    (l.map f).count v = ((l.eraseIdx n).map f).count v + if f a = v then 1 else 0 := by
  rw [← ((perm_cons_eraseIdx h).map f).count_eq v, List.map_cons, List.count_cons]
  simp only [beq_iff_eq]

theorem count_eraseIdx {l : List WarpInst} (h : l[n]? = some w) (v : WarpInst) :
    l.count v = (l.eraseIdx n).count v + if w = v then 1 else 0 := by
  simpa using count_map_eraseIdx id h v

theorem not_counted_of_not_load (h : w.isLoad = false) : ¬ w.Counted := by
  rintro ⟨hload, -⟩
  rw [hload] at h
  cases h

/-- An arithmetic instruction leaves: it has no pending writes. -/
theorem unitWriteback_loadInv (hc : c.LoadInv) (h : c.units[n]? = some w) (hload : w.isLoad = false) :
    (({ c with units := c.units.eraseIdx n }.releaseRegisters w).warpInstComplete w).LoadInv := by
  have hcount := count_eraseIdx h
  have hself := hcount w
  rw [if_pos rfl] at hself
  have hunits : (c.place w).units = (c.units.eraseIdx n).count w + 1 := hself
  have hw := (hc.single w).executing (by omega)
  have hone : (c.place w).units = 1 := congrArg Place.units hw
  have hnot := not_counted_of_not_load hload
  rw [releaseRegisters_eq]
  set c' := (({ c with units := c.units.eraseIdx n } : Core).release w w.out).warpInstComplete w with hc'
  have hplace : c'.place w = { c.place w with units := 0 } := by
    have hzero : (c.units.eraseIdx n).count w = 0 := by omega
    simp [hc', place, release, warpInstComplete, hzero]
  refine hc.finish (w := w) ?_ ?_ ?_ ?_ ?_ rfl
  · intro v hv
    have hother := hcount v
    rw [if_neg hv.symm, Nat.add_zero] at hother
    simp [hc', place, release, warpInstComplete, hother]
  · intro warp r
    rw [if_neg fun h => hnot h.1]
    rfl
  · rw [hw]
    simp [Place.Underway]
  · rw [hplace, hw]
    simp [Place.Underway]
  · rw [hplace, hw]
    exact ⟨by simp, by simp⟩

/-- An instruction comes from the collector to the dispatch register. -/
theorem ldstIssue_loadInv (hc : c.LoadInv) (hfree : c.dispatchReg = none)
    (h : c.collector[n]? = some p) : LoadInv { c with
      collector := c.collector.eraseIdx n
      dispatchReg := some p
      pendingWrites :=
        if p.inst.isLoad ∧ p.inst.space ≠ .shared then
          update c.pendingWrites p.inst.warp
            ((c.pendingWrites p.inst.warp).raise p.accessq.length p.inst.out)
        else c.pendingWrites } := by
  have hcount := count_map_eraseIdx (·.inst) h
  have hself := hcount p.inst
  rw [if_pos rfl] at hself
  have hcollector : (c.place p.inst).collector = _ := hself
  have hw := (hc.single p.inst).collected (by omega)
  have hone : (c.place p.inst).collector = 1 := congrArg Place.collector hw
  have hissued := hc.mem_issued p.inst (by rw [hw]; decide)
  have hunder : (c.place p.inst).Underway p.inst := .inl (by omega)
  -- a load has no pending writes before it gets here
  have hpending : p.inst.Counted → (if p.inst.isLoad ∧ p.inst.space ≠ .shared then
      update c.pendingWrites p.inst.warp
        ((c.pendingWrites p.inst.warp).raise p.accessq.length p.inst.out) else c.pendingWrites) =
      (c.setPending p.inst p.inst.out (some p.accessq.length)).pendingWrites := by
    intro hcounted
    have hif : p.inst.isLoad = true ∧ p.inst.space ≠ .shared := hcounted
    rw [if_pos hif, PendingWrites.raise_eq (hc.nodup _ hissued)]
    · rfl
    · intro r hr
      rw [hc.pending p.inst hcounted hunder r hr, if_neg]
      rw [hw]
      simp [Place.InUnit]
  set c' : Core := { c with
    collector := c.collector.eraseIdx n
    dispatchReg := some p
    pendingWrites :=
      if p.inst.isLoad ∧ p.inst.space ≠ .shared then
        update c.pendingWrites p.inst.warp
          ((c.pendingWrites p.inst.warp).raise p.accessq.length p.inst.out)
      else c.pendingWrites } with hc'
  have hplace : c'.place p.inst = ⟨0, 0, some p.accessq.length, 0, 0, false⟩ := by
    have hzero : ((c.collector.eraseIdx n).map (·.inst)).count p.inst = 0 := by omega
    have hplace : c'.place p.inst =
        { c.place p.inst with collector := 0, dispatch := some p.accessq.length } := by
      simp [hc', place, hzero]
    rw [hplace, hw]
  refine hc.move (w := p.inst) hissued ?_ ?_ (fun _ => hunder) (.inr ?_) ?_ ?_ rfl
  · intro v hv
    have hother := hcount v
    rw [if_neg hv.symm, Nat.add_zero] at hother
    simp [hc', place, hother, hfree, hv.symm]
  · intro warp r hr
    by_cases hcounted : p.inst.Counted
    · show (if _ then _ else _ : Nat → PendingWrites) warp r = _
      rw [hpending hcounted, setPending_pendingWrites, if_neg fun h => hr ⟨hcounted, h⟩]
    · have hif : ¬ (p.inst.isLoad = true ∧ p.inst.space ≠ .shared) := hcounted
      show (if _ then _ else _ : Nat → PendingWrites) warp r = _
      rw [if_neg hif]
  · rw [hplace]
    exact iff_of_true (.inr (.inr (.inl rfl))) hunder
  · rw [hplace]
    exact ⟨by simp, by simp⟩
  · intro hcounted r hr
    show (if _ then _ else _ : Nat → PendingWrites) p.inst.warp r = _
    rw [hpending hcounted, setPending_pendingWrites, if_pos ⟨rfl, hr⟩, hplace, if_pos (.inl rfl)]
    rfl

/-! ## The dispatch register -/

theorem place_dispatch (hp : c.dispatchReg = some p) : (c.place p.inst).dispatch = some p.accessq.length := by
  simp [place, hp]

/-- What is in the dispatch register is nowhere before it. -/
theorem LoadInv.place_dispatched (hc : c.LoadInv) (hp : c.dispatchReg = some p) :
    c.place p.inst = { c.place p.inst with
      collector := 0, units := 0, dispatch := some p.accessq.length, pipe := 0 } ∧
      (p.inst.space = .shared → (c.place p.inst).nextWb = false) := by
  have hd := place_dispatch hp
  obtain ⟨hstages, -⟩ := hc.single p.inst
  generalize c.place p.inst = pl at *
  obtain ⟨col, u, d, pi, f, n⟩ := pl
  simp only at hd
  subst hd
  simp only [Option.isSome_some, Bool.toNat_true] at hstages
  simp only [Place.mk.injEq, true_and, and_true]
  refine ⟨⟨by omega, by omega, by omega⟩, fun hs => ?_⟩
  rw [if_pos hs] at hstages
  cases n with
  | false => rfl
  | true =>
    rw [Bool.toNat_true] at hstages
    omega

theorem LoadInv.dispatched_issued (hc : c.LoadInv) (hp : c.dispatchReg = some p) : p.inst ∈ c.issued := by
  apply hc.mem_issued
  intro h
  have hd := place_dispatch hp
  rw [h] at hd
  cases hd

/-- A load in the dispatch register still waits for the rest of its accesses, for its fetches, and
for its writeback. -/
theorem LoadInv.pending_dispatched (hc : c.LoadInv) (hp : c.dispatchReg = some p)
    (hcounted : p.inst.Counted) : ∀ r ∈ p.inst.out, c.pendingWrites p.inst.warp r =
      some (p.accessq.length + (c.place p.inst).fetches + (c.place p.inst).nextWb.toNat) := by
  intro r hr
  have hd := place_dispatch hp
  have hin : (c.place p.inst).InUnit := .inl (by rw [hd]; rfl)
  rw [hc.pending _ hcounted (inUnit_underway hr hin) r hr, if_pos hin, Place.accesses, hd]
  rfl

variable {stores nAtomic : Nat → Nat}

/-- An access leaves the queue: it has been served, or is a fetch from now on. -/
theorem LoadInv.dispatch (hc : c.LoadInv) (hp : c.dispatchReg = some p)
    {queue : List (Finset Nat)} {fetches : List MemFetch} {pending : Nat → PendingWrites}
    {k : Nat} (hf : ∀ v, (fetches.map (·.inst)).count v =
      (c.fetches.map (·.inst)).count v + if p.inst = v then k else 0)
    (hpend : ∀ warp r, ¬ (p.inst.Counted ∧ warp = p.inst.warp ∧ r ∈ p.inst.out) →
      pending warp r = c.pendingWrites warp r)
    (hcount : p.inst.Counted → ∀ r ∈ p.inst.out, pending p.inst.warp r =
      some (queue.length + ((c.place p.inst).fetches + k) + (c.place p.inst).nextWb.toNat)) :
    LoadInv { c with
      dispatchReg := some ⟨p.inst, queue⟩
      fetches := fetches
      pendingWrites := pending
      storesOutstanding := stores
      executed := executed } := by
  obtain ⟨hw, hshared⟩ := hc.place_dispatched hp
  have hd := place_dispatch hp
  have hunder : (c.place p.inst).Underway p.inst := .inr (.inr (.inl (by rw [hd]; rfl)))
  set c' : Core := { c with
    dispatchReg := some ⟨p.inst, queue⟩
    fetches := fetches
    pendingWrites := pending
    storesOutstanding := stores
    executed := executed } with hc'
  have hplace : c'.place p.inst = { c.place p.inst with
      dispatch := some queue.length
      fetches := (c.place p.inst).fetches + k } := by
    have := hf p.inst
    rw [if_pos rfl] at this
    simp [hc', place, this]
  refine hc.move (w := p.inst) (hc.dispatched_issued hp) ?_ hpend (fun _ => hunder)
    (.inr ?_) ?_ ?_ rfl
  · intro v hv
    have hother := hf v
    rw [if_neg hv.symm, Nat.add_zero] at hother
    simp [hc', place, hother, hp, hv.symm]
  · rw [hplace]
    exact iff_of_true (.inr (.inr (.inl rfl))) hunder
  · obtain ⟨hstages, -⟩ := hc.single p.inst
    rw [hd] at hstages
    rw [hplace, hw]
    rw [hw] at hstages
    exact ⟨hstages, by simp⟩
  · intro hcounted r hr
    rw [hplace, if_pos (.inl rfl), Place.accesses]
    exact hcount hcounted r hr

theorem out_eq_nil_of_not_load {w : WarpInst} (hop : w.op ≠ .alu) (hload : w.isLoad = false) :
    w.out = [] := by
  refine Inst.out_eq_nil _ (fun h => ?_) hop
  rw [Inst.isLoad_iff _ |>.mpr h] at hload
  cases hload

/-- An access that is sent out. -/
theorem Sent.loadInv (hc : c.LoadInv) (hp : c.dispatchReg = some p) (hok : p.Ok)
    {mask : Finset Nat} {rest : List (Finset Nat)} (hq : p.accessq = mask :: rest) {c₁ : Core}
    (h : Sent cfg c p.inst mask c₁) : LoadInv { c₁ with dispatchReg := some ⟨p.inst, rest⟩ } := by
  have hmask := hok.mask_subset hq
  have hne := (hok.generates hq).2
  have hlen : p.accessq.length = rest.length + 1 := by rw [hq, List.length_cons]
  have hpending := hc.pending_dispatched hp
  rw [hlen] at hpending
  -- a load that is sent stays counted
  have hsent : ∀ {replied : Bool} {executed : Multiset Callback}, LoadInv { c with
      dispatchReg := some ⟨p.inst, rest⟩
      fetches := ⟨p.inst, mask, replied⟩ :: c.fetches
      executed := executed } := by
    intro replied executed
    refine hc.dispatch hp (k := 1) ?_ (fun _ _ _ => rfl) ?_
    · intro v
      rw [List.map_cons, List.count_cons]
      simp only [beq_iff_eq]
    · intro hcounted r hr
      rw [hpending hcounted r hr]
      congr 1
      omega
  cases h with
  | @hit pw hload hatom hpw =>
    have hcounted : p.inst.Counted := ⟨hload, hne⟩
    have hone : ∀ r ∈ p.inst.out, c.pendingWrites p.inst.warp r =
        some (rest.length + (c.place p.inst).fetches + (c.place p.inst).nextWb.toNat + 1) := by
      intro r hr
      rw [hpending hcounted r hr]
      congr 1
      omega
    rw [PendingWrites.lower_eq (hc.nodup _ (hc.dispatched_issued hp)) hone] at hpw
    cases hpw
    refine hc.dispatch hp (k := 0) (fun v => by simp) ?_ ?_
    · intro warp r hr
      show (c.setPending p.inst p.inst.out _).pendingWrites warp r = _
      rw [setPending_pendingWrites, if_neg fun h => hr ⟨hcounted, h⟩]
    · intro _ r hr
      show (c.setPending p.inst p.inst.out _).pendingWrites p.inst.warp r = _
      rw [setPending_pendingWrites, if_pos ⟨rfl, hr⟩]
      rfl
  | written hstore =>
    have hnot := not_counted_of_not_load hstore
    exact hc.dispatch hp (k := 0) (fun v => by simp) (fun _ _ _ => rfl) fun h => absurd h hnot
  | store replied hstore =>
    have hnot := not_counted_of_not_load hstore
    refine hc.dispatch hp (k := 1) ?_ (fun _ _ _ => rfl) fun h => absurd h hnot
    intro v
    show (((⟨p.inst, mask, replied⟩ : MemFetch) :: c.fetches).map (·.inst)).count v = _
    rw [List.map_cons, List.count_cons]
    simp only [beq_iff_eq]
  | load hload => exact hsent
  | perfect hload hruby h =>
    rw [doAtomic_eq hok.inst hmask] at h
    cases h
    exact hsent

/-! ## Retirement -/

theorem retire_dispatchReg (reg : Option PipelineReg) (p : PipelineReg) :
    retire { c with dispatchReg := reg } p = c.retire p := by
  unfold retire
  by_cases hload : p.inst.isLoad = true
  · by_cases hspace : p.inst.space = .shared
    · simp only [hload, hspace, if_true]
    · simp only [hload, hspace, if_true, if_false]
      split <;> simp only [releaseRegisters_eq, release, warpInstComplete]
  · simp only [hload, Bool.false_eq_true, if_false, warpInstComplete]

/-- A load whose data is to come only leaves the register. -/
theorem retire_pending {w : WarpInst} (hcounted : w.Counted) (hne : w.out ≠ [])
    (h : ∀ r ∈ w.out, c.pendingWrites w.warp r = some (n + 1)) :
    c.retire ⟨w, []⟩ = { c with dispatchReg := none } := by
  simp only [retire, hcounted.1, hcounted.2, if_true, if_false, PendingWrites.pendingRequests_succ hne h,
    update_eq_self]

/-- A load with all its data completes and gives its registers back. -/
theorem retire_done {w : WarpInst} (hcounted : w.Counted) (hnodup : w.out.Nodup)
    (h : ∀ r ∈ w.out, c.pendingWrites w.warp r = some 0) : c.retire ⟨w, []⟩ =
      { ((c.setPending w w.out none).warpInstComplete w).release w w.out with dispatchReg := none } := by
  simp only [retire, hcounted.1, hcounted.2, if_true, if_false, Bool.false_eq_true,
    PendingWrites.pendingRequests_zero hnodup h, releaseRegisters_eq, setPending]

/-- The dispatch register is given up when its accesses have all been sent. -/
theorem LoadInv.retire (hc : c.LoadInv) {w : WarpInst} (hp : c.dispatchReg = some ⟨w, []⟩)
    (hop : w.op ≠ .alu) : (c.retire ⟨w, []⟩).LoadInv := by
  obtain ⟨hw, hshared⟩ := hc.place_dispatched hp
  have hissued := hc.dispatched_issued hp
  have hd := place_dispatch hp
  have hunder : (c.place w).Underway w := .inr (.inr (.inl (by rw [hd]; rfl)))
  simp only [List.length_nil] at hw hshared hissued hd
  -- apart from the instruction itself, nothing moves
  have hother : ∀ v, v ≠ w → place { c with dispatchReg := none } v = c.place v := by
    intro v hv
    simp [place, hp, hv.symm]
  by_cases hload : w.isLoad = true
  · by_cases hspace : w.space = .shared
    · -- to the pipeline of the shared memory
      have hnot : ¬ w.Counted := fun h => h.2 hspace
      have hnext := hshared hspace
      have hretire : c.retire ⟨w, []⟩ =
          { c with pipelineReg := c.pipelineReg ++ [w], dispatchReg := none } := by
        simp only [Core.retire, hload, hspace, if_true]
      rw [hretire]
      set c' : Core := { c with pipelineReg := c.pipelineReg ++ [w], dispatchReg := none } with hc'
      have hplace : c'.place w = { c.place w with dispatch := none, pipe := 1 } := by
        have hpipe : (c.place w).pipe = 0 := congrArg Place.pipe hw
        have : c.pipelineReg.count w = 0 := hpipe
        simp [hc', place, this]
      refine hc.move hissued ?_ (fun _ _ _ => rfl) (fun _ => hunder) (.inr ?_) ?_ ?_ rfl
      · intro v hv
        simp [hc', place, hp, hv.symm]
      · rw [hplace]
        exact iff_of_true (.inr (.inr (.inr (.inl (by simp))))) hunder
      · rw [hplace, hw, hnext]
        exact ⟨by simp, by simp⟩
      · exact fun h => absurd h hnot
    · have hcounted : w.Counted := ⟨hload, hspace⟩
      have hpending := hc.pending_dispatched hp hcounted
      simp only [List.length_nil, Nat.zero_add] at hpending
      have hsingle : Place.Single { c.place w with dispatch := none } w := by
        rw [hw]
        exact ⟨by simp [hspace], by simp⟩
      by_cases hmore : w.out ≠ [] ∧ 0 < (c.place w).fetches + (c.place w).nextWb.toNat
      · -- some of its accesses are still to come
        obtain ⟨hne, hpos⟩ := hmore
        have hin : Place.InUnit { c.place w with dispatch := none } := by
          cases hn : (c.place w).nextWb with
          | true => exact .inr (.inr hn)
          | false =>
            rw [hn, Bool.toNat_false] at hpos
            exact .inr (.inl hpos)
        obtain ⟨n, hn⟩ : ∃ n, (c.place w).fetches + (c.place w).nextWb.toNat = n + 1 :=
          ⟨_, (Nat.succ_pred_eq_of_pos hpos).symm⟩
        rw [hn] at hpending
        rw [retire_pending hcounted hne hpending]
        have hplace : place { c with dispatchReg := none } w = { c.place w with dispatch := none } := rfl
        refine hc.move hissued hother (fun _ _ _ => rfl) (fun _ => hunder) (.inr ?_) ?_ ?_ rfl
        · rw [hplace]
          exact iff_of_true (.inr (.inr (.inr (.inr ⟨hne, hin.resolve_left (by simp)⟩)))) hunder
        · rw [hplace]
          exact hsingle
        · intro _ r hr
          rw [hplace, if_pos hin]
          show c.pendingWrites w.warp r = some (0 + (c.place w).fetches + (c.place w).nextWb.toNat)
          rw [hpending r hr, Nat.zero_add, hn]
      · -- the last access was the one that left the dispatch register
        have hzero : ∀ r ∈ w.out, c.pendingWrites w.warp r = some 0 := by
          intro r hr
          rw [hpending r hr]
          congr 1
          have := not_and.mp hmore (List.ne_nil_of_mem hr)
          omega
        rw [retire_done hcounted (hc.nodup w hissued) hzero]
        refine hc.finish (w := w) hother ?_ hunder ?_ ?_ rfl
        · intro warp r
          show (c.setPending w w.out none).pendingWrites warp r = _
          rw [setPending_pendingWrites]
          simp only [hcounted, true_and]
        · show ¬ Place.Underway { c.place w with dispatch := none } w
          rw [hw]
          rintro (h | h | h | h | ⟨hne, h⟩)
          · exact absurd h (by simp)
          · exact absurd h (by simp)
          · exact absurd h (by simp)
          · exact absurd h (by simp)
          · apply hmore
            refine ⟨hne, ?_⟩
            rcases h with h | h
            · exact Nat.add_pos_left h _
            · have hn : (c.place w).nextWb = true := h
              rw [hn]
              exact Nat.succ_pos _
        · exact hsingle
  · -- a store or a barrier exits the pipeline
    have hload' : w.isLoad = false := by simpa using hload
    have hnot := not_counted_of_not_load hload'
    have hout := out_eq_nil_of_not_load hop hload'
    have hretire : c.retire ⟨w, []⟩ = { c.warpInstComplete w with dispatchReg := none } := by
      simp only [Core.retire, hload', Bool.false_eq_true, if_false]
    have hrelease : c.release w w.out = c := by rw [hout, release_nil]
    rw [hretire]
    refine hc.finish (w := w) hother ?_ hunder ?_ ?_ (by rw [hrelease]; rfl)
    · intro warp r
      rw [if_neg fun h => hnot h.1]
      rfl
    · show ¬ Place.Underway { c.place w with dispatch := none } w
      rw [hw]
      simp [Place.Underway, hout]
    · show Place.Single { c.place w with dispatch := none } w
      obtain ⟨hstages, -⟩ := hc.single w
      rw [hd] at hstages
      rw [hw]
      rw [hw] at hstages
      refine ⟨?_, by simp⟩
      simp only [Option.isSome_some, Bool.toNat_true, Option.isSome_none, Bool.toNat_false] at hstages ⊢
      omega

theorem queue_membar (hok : p.Ok) (hop : p.inst.isMembar = true) : p.accessq = [] := by
  by_contra hq
  have hgen := (hok.accessq.mp hq).1.1
  simp only [Inst.isMembar, Inst.isLoad, Inst.isStore, decide_eq_true_eq] at hop hgen
  rcases hgen with h | h <;> rw [hop] at h <;> cases h

/-- A cycle of the dispatch register. -/
theorem Dispatched.loadInv (hc : c.LoadInv) (hp : c.dispatchReg = some p) (hok : p.Ok)
    (h : Dispatched cfg c p c') : c'.LoadInv := by
  obtain ⟨w, queue⟩ := p
  cases h with
  | stall => exact hc
  | idle hq =>
    cases hq
    exact hc.retire hp hok.op
  | sent hq h => exact h.loadInv hc hp hok hq
  | last hq h =>
    have := (h.loadInv hc hp hok hq).retire rfl hok.op
    rwa [retire_dispatchReg] at this
  | membar hop =>
    cases queue_membar hok hop
    have hc : LoadInv { c with membar := update c.membar w.warp false } :=
      hc.congr (fun _ => rfl) rfl rfl
    exact hc.retire hp hok.op
  | memfence hop =>
    cases queue_membar hok hop
    have hc : LoadInv { c with memfences := w.warp :: c.memfences } :=
      hc.congr (fun _ => rfl) rfl rfl
    exact hc.retire hp hok.op

/-! ## Writeback -/

/-- What is in the writeback register is not also where it would come there once more. -/
theorem Ok.place_nextWb (hok : c.Ok) (hwb : c.nextWb = some w) : (c.place w).nextWb = true ∧
      (w.space ≠ .shared → (c.place w).dispatch ≠ some 0 ∧ (c.place w).pipe = 0) ∧
      (w.space = .shared → (c.place w).fetches = 0) := by
  refine ⟨decide_eq_true hwb, fun hs => ⟨fun hd => ?_, ?_⟩, fun hs => ?_⟩
  · obtain ⟨p, hp, hlen⟩ := Option.bind_eq_some_iff.mp hd
    split at hlen
    case isFalse => cases hlen
    case isTrue hpw =>
      obtain ⟨hpok, -⟩ := hok.regs p (by simp [Core.regs, hp])
      have hgen := (hok.nextWb w hwb).1.resolve_left fun h => hs h.2
      rw [← hpw] at hgen
      exact hpok.accessq.mpr hgen (List.length_eq_zero_iff.mp (Option.some.inj hlen))
  · exact List.count_eq_zero_of_not_mem fun hmem => hs (hok.pipelineReg w hmem).2.1
  · apply List.count_eq_zero_of_not_mem
    intro hmem
    obtain ⟨f, hf, rfl⟩ := List.mem_map.mp hmem
    exact (hok.fetches f hf).2.2.1 hs

theorem Ok.isLoad_nextWb (hok : c.Ok) (hwb : c.nextWb = some w) (hout : w.out ≠ []) : w.isLoad = true := by
  by_contra hload
  have hmem := ((hok.nextWb w hwb).1.resolve_left fun h => hload h.1).1.1.resolve_left hload
  have hop : w.op ≠ .alu := by
    intro hop
    simp [Inst.isStore, hop] at hmem
  exact hout (out_eq_nil_of_not_load hop (by simpa using hload))

/-- The write of the destination registers: the last one completes a load. -/
theorem writeback_loadInv (hc : c.LoadInv) (hok : c.Ok) {x : Core × Bool} (hwb : c.nextWb = some w)
    (h : w.out.foldlM (writebackRegister w) ({ c with nextWb := none }, false) = .ok x) :
    LoadInv (if x.2 then x.1.warpInstComplete w else x.1) := by
  obtain ⟨hnext, hdispatch, hfetches⟩ := hok.place_nextWb hwb
  have hissued := (hok.nextWb w hwb).2
  have hnodup := hc.nodup w hissued
  have hsingle : Place.Single { c.place w with nextWb := false } w := by
    obtain ⟨hstages, hd⟩ := hc.single w
    refine ⟨?_, fun h => ⟨(hd h).1, rfl⟩⟩
    simp only [Bool.toNat_false, ite_self]
    omega
  have hplace : place { c with nextWb := none } w = { c.place w with nextWb := false } := rfl
  have hother : ∀ v, v ≠ w → place { c with nextWb := none } v = c.place v := by
    intro v hv
    simp [place, hwb, hv.symm]
  by_cases hout : w.out = []
  · -- no register waits for it
    rw [hout] at h
    cases h
    refine hc.move hissued hother (fun _ _ _ => rfl) (fun h => absurd hout h) (.inr ?_)
      hsingle (fun _ r hr => absurd (List.ne_nil_of_mem hr) (not_not.mpr hout)) rfl
    simp [hplace, Place.Underway, hout]
  have hunder : (c.place w).Underway w := .inr (.inr (.inr (.inr ⟨hout, .inr hnext⟩)))
  have hload := hok.isLoad_nextWb hwb hout
  have hempty : (!w.out.isEmpty) = true := by simpa using hout
  by_cases hs : w.space = .shared
  · -- shared memory
    rw [writeback_shared hs] at h
    cases h
    rw [Bool.false_or, if_pos hempty]
    have hnot : ¬ w.Counted := fun h => h.2 hs
    refine hc.finish (w := w) hother ?_ hunder ?_ hsingle rfl
    · intro warp r
      rw [if_neg fun h => hnot h.1]
      rfl
    · show ¬ Place.Underway { c.place w with nextWb := false } w
      obtain ⟨hstages, -⟩ := hc.single w
      rw [if_pos hs, hnext, Bool.toNat_true] at hstages
      have hd : (c.place w).dispatch = none := by
        cases hd : (c.place w).dispatch with
        | none => rfl
        | some k =>
          rw [hd, Option.isSome_some, Bool.toNat_true] at hstages
          omega
      have hf := hfetches hs
      rintro (h | h | h | h | ⟨-, h | h⟩)
      · simp only at h
        omega
      · simp only at h
        omega
      · simp [hd] at h
      · simp only at h
        omega
      · simp [hf] at h
      · cases h
  · have hcounted : w.Counted := ⟨hload, hs⟩
    have hin : (c.place w).InUnit := .inr (.inr hnext)
    have hpending : ∀ r ∈ w.out, c.pendingWrites w.warp r =
        some ((c.place w).dispatch.getD 0 + (c.place w).fetches + 1) := by
      intro r hr
      rw [hc.pending w hcounted hunder r hr, if_pos hin, Place.accesses, hnext]
      rfl
    obtain ⟨n, hn⟩ : ∃ n, (c.place w).dispatch.getD 0 + (c.place w).fetches = n := ⟨_, rfl⟩
    rw [hn] at hpending
    cases n with
    | zero =>
      -- the last access
      rw [writeback_last (c := { c with nextWb := none }) hs hnodup hpending] at h
      cases h
      rw [Bool.false_or, if_pos hempty]
      refine hc.finish (w := w) hother ?_ hunder ?_ hsingle rfl
      · intro warp r
        show (setPending { c with nextWb := none } w w.out none).pendingWrites warp r = _
        rw [setPending_pendingWrites]
        simp only [hcounted, true_and]
      · show ¬ Place.Underway { c.place w with nextWb := false } w
        have hd : (c.place w).dispatch = none := by
          cases hd : (c.place w).dispatch with
          | none => rfl
          | some k =>
            rw [hd, Option.getD_some] at hn
            refine absurd hd ?_
            rw [show k = 0 by omega]
            exact (hdispatch hs).1
        have hpipe := (hdispatch hs).2
        have hwait : ¬ 0 < (c.place w).collector + (c.place w).units := by
          intro hpos
          have := (hc.single w).waiting hpos
          rw [hnext] at this
          exact absurd this.2.2.2.2 (by decide)
        rintro (h | h | h | h | ⟨-, h | h⟩)
        · simp only at h
          omega
        · simp only at h
          omega
        · simp [hd] at h
        · simp [hpipe] at h
        · simp only at h
          omega
        · cases h
    | succ n =>
      rw [writeback_more (c := { c with nextWb := none }) hs hnodup hpending] at h
      cases h
      have hin' : Place.InUnit { c.place w with nextWb := false } := by
        cases hd : (c.place w).dispatch with
        | some k => exact .inl (by simp [hd])
        | none =>
          rw [hd, Option.getD_none] at hn
          exact .inr (.inl (by simp only; omega))
      refine hc.move hissued hother ?_ (fun _ => hunder) (.inr ?_) hsingle ?_ rfl
      · intro warp r hr
        show (setPending { c with nextWb := none } w w.out _).pendingWrites warp r = _
        rw [setPending_pendingWrites, if_neg fun h => hr ⟨hcounted, h⟩]
      · obtain ⟨r, hr⟩ := List.exists_mem_of_ne_nil _ hout
        exact iff_of_true (inUnit_underway hr hin') hunder
      · intro _ r hr
        show (setPending { c with nextWb := none } w w.out _).pendingWrites w.warp r =
          if Place.InUnit { c.place w with nextWb := false } then
            some (Place.accesses { c.place w with nextWb := false }) else none
        rw [setPending_pendingWrites, if_pos ⟨rfl, hr⟩, if_pos hin', Place.accesses, hn]
        rfl

/-! ## The writeback clients -/

/-- A load of the shared memory comes to its writeback. -/
theorem serviceShared_loadInv (hc : c.LoadInv) (hok : c.Ok) {rest : List WarpInst} (hwb : c.nextWb = none)
    (hpipe : c.pipelineReg = w :: rest) :
    LoadInv { c with
      executed := executed
      nAtomic := nAtomic
      nextWb := some w
      pipelineReg := rest } := by
  obtain ⟨hload, hs, hissued⟩ := hok.pipelineReg w (by rw [hpipe]; exact List.mem_cons_self)
  have hnot : ¬ w.Counted := fun h => h.2 hs
  have hcount : (c.place w).pipe = rest.count w + 1 := by
    show c.pipelineReg.count w = _
    rw [hpipe, List.count_cons_self]
  have hunder : (c.place w).Underway w := .inr (.inr (.inr (.inl (by omega))))
  set c' : Core := { c with
    executed := executed
    nAtomic := nAtomic
    nextWb := some w
    pipelineReg := rest } with hc'
  have hplace : c'.place w = { c.place w with pipe := rest.count w, nextWb := true } := by
    simp [hc', place]
  refine hc.move hissued ?_ (fun _ _ _ => rfl) (fun _ => hunder) ?_ ?_
    (fun h => absurd h hnot) rfl
  · intro v hv
    simp [hc', place, hwb, hpipe, hv.symm]
  · by_cases hout : w.out = []
    · exact .inl ⟨hload, hs, hout⟩
    · right
      rw [hplace]
      exact iff_of_true (.inr (.inr (.inr (.inr ⟨hout, .inr rfl⟩)))) hunder
  · obtain ⟨hstages, hwait⟩ := hc.single w
    rw [hcount, if_pos hs] at hstages
    rw [hplace]
    refine ⟨?_, fun h => ?_⟩
    · simp only [if_pos hs, Bool.toNat_true]
      omega
    · simp only at h
      omega

theorem place_erase (hf : c.fetches[n]? = some f) :
    (c.place f.inst).fetches = ((c.fetches.eraseIdx n).map (·.inst)).count f.inst + 1 := by
  have := count_map_eraseIdx (·.inst) hf f.inst
  rwa [if_pos rfl] at this

/-- A fetch comes to its writeback. -/
theorem serviceFetch_loadInv (hc : c.LoadInv) (hok : c.Ok) (hwb : c.nextWb = none)
    (hf : c.fetches[n]? = some f) :
    LoadInv { c with
      fetches := c.fetches.eraseIdx n
      storesOutstanding := stores
      executed := executed
      nAtomic := nAtomic
      nextWb := some f.inst } := by
  obtain ⟨hissued, -, hs, -⟩ := hok.fetches f (List.mem_of_getElem? hf)
  have hcount := place_erase hf
  have hnext : (c.place f.inst).nextWb = false := by simp [place, hwb]
  set c' : Core := { c with
    fetches := c.fetches.eraseIdx n
    storesOutstanding := stores
    executed := executed
    nAtomic := nAtomic
    nextWb := some f.inst } with hc'
  have hplace : c'.place f.inst = { c.place f.inst with
      fetches := ((c.fetches.eraseIdx n).map (·.inst)).count f.inst
      nextWb := true } := by
    simp [hc', place]
  refine hc.move (w := f.inst) hissued ?_ (fun _ _ _ => rfl) ?_ (.inr ?_) ?_ ?_ rfl
  · intro v hv
    have hother := count_map_eraseIdx (·.inst) hf v
    rw [if_neg hv.symm, Nat.add_zero] at hother
    simp [hc', place, hwb, hother, hv.symm]
  · intro hout
    exact .inr (.inr (.inr (.inr ⟨hout, .inl (by omega)⟩)))
  · rw [hplace]
    simp [Place.Underway, hcount]
  · obtain ⟨hstages, hwait⟩ := hc.single f.inst
    rw [if_neg hs] at hstages
    rw [hplace]
    refine ⟨by rwa [if_neg hs], fun h => ?_⟩
    have := (hwait h).1
    omega
  · intro hcounted r hr
    have hin : (c.place f.inst).InUnit := .inr (.inl (by omega))
    show c.pendingWrites f.inst.warp r = _
    rw [hc.pending _ hcounted (inUnit_underway hr hin) r hr, if_pos hin, hplace, if_pos (.inr (.inr rfl))]
    simp only [Place.accesses, hcount, hnext, Bool.toNat_false, Bool.toNat_true]
    congr 1

theorem storeAck_loadInv (hc : c.LoadInv) (hok : c.Ok)
    (hf : c.fetches[n]? = some f) (hstore : f.inst.isStore = true) :
    LoadInv { c with
      fetches := c.fetches.eraseIdx n
      storesOutstanding := stores } := by
  obtain ⟨hissued, -, -, -⟩ := hok.fetches f (List.mem_of_getElem? hf)
  have hcount := place_erase hf
  have hop : f.inst.op = .store := of_decide_eq_true hstore
  have hload : f.inst.isLoad = false := by simp [Inst.isLoad, hop]
  have hout := out_eq_nil_of_not_load (by rw [hop]; decide) hload
  set c' : Core := { c with
    fetches := c.fetches.eraseIdx n
    storesOutstanding := stores } with hc'
  have hplace : c'.place f.inst = { c.place f.inst with
      fetches := ((c.fetches.eraseIdx n).map (·.inst)).count f.inst } := by
    simp [hc', place]
  refine hc.move (w := f.inst) hissued ?_ (fun _ _ _ => rfl)
    (fun h => absurd hout h) (.inr ?_) ?_ (fun h => absurd h (not_counted_of_not_load hload)) rfl
  · intro v hv
    have hother := count_map_eraseIdx (·.inst) hf v
    rw [if_neg hv.symm, Nat.add_zero] at hother
    simp [hc', place, hother]
  · rw [hplace]
    simp [Place.Underway, hout]
  · obtain ⟨hstages, hwait⟩ := hc.single f.inst
    rw [hplace]
    refine ⟨hstages, fun h => ?_⟩
    have := (hwait h).1
    omega

/-! ## Runs -/

/-- **Every step keeps count of the loads.** -/
theorem Moved.loadInv {a : Act} (hc : c.LoadInv) (hok : c.Ok) (h : Moved cfg c a c') : c'.LoadInv := by
  cases h with
  | issue h => exact h.loadInv hc
  | unitWriteback h =>
    have hop := (hok.units _ (List.mem_of_getElem? h)).1
    exact unitWriteback_loadInv hc h (by simp [Inst.isLoad, hop])
  | ldstIssue hfree h => exact ldstIssue_loadInv hc hfree h
  | cycle hp hpok h => exact h.loadInv hc hp hpok
  | writeback hwb h => exact writeback_loadInv hc hok hwb h
  | serviceShared hwb hpipe => exact serviceShared_loadInv hc hok hwb hpipe
  | cached hwb hf => exact serviceFetch_loadInv hc hok hwb hf
  | uncached hruby hwb hf => exact serviceFetch_loadInv hc hok hwb hf
  | ruby hruby hwb hf => exact serviceFetch_loadInv hc hok hwb hf
  | serviceMemfence => exact hc.congr (fun _ => rfl) rfl rfl
  | @reply n f hruby hf =>
    refine hc.congr (fun v => ?_) rfl rfl
    have hmap : (c.fetches.set n { f with replied := true }).map (·.inst) = c.fetches.map (·.inst) := by
      obtain ⟨hn, rfl⟩ := List.getElem?_eq_some_iff.mp hf
      rw [List.map_set]
      apply List.ext_getElem?
      intro m
      by_cases hm : n = m
      · subst hm
        simp [hn]
      · simp [hm]
    simp only [place, hmap]
  | storeAck hruby hf hstore => exact storeAck_loadInv hc hok hf hstore

theorem loadInv_of_reachableUnder {ok : Core → Act → Prop} (h : (core cfg).ReachableUnder ok c) :
    c.LoadInv := by
  induction h with
  | init => exact LoadInv.init
  | step hc _ hs ih =>
    have hok := ok_of_reachableUnder hc
    exact (step_ok hok hs).loadInv ih hok

end Core

end GpgpuSimRuby.Shader
