import GpgpuSimRuby.Shader.Loads

/-!
# The assertions that hold

What an action may fault with, in a state that is well formed and counts its loads. The assertions on
`m_pending_writes`, on the access queue and on the callbacks of atomics are not among it.
-/

namespace GpgpuSimRuby.Shader

open Library Ptx

/-! ## Issue -/

/-- The faults of the functional model. -/
def Fault.Functional (e : Fault) : Prop := e = .atomSpace ∨ e = .sharedWindow ∨ e = .texSpace

section Functional

variable {smid : Addr} {i : Inst} {x : Exec} {l : Lane} {e : Fault}

theorem atomSpace_error {addr : Addr} (h : atomSpace smid i addr = .error e) : e.Functional := by
  unfold atomSpace at h
  split at h
  case isFalse => cases h
  case isTrue =>
    split at h
    · cases h
    · split at h
      · cases h
      · cases h
        exact .inr (.inl rfl)
    · cases h
      exact .inl rfl

theorem execute_error (h : x.execute smid i l = .error e) : e.Functional := by
  unfold Exec.execute at h
  split at h
  case isTrue => cases h
  case isFalse =>
  split at h
  case isTrue =>
    rcases bind_eq_error.mp h with h | ⟨space, -, h⟩
    · exact atomSpace_error h
    · exact .inl (assert_eq_error.mp (bind_return_eq_error.mp h)).2.symm
  case isFalse =>
  split at h
  case isTrue => cases h
  case isFalse => split at h <;> cases h

theorem ptxExecInst_error (h : x.ptxExecInst smid i l = .error e) : e.Functional := by
  rcases bind_eq_error.mp h with h | ⟨thread, -, h⟩
  · exact execute_error h
  · exact .inr (.inr (assert_eq_error.mp (bind_return_eq_error.mp h)).2.symm)

theorem executeWarpInst_error {lanes : List Lane} (h : Exec.executeWarpInst smid i lanes x = .error e) :
    e.Functional := by
  induction lanes generalizing x with
  | nil => cases h
  | cons l lanes ih =>
    simp only [Exec.executeWarpInst, List.foldlM_cons] at h
    rcases bind_eq_error.mp h with h | ⟨y, -, h⟩
    · rcases bind_eq_error.mp h with h | ⟨z, -, h⟩
      · exact ptxExecInst_error h
      · cases h
    · exact ih h

end Functional

namespace Core

variable {cfg : Config} {c c' : Core} {w : WarpInst} {e : Fault}

/-- The faults of `issue_warp`. -/
def Issues (e : Fault) : Prop := e.Functional ∨ e = .accessSpace ∨ e = .alreadyReserved

theorem reserveRegisters_error {warp : Nat} {out : List Nat}
    (h : out.foldlM (fun c r => c.reserveRegister warp r) c = .error e) : e = .alreadyReserved := by
  induction out generalizing c with
  | nil => cases h
  | cons r out ih =>
    rw [List.foldlM_cons] at h
    rcases bind_eq_error.mp h with h | ⟨y, -, h⟩
    · exact (assert_eq_error.mp (bind_return_eq_error.mp h)).2.symm
    · exact ih h

theorem issue_error {warp : Nat} {i : Inst} {lanes : List Lane} {accessq : List (Finset Nat)}
    (h : c.issue cfg warp i lanes accessq = some (.error e)) : Issues e := by
  unfold issue at h
  split at h
  case isFalse => cases h
  case isTrue =>
  split at h
  case h_1 e' hx =>
    cases h
    rcases bind_eq_error.mp hx with hx | ⟨_, -, hx⟩
    · exact .inl (executeWarpInst_error hx)
    · exact .inr (.inl (assert_eq_error.mp (bind_return_eq_error.mp hx)).2.symm)
  case h_2 x hx =>
  split at h
  case isFalse => cases h
  case isTrue =>
    rw [Option.some.injEq] at h
    exact .inr (.inr (reserveRegisters_error (bind_return_eq_error.mp h)))

/-! ## A cycle of the dispatch register -/

/-- The pending writes of the instruction in the dispatch register, if it is a load that they count, let
its next access be accounted for. -/
def Awaits (c : Core) (p : PipelineReg) : Prop :=
  p.accessq ≠ [] → p.inst.isLoad = true → ∀ r ∈ p.inst.out, ∃ n, c.pendingWrites p.inst.warp r = some (n + 1)

theorem LoadInv.awaits (hc : c.LoadInv) {p : PipelineReg} (hp : c.dispatchReg = some p) (hok : p.Ok) :
    c.Awaits p := by
  intro hne hload r hr
  have hcounted : p.inst.Counted := ⟨hload, (hok.accessq.mp hne).2⟩
  have hpos := List.length_pos_of_ne_nil hne
  refine ⟨p.accessq.length - 1 + (c.place p.inst).fetches + (c.place p.inst).nextWb.toNat, ?_⟩
  rw [hc.pending_dispatched hp hcounted r hr]
  congr 1
  omega

theorem lower_ne_error {p : PendingWrites} {out : List Nat} (hnodup : out.Nodup)
    (h : ∀ r ∈ out, ∃ n, p r = some (n + 1)) : p.lower out ≠ .error e := by
  induction out generalizing p with
  | nil => exact fun h => by cases h
  | cons r out ih =>
    obtain ⟨hr, hnodup⟩ := List.nodup_cons.mp hnodup
    obtain ⟨n, hn⟩ := h r List.mem_cons_self
    rw [PendingWrites.lower, hn]
    refine ih hnodup fun q hq => ?_
    obtain ⟨m, hm⟩ := h q (List.mem_cons_of_mem r hq)
    refine ⟨m, ?_⟩
    show Function.update p r (some n) q = _
    rw [Function.update_of_ne, hm]
    rintro rfl
    exact hr hq

namespace Stages

variable {x y : Stages} {busy : Bool} {status : CacheStatus}

theorem processMemoryAccessQueue_ne_error (hok : x.reg.Ok) (hawait : x.core.Awaits x.reg) :
    x.processMemoryAccessQueue status ≠ .error e := by
  intro h
  unfold processMemoryAccessQueue at h
  split at h
  case h_1 => cases h
  case h_2 mask rest hq =>
  cases status with
  | miss => cases h
  | reservationFail => cases h
  | hit writeThrough =>
    cases hload : x.reg.inst.isLoad with
    | false =>
      simp only [hload, Bool.false_eq_true, if_false] at h
      cases h
    | true =>
      have hstore : x.reg.inst.isStore = false := by simp [Inst.isStore, x.reg.inst.isLoad_iff.mp hload]
      simp only [hstore, hload, Bool.false_and, Bool.false_eq_true, if_false, if_true] at h
      have hlow := hawait (by rw [hq]; exact List.cons_ne_nil _ _) hload
      exact lower_ne_error hok.inst.nodup hlow (bind_return_eq_error.mp h)

theorem bypass_ne_error (hok : x.reg.Ok) (hne : x.reg.accessq ≠ []) (hawait : x.core.Awaits x.reg) :
    x.bypass cfg busy ≠ .error e := by
  intro h
  unfold bypass at h
  split at h
  case h_1 hq => exact hne hq
  case h_2 mask rest hq =>
  cases busy with
  | true => cases h
  | false =>
    have hmask := hok.mask_subset hq
    -- sending the access changes nothing of the pending writes
    have hpush : ∃ c₁, x.push cfg mask = .ok c₁ ∧ c₁.pendingWrites = x.core.pendingWrites := by
      unfold push
      split
      · exact ⟨_, doAtomic_eq hok.inst hmask, rfl⟩
      · exact ⟨_, rfl, rfl⟩
    obtain ⟨c₁, hc₁, hpending⟩ := hpush
    simp only [Bool.false_eq_true, if_false, hc₁, ok_bind] at h
    split at h
    case isFalse => cases h
    case isTrue hload =>
      have h := bind_return_eq_error.mp h
      apply (assert_eq_error.mp h).1
      intro r hr
      obtain ⟨n, hn⟩ := hawait hne hload r hr
      rw [hpending, hn]
      exact Nat.succ_pos n

theorem cacheCycle_ne_error {spaces : List MemorySpace} (hok : x.reg.Ok) (hawait : x.core.Awaits x.reg) :
    x.cacheCycle spaces status ≠ .error e := by
  intro h
  unfold cacheCycle at h
  split at h
  case isTrue => cases h
  case isFalse =>
    exact processMemoryAccessQueue_ne_error hok hawait (bind_return_eq_error.mp h)

theorem memoryCycle_error (hok : x.reg.Ok) (hawait : x.core.Awaits x.reg)
    (h : x.memoryCycle cfg busy status = .error e) : e = .undefinedCacheOp := by
  by_cases hw : x.reg.inst.space ∉ [MemorySpace.global, .local, .paramLocal] ∨ x.reg.inst.active = ∅
  · unfold memoryCycle at h
    rw [if_pos hw] at h
    cases h
  unfold memoryCycle at h
  rw [if_neg hw] at h
  obtain ⟨hspace, hactive⟩ := not_or.mp hw
  have hne : x.reg.accessq ≠ [] := by
    have hmem : x.reg.inst.isLoad = true ∨ x.reg.inst.isStore = true := by
      by_contra hmem
      have hop := hok.op
      have hmembar : x.reg.inst.isMembar = true := by
        unfold Inst.isLoad Inst.isStore at hmem
        unfold Inst.isMembar
        cases hop' : x.reg.inst.op <;> simp_all
      rw [hok.inst.space_membar hmembar] at hspace
      exact hspace (by decide)
    refine hok.accessq.mpr ⟨⟨hmem, hactive⟩, fun hs => hspace ?_⟩
    rw [hs]
    decide
  rcases bind_eq_error.mp h with h | ⟨_, -, h⟩
  · exact absurd hne (assert_eq_error.mp h).1
  rcases bind_eq_error.mp h with h | ⟨_, -, h⟩
  · exact (assert_eq_error.mp h).2.symm
  have h := bind_return_eq_error.mp h
  split at h
  · exact absurd h (bypass_ne_error hok hne hawait)
  · exact absurd h (processMemoryAccessQueue_ne_error hok hawait)

theorem membarCycle_error (h : x.membarCycle cfg busy = .error e) : e = .noMembar := by
  cases hm : x.reg.inst.isMembar with
  | false =>
    rw [membarCycle_of_not hm] at h
    cases h
  | true =>
  unfold membarCycle at h
  rw [if_neg (by simp [hm])] at h
  split at h
  · split at h <;> cases h
  have h := bind_return_eq_error.mp h
  exact (assert_eq_error.mp (bind_return_eq_error.mp h)).2.symm

theorem processMemoryAccessQueue_inst (h : x.processMemoryAccessQueue status = .ok y) :
    y.reg.inst = x.reg.inst := by
  unfold processMemoryAccessQueue at h
  split at h
  case h_1 =>
    cases h
    rfl
  case h_2 mask rest hq =>
  cases status with
  | miss =>
    cases h
    rfl
  | reservationFail =>
    cases h
    rfl
  | hit writeThrough =>
    by_cases hload : x.reg.inst.isLoad = true
    · simp only [hload, if_true] at h
      obtain ⟨_, -, h⟩ := bind_eq_ok.mp h
      cases h
      rfl
    · simp only [hload, Bool.false_eq_true, if_false] at h
      cases h
      rfl

theorem cacheCycle_inst {spaces : List MemorySpace} (h : x.cacheCycle spaces status = .ok y) :
    y.reg.inst = x.reg.inst := by
  unfold cacheCycle at h
  split at h
  case isTrue =>
    cases h
    rfl
  case isFalse =>
    obtain ⟨z, hz, h⟩ := bind_eq_ok.mp h
    cases h
    show z.reg.inst = _
    exact processMemoryAccessQueue_inst hz

theorem rest_error (hok : x.reg.Ok) (hawait : x.core.Awaits x.reg)
    (h : x.rest cfg busy status = .error e) : e = .undefinedCacheOp ∨ e = .noMembar := by
  unfold rest constantCycle textureCycle at h
  by_cases hc : x.reg.inst.space ∈ [MemorySpace.const, .paramKernel, .tex]
  · -- only the cache of the space can stop
    rcases bind_eq_error.mp h with h | ⟨y, hy, h⟩
    · exact absurd h (cacheCycle_ne_error hok hawait)
    have hinst := cacheCycle_inst hy
    rcases bind_eq_error.mp h with h | ⟨z, hz, h⟩
    · by_cases ht : y.reg.inst.space ∈ [MemorySpace.tex]
      · have hx : x.reg.inst.space ∉ [MemorySpace.const, .paramKernel] := by
          rw [← hinst, List.mem_singleton.mp ht]
          decide
        rw [cacheCycle_of_not_mem hx] at hy
        cases hy
        exact absurd h (cacheCycle_ne_error hok hawait)
      · rw [cacheCycle_of_not_mem ht] at h
        cases h
    have hm : z.reg.inst.space ∉ [MemorySpace.global, .local, .paramLocal] := by
      rw [cacheCycle_inst hz, hinst]
      simp only [List.mem_cons, List.not_mem_nil, or_false] at hc
      rcases hc with hc | hc | hc <;> rw [hc] <;> decide
    rw [memoryCycle_of_not_mem hm, ok_bind] at h
    exact .inr (membarCycle_error h)
  · have hspaces : x.reg.inst.space ∉ [MemorySpace.const, .paramKernel] ∧
        x.reg.inst.space ∉ [MemorySpace.tex] := by
      simp only [List.mem_cons, List.not_mem_nil, or_false] at hc ⊢
      tauto
    rw [cacheCycle_of_not_mem hspaces.1, ok_bind, cacheCycle_of_not_mem hspaces.2, ok_bind] at h
    rcases bind_eq_error.mp h with h | ⟨z, -, h⟩
    · exact .inl (memoryCycle_error hok hawait h)
    · exact .inr (membarCycle_error h)

end Stages

theorem cycle_error {p : PipelineReg} {busy : Bool} {status : CacheStatus} (hp : c.dispatchReg = some p)
    (hok : p.Ok) (hawait : c.Awaits p) (h : c.cycle cfg busy status = some (.error e)) :
    e = .undefinedCacheOp ∨ e = .noMembar := by
  rw [cycle_eq hp, Option.some.injEq] at h
  rcases bind_eq_error.mp h with h | ⟨x, hx, h⟩
  · unfold Stages.sharedCycle at h
    split at h <;> cases h
  have h := bind_return_eq_error.mp h
  have hreg : x.core = c ∧ x.reg = p := by
    unfold Stages.sharedCycle at hx
    split at hx <;> cases hx <;> exact ⟨rfl, rfl⟩
  apply Stages.rest_error ?_ ?_ h
  · rwa [hreg.2]
  · rwa [hreg.1, hreg.2]

/-! ## Writeback -/

theorem writeback_ne_error (hc : c.LoadInv) (hok : c.Ok) (hwb : c.nextWb = some w) {b : Bool} :
    w.out.foldlM (writebackRegister w) ({ c with nextWb := none }, b) ≠ .error e := by
  obtain ⟨hnext, -, -⟩ := hok.place_nextWb hwb
  have hissued := (hok.nextWb w hwb).2
  have hnodup := hc.nodup w hissued
  by_cases hs : w.space = .shared
  · rw [writeback_shared hs]
    exact fun h => by cases h
  by_cases hout : w.out = []
  · rw [hout]
    exact fun h => by cases h
  have hload := hok.isLoad_nextWb hwb hout
  have hcounted : w.Counted := ⟨hload, hs⟩
  have hin : (c.place w).InUnit := .inr (.inr hnext)
  have hpending : ∀ r ∈ w.out, c.pendingWrites w.warp r =
      some ((c.place w).dispatch.getD 0 + (c.place w).fetches + 1) := by
    intro r hr
    rw [hc.pending w hcounted (inUnit_underway hr hin) r hr, if_pos hin, Place.accesses, hnext]
    rfl
  cases hn : (c.place w).dispatch.getD 0 + (c.place w).fetches with
  | zero =>
    rw [hn] at hpending
    rw [writeback_last (c := { c with nextWb := none }) hs hnodup hpending]
    exact fun h => by cases h
  | succ n =>
    rw [hn] at hpending
    rw [writeback_more (c := { c with nextWb := none }) hs hnodup hpending]
    exact fun h => by cases h

/-! ## The writeback clients -/

theorem decrementAtomicCount_error {mask : Finset Nat}
    (h : (if w.isatomic then c.decrementAtomicCount w.warp mask.card else .ok c) = .error e) :
    e = .atomicUnderflow ∧ c.nAtomic w.warp < w.atomics mask := by
  unfold WarpInst.atomics
  split at h
  case isFalse => cases h
  case isTrue hatom =>
    have h := bind_return_eq_error.mp h
    obtain ⟨hlt, rfl⟩ := assert_eq_error.mp h
    rw [if_pos hatom]
    exact ⟨rfl, not_le.mp hlt⟩

/-- What an action faults with, and where a count of atomics is too small. -/
inductive Faults (cfg : Config) (c : Core) : Act → Fault → Prop
  | issue {warp i lanes accessq e} (h : Issues e) : Faults cfg c (.issue warp i lanes accessq) e
  | cycle {busy status e} (h : e = .undefinedCacheOp ∨ e = .noMembar) : Faults cfg c (.cycle busy status) e
  | serviceShared {w rest} (hpipe : c.pipelineReg = w :: rest)
      (h : c.nAtomic w.warp < w.atomics w.active) : Faults cfg c .serviceShared .atomicUnderflow
  | serviceFetch {n f} (hf : c.fetches[n]? = some f) (hready : cfg.useRuby = true ∨ f.replied = true)
      (h : c.nAtomic f.inst.warp < f.inst.atomics f.mask) :
      Faults cfg c (.serviceFetch n) .atomicUnderflow
  | noStore {n} (hruby : cfg.useRuby = true) : Faults cfg c (.serviceFetch n) .noStore
  | serviceMemfence {n} : Faults cfg c (.serviceMemfence n) .noMembar
  | storeAck {n} : Faults cfg c (.storeAck n) .noStore

/-- **The faults of an action.** -/
theorem step_error (hok : c.Ok) (hc : c.LoadInv) {a : Act}
    (h : (core cfg).step c a = some (.error e)) : Faults cfg c a e := by
  cases a with
  | issue warp i lanes accessq => exact .issue (issue_error h)
  | unitWriteback n =>
    obtain ⟨w, hw, h⟩ := Option.map_eq_some_iff.mp h
    cases h
  | ldstIssue n =>
    simp only [core, ldstIssue] at h
    split at h
    case isFalse => cases h
    case isTrue =>
      obtain ⟨p, hp, h⟩ := Option.map_eq_some_iff.mp h
      cases h
  | cycle busy status =>
    obtain ⟨p, hp, -⟩ := Option.map_eq_some_iff.mp h
    have hpok := (hok.regs p (by simp [regs, hp])).1
    exact .cycle (cycle_error hp hpok (hc.awaits hp hpok) h)
  | writeback =>
    obtain ⟨w, hw, h⟩ := Option.map_eq_some_iff.mp h
    exact absurd (bind_return_eq_error.mp h) (writeback_ne_error hc hok hw)
  | serviceShared =>
    simp only [core, serviceShared] at h
    split at h
    case h_2 => cases h
    case h_1 w rest hwb hpipe =>
      have hw := hok.issued w (hok.pipelineReg w (by simp [hpipe])).2.2
      rw [Option.some.injEq, doAtomic_eq hw (Finset.Subset.refl _), ok_bind] at h
      have h := bind_return_eq_error.mp h
      obtain ⟨rfl, hlt⟩ := decrementAtomicCount_error h
      exact .serviceShared hpipe hlt
  | serviceFetch n =>
    simp only [core, serviceFetch] at h
    split at h
    case h_2 => cases h
    case h_1 f hwb hf =>
      obtain ⟨hw, hmask⟩ := fetch_ok hok hf
      split at h
      case isTrue => cases h
      case isFalse =>
      split at h
      case isTrue hruby =>
        rw [Option.some.injEq] at h
        rcases bind_eq_error.mp h with h | ⟨c₁, h₁, h⟩
        · split at h
          case isFalse => cases h
          case isTrue =>
            have h := bind_return_eq_error.mp h
            obtain ⟨-, rfl⟩ := assert_eq_error.mp h
            exact .noStore hruby
        · have hn : c₁.nAtomic = c.nAtomic := by
            split at h₁
            case isTrue =>
              obtain ⟨_, -, h₁⟩ := bind_eq_ok.mp h₁
              cases h₁
              rfl
            case isFalse =>
              cases h₁
              rfl
          rw [doAtomic_eq hw hmask, ok_bind] at h
          have h := bind_return_eq_error.mp h
          obtain ⟨rfl, hlt⟩ := decrementAtomicCount_error h
          refine .serviceFetch hf (.inl hruby) ?_
          rw [← hn]
          exact hlt
      case isFalse hruby =>
      split at h
      case isTrue => cases h
      case isFalse =>
      split at h
      case isFalse => cases h
      case isTrue =>
      split at h
      case isFalse => cases h
      case isTrue hreplied =>
        rw [Option.some.injEq] at h
        have h := bind_return_eq_error.mp h
        obtain ⟨rfl, hlt⟩ := decrementAtomicCount_error h
        exact .serviceFetch hf (.inr hreplied) hlt
  | serviceMemfence n =>
    simp only [core, serviceMemfence] at h
    split at h
    case isFalse => cases h
    case isTrue =>
      obtain ⟨warp, -, h⟩ := Option.map_eq_some_iff.mp h
      have h := bind_return_eq_error.mp h
      obtain ⟨-, rfl⟩ := assert_eq_error.mp h
      exact .serviceMemfence
  | reply n =>
    simp only [core, reply] at h
    split at h
    case h_2 => cases h
    case h_1 f hruby hf =>
      obtain ⟨hw, hmask⟩ := fetch_ok hok hf
      split at h
      case isTrue => cases h
      case isFalse =>
        rw [Option.some.injEq, doAtomic_eq hw hmask] at h
        cases h
  | storeAck n =>
    simp only [core, storeAck] at h
    split at h
    case h_2 => cases h
    case h_1 f hruby hf =>
      split at h
      case isFalse => cases h
      case isTrue =>
        rw [Option.some.injEq] at h
        have h := bind_return_eq_error.mp h
        obtain ⟨-, rfl⟩ := assert_eq_error.mp h
        exact .storeAck

end Core

end GpgpuSimRuby.Shader
