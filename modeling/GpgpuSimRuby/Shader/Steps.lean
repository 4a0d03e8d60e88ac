import GpgpuSimRuby.Shader.Core

/-!
# What the actions of the pipeline do

Each action of the core by its effect: the scoreboard loops in closed form, the issue of an instruction,
and the outcomes of a cycle of the dispatch register. What these need of the instructions under way
(`Core.Ok`) holds in every reachable state.
-/

open Function (update update_self update_idem)

namespace GpgpuSimRuby.Shader

open Library Ptx

/-! ## Bags -/

theorem perm_cons_eraseIdx {α : Type} {l : List α} {n : Nat} {a : α} (h : l[n]? = some a) :
    (a :: l.eraseIdx n).Perm l := by
  obtain ⟨hn, rfl⟩ := List.getElem?_eq_some_iff.mp h
  exact List.getElem_cons_eraseIdx_perm hn

theorem filterMap_eq_map_of_some {α β : Type} {g : α → Option β} {f : α → β} {s : Multiset α}
    (h : ∀ a ∈ s, g a = some (f a)) : s.filterMap g = s.map f := by
  induction s using Multiset.induction with
  | empty => rfl
  | cons a s ih =>
    rw [Multiset.filterMap_cons_some g a s (h a (Multiset.mem_cons_self a s)), Multiset.map_cons,
      ih fun b hb => h b (Multiset.mem_cons_of_mem hb)]

/-! ## Well-formed instructions -/

/-- What issuing an instruction makes sure of. -/
structure WarpInst.Ok (w : WarpInst) : Prop where
  nodup : w.out.Nodup
  space_membar : w.isMembar = true → w.space = .undefined
  atom : w.isatomic = true → w.opcode = .atom
  callback : w.isatomic = true → ∀ lane ∈ w.active, w.callback lane = some (some w.pc)
  space_atom : w.isatomic = true → w.active ≠ ∅ → w.space = .global ∨ w.space = .shared
  space : w.GeneratesAccesses → w.space ∈ .shared :: MemorySpaces

/-- An instruction on its way to memory has accesses left unless it never had any. -/
structure PipelineReg.Ok (p : PipelineReg) : Prop where
  inst : p.inst.Ok
  op : p.inst.op ≠ .alu
  accessq : p.accessq ≠ [] ↔ p.inst.GeneratesAccesses ∧ p.inst.space ≠ .shared
  masks : ∀ mask ∈ p.accessq, mask ⊆ p.inst.active

namespace PipelineReg.Ok

variable {p : PipelineReg} {mask : Finset Nat} {rest : List (Finset Nat)}

theorem mask_subset (h : p.Ok) (hq : p.accessq = mask :: rest) : mask ⊆ p.inst.active := by
  apply h.masks
  rw [hq]
  exact List.mem_cons_self

theorem generates (h : p.Ok) (hq : p.accessq = mask :: rest) :
    p.inst.GeneratesAccesses ∧ p.inst.space ≠ .shared := by
  apply h.accessq.mp
  rw [hq]
  exact List.cons_ne_nil _ _

end PipelineReg.Ok

namespace Core

variable {cfg : Config} {c c' : Core} {w : WarpInst}

/-- The instructions between issue and the stages of the `ldst_unit`. -/
def regs (c : Core) : List PipelineReg := c.collector ++ c.dispatchReg.toList

structure Ok (c : Core) : Prop where
  issued : ∀ w ∈ c.issued, w.Ok
  regs : ∀ p ∈ c.regs, p.Ok ∧ p.inst ∈ c.issued
  units : ∀ w ∈ c.units, w.op = .alu ∧ w ∈ c.issued
  pipelineReg : ∀ w ∈ c.pipelineReg, w.isLoad = true ∧ w.space = .shared ∧ w ∈ c.issued
  fetches : ∀ f ∈ c.fetches, f.inst ∈ c.issued ∧ f.inst.GeneratesAccesses ∧ f.inst.space ≠ .shared ∧
    f.mask ⊆ f.inst.active
  nextWb : ∀ w, c.nextWb = some w → (w.isLoad = true ∧ w.space = .shared ∨
    w.GeneratesAccesses ∧ w.space ≠ .shared) ∧ w ∈ c.issued

/-! ## The scoreboard -/

theorem reserveRegisters_fold {warp : Nat} {out : List Nat}
    (h : out.foldlM (fun c r => c.reserveRegister warp r) c = .ok c') :
    out.Nodup ∧ (∀ r ∈ out, r ∉ c.regTable warp) ∧
      c' = { c with
        regTable := update c.regTable warp (c.regTable warp ∪ out.toFinset) } := by
  induction out generalizing c with
  | nil =>
    cases h
    simp
  | cons r out ih =>
    simp only [List.foldlM_cons] at h
    obtain ⟨c₁, h₁, h⟩ := bind_eq_ok.mp h
    obtain ⟨_, hr, h₁⟩ := bind_eq_ok.mp h₁
    cases h₁
    obtain ⟨hnodup, hfree, rfl⟩ := ih h
    simp only [update_self, Finset.mem_insert, not_or] at hfree
    refine ⟨List.nodup_cons.mpr ⟨fun hmem => (hfree r hmem).1 rfl, hnodup⟩, ?_, ?_⟩
    · intro q hq
      rcases List.mem_cons.mp hq with rfl | hq
      · exact assert_eq_ok.mp hr
      · exact (hfree q hq).2
    · simp only [update_self, update_idem, List.toFinset_cons,
        Finset.union_insert, Finset.insert_union]

/-- The registers of `out` come off the scoreboard. -/
def release (c : Core) (w : WarpInst) (out : List Nat) : Core := { c with
  regTable := update c.regTable w.warp (c.regTable w.warp \ out.toFinset)
  released := (out.map (w.uid, ·)).reverse ++ c.released }

theorem release_nil : c.release w [] = c := by
  simp [release]

theorem release_cons {r : Nat} {out : List Nat} :
    (c.releaseRegister w r).release w out = c.release w (r :: out) := by
  simp only [release, releaseRegister, update_self, update_idem, List.toFinset_cons,
    List.map_cons, List.reverse_cons, List.append_assoc, List.singleton_append]
  congr 2
  ext q
  simp only [Finset.mem_sdiff, Finset.mem_erase, Finset.mem_insert, not_or]
  tauto

theorem releaseRegisters_eq : c.releaseRegisters w = c.release w w.out := by
  unfold releaseRegisters
  induction w.out generalizing c with
  | nil => rw [List.foldl_nil, release_nil]
  | cons r out ih => rw [List.foldl_cons, ih, release_cons]

/-! ## Issue -/

/-- The state after an instruction was issued. -/
def afterIssue (c : Core) (warp : Nat) (x : Exec) (accessq : List (Finset Nat)) : Core :=
  { c with
    nextUid := c.nextUid + 1
    threads := update c.threads warp x.threads
    nAtomic := update c.nAtomic warp x.nAtomic
    issued := x.inst :: c.issued
    membar := if x.inst.op = .memoryBarrier then update c.membar warp true else c.membar
    regTable := update c.regTable warp (c.regTable warp ∪ x.inst.out.toFinset)
    units := if x.inst.op = .alu then x.inst :: c.units else c.units
    collector := if x.inst.op = .alu then c.collector else ⟨x.inst, accessq⟩ :: c.collector }

theorem issueWarp_ok {warp : Nat} {x : Exec} {accessq : List (Finset Nat)} (hw : x.inst.warp = warp)
    (h : c.issueWarp warp x accessq = .ok c') :
    x.inst.out.Nodup ∧ (∀ r ∈ x.inst.out, r ∉ c.regTable warp) ∧ c' = c.afterIssue warp x accessq := by
  unfold issueWarp at h
  obtain ⟨c₁, h₁, h⟩ := bind_eq_ok.mp h
  cases h
  unfold reserveRegisters at h₁
  rw [hw] at h₁
  by_cases hm : x.inst.op = .memoryBarrier
  · simp only [hm, if_true] at h₁
    obtain ⟨hnodup, hfree, rfl⟩ := reserveRegisters_fold h₁
    exact ⟨hnodup, hfree, by simp [afterIssue, setMembar, hm]⟩
  · simp only [hm, if_false] at h₁
    obtain ⟨hnodup, hfree, rfl⟩ := reserveRegisters_fold h₁
    refine ⟨hnodup, hfree, ?_⟩
    by_cases ha : x.inst.op = .alu <;> simp [afterIssue, hm, ha]

/-- An issue: the lanes were executed, the registers were free, and the accesses are some that the
instruction may have. -/
structure Issued (cfg : Config) (c : Core) (warp : Nat) (i : Inst) (lanes : List Lane)
    (accessq : List (Finset Nat)) (x : Exec) : Prop where
  canIssue : c.canIssue cfg warp i
  executed : Executed i (.issue i warp (c.nextUid + 1) (lanes.map (·.id)).toFinset) (c.nAtomic warp) lanes x
  accesses : x.inst.MemAccesses accessq
  ok : x.inst.Ok
  free : ∀ r ∈ x.inst.out, r ∉ c.regTable warp

namespace Issued

variable {warp : Nat} {i : Inst} {lanes : List Lane} {accessq : List (Finset Nat)} {x : Exec}
  (h : Issued cfg c warp i lanes accessq x)

include h

theorem toInst : x.inst.toInst = i := by
  rw [h.executed.frame]
  rfl

theorem warp_eq : x.inst.warp = warp := by
  rw [h.executed.frame]
  rfl

theorem uid_eq : x.inst.uid = c.nextUid + 1 := by
  rw [h.executed.frame]
  rfl

end Issued

theorem issue_ok {warp : Nat} {i : Inst} {lanes : List Lane} {accessq : List (Finset Nat)}
    (h : c.issue cfg warp i lanes accessq = some (.ok c')) :
    ∃ x, Issued cfg c warp i lanes accessq x ∧ c' = c.afterIssue warp x accessq := by
  unfold issue at h
  split at h
  case isFalse => cases h
  case isTrue hcan =>
  split at h
  case h_1 => cases h
  case h_2 x hx =>
  split at h
  case isFalse => cases h
  case isTrue hacc =>
  simp only [Option.some.injEq] at h
  unfold funcExecInst at hx
  obtain ⟨x', hx', hx⟩ := bind_eq_ok.mp hx
  obtain ⟨_, hspace, hx⟩ := bind_eq_ok.mp hx
  cases hx
  have hexec := executeWarpInst_ok (hcan.2.imp ne_of_lt) hx'
  have hi : x.inst.toInst = i := by
    rw [hexec.frame]
    rfl
  have hwarp : x.inst.warp = warp := by
    rw [hexec.frame]
    rfl
  obtain ⟨hnodup, hfree, hc'⟩ := issueWarp_ok hwarp h
  refine ⟨x, ⟨hcan.1, hexec, hacc, ⟨hnodup, ?_, ?_, ?_, ?_, assert_eq_ok.mp hspace⟩, hfree⟩, hc'⟩
  · intro hm
    rw [hi] at hm
    have hop : i.opcode = .membar := by
      simp only [Inst.isMembar, Inst.op] at hm
      cases hop : i.opcode <;> simp_all
    have hacc : i.hasMemoryAccess = false := by
      simp [Inst.hasMemoryAccess, Inst.isLoad, Inst.isStore, Inst.op, hop]
    rcases hexec.spaceSpec hacc with hs | hs
    · rw [hs, i.spaceSpec_membar hop]
    · exact hs
  · intro ha
    rw [hi]
    exact (hexec.atomic.mp ha).1
  · intro ha
    rw [hi]
    exact hexec.callback (hexec.atomic.mp ha).1
  · intro ha hne
    have hatom := (hexec.atomic.mp ha).1
    obtain ⟨l, -, -, hleaves⟩ := hexec.space (by simp [Inst.hasMemoryAccess, i.isLoad_of_atom hatom]) hne
    unfold Inst.Leaves at hleaves
    rwa [hatom] at hleaves

theorem isatomic_eq_false_of_cached (cfg : Config) (hok : w.Ok) (hactive : w.active ≠ ∅)
    (hcached : w.space ∈ [MemorySpace.const, .paramKernel, .tex] ∨ bypassL1D cfg w = false) :
    w.isatomic = false := by
  by_contra hatom
  rw [Bool.not_eq_false] at hatom
  rcases hcached with hs | hs
  · rcases hok.space_atom hatom hactive with h | h <;> rw [h] at hs <;> exact absurd hs (by decide)
  · unfold bypassL1D at hs
    rw [Inst.cacheOp_atom _ (hok.atom hatom)] at hs
    simp at hs

/-! ## A cycle of the dispatch register -/

/-- The ways an access leaves the queue of the dispatch register. -/
inductive Sent (cfg : Config) (c : Core) (w : WarpInst) (mask : Finset Nat) : Core → Prop
  /-- a load hits -/
  | hit {p} (hload : w.isLoad = true) (hatom : w.isatomic = false)
      (hp : (c.pendingWrites w.warp).lower w.out = .ok p) :
      Sent cfg c w mask { c with pendingWrites := update c.pendingWrites w.warp p }
  /-- a store hits and is not written through -/
  | written (hstore : w.isLoad = false) : Sent cfg c w mask c
  /-- a store is sent -/
  | store (replied : Bool) (hstore : w.isLoad = false) :
      Sent cfg c w mask ({ c with fetches := ⟨w, mask, replied⟩ :: c.fetches }.incStoreReq w.warp)
  /-- a load is sent -/
  | load (hload : w.isLoad = true) :
      Sent cfg c w mask { c with fetches := ⟨w, mask, false⟩ :: c.fetches }
  /-- a load is sent to a perfect memory -/
  | perfect {c₁} (hload : w.isLoad = true) (hruby : cfg.useRuby = false)
      (h : { c with fetches := ⟨w, mask, true⟩ :: c.fetches }.doAtomic w mask = .ok c₁) :
      Sent cfg c w mask c₁

/-- The outcomes of a cycle of the dispatch register. -/
inductive Dispatched (cfg : Config) (c : Core) (p : PipelineReg) : Core → Prop
  | stall : Dispatched cfg c p c
  /-- the instruction has no accesses -/
  | idle (hq : p.accessq = []) (hop : p.inst.isMembar = false) : Dispatched cfg c p (c.retire p)
  /-- an access that is not the last -/
  | sent {mask next rest c₁} (hq : p.accessq = mask :: next :: rest) (h : Sent cfg c p.inst mask c₁) :
      Dispatched cfg c p { c₁ with dispatchReg := some ⟨p.inst, next :: rest⟩ }
  /-- the last access -/
  | last {mask c₁} (hq : p.accessq = [mask]) (h : Sent cfg c p.inst mask c₁) :
      Dispatched cfg c p (c₁.retire ⟨p.inst, []⟩)
  | membar (hop : p.inst.isMembar = true) (hset : c.membar p.inst.warp = true)
      (hcfg : (cfg.useRuby && cfg.sendMemfenceToProtocol) = false) :
      Dispatched cfg c p ({ c with membar := update c.membar p.inst.warp false }.retire p)
  | memfence (hop : p.inst.isMembar = true) (hcfg : (cfg.useRuby && cfg.sendMemfenceToProtocol) = true) :
      Dispatched cfg c p ({ c with memfences := p.inst.warp :: c.memfences }.retire p)

namespace Stages

variable {x y : Stages} {busy : Bool} {status : CacheStatus} {spaces : List MemorySpace}

theorem sharedCycle_of_ne (h : x.reg.inst.space ≠ .shared) : x.sharedCycle busy = .ok x := by
  simp [sharedCycle, h]

theorem cacheCycle_of_not_mem (h : x.reg.inst.space ∉ spaces) : x.cacheCycle spaces status = .ok x := by
  simp [cacheCycle, h]

theorem memoryCycle_of_not_mem (h : x.reg.inst.space ∉ [MemorySpace.global, .local, .paramLocal]) :
    x.memoryCycle cfg busy status = .ok x := by
  unfold memoryCycle
  rw [if_pos (Or.inl h)]

theorem membarCycle_of_not (h : x.reg.inst.isMembar = false) : x.membarCycle cfg busy = .ok x := by
  unfold membarCycle
  rw [if_pos h]

/-- An access that the stage `x → y` took from the queue, or did not. -/
inductive Took (cfg : Config) (x : Stages) : Stages → Prop
  | stall : Took cfg x x
  | sent {mask rest c₁} (hq : x.reg.accessq = mask :: rest) (h : Sent cfg x.core x.reg.inst mask c₁) :
      Took cfg x { x with reg := ⟨x.reg.inst, rest⟩, core := c₁ }

theorem processMemoryAccessQueue_ok (hmem : x.reg.inst.isLoad = true ∨ x.reg.inst.isStore = true)
    (hatom : x.reg.inst.isatomic = false) (hne : x.reg.accessq ≠ [])
    (h : x.processMemoryAccessQueue status = .ok y) : Took cfg x y := by
  unfold processMemoryAccessQueue at h
  split at h
  case h_1 hq => exact absurd hq hne
  case h_2 mask rest hq =>
  cases hload : x.reg.inst.isLoad with
  | true =>
    have hstore := x.reg.inst.isStore_eq_false_of_isLoad hload
    cases status with
    | hit writeThrough =>
      simp only [hstore, hload, Bool.false_and, Bool.false_eq_true, if_false, if_true] at h
      obtain ⟨p, hp, h⟩ := bind_eq_ok.mp h
      cases h
      exact .sent hq (.hit hload hatom hp)
    | miss =>
      simp only [hstore, Bool.false_eq_true, if_false] at h
      cases h
      exact .sent hq (.load hload)
    | reservationFail =>
      cases h
      exact .stall
  | false =>
    have hstore : x.reg.inst.isStore = true := hmem.resolve_left (by simp [hload])
    cases status with
    | hit writeThrough =>
      simp only [hstore, hload, Bool.true_and, Bool.false_eq_true, if_false] at h
      cases h
      cases writeThrough with
      | false => exact .sent hq (.written hload)
      | true => exact .sent hq (.store false hload)
    | miss =>
      simp only [hstore, if_true] at h
      cases h
      exact .sent hq (.store false hload)
    | reservationFail =>
      cases h
      exact .stall

theorem bypass_ok (hok : x.reg.inst.Ok) (hmem : x.reg.inst.isLoad = true ∨ x.reg.inst.isStore = true)
    (h : x.bypass cfg busy = .ok y) : Took cfg x y := by
  unfold bypass at h
  split at h
  case h_1 => cases h
  case h_2 mask rest hq =>
  cases busy with
  | true =>
    cases h
    exact .stall
  | false =>
    simp only [Bool.false_eq_true, if_false] at h
    obtain ⟨c₁, hpush, h⟩ := bind_eq_ok.mp h
    unfold push at hpush
    cases hload : x.reg.inst.isLoad with
    | true =>
      simp only [hload, if_true] at h
      obtain ⟨_, -, h⟩ := bind_eq_ok.mp h
      cases h
      split at hpush
      case isTrue hperfect => exact .sent hq (.perfect hload hperfect.2 hpush)
      case isFalse =>
        cases hpush
        exact .sent hq (.load hload)
    | false =>
      have hstore : x.reg.inst.isStore = true := hmem.resolve_left (by simp [hload])
      have hatom : x.reg.inst.isatomic = false := by
        by_contra ha
        rw [Bool.not_eq_false] at ha
        rw [Inst.isLoad_of_atom _ (hok.atom ha)] at hload
        cases hload
      simp only [hload, hstore, Bool.false_eq_true, if_false, if_true] at h
      cases h
      split at hpush
      case isTrue hperfect =>
        simp only [doAtomic, hatom, Bool.false_eq_true, if_false] at hpush
        cases hpush
        exact .sent hq (.store true hload)
      case isFalse =>
        cases hpush
        exact .sent hq (.store false hload)

theorem cacheCycle_ok (cfg : Config) (hs : x.reg.inst.space ∈ spaces)
    (hcached : spaces ⊆ [.const, .paramKernel, .tex]) (hok : x.reg.inst.Ok)
    (hgen : x.reg.inst.GeneratesAccesses) (hne : x.reg.accessq ≠ [])
    (h : x.cacheCycle spaces status = .ok y) :
    ∃ z, Took cfg x z ∧ y = { z with done := z.done && z.reg.accessq.isEmpty } := by
  unfold cacheCycle at h
  rw [if_neg (not_or.mpr ⟨not_not.mpr hs, hgen.2⟩)] at h
  obtain ⟨z, hz, h⟩ := bind_eq_ok.mp h
  cases h
  have hatom := isatomic_eq_false_of_cached cfg hok hgen.2 (.inl (hcached hs))
  exact ⟨z, processMemoryAccessQueue_ok hgen.1 hatom hne hz, rfl⟩

theorem memoryCycle_ok (hs : x.reg.inst.space ∈ [MemorySpace.global, .local, .paramLocal])
    (hok : x.reg.inst.Ok) (hgen : x.reg.inst.GeneratesAccesses) (hne : x.reg.accessq ≠ [])
    (h : x.memoryCycle cfg busy status = .ok y) :
    ∃ z, Took cfg x z ∧ y = { z with done := z.done && z.reg.accessq.isEmpty } := by
  unfold memoryCycle at h
  rw [if_neg (not_or.mpr ⟨not_not.mpr hs, hgen.2⟩)] at h
  obtain ⟨_, -, h⟩ := bind_eq_ok.mp h
  obtain ⟨_, -, h⟩ := bind_eq_ok.mp h
  obtain ⟨z, hz, h⟩ := bind_eq_ok.mp h
  cases h
  refine ⟨z, ?_, rfl⟩
  split at hz
  case isTrue => exact bypass_ok hok hgen.1 hz
  case isFalse hbypass =>
    have hatom := isatomic_eq_false_of_cached cfg hok hgen.2 (.inr (by simpa using hbypass))
    exact processMemoryAccessQueue_ok hgen.1 hatom hne hz

/-- All the stages but the first. -/
def rest (cfg : Config) (x : Stages) (busy : Bool) (status : CacheStatus) : Except Fault Stages := do
  let x ← x.constantCycle status
  let x ← x.textureCycle status
  let x ← x.memoryCycle cfg busy status
  x.membarCycle cfg busy

theorem rest_ok (hok : x.reg.Ok) (hne : x.reg.accessq ≠ []) (h : x.rest cfg busy status = .ok y) :
    ∃ z, Took cfg x z ∧ y = { z with done := z.done && z.reg.accessq.isEmpty } := by
  obtain ⟨hgen, hshared⟩ := hok.accessq.mp hne
  have hmembar : x.reg.inst.isMembar = false := by
    rcases hgen.1 with hl | hl <;> simp_all [Inst.isLoad, Inst.isStore, Inst.isMembar]
  have hinst : ∀ {z : Stages}, Took cfg x z → z.reg.inst = x.reg.inst := by
    intro z hz
    cases hz <;> rfl
  unfold rest constantCycle textureCycle at h
  have hspace := (List.mem_cons.mp (hok.inst.space hgen)).resolve_left hshared
  by_cases hc : x.reg.inst.space ∈ [MemorySpace.const, .paramKernel]
  · obtain ⟨y₁, h₁, h⟩ := bind_eq_ok.mp h
    obtain ⟨z, hz, rfl⟩ := cacheCycle_ok cfg hc (by simp) hok.inst hgen hne h₁
    have hzi := hinst hz
    have ht : z.reg.inst.space ∉ [MemorySpace.tex] := by
      rw [hzi]
      simp only [List.mem_cons, List.not_mem_nil, or_false] at hc ⊢
      rcases hc with hc | hc <;> rw [hc] <;> decide
    have hm : z.reg.inst.space ∉ [MemorySpace.global, .local, .paramLocal] := by
      rw [hzi]
      simp only [List.mem_cons, List.not_mem_nil, or_false] at hc
      rcases hc with hc | hc <;> rw [hc] <;> decide
    rw [cacheCycle_of_not_mem (by exact ht), ok_bind, memoryCycle_of_not_mem (by exact hm), ok_bind,
      membarCycle_of_not (by rw [← hmembar, ← hzi])] at h
    cases h
    exact ⟨z, hz, rfl⟩
  rw [cacheCycle_of_not_mem hc, ok_bind] at h
  by_cases ht : x.reg.inst.space ∈ [MemorySpace.tex]
  · obtain ⟨y₁, h₁, h⟩ := bind_eq_ok.mp h
    obtain ⟨z, hz, rfl⟩ := cacheCycle_ok cfg ht (by simp) hok.inst hgen hne h₁
    have hzi := hinst hz
    have hm : z.reg.inst.space ∉ [MemorySpace.global, .local, .paramLocal] := by
      rw [hzi, List.mem_singleton.mp ht]
      decide
    rw [memoryCycle_of_not_mem (by exact hm), ok_bind,
      membarCycle_of_not (by rw [← hmembar, ← hzi])] at h
    cases h
    exact ⟨z, hz, rfl⟩
  rw [cacheCycle_of_not_mem ht, ok_bind] at h
  have hm : x.reg.inst.space ∈ [MemorySpace.global, .local, .paramLocal] := by
    simp only [MemorySpaces, List.mem_cons, List.not_mem_nil, or_false] at hspace hc ht ⊢
    tauto
  obtain ⟨y₁, h₁, h⟩ := bind_eq_ok.mp h
  obtain ⟨z, hz, rfl⟩ := memoryCycle_ok hm hok.inst hgen hne h₁
  have hzi := hinst hz
  rw [membarCycle_of_not (by rw [← hmembar, ← hzi])] at h
  cases h
  exact ⟨z, hz, rfl⟩

theorem cacheCycle_nil (hq : x.reg.accessq = []) : x.cacheCycle spaces status = .ok x := by
  unfold cacheCycle
  split
  · rfl
  · simp [processMemoryAccessQueue, hq]

theorem memoryCycle_nil (hq : x.reg.accessq = []) (h : x.memoryCycle cfg busy status = .ok y) : y = x := by
  by_cases hw : x.reg.inst.space ∉ [MemorySpace.global, .local, .paramLocal] ∨ x.reg.inst.active = ∅
  · unfold memoryCycle at h
    rw [if_pos hw] at h
    cases h
    rfl
  · unfold memoryCycle at h
    rw [if_neg hw] at h
    obtain ⟨_, hne, -⟩ := bind_eq_ok.mp h
    exact absurd hq (assert_eq_ok.mp hne)

theorem rest_nil (hq : x.reg.accessq = []) (h : x.rest cfg busy status = .ok y) :
    x.membarCycle cfg busy = .ok y := by
  unfold rest constantCycle textureCycle at h
  rw [cacheCycle_nil hq, ok_bind, cacheCycle_nil hq, ok_bind] at h
  obtain ⟨z, hz, h⟩ := bind_eq_ok.mp h
  rwa [memoryCycle_nil hq hz] at h

end Stages

/-- The end of a cycle. -/
def afterStages (x : Stages) : Core :=
  if x.done then x.core.retire x.reg else { x.core with dispatchReg := some x.reg }

theorem cycle_eq {p : PipelineReg} {busy : Bool} {status : CacheStatus} (hp : c.dispatchReg = some p) :
    c.cycle cfg busy status = some (do
      let x ← Stages.sharedCycle ⟨c, p, true⟩ busy
      let x ← x.rest cfg busy status
      .ok (afterStages x)) := by
  simp only [cycle, hp, Option.map_some, Stages.rest, bind_assoc]
  rfl

theorem stalled_eq {p : PipelineReg} (hp : c.dispatchReg = some p) :
    { c with dispatchReg := some p } = c := by
  rw [← hp]

/-- **The outcomes of a cycle.** -/
theorem cycle_ok {p : PipelineReg} {busy : Bool} {status : CacheStatus} (hp : c.dispatchReg = some p)
    (hok : p.Ok) (h : c.cycle cfg busy status = some (.ok c')) : Dispatched cfg c p c' := by
  rw [cycle_eq hp, Option.some.injEq] at h
  obtain ⟨x, hx, h⟩ := bind_eq_ok.mp h
  obtain ⟨y, hy, h⟩ := bind_eq_ok.mp h
  cases h
  have hstall : afterStages ⟨c, p, false⟩ = c := stalled_eq hp
  by_cases hq : p.accessq = []
  · -- without accesses: the shared memory may be busy, and a barrier is served at the end
    obtain ⟨b, rfl⟩ : ∃ b, x = ⟨c, p, b⟩ := by
      unfold Stages.sharedCycle at hx
      split at hx <;> cases hx <;> exact ⟨_, rfl⟩
    have hm := Stages.rest_nil hq hy
    cases hop : p.inst.isMembar with
    | false =>
      rw [Stages.membarCycle_of_not hop] at hm
      cases hm
      cases b with
      | false =>
        rw [hstall]
        exact .stall
      | true => exact .idle hq hop
    | true =>
      have hspace : p.inst.space ≠ .shared := by
        rw [hok.inst.space_membar hop]
        decide
      rw [Stages.sharedCycle_of_ne (by exact hspace)] at hx
      cases hx
      unfold Stages.membarCycle at hm
      rw [if_neg (by simp [hop])] at hm
      cases hcfg : cfg.useRuby && cfg.sendMemfenceToProtocol with
      | true =>
        rw [if_pos hcfg] at hm
        cases busy with
        | true =>
          cases hm
          show Dispatched cfg c p (afterStages ⟨c, p, false⟩)
          rw [hstall]
          exact .stall
        | false =>
          cases hm
          exact .memfence hop hcfg
      | false =>
        rw [if_neg (by simp [hcfg])] at hm
        obtain ⟨c₁, h₁, hm⟩ := bind_eq_ok.mp hm
        obtain ⟨_, hset, h₁⟩ := bind_eq_ok.mp h₁
        cases h₁
        cases hm
        exact .membar hop (assert_eq_ok.mp hset) hcfg
  · rw [Stages.sharedCycle_of_ne (hok.accessq.mp hq).2] at hx
    cases hx
    obtain ⟨z, hz, rfl⟩ := Stages.rest_ok hok hq hy
    cases hz with
    | stall =>
      have hempty : p.accessq.isEmpty = false := by simpa using hq
      simp only [hempty, Bool.and_false]
      rw [hstall]
      exact .stall
    | @sent mask rest c₁ hmask hsent =>
      cases rest with
      | nil => exact .last hmask hsent
      | cons m rest => exact .sent hmask hsent

/-! ## Atomics -/

end Core

namespace WarpInst

variable {w : WarpInst} {mask : Finset Nat}

/-- The callbacks that an access of the instruction runs. -/
def runs (w : WarpInst) (mask : Finset Nat) : Multiset Callback :=
  if w.isatomic then mask.val.map (⟨w.uid, ·, w.pc⟩) else 0

/-- The lanes that an access of the instruction takes off the warp's count of atomics. -/
def atomics (w : WarpInst) (mask : Finset Nat) : Nat := if w.isatomic then mask.card else 0

theorem Ok.doAtomic (hok : w.Ok) (hmask : mask ⊆ w.active) (hatom : w.isatomic = true) :
    w.doAtomic mask = .ok (w.runs mask) := by
  have hcallback : ∀ lane ∈ mask, w.callback lane = some (some w.pc) := fun lane hl =>
    hok.callback hatom lane (hmask hl)
  have hnull : ∀ lane ∈ mask, w.callback lane ≠ some none := by
    intro lane hl
    rw [hcallback lane hl]
    simp
  unfold WarpInst.doAtomic
  rw [assert_pos hatom, ok_bind, assert_pos hnull, ok_bind, runs, if_pos hatom]
  congr 1
  apply filterMap_eq_map_of_some
  intro lane hl
  simp [hcallback lane hl]

end WarpInst

namespace Core

variable {cfg : Config} {c c' : Core} {w : WarpInst} {mask : Finset Nat}

theorem doAtomic_eq (hok : w.Ok) (hmask : mask ⊆ w.active) :
    c.doAtomic w mask = .ok { c with executed := c.executed + w.runs mask } := by
  unfold doAtomic
  split
  case isTrue hatom => rw [hok.doAtomic hmask hatom, ok_bind]
  case isFalse hatom => simp [WarpInst.runs, hatom]

/-- The count of a warp's atomics goes down when one of its accesses comes back. -/
def atomicsDone (c : Core) (w : WarpInst) (mask : Finset Nat) : Nat → Nat :=
  update c.nAtomic w.warp (c.nAtomic w.warp - w.atomics mask)

theorem decrementAtomicCount_ok
    (h : (if w.isatomic then c.decrementAtomicCount w.warp mask.card else .ok c) = .ok c') :
    w.atomics mask ≤ c.nAtomic w.warp ∧ c' = { c with nAtomic := c.atomicsDone w mask } := by
  unfold WarpInst.atomics atomicsDone
  split at h
  case isTrue hatom =>
    obtain ⟨_, hle, h⟩ := bind_eq_ok.mp h
    cases h
    simpa [WarpInst.atomics, hatom] using assert_eq_ok.mp hle
  case isFalse hatom =>
    cases h
    simp [WarpInst.atomics, hatom]

/-! ## The actions -/

/-- What an action does. -/
inductive Moved (cfg : Config) (c : Core) : Act → Core → Prop
  | issue {warp i lanes accessq x} (h : Issued cfg c warp i lanes accessq x) :
      Moved cfg c (.issue warp i lanes accessq) (c.afterIssue warp x accessq)
  | unitWriteback {n w} (h : c.units[n]? = some w) :
      Moved cfg c (.unitWriteback n)
        (({ c with units := c.units.eraseIdx n }.releaseRegisters w).warpInstComplete w)
  | ldstIssue {n p} (hfree : c.dispatchReg = none) (h : c.collector[n]? = some p) :
      Moved cfg c (.ldstIssue n) { c with
        collector := c.collector.eraseIdx n
        dispatchReg := some p
        pendingWrites :=
          if p.inst.isLoad ∧ p.inst.space ≠ .shared then
            update c.pendingWrites p.inst.warp
              ((c.pendingWrites p.inst.warp).raise p.accessq.length p.inst.out)
          else c.pendingWrites }
  | cycle {busy status p c'} (hp : c.dispatchReg = some p) (hok : p.Ok) (h : Dispatched cfg c p c') :
      Moved cfg c (.cycle busy status) c'
  | writeback {w x} (hwb : c.nextWb = some w)
      (h : w.out.foldlM (writebackRegister w) ({ c with nextWb := none }, false) = .ok x) :
      Moved cfg c .writeback (if x.2 then x.1.warpInstComplete w else x.1)
  | serviceShared {w rest} (hwb : c.nextWb = none) (hpipe : c.pipelineReg = w :: rest)
      (hle : w.atomics w.active ≤ c.nAtomic w.warp) :
      Moved cfg c .serviceShared { c with
        executed := c.executed + w.runs w.active
        nAtomic := c.atomicsDone w w.active
        nextWb := some w
        pipelineReg := rest }
  | cached {n f} (hwb : c.nextWb = none) (hf : c.fetches[n]? = some f) (hatom : f.inst.isatomic = false) :
      Moved cfg c (.serviceFetch n) { c with
        fetches := c.fetches.eraseIdx n
        nextWb := some f.inst }
  | uncached {n f} (hruby : cfg.useRuby = false) (hwb : c.nextWb = none) (hf : c.fetches[n]? = some f)
      (hreplied : f.replied = true) (hle : f.inst.atomics f.mask ≤ c.nAtomic f.inst.warp) :
      Moved cfg c (.serviceFetch n) { c with
        fetches := c.fetches.eraseIdx n
        nAtomic := c.atomicsDone f.inst f.mask
        nextWb := some f.inst }
  | ruby {n f} (hruby : cfg.useRuby = true) (hwb : c.nextWb = none) (hf : c.fetches[n]? = some f)
      (hle : f.inst.atomics f.mask ≤ c.nAtomic f.inst.warp) :
      Moved cfg c (.serviceFetch n) { c with
        fetches := c.fetches.eraseIdx n
        storesOutstanding := if f.inst.isStore then
          update c.storesOutstanding f.inst.warp (c.storesOutstanding f.inst.warp - 1)
          else c.storesOutstanding
        executed := c.executed + f.inst.runs f.mask
        nAtomic := c.atomicsDone f.inst f.mask
        nextWb := some f.inst }
  | serviceMemfence {n warp} (hwb : c.nextWb = none) (h : c.memfences[n]? = some warp)
      (hset : c.membar warp = true) :
      Moved cfg c (.serviceMemfence n) { c with
        memfences := c.memfences.eraseIdx n
        membar := update c.membar warp false }
  | reply {n f} (hruby : cfg.useRuby = false) (hf : c.fetches[n]? = some f) (hreplied : f.replied = false) :
      Moved cfg c (.reply n) { c with
        fetches := c.fetches.set n { f with replied := true }
        executed := c.executed + f.inst.runs f.mask }
  | storeAck {n f} (hruby : cfg.useRuby = false) (hf : c.fetches[n]? = some f)
      (hstore : f.inst.isStore = true) :
      Moved cfg c (.storeAck n) { c with
        fetches := c.fetches.eraseIdx n
        storesOutstanding :=
          update c.storesOutstanding f.inst.warp (c.storesOutstanding f.inst.warp - 1) }

variable {f : MemFetch}

theorem fetch_ok (hc : c.Ok) {n : Nat} (hf : c.fetches[n]? = some f) :
    f.inst.Ok ∧ f.mask ⊆ f.inst.active := by
  obtain ⟨hissued, -, -, hmask⟩ := hc.fetches f (List.mem_of_getElem? hf)
  exact ⟨hc.issued _ hissued, hmask⟩

theorem isatomic_eq_false (cfg : Config) (hc : c.Ok) (hf : f ∈ c.fetches)
    (hcached : f.inst.space ∈ [MemorySpace.const, .paramKernel, .tex] ∨ bypassL1D cfg f.inst = false) :
    f.inst.isatomic = false := by
  obtain ⟨hissued, hgen, -, -⟩ := hc.fetches f hf
  exact isatomic_eq_false_of_cached cfg (hc.issued _ hissued) hgen.2 hcached

theorem serviceRuby_ok {n : Nat} (hok : f.inst.Ok) (hmask : f.mask ⊆ f.inst.active)
    (h : serviceRuby { c with fetches := c.fetches.eraseIdx n } f = .ok c') :
    f.inst.atomics f.mask ≤ c.nAtomic f.inst.warp ∧ c' = { c with
      fetches := c.fetches.eraseIdx n
      storesOutstanding := if f.inst.isStore then
        update c.storesOutstanding f.inst.warp (c.storesOutstanding f.inst.warp - 1)
        else c.storesOutstanding
      executed := c.executed + f.inst.runs f.mask
      nAtomic := c.atomicsDone f.inst f.mask
      nextWb := some f.inst } := by
  unfold serviceRuby at h
  obtain ⟨c₁, h₁, h⟩ := bind_eq_ok.mp h
  rw [doAtomic_eq hok hmask, ok_bind] at h
  obtain ⟨c₃, h₃, h⟩ := bind_eq_ok.mp h
  cases h
  cases hstore : f.inst.isStore with
  | true =>
    rw [hstore, if_pos rfl] at h₁
    obtain ⟨_, -, h₁⟩ := bind_eq_ok.mp h₁
    cases h₁
    obtain ⟨hle, rfl⟩ := decrementAtomicCount_ok h₃
    exact ⟨hle, rfl⟩
  | false =>
    rw [hstore, if_neg Bool.false_ne_true] at h₁
    cases h₁
    obtain ⟨hle, rfl⟩ := decrementAtomicCount_ok h₃
    exact ⟨hle, rfl⟩

/-- **What an action does**, in a state that is well formed. -/
theorem step_ok (hc : c.Ok) {a : Act} (h : (core cfg).step c a = some (.ok c')) : Moved cfg c a c' := by
  cases a with
  | issue warp i lanes accessq =>
    obtain ⟨x, hx, rfl⟩ := issue_ok h
    exact .issue hx
  | unitWriteback n =>
    obtain ⟨w, hw, h⟩ := Option.map_eq_some_iff.mp h
    cases h
    exact .unitWriteback hw
  | ldstIssue n =>
    simp only [core, ldstIssue] at h
    split at h
    case isFalse => cases h
    case isTrue hfree =>
      obtain ⟨p, hp, h⟩ := Option.map_eq_some_iff.mp h
      cases h
      exact .ldstIssue hfree hp
  | cycle busy status =>
    obtain ⟨p, hp, -⟩ := Option.map_eq_some_iff.mp h
    have hok := (hc.regs p (by simp [regs, hp])).1
    exact .cycle hp hok (cycle_ok hp hok h)
  | writeback =>
    obtain ⟨w, hw, h⟩ := Option.map_eq_some_iff.mp h
    obtain ⟨x, hx, h⟩ := bind_eq_ok.mp h
    cases h
    exact .writeback hw hx
  | serviceShared =>
    simp only [core, serviceShared] at h
    split at h
    case h_2 => cases h
    case h_1 w rest hwb hpipe =>
      have hok := hc.issued w (hc.pipelineReg w (by simp [hpipe])).2.2
      rw [Option.some.injEq, doAtomic_eq hok (Finset.Subset.refl _), ok_bind] at h
      obtain ⟨c₂, h₂, h⟩ := bind_eq_ok.mp h
      cases h
      obtain ⟨hle, rfl⟩ := decrementAtomicCount_ok h₂
      exact .serviceShared hwb hpipe hle
  | serviceFetch n =>
    simp only [core, serviceFetch] at h
    split at h
    case h_2 => cases h
    case h_1 f hwb hf =>
      have hmem := List.mem_of_getElem? hf
      obtain ⟨hok, hmask⟩ := fetch_ok hc hf
      by_cases hs : f.inst.space ∈ [MemorySpace.const, .paramKernel, .tex]
      · rw [if_pos hs] at h
        cases h
        exact .cached hwb hf (isatomic_eq_false cfg hc hmem (.inl hs))
      rw [if_neg hs] at h
      cases hruby : cfg.useRuby with
      | true =>
        rw [if_pos hruby, Option.some.injEq] at h
        obtain ⟨hle, rfl⟩ := serviceRuby_ok hok hmask h
        exact .ruby hruby hwb hf hle
      | false =>
        rw [if_neg (by simp [hruby])] at h
        split at h
        case isTrue => cases h
        case isFalse =>
        cases hbypass : bypassL1D cfg f.inst with
        | false =>
          rw [if_neg (by simp [hbypass])] at h
          cases h
          exact .cached hwb hf (isatomic_eq_false cfg hc hmem (.inr hbypass))
        | true =>
          rw [if_pos hbypass] at h
          split at h
          case isFalse => cases h
          case isTrue hreplied =>
            rw [Option.some.injEq] at h
            obtain ⟨c₂, h₂, h⟩ := bind_eq_ok.mp h
            cases h
            obtain ⟨hle, rfl⟩ := decrementAtomicCount_ok h₂
            exact .uncached hruby hwb hf hreplied hle
  | serviceMemfence n =>
    simp only [core, serviceMemfence] at h
    split at h
    case isFalse => cases h
    case isTrue hwb =>
      obtain ⟨warp, hwarp, h⟩ := Option.map_eq_some_iff.mp h
      obtain ⟨_, hset, h⟩ := bind_eq_ok.mp h
      cases h
      exact .serviceMemfence hwb hwarp (assert_eq_ok.mp hset)
  | reply n =>
    simp only [core, reply] at h
    split at h
    case h_2 => cases h
    case h_1 f hruby hf =>
      obtain ⟨hok, hmask⟩ := fetch_ok hc hf
      cases hreplied : f.replied with
      | true => simp [hreplied] at h
      | false =>
        rw [if_neg (by simp [hreplied]), Option.some.injEq, doAtomic_eq hok hmask] at h
        cases h
        exact .reply hruby hf hreplied
  | storeAck n =>
    simp only [core, storeAck] at h
    split at h
    case h_2 => cases h
    case h_1 f hruby hf =>
      split at h
      case isFalse => cases h
      case isTrue hstore =>
        rw [Option.some.injEq] at h
        obtain ⟨_, -, h⟩ := bind_eq_ok.mp h
        cases h
        exact .storeAck hruby hf hstore

/-! ## Frames -/

theorem retire_eq (c : Core) (p : PipelineReg) : c.retire p = { c with
    dispatchReg := none
    pipelineReg := if p.inst.isLoad = true ∧ p.inst.space = .shared then c.pipelineReg ++ [p.inst]
      else c.pipelineReg
    pendingWrites := (c.retire p).pendingWrites
    regTable := (c.retire p).regTable
    completed := (c.retire p).completed
    released := (c.retire p).released } := by
  unfold retire
  by_cases hload : p.inst.isLoad = true
  · by_cases hspace : p.inst.space = .shared
    · simp [hload, hspace]
    · simp only [hload, hspace, if_true, if_false, and_false]
      split <;> simp [releaseRegisters_eq, release, warpInstComplete]
  · simp [hload, warpInstComplete]

theorem Sent.frame {w : WarpInst} {c₁ : Core} (hw : w.Ok) (hmask : mask ⊆ w.active)
    (h : Sent cfg c w mask c₁) : c₁ = { c with
      fetches := c₁.fetches
      storesOutstanding := c₁.storesOutstanding
      pendingWrites := c₁.pendingWrites
      executed := c₁.executed } := by
  cases h with
  | perfect hload hruby h =>
    rw [doAtomic_eq hw hmask] at h
    cases h
    rfl
  | _ => rfl

theorem Sent.fetches {w : WarpInst} {c₁ : Core} (hw : w.Ok) (hmask : mask ⊆ w.active)
    (h : Sent cfg c w mask c₁) :
    c₁.fetches = c.fetches ∨ ∃ replied, c₁.fetches = ⟨w, mask, replied⟩ :: c.fetches := by
  cases h with
  | hit => exact .inl rfl
  | written => exact .inl rfl
  | store replied => exact .inr ⟨replied, rfl⟩
  | load => exact .inr ⟨false, rfl⟩
  | perfect hload hruby h =>
    rw [doAtomic_eq hw hmask] at h
    cases h
    exact .inr ⟨true, rfl⟩

theorem writeback_frame {w : WarpInst} {out : List Nat} {x y : Core × Bool}
    (h : out.foldlM (writebackRegister w) x = .ok y) : y.1 = { x.1 with
      pendingWrites := y.1.pendingWrites
      regTable := y.1.regTable
      released := y.1.released } := by
  induction out generalizing x with
  | nil =>
    cases h
    rfl
  | cons r out ih =>
    simp only [List.foldlM_cons] at h
    obtain ⟨z, hz, h⟩ := bind_eq_ok.mp h
    rw [ih h]
    unfold writebackRegister at hz
    split at hz
    · split at hz
      · split at hz <;> cases hz <;> rfl
      · cases hz
    · cases hz
      rfl

/-! ## The instructions under way stay well formed -/

theorem Ok.init : Ok init := by
  constructor <;> simp [Core.init, Core.regs]

/-- What is not said to change has not changed. -/
theorem Ok.mono (hc : c.Ok) (i : c'.issued = c.issued := by rfl)
    (r : ∀ p ∈ c'.regs, p ∈ c.regs ∨ p.Ok ∧ p.inst ∈ c.issued := by exact fun _ h => .inl h)
    (u : ∀ w ∈ c'.units, w ∈ c.units := by exact fun _ h => h)
    (p : ∀ w ∈ c'.pipelineReg, w ∈ c.pipelineReg ∨ w.isLoad = true ∧ w.space = .shared ∧ w ∈ c.issued := by
      exact fun _ h => .inl h)
    (f : ∀ f ∈ c'.fetches, (∃ g ∈ c.fetches, f.inst = g.inst ∧ f.mask = g.mask) ∨
      f.inst ∈ c.issued ∧ f.inst.GeneratesAccesses ∧ f.inst.space ≠ .shared ∧ f.mask ⊆ f.inst.active := by
      exact fun f h => .inl ⟨f, h, rfl, rfl⟩)
    (w : ∀ w, c'.nextWb = some w → c.nextWb = some w ∨ (w.isLoad = true ∧ w.space = .shared ∨
      w.GeneratesAccesses ∧ w.space ≠ .shared) ∧ w ∈ c.issued := by exact fun _ h => .inl h) : c'.Ok where
  issued := by
    rw [i]
    exact hc.issued
  regs q hq := by
    rw [i]
    exact (r q hq).elim (hc.regs q) id
  units v hv := by
    rw [i]
    exact hc.units v (u v hv)
  pipelineReg v hv := by
    rw [i]
    exact (p v hv).elim (hc.pipelineReg v) id
  fetches g hg := by
    rw [i]
    rcases f g hg with ⟨g', hg', hi, hm⟩ | h
    · rw [hi, hm]
      exact hc.fetches g' hg'
    · exact h
  nextWb v hv := by
    rw [i]
    exact (w v hv).elim (hc.nextWb v) id

theorem Issued.accessq_iff {warp : Nat} {i : Inst} {lanes : List Lane} {accessq : List (Finset Nat)}
    {x : Exec} (h : Issued cfg c warp i lanes accessq x) :
    (accessq ≠ [] ↔ x.inst.GeneratesAccesses ∧ x.inst.space ≠ .shared) ∧
      ∀ mask ∈ accessq, mask ⊆ x.inst.active := by
  have hacc := h.accesses
  unfold WarpInst.MemAccesses at hacc
  split at hacc
  case isTrue hgen =>
    refine ⟨⟨fun _ => hgen, fun _ hnil => ?_⟩, fun mask hm => (hacc.1 mask hm).2⟩
    obtain ⟨lane, hlane⟩ := Finset.nonempty_iff_ne_empty.mpr hgen.1.2
    obtain ⟨mask, hmask, -⟩ := hacc.2.1 lane hlane
    rw [hnil] at hmask
    cases hmask
  case isFalse hgen =>
    subst hacc
    exact ⟨⟨fun hne => absurd rfl hne, fun hg => absurd hg hgen⟩, by simp⟩

theorem Issued.ok_afterIssue {warp : Nat} {i : Inst} {lanes : List Lane}
    {accessq : List (Finset Nat)} {x : Exec}
    (hc : c.Ok) (h : Issued cfg c warp i lanes accessq x) : (c.afterIssue warp x accessq).Ok where
  issued w hw := by
    rcases List.mem_cons.mp hw with rfl | hw
    · exact h.ok
    · exact hc.issued w hw
  regs p hp := by
    have hold : ∀ q ∈ c.regs, q.Ok ∧ q.inst ∈ x.inst :: c.issued := fun q hq =>
      ⟨(hc.regs q hq).1, List.mem_cons_of_mem _ (hc.regs q hq).2⟩
    by_cases ha : x.inst.op = .alu
    · exact hold p (by simpa [regs, afterIssue, ha] using hp)
    · have hp' : p = ⟨x.inst, accessq⟩ ∨ p ∈ c.regs := by
        simpa [regs, afterIssue, ha, or_assoc] using hp
      rcases hp' with rfl | hp'
      · exact ⟨⟨h.ok, ha, h.accessq_iff.1, h.accessq_iff.2⟩, List.mem_cons_self⟩
      · exact hold p hp'
  units w hw := by
    have hold : ∀ v ∈ c.units, v.op = .alu ∧ v ∈ x.inst :: c.issued := fun v hv =>
      ⟨(hc.units v hv).1, List.mem_cons_of_mem _ (hc.units v hv).2⟩
    by_cases ha : x.inst.op = .alu
    · rcases List.mem_cons.mp (by simpa only [afterIssue, ha, if_true] using hw) with rfl | hw'
      · exact ⟨ha, List.mem_cons_self⟩
      · exact hold w hw'
    · exact hold w (by simpa [afterIssue, ha] using hw)
  pipelineReg w hw := by
    obtain ⟨hl, hs, hi⟩ := hc.pipelineReg w hw
    exact ⟨hl, hs, List.mem_cons_of_mem _ hi⟩
  fetches f hf := by
    obtain ⟨hi, hrest⟩ := hc.fetches f hf
    exact ⟨List.mem_cons_of_mem _ hi, hrest⟩
  nextWb w hw := by
    obtain ⟨hl, hi⟩ := hc.nextWb w hw
    exact ⟨hl, List.mem_cons_of_mem _ hi⟩

theorem Dispatched.ok {p : PipelineReg} (hc : c.Ok) (hp : c.dispatchReg = some p) (hok : p.Ok)
    (h : Dispatched cfg c p c') : c'.Ok := by
  have hmem : p ∈ c.regs := by simp [regs, hp]
  obtain ⟨-, hissued⟩ := hc.regs p hmem
  have hcollector : ∀ q ∈ c.collector, q ∈ c.regs := fun q hq => List.mem_append_left _ hq
  -- the access that a cycle sends
  have hfetches : ∀ {mask rest c₁}, p.accessq = mask :: rest → Sent cfg c p.inst mask c₁ →
      ∀ f ∈ c₁.fetches, (∃ g ∈ c.fetches, f.inst = g.inst ∧ f.mask = g.mask) ∨
        f.inst ∈ c.issued ∧ f.inst.GeneratesAccesses ∧ f.inst.space ≠ .shared ∧ f.mask ⊆ f.inst.active := by
    intro mask rest c₁ hq hsent f hf
    have hmask := hok.mask_subset hq
    rcases hsent.fetches hok.inst hmask with hs | ⟨replied, hs⟩ <;> rw [hs] at hf
    · exact .inl ⟨f, hf, rfl, rfl⟩
    rcases List.mem_cons.mp hf with rfl | hf
    · obtain ⟨hgen, hshared⟩ := hok.generates hq
      exact .inr ⟨hissued, hgen, hshared, hmask⟩
    · exact .inl ⟨f, hf, rfl, rfl⟩
  -- what retires to the shared memory pipeline
  have hretire : ∀ {q : PipelineReg} {l : List WarpInst}, q.inst = p.inst → l = c.pipelineReg →
      ∀ w ∈ (if q.inst.isLoad = true ∧ q.inst.space = .shared then l ++ [q.inst] else l),
        w ∈ c.pipelineReg ∨ w.isLoad = true ∧ w.space = .shared ∧ w ∈ c.issued := by
    rintro q l hqi rfl w hw
    rw [hqi] at hw
    split at hw
    case isTrue hs =>
      rcases List.mem_append.mp hw with hw | hw
      · exact .inl hw
      · cases List.mem_singleton.mp hw
        exact .inr ⟨hs.1, hs.2, hissued⟩
    case isFalse => exact .inl hw
  -- an instruction that retires without an access changes the barriers at most
  have hquiet : ∀ membar memfences, ({ c with membar := membar, memfences := memfences }.retire p).Ok := by
    intro membar memfences
    rw [retire_eq]
    refine hc.mono (r := ?_) (p := hretire rfl rfl)
    intro q hq
    exact .inl (hcollector q (by simpa [regs] using hq))
  cases h with
  | stall => exact hc
  | idle => exact hquiet c.membar c.memfences
  | @sent mask next rest c₁ hq hsent =>
    have hmask := hok.mask_subset hq
    have hfetch := hfetches hq hsent
    rw [hsent.frame hok.inst hmask]
    refine hc.mono (r := ?_) (f := hfetch)
    intro q hq'
    rcases List.mem_append.mp hq' with hq' | hq'
    · exact .inl (hcollector q hq')
    · cases List.mem_singleton.mp (by simpa using hq' : q ∈ [(⟨p.inst, next :: rest⟩ : PipelineReg)])
      have hiff := hok.generates hq
      exact .inr ⟨⟨hok.inst, hok.op, ⟨fun _ => hiff, fun _ => List.cons_ne_nil _ _⟩, fun m hm =>
        hok.masks m (by rw [hq]; exact List.mem_cons_of_mem _ hm)⟩, hissued⟩
  | @last mask c₁ hq hsent =>
    have hmask := hok.mask_subset hq
    have hfetch := hfetches hq hsent
    have hframe := hsent.frame hok.inst hmask
    rw [retire_eq]
    refine hc.mono (by rw [hframe]) ?_ ?_ (hretire rfl (by rw [hframe])) hfetch ?_
    · intro q hq'
      exact .inl (hcollector q (by rw [hframe] at hq'; simpa [regs] using hq'))
    · intro w hw
      rw [hframe] at hw
      exact hw
    · intro w hw
      rw [hframe] at hw
      exact .inl hw
  | membar => exact hquiet _ c.memfences
  | memfence => exact hquiet c.membar _

theorem Moved.ok {a : Act} (hc : c.Ok) (h : Moved cfg c a c') : c'.Ok := by
  have herase : ∀ {n : Nat}, ∀ f ∈ c.fetches.eraseIdx n,
      (∃ g ∈ c.fetches, f.inst = g.inst ∧ f.mask = g.mask) ∨ f.inst ∈ c.issued ∧
        f.inst.GeneratesAccesses ∧ f.inst.space ≠ .shared ∧ f.mask ⊆ f.inst.active :=
    fun f hf => .inl ⟨f, List.mem_of_mem_eraseIdx hf, rfl, rfl⟩
  have hfetch : ∀ {n : Nat} {f : MemFetch}, c.fetches[n]? = some f → ∀ w, some f.inst = some w →
      c.nextWb = some w ∨ (w.isLoad = true ∧ w.space = .shared ∨
        w.GeneratesAccesses ∧ w.space ≠ .shared) ∧ w ∈ c.issued := by
    rintro n f hf w ⟨⟩
    obtain ⟨hi, hgen, hshared, -⟩ := hc.fetches f (List.mem_of_getElem? hf)
    exact .inr ⟨.inr ⟨hgen, hshared⟩, hi⟩
  cases h with
  | issue h => exact h.ok_afterIssue hc
  | unitWriteback h =>
    rw [releaseRegisters_eq]
    exact hc.mono (u := fun w hw => List.mem_of_mem_eraseIdx hw)
  | ldstIssue hfree h =>
    refine hc.mono (r := ?_)
    intro q hq
    refine .inl (List.mem_append_left _ ?_)
    rcases List.mem_append.mp hq with hq | hq
    · exact List.mem_of_mem_eraseIdx hq
    · cases List.mem_singleton.mp hq
      exact List.mem_of_getElem? h
  | cycle hp hok h => exact h.ok hc hp hok
  | @writeback w x hwb h =>
    have hx := writeback_frame h
    have hcore : ∀ core : Core, core = { x.1 with completed := core.completed } → core.Ok := by
      intro core hcore
      rw [hcore, hx]
      exact hc.mono (w := by simp)
    apply hcore
    split <;> rfl
  | serviceShared hwb hpipe hle =>
    obtain ⟨hl, hs, hi⟩ := hc.pipelineReg _ (by rw [hpipe]; exact List.mem_cons_self)
    refine hc.mono (p := ?_) (w := ?_)
    · exact fun w hw => .inl (by rw [hpipe]; exact List.mem_cons_of_mem _ hw)
    · rintro w ⟨⟩
      exact .inr ⟨.inl ⟨hl, hs⟩, hi⟩
  | cached hwb hf =>
    exact hc.mono (f := herase) (w := hfetch hf)
  | uncached hruby hwb hf =>
    exact hc.mono (f := herase) (w := hfetch hf)
  | ruby hruby hwb hf =>
    exact hc.mono (f := herase) (w := hfetch hf)
  | serviceMemfence =>
    exact hc.mono
  | @reply n f hruby hf =>
    refine hc.mono (f := ?_)
    intro g hg
    rcases List.mem_or_eq_of_mem_set hg with hg | rfl
    · exact .inl ⟨g, hg, rfl, rfl⟩
    · exact .inl ⟨f, List.mem_of_getElem? hf, rfl, rfl⟩
  | storeAck =>
    exact hc.mono (f := herase)

theorem ok_of_reachableUnder {ok : Core → Act → Prop} (h : (core cfg).ReachableUnder ok c) : c.Ok :=
  h.invariant Ok.init fun _ _ _ hc _ hs => (step_ok hc hs).ok hc

end Core

end GpgpuSimRuby.Shader
