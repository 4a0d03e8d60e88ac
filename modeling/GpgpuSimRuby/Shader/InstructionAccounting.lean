import GpgpuSimRuby.Shader.FrontEnd
import GpgpuSimRuby.Shader.LoadCompletion

/-!
# The accounts of a warp

`m_inst_in_pipeline` of a warp counts the valid entries of its instruction buffer and the
instructions of the warp that are in the pipeline: every instruction is counted once when it is
decoded, and counted off once, where it is flushed or where it leaves. The outstanding stores are
the writes on their way to the memory. So neither counter is lowered at zero, and a warp is done
with the hardware only when nothing of it is left there.
-/

open Function (update update_self update_of_ne)

namespace GpgpuSimRuby.Shader.FrontEnd

open Library Ptx

/-! ## The counter of a warp -/

namespace ShdWarp

variable {v v' : ShdWarp} {n : Nat} {slot : Fin ibufferSize} {pI : Option Inst}

/-- The number of valid entries of the instruction buffer. -/
def validEntries (v : ShdWarp) : Nat := (Finset.univ.filter fun slot => (v.ibuffer slot).valid).card

/-- The counter is right with `n` instructions of the warp in the pipeline. -/
def Counts (v : ShdWarp) (n : Nat) : Prop := v.instInPipeline = v.validEntries + n

@[simp]
theorem setEntry_ibuffer (e : IbufferEntry) :
    (v.setEntry slot e).ibuffer = update v.ibuffer slot e := rfl

theorem validEntries_eq_sum : v.validEntries = ∑ slot, (v.ibuffer slot).valid.toNat := by
  unfold validEntries
  rw [Finset.card_filter]
  apply Finset.sum_congr rfl
  intro slot _
  cases (v.ibuffer slot).valid <;> rfl

theorem validEntries_setEntry (v : ShdWarp) (slot : Fin ibufferSize) (e : IbufferEntry) :
    (v.setEntry slot e).validEntries + (v.ibuffer slot).valid.toNat =
      v.validEntries + e.valid.toNat := by
  have hrest : ∑ i ∈ Finset.univ.erase slot, ((v.setEntry slot e).ibuffer i).valid.toNat =
      ∑ i ∈ Finset.univ.erase slot, (v.ibuffer i).valid.toNat := by
    apply Finset.sum_congr rfl
    intro i hi
    rw [setEntry_ibuffer, update_of_ne (Finset.ne_of_mem_erase hi)]
  have hslot : (v.setEntry slot e).ibuffer slot = e := by rw [setEntry_ibuffer, update_self]
  rw [validEntries_eq_sum, validEntries_eq_sum, ← Finset.add_sum_erase _ _ (Finset.mem_univ slot),
    hrest, hslot, ← Finset.add_sum_erase _ _ (Finset.mem_univ slot)]
  omega

theorem validEntries_pos (h : (v.ibuffer slot).valid = true) : 0 < v.validEntries :=
  Finset.card_pos.mpr ⟨slot, Finset.mem_filter.mpr ⟨Finset.mem_univ slot, h⟩⟩

theorem validEntries_eq_zero_iff : v.validEntries = 0 ↔ v.ibufferEmpty := by
  unfold validEntries ibufferEmpty
  rw [Finset.card_eq_zero, Finset.filter_eq_empty_iff]
  simp

theorem decInstInPipeline_of_pos (h : 0 < v.instInPipeline) :
    v.decInstInPipeline = .ok { v with instInPipeline := v.instInPipeline - 1 } := by
  rw [decInstInPipeline, assert_pos h, ok_bind]

namespace Counts

theorem congr (h : v.Counts n) (hinst : v'.instInPipeline = v.instInPipeline)
    (hbuffer : v'.ibuffer = v.ibuffer) : v'.Counts n := by
  unfold Counts validEntries at h ⊢
  rw [hinst, hbuffer, h]

theorem leave (h : v.Counts (n + 1)) : ∃ v', v.decInstInPipeline = .ok v' ∧ v'.Counts n ∧
    v'.ibuffer = v.ibuffer := by
  unfold Counts at h
  refine ⟨_, decInstInPipeline_of_pos (by omega), ?_, rfl⟩
  show v.instInPipeline - 1 = v.validEntries + n
  omega

theorem ibufferFree (h : v.Counts n) (hvalid : v.ibufferNextValid = true) :
    v.ibufferFree.Counts (n + 1) := by
  have hentries := v.validEntries_setEntry v.next ⟨none, false⟩
  rw [show (v.ibuffer v.next).valid = true from hvalid] at hentries
  simp only [Bool.toNat_true, Bool.toNat_false, Nat.add_zero] at hentries
  show v.instInPipeline = (v.setEntry v.next ⟨none, false⟩).validEntries + (n + 1)
  unfold Counts at h
  omega

theorem ibufferFill (h : v.Counts n) (hslot : (v.ibuffer slot).valid = false) :
    (v.ibufferFill slot pI).incInstInPipeline.Counts n := by
  have hentries := validEntries_setEntry { v with next := slot0 } slot ⟨pI, true⟩
  simp only [hslot, Bool.toNat_true, Bool.toNat_false, Nat.add_zero] at hentries
  show v.instInPipeline + 1 = (setEntry { v with next := slot0 } slot ⟨pI, true⟩).validEntries + n
  have hsame : ({ v with next := slot0 } : ShdWarp).validEntries = v.validEntries := rfl
  unfold Counts at h
  omega

theorem decode (cfg : Config) (pc : Nat) (h : v.Counts n) (hempty : v.ibufferEmpty) :
    (v.decode cfg pc).Counts n := by
  have hfirst : ∀ pI, (v.ibufferFill slot0 pI).incInstInPipeline.Counts n := fun pI =>
    h.ibufferFill (hempty slot0)
  unfold ShdWarp.decode
  dsimp only
  split
  · apply (hfirst _).ibufferFill
    exact hempty slot1
  · exact hfirst _

/-! ### Flushing -/

theorem flushEntry (h : v.Counts n) (slot : Fin ibufferSize) :
    ∃ v', v.flushEntry slot = .ok v' ∧ v'.Counts n ∧
    v'.ibuffer = update v.ibuffer slot ⟨none, false⟩ := by
  have hentries := v.validEntries_setEntry slot ⟨none, false⟩
  unfold Counts at h
  unfold ShdWarp.flushEntry
  cases hvalid : (v.ibuffer slot).valid with
  | false =>
    rw [if_neg Bool.false_ne_true, ok_bind]
    rw [hvalid] at hentries
    refine ⟨_, rfl, ?_, rfl⟩
    show v.instInPipeline = (v.setEntry slot ⟨none, false⟩).validEntries + n
    simp only [Bool.toNat_false, Nat.add_zero] at hentries
    omega
  | true =>
    have hpos := validEntries_pos hvalid
    rw [if_pos rfl, decInstInPipeline_of_pos (by omega), ok_bind]
    rw [hvalid] at hentries
    refine ⟨_, rfl, ?_, rfl⟩
    show v.instInPipeline - 1 = (v.setEntry slot ⟨none, false⟩).validEntries + n
    simp only [Bool.toNat_true, Bool.toNat_false, Nat.add_zero] at hentries
    omega

theorem ibufferFlush (h : v.Counts n) :
    ∃ v', v.ibufferFlush = .ok v' ∧ v'.Counts n ∧ v'.ibufferEmpty := by
  have hloop : ∀ slots : List (Fin ibufferSize), ∃ v', slots.foldlM ShdWarp.flushEntry v = .ok v' ∧
      (v'.Counts n ∧ ∀ slot ∈ slots, (v'.ibuffer slot).valid = false) := by
    intro slots
    apply foldlM_invariant (fun (done : List (Fin ibufferSize)) (w : ShdWarp) =>
      w.Counts n ∧ ∀ slot ∈ done, (w.ibuffer slot).valid = false)
    · exact ⟨h, fun _ hmem => absurd hmem List.not_mem_nil⟩
    intro done slot rest w _ hw
    obtain ⟨w', hw', hcounts, hbuffer⟩ := hw.1.flushEntry slot
    refine ⟨w', hw', hcounts, fun i hi => ?_⟩
    rw [hbuffer]
    by_cases his : i = slot
    · rw [his, update_self]
    · rw [update_of_ne his]
      apply hw.2
      simpa [his] using hi
  obtain ⟨v', hv', hcounts, hempty⟩ := hloop (List.finRange ibufferSize)
  exact ⟨v', hv', hcounts, fun slot => hempty slot (List.mem_finRange slot)⟩

theorem threadDone (h : v.Counts n) (lane : Nat) :
    v.threadDone lane = .error .notActive ∨ ∃ v', v.threadDone lane = .ok v' ∧ v'.Counts n := by
  unfold ShdWarp.threadDone setCompleted
  by_cases hlane : lane ∈ v.activeThreads
  · rw [assert_pos hlane, ok_bind, ok_bind]
    obtain ⟨v', hv', hcounts, -⟩ := ibufferFlush (v := { v with
      activeThreads := v.activeThreads.erase lane, nCompleted := v.nCompleted + 1 }) (h.congr rfl rfl)
    exact .inr ⟨v', hv', hcounts⟩
  · rw [assert_neg hlane]
    exact .inl rfl

theorem threadsDone (h : v.Counts n) (exits : List Nat) :
    exits.foldlM ShdWarp.threadDone v = .error .notActive ∨
      ∃ v', exits.foldlM ShdWarp.threadDone v = .ok v' ∧ v'.Counts n := by
  induction exits generalizing v with
  | nil => exact .inr ⟨v, rfl, h⟩
  | cons lane exits ih =>
    rw [List.foldlM_cons]
    rcases h.threadDone lane with herr | ⟨w, hw, hcounts⟩
    · rw [herr]
      exact .inl rfl
    · rw [hw, ok_bind]
      exact ih hcounts

end Counts

end ShdWarp

/-! ## The instructions in the pipeline -/

section Pipeline

variable {cfg : Shader.Config} {c c' : Core}

/-- The instructions that were issued and have not left the pipeline. A load leaves it with its last
access: from then on the scoreboard and `m_pending_writes` look after it. -/
def inPipeline (c : Core) : Multiset WarpInst :=
  ↑(c.collector.map (·.inst)) + ↑c.units + ↑(c.dispatchReg.toList.map (·.inst)) + ↑c.pipelineReg

theorem inPipeline_afterIssue (warp : Nat) (x : Exec) (accessq : List (Finset Nat)) :
    inPipeline (c.afterIssue warp x accessq) = {x.inst} + inPipeline c := by
  unfold inPipeline Core.afterIssue
  by_cases halu : x.inst.op = .alu
  · simp only [halu, if_true, ← Multiset.cons_coe, ← Multiset.singleton_add]
    abel
  · simp only [halu, if_false, List.map_cons, ← Multiset.cons_coe, ← Multiset.singleton_add]
    abel

variable {p : PipelineReg} {a : Act}

theorem inPipeline_retire {c₁ : Core} {q : PipelineReg} (hp : c.dispatchReg = some p)
    (hq : q.inst = p.inst)
    (hcollector : c₁.collector = c.collector) (hunits : c₁.units = c.units)
    (hpipe : c₁.pipelineReg = c.pipelineReg) (busy : Bool) (status : Core.CacheStatus) :
    inPipeline c =
      ↑(leaving c (.cycle busy status) (c₁.retire q)).toList + inPipeline (c₁.retire q) := by
  rw [Core.retire_eq]
  unfold inPipeline leaving
  simp only [hp, hq, hcollector, hunits, hpipe, Option.map_some, Option.toList_some, List.map_cons,
    List.map_nil, if_true, Option.toList_none, Multiset.coe_nil, add_zero]
  by_cases hshared : p.inst.isLoad = true ∧ p.inst.space = .shared
  · rw [if_pos hshared, Option.filter_some, if_neg (by simp [hshared])]
    simp only [Option.toList_none, Multiset.coe_nil, zero_add, ← Multiset.coe_add]
    abel
  · rw [if_neg hshared, Option.filter_some]
    rw [not_and_or, Bool.not_eq_true] at hshared
    rw [if_pos (by simpa using hshared)]
    simp only [Option.toList_some]
    abel

theorem inPipeline_dispatched (hp : c.dispatchReg = some p) (hok : p.Ok)
    (h : Core.Dispatched cfg c p c') (busy : Bool) (status : Core.CacheStatus) :
    inPipeline c = ↑(leaving c (.cycle busy status) c').toList + inPipeline c' := by
  cases h with
  | stall => simp [leaving, hp]
  | idle => exact inPipeline_retire hp rfl rfl rfl rfl busy status
  | sent hq hsent =>
    rw [hsent.frame hok.inst (hok.mask_subset hq)]
    simp [leaving, inPipeline, hp]
  | last hq hsent =>
    have hframe := hsent.frame hok.inst (hok.mask_subset hq)
    apply inPipeline_retire hp rfl <;> rw [hframe]
  | membar => refine inPipeline_retire hp rfl ?_ ?_ ?_ busy status <;> rfl
  | memfence => refine inPipeline_retire hp rfl ?_ ?_ ?_ busy status <;> rfl

/-- **What leaves the pipeline**: the instruction that an action counts off, and no other. -/
theorem inPipeline_moved (h : Core.Moved cfg c a c')
    (hissue : ∀ warp i lanes accessq, a ≠ .issue warp i lanes accessq) :
    inPipeline c = ↑(leaving c a c').toList + inPipeline c' := by
  cases h with
  | issue => exact absurd rfl (hissue _ _ _ _)
  | @unitWriteback n w hw =>
    have hunits : (c.units : Multiset WarpInst) = {w} + ↑(c.units.eraseIdx n) := by
      rw [Multiset.singleton_add, Multiset.cons_coe, Multiset.coe_eq_coe]
      exact (perm_cons_eraseIdx hw).symm
    rw [Core.releaseRegisters_eq]
    simp only [leaving, inPipeline, hw, hunits, Core.release, Core.warpInstComplete,
      Option.toList_some, Multiset.coe_singleton]
    abel
  | @ldstIssue n p hfree hp =>
    have hcollector : (c.collector.map (·.inst) : Multiset WarpInst) =
        {p.inst} + ↑((c.collector.eraseIdx n).map (·.inst)) := by
      rw [Multiset.singleton_add, Multiset.cons_coe, Multiset.coe_eq_coe, ← List.map_cons]
      exact ((perm_cons_eraseIdx hp).map _).symm
    simp only [leaving, inPipeline, hfree, hcollector, Option.toList_some, Option.toList_none,
      List.map_cons, List.map_nil, Multiset.coe_nil, Multiset.coe_singleton]
    abel
  | cycle hp hok h => exact inPipeline_dispatched hp hok h _ _
  | @writeback w x hwb h =>
    have hframe := Core.writeback_frame h
    split
    · rw [hframe]
      simp [leaving, inPipeline, Core.warpInstComplete]
    · rw [hframe]
      simp [leaving, inPipeline]
  | serviceShared hwb hpipe =>
    simp only [leaving, inPipeline, hpipe, List.head?_cons, Option.toList_some, ← Multiset.cons_coe,
      ← Multiset.singleton_add]
    abel
  | cached | uncached | ruby | serviceMemfence | reply | storeAck => simp [leaving, inPipeline]

theorem issued_moved (h : Core.Moved cfg c a c')
    (hissue : ∀ warp i lanes accessq, a ≠ .issue warp i lanes accessq) : c'.issued = c.issued := by
  cases h with
  | issue => exact absurd rfl (hissue _ _ _ _)
  | unitWriteback =>
    rw [Core.releaseRegisters_eq]
    rfl
  | cycle hp hok hd =>
    cases hd with
    | stall => rfl
    | sent hq hsent => rw [hsent.frame hok.inst (hok.mask_subset hq)]
    | last hq hsent => rw [Core.retire_eq, hsent.frame hok.inst (hok.mask_subset hq)]
    | idle | membar | memfence => rw [Core.retire_eq]
  | writeback hwb hloop =>
    have hframe := Core.writeback_frame hloop
    split
    · rw [hframe]
      rfl
    · rw [hframe]
  | _ => rfl

end Pipeline

/-! ## The outstanding stores -/

section Stores

variable {cfg : Shader.Config} {c c' : Core}

/-- The writes of a warp that are on their way. -/
def storesInFlight (c : Core) (warp : Nat) : Nat :=
  c.fetches.countP fun f => f.inst.isStore && decide (f.inst.warp = warp)

/-- The count of outstanding stores is right, and none of the writes goes to a cache that is only
read. -/
structure StoreInv (c : Core) : Prop where
  outstanding : ∀ warp, c.storesOutstanding warp = storesInFlight c warp
  writable : ∀ f ∈ c.fetches, f.inst.isStore = true → f.inst.space ∉ readOnlySpaces

namespace StoreInv

theorem init : StoreInv .init where
  outstanding _ := rfl
  writable _ h := absurd h List.not_mem_nil

theorem congr (h : StoreInv c) (hfetches : c'.fetches = c.fetches)
    (hstores : c'.storesOutstanding = c.storesOutstanding) : StoreInv c' where
  outstanding warp := by
    unfold storesInFlight
    rw [hstores, hfetches]
    exact h.outstanding warp
  writable f hf := by
    rw [hfetches] at hf
    exact h.writable f hf

variable {f : MemFetch}

theorem send (h : StoreInv c) (hfetches : c'.fetches = f :: c.fetches)
    (hwritable : f.inst.isStore = true → f.inst.space ∉ readOnlySpaces)
    (hstores : c'.storesOutstanding = if f.inst.isStore then
      update c.storesOutstanding f.inst.warp (c.storesOutstanding f.inst.warp + 1)
      else c.storesOutstanding) : StoreInv c' where
  outstanding warp := by
    have hold := h.outstanding warp
    unfold storesInFlight at hold ⊢
    rw [hstores, hfetches, List.countP_cons, ← hold]
    cases hstore : f.inst.isStore with
    | false => simp
    | true =>
      by_cases hwarp : f.inst.warp = warp
      · simp [hwarp]
      · simp [hwarp, update_of_ne (Ne.symm hwarp)]
  writable g hg := by
    rw [hfetches] at hg
    rcases List.mem_cons.mp hg with rfl | hg
    · exact hwritable
    · exact h.writable g hg

theorem take (h : StoreInv c) {n : Nat} (hf : c.fetches[n]? = some f)
    (hfetches : c'.fetches = c.fetches.eraseIdx n)
    (hstores : c'.storesOutstanding = if f.inst.isStore then
      update c.storesOutstanding f.inst.warp (c.storesOutstanding f.inst.warp - 1)
      else c.storesOutstanding) : StoreInv c' where
  outstanding warp := by
    have hold := h.outstanding warp
    unfold storesInFlight at hold ⊢
    rw [← (perm_cons_eraseIdx hf).countP_eq, List.countP_cons] at hold
    rw [hstores, hfetches]
    cases hstore : f.inst.isStore with
    | false => simpa [hstore] using hold
    | true =>
      by_cases hwarp : f.inst.warp = warp
      · simp [hstore, hwarp] at hold ⊢
        omega
      · simpa [hstore, hwarp, update_of_ne (Ne.symm hwarp)] using hold
  writable g hg := by
    rw [hfetches] at hg
    exact h.writable g (List.mem_of_mem_eraseIdx hg)

theorem reply (h : StoreInv c) {n : Nat} (hf : c.fetches[n]? = some f)
    (hfetches : c'.fetches = c.fetches.set n { f with replied := true })
    (hstores : c'.storesOutstanding = c.storesOutstanding) : StoreInv c' := by
  have hinst : c'.fetches.map (·.inst) = c.fetches.map (·.inst) := by
    obtain ⟨hn, rfl⟩ := List.getElem?_eq_some_iff.mp hf
    rw [hfetches, List.map_set]
    apply List.ext_getElem (by simp)
    intro i _ _
    grind
  refine ⟨fun warp => ?_, fun g hg hstore => ?_⟩
  · have hcount :
        ∀ l : List MemFetch, (l.countP fun f => f.inst.isStore && decide (f.inst.warp = warp)) =
        (l.map (·.inst)).countP fun w => w.isStore && decide (w.warp = warp) := by
      intro l
      rw [List.countP_map]
      rfl
    unfold storesInFlight
    rw [hstores, hcount, hinst, ← hcount]
    exact h.outstanding warp
  · obtain ⟨g', hg', hsame⟩ := List.mem_map.mp (hinst ▸ List.mem_map_of_mem hg)
    rw [← hsame] at hstore ⊢
    exact h.writable g' hg' hstore

theorem pos (h : StoreInv c) (hf : f ∈ c.fetches) (hstore : f.inst.isStore = true) :
    0 < c.storesOutstanding f.inst.warp := by
  rw [h.outstanding]
  exact List.countP_pos_iff.mpr ⟨f, hf, by simp [hstore]⟩

end StoreInv

theorem space_of_writesReadOnly {p : PipelineReg} (h : writesReadOnly c = false)
    (hp : c.dispatchReg = some p)
    (hok : p.Ok) (hne : p.accessq ≠ []) (hstore : p.inst.isStore = true) :
    p.inst.space ∉ readOnlySpaces := by
  intro hspace
  have hactive := (hok.accessq.mp hne).1.2
  unfold writesReadOnly at h
  rw [hp, Option.any_some, hstore, Bool.true_and, decide_eq_false_iff_not] at h
  exact h ⟨hspace, hactive, hne⟩

namespace StoreInv

section

variable (h : StoreInv c)
include h

theorem sent {w : WarpInst} {mask : Finset Nat} (hok : w.Ok) (hmask : mask ⊆ w.active)
    (hgen : w.GeneratesAccesses) (hwritable : w.isStore = true → w.space ∉ readOnlySpaces)
    (hsent : Core.Sent cfg c w mask c') : StoreInv c' := by
  cases hsent with
  | hit => exact h.congr rfl rfl
  | written => exact h
  | store replied hload =>
    have hstore : w.isStore = true := hgen.1.resolve_left (by simp [hload])
    refine h.send (f := ⟨w, mask, replied⟩) rfl hwritable ?_
    rw [if_pos hstore]
    rfl
  | load hload =>
    have hstore := w.isStore_eq_false_of_isLoad hload
    refine h.send (f := ⟨w, mask, false⟩) rfl hwritable ?_
    rw [if_neg (by simp [hstore])]
  | perfect hload hruby hatomic =>
    have hstore := w.isStore_eq_false_of_isLoad hload
    rw [Core.doAtomic_eq hok hmask] at hatomic
    cases hatomic
    refine h.send (f := ⟨w, mask, true⟩) rfl hwritable ?_
    rw [if_neg (by simp [hstore])]

theorem retire (p : PipelineReg) : StoreInv (c.retire p) := by
  apply h.congr <;> rw [Core.retire_eq]

theorem dispatched {p : PipelineReg} (hread : writesReadOnly c = false)
    (hp : c.dispatchReg = some p) (hok : p.Ok) (hd : Core.Dispatched cfg c p c') : StoreInv c' := by
  have hsend : ∀ {mask rest c₁}, p.accessq = mask :: rest → Core.Sent cfg c p.inst mask c₁ →
      StoreInv c₁ := by
    intro mask rest c₁ hq hsent
    have hne : p.accessq ≠ [] := by simp [hq]
    apply h.sent hok.inst (hok.mask_subset hq) (hok.generates hq).1 _ hsent
    exact space_of_writesReadOnly hread hp hok hne
  cases hd with
  | stall => exact h
  | idle => exact h.retire p
  | sent hq hsent => exact (hsend hq hsent).congr rfl rfl
  | last hq hsent => exact (hsend hq hsent).retire _
  | membar =>
    apply retire
    exact h.congr rfl rfl
  | memfence =>
    apply retire
    exact h.congr rfl rfl

theorem serviceFetch {n : Nat} {f : MemFetch} (hok : c.Ok) (hf : c.fetches[n]? = some f)
    (hs : c.serviceFetch cfg n = some (.ok c')) :
    c'.storesOutstanding = if f.inst.isStore then
      update c.storesOutstanding f.inst.warp (c.storesOutstanding f.inst.warp - 1)
      else c.storesOutstanding := by
  obtain ⟨hw, hmask⟩ := Core.fetch_ok hok hf
  simp only [Core.serviceFetch] at hs
  split at hs
  case h_2 => cases hs
  case h_1 g hwb hg =>
    cases hf.symm.trans hg
    by_cases hspace : f.inst.space ∈ [MemorySpace.const, .paramKernel, .tex]
    · -- only loads come back from the caches that are only read
      have hload : ¬ f.inst.isStore = true := fun hstore =>
        h.writable f (List.mem_of_getElem? hf) hstore hspace
      rw [if_pos hspace] at hs
      cases hs
      rw [if_neg hload]
    rw [if_neg hspace] at hs
    by_cases hruby : cfg.useRuby = true
    · rw [if_pos hruby, Option.some.injEq] at hs
      obtain ⟨-, rfl⟩ := Core.serviceRuby_ok hw hmask hs
      rfl
    rw [if_neg hruby] at hs
    by_cases hstore : f.inst.isStore = true
    · rw [if_pos hstore] at hs
      cases hs
    rw [if_neg hstore] at hs ⊢
    by_cases hbypass : Core.bypassL1D cfg f.inst = true
    · rw [if_pos hbypass] at hs
      split at hs
      case isFalse => cases hs
      case isTrue =>
        rw [Option.some.injEq] at hs
        obtain ⟨c₂, h₂, hs⟩ := bind_eq_ok.mp hs
        cases hs
        obtain ⟨-, rfl⟩ := Core.decrementAtomicCount_ok h₂
        rfl
    · rw [if_neg hbypass] at hs
      cases hs
      rfl

/-- **Stores are counted once.** An action of the pipeline keeps the count of the outstanding stores. -/
theorem step {a : Act} (hok : c.Ok)
    (hread : ∀ busy status, a = .cycle busy status → writesReadOnly c = false)
    (hs : (Shader.core cfg).step c a = some (.ok c')) : StoreInv c' := by
  cases Core.step_ok hok hs with
  | issue => exact h.congr rfl rfl
  | unitWriteback =>
    rw [Core.releaseRegisters_eq]
    exact h.congr rfl rfl
  | ldstIssue => exact h.congr rfl rfl
  | cycle hp hreg hd => exact h.dispatched (hread _ _ rfl) hp hreg hd
  | writeback hwb hloop =>
    have hframe := Core.writeback_frame hloop
    split
    · apply h.congr <;> rw [hframe] <;> rfl
    · apply h.congr <;> rw [hframe]
  | serviceShared => exact h.congr rfl rfl
  | cached hwb hf => exact h.take hf rfl (h.serviceFetch hok hf hs)
  | uncached hruby hwb hf => exact h.take hf rfl (h.serviceFetch hok hf hs)
  | ruby hruby hwb hf => exact h.take hf rfl (h.serviceFetch hok hf hs)
  | serviceMemfence => exact h.congr rfl rfl
  | reply hruby hf => exact h.reply hf rfl rfl
  | storeAck hruby hf hstore =>
    refine h.take hf rfl ?_
    rw [if_pos hstore]

theorem decStoreReq_ok {f : MemFetch} (hf : f ∈ c.fetches) (hstore : f.inst.isStore = true)
    (n : Nat) : ∃ c₁, { c with fetches := c.fetches.eraseIdx n }.decStoreReq f.inst.warp = .ok c₁ := by
  unfold Core.decStoreReq
  rw [assert_pos (h.pos hf hstore), ok_bind]
  exact ⟨_, rfl⟩

/-- **`dec_store_req` never underflows.** -/
theorem ne_noStore (hok : c.Ok) (hloads : c.LoadInv) {a : Act} :
    (Shader.core cfg).step c a ≠ some (.error .noStore) := by
  intro hs
  cases Core.step_error hok hloads hs with
  | issue he => simp [Core.Issues, Fault.Functional] at he
  | cycle he => simp at he
  | @noStore n hruby =>
    simp only [Shader.core, Core.serviceFetch] at hs
    split at hs
    case h_2 => cases hs
    case h_1 f hwb hf =>
      obtain ⟨hw, hmask⟩ := Core.fetch_ok hok hf
      by_cases hspace : f.inst.space ∈ [MemorySpace.const, .paramKernel, .tex]
      · rw [if_pos hspace] at hs
        cases hs
      rw [if_neg hspace, if_pos hruby, Option.some.injEq] at hs
      rcases bind_eq_error.mp hs with hs | ⟨c₁, -, hs⟩
      · split at hs
        case isFalse => cases hs
        case isTrue hstore =>
          obtain ⟨c₁, h₁⟩ := h.decStoreReq_ok (List.mem_of_getElem? hf) hstore n
          cases h₁.symm.trans hs
      · -- after the store is counted off, only the atomics are asserted about
        rw [Core.doAtomic_eq hw hmask, ok_bind] at hs
        cases (Core.decrementAtomicCount_error (bind_return_eq_error.mp hs)).1
  | @storeAck n =>
    simp only [Shader.core, Core.storeAck] at hs
    split at hs
    case h_2 => cases hs
    case h_1 f hruby hf =>
      split at hs
      case isFalse => cases hs
      case isTrue hstore =>
        obtain ⟨c₁, h₁⟩ := h.decStoreReq_ok (List.mem_of_getElem? hf) hstore n
        rw [h₁] at hs
        cases hs

end

end StoreInv

end Stores

/-! ## The invariant -/

/-- The instructions of a warp that are in the pipeline. -/
def inFlight (c : Core) (warp : Nat) : Nat := (inPipeline c).countP fun w => w.warp = warp

structure Inv (s : ShaderCoreCtx) : Prop where
  core : s.core.Ok
  loads : s.core.LoadInv
  stores : StoreInv s.core
  counts : ∀ warp, (s.warps warp).Counts (inFlight s.core warp)
  fetched : ∀ b, s.instFetchBuffer = some b → (s.warps b.warpId).ibufferEmpty
  issued : (s.core.issued : Multiset WarpInst) = ↑s.left + inPipeline s.core

/-- What an action may end in: the invariant, or a fault that is no underflow of a counter. -/
structure Sound (r : Except Fault ShaderCoreCtx) : Prop where
  inv : ∀ s, r = .ok s → Inv s
  fault : ∀ e, r = .error e → e ≠ .noInst ∧ e ≠ .core .noStore

section Runs

variable {cfg : Config} {s : ShaderCoreCtx} {warp : Nat} {v : ShdWarp} {r : Except Fault ShaderCoreCtx}

theorem Sound.ok (h : Inv s) : Sound (.ok s) where
  inv := by
    rintro _ ⟨⟩
    exact h
  fault _ he := by cases he

theorem Sound.error {e : Fault} (hinst : e ≠ .noInst) (hstore : e ≠ .core .noStore) :
    Sound (.error e) where
  inv _ hs := by cases hs
  fault := by
    rintro _ ⟨⟩
    exact ⟨hinst, hstore⟩

variable {w : WarpInst}

theorem inFlight_add {c c' : Core} (h : inPipeline c' = {w} + inPipeline c) (warp : Nat) :
    inFlight c' warp = (if w.warp = warp then 1 else 0) + inFlight c warp := by
  unfold inFlight
  rw [h, Multiset.countP_add, ← Multiset.cons_zero, Multiset.countP_cons, Multiset.countP_zero,
    zero_add]

namespace Inv

theorem init (cfg : Config) : Inv (.init cfg) where
  core := .init
  loads := .init
  stores := .init
  counts warp := by
    show (ShdWarp.new cfg.warpSize).Counts 0
    have hzero : (ShdWarp.new cfg.warpSize).validEntries = 0 := by
      rw [ShdWarp.validEntries_eq_zero_iff]
      exact fun _ => rfl
    rw [ShdWarp.Counts, hzero]
    rfl
  fetched b hb := by cases hb
  issued := rfl

section

variable (h : Inv s)
include h

theorem move {c' : Core} {left : List WarpInst} (hok : c'.Ok) (hloads : c'.LoadInv)
    (hstores : StoreInv c') (hcounts : v.Counts (inFlight c' warp))
    (hother : ∀ other, other ≠ warp → inFlight c' other = inFlight s.core other)
    (hempty : (s.warps warp).ibufferEmpty → v.ibufferEmpty)
    (hissued : (c'.issued : Multiset WarpInst) = ↑left + inPipeline c') :
    Inv ({ s with core := c', left := left }.setWarp warp v) where
  core := hok
  loads := hloads
  stores := hstores
  counts other := by
    show (update s.warps warp v other).Counts (inFlight c' other)
    by_cases hne : other = warp
    · rw [hne, update_self]
      exact hcounts
    · rw [update_of_ne hne, hother other hne]
      exact h.counts other
  fetched b hb := by
    show (update s.warps warp v b.warpId).ibufferEmpty
    by_cases hne : b.warpId = warp
    · rw [hne, update_self]
      apply hempty
      rw [← hne]
      exact h.fetched b hb
    · rw [update_of_ne hne]
      exact h.fetched b hb
  issued := hissued

theorem setWarp (hcounts : v.Counts (inFlight s.core warp))
    (hempty : (s.warps warp).ibufferEmpty → v.ibufferEmpty) : Inv (s.setWarp warp v) :=
  h.move h.core h.loads h.stores hcounts (fun _ _ => rfl) hempty h.issued

theorem setWarp_same (hinst : v.instInPipeline = (s.warps warp).instInPipeline)
    (hbuffer : v.ibuffer = (s.warps warp).ibuffer) : Inv (s.setWarp warp v) := by
  apply h.setWarp ((h.counts warp).congr hinst hbuffer)
  intro hempty slot
  rw [hbuffer]
  exact hempty slot

theorem reset (warp : Nat) : Sound (s.reset cfg warp) := by
  unfold ShaderCoreCtx.reset ShdWarp.reset
  by_cases hstores : s.core.storesOutstanding warp = 0
  · rw [assert_pos hstores, ok_bind]
    by_cases hinst : (s.warps warp).instInPipeline = 0
    · rw [assert_pos hinst, ok_bind, ok_bind]
      apply Sound.ok
      -- the barrier and the atomics of a warp are in none of the accounts
      have hclear : Inv { s with core := { s.core with
          nAtomic := update s.core.nAtomic warp 0
          membar := update s.core.membar warp false } } :=
        ⟨⟨h.core.issued, h.core.regs, h.core.units, h.core.pipelineReg, h.core.fetches, h.core.nextWb⟩,
          h.loads.congr (fun _ => rfl) rfl rfl, h.stores.congr rfl rfl, h.counts, h.fetched,
          h.issued⟩
      apply hclear.setWarp_same <;> rfl
    · rw [assert_neg hinst]
      exact .error (by decide) (by decide)
  · rw [assert_neg hstores]
    exact .error (by decide) (by decide)

theorem initWarp (warp startPc : Nat) (active : Finset Nat) :
    Sound (s.initWarp cfg warp startPc active) := by
  unfold ShaderCoreCtx.initWarp ShdWarp.init
  by_cases hcard : active.card ≤ (s.warps warp).nCompleted
  · rw [assert_pos hcard, ok_bind]
    by_cases hle : (s.warps warp).nCompleted ≤ cfg.warpSize
    · rw [assert_pos hle, ok_bind, ok_bind]
      apply Sound.ok
      apply h.setWarp_same <;> rfl
    · rw [assert_neg hle]
      exact .error (by decide) (by decide)
  · rw [assert_neg hcard]
    exact .error (by decide) (by decide)

theorem reclaim (hr : s.reclaim cfg warp = some r) : Sound r := by
  unfold ShaderCoreCtx.reclaim at hr
  split at hr
  case isFalse => cases hr
  case isTrue =>
    cases hr
    apply Sound.ok
    apply h.setWarp_same <;> rfl

theorem fetch {status : FetchStatus} (hr : s.fetch cfg warp status = some r) : Sound r := by
  unfold ShaderCoreCtx.fetch at hr
  dsimp only at hr
  split at hr
  case isFalse => cases hr
  case isTrue hready =>
  cases status with
  | hit =>
    cases hr
    refine .ok ⟨h.core, h.loads, h.stores, h.counts, ?_, h.issued⟩
    rintro b ⟨⟩
    exact hready.2.2.2
  | miss =>
    cases hr
    apply Sound.ok
    apply h.setWarp_same <;> rfl
  | reservationFail =>
    cases hr
    exact .ok h

theorem decode (hr : s.decode cfg = some r) : Sound r := by
  obtain ⟨b, hb, rfl⟩ := Option.map_eq_some_iff.mp hr
  have hcounts := (h.counts b.warpId).decode cfg b.pc (h.fetched b hb)
  apply Sound.ok
  refine ⟨h.core, h.loads, h.stores, fun other => ?_, fun _ hb' => (by cases hb'), h.issued⟩
  by_cases hne : other = b.warpId
  · rw [hne]
    show (update s.warps b.warpId _ b.warpId).Counts _
    rw [update_self]
    exact hcounts
  · show (update s.warps b.warpId _ other).Counts _
    rw [update_of_ne hne]
    exact h.counts other

theorem flush (warp pc : Nat) : Sound (s.flush warp pc) := by
  have hset : ((s.warps warp).setNextPc pc).Counts (inFlight s.core warp) :=
    (h.counts warp).congr rfl rfl
  obtain ⟨v, hv, hcounts, hempty⟩ := hset.ibufferFlush
  unfold ShaderCoreCtx.flush
  rw [hv, ok_bind]
  exact .ok (h.setWarp hcounts fun _ => hempty)

variable {lanes : List Lane} {accessq : List (Finset Nat)} {exits : List Nat}

theorem issueWarp {i : Inst}
    (hvalid : (s.warps warp).ibufferNextValid = true)
    (hr : s.issueWarp cfg warp i lanes accessq exits = some r) : Sound r := by
  unfold ShaderCoreCtx.issueWarp at hr
  split at hr
  case isFalse => cases hr
  case isTrue =>
  obtain ⟨q, hq, rfl⟩ := Option.map_eq_some_iff.mp hr
  by_cases hpos : 0 < (s.warps warp).instInPipeline
  swap
  · rw [assert_neg hpos]
    exact .error (by decide) (by decide)
  rw [assert_pos hpos, ok_bind]
  cases q with
  | error e =>
    refine .error (by simp) fun he => ?_
    cases he
    exact h.stores.ne_noStore h.core h.loads (a := .issue warp i lanes accessq) hq
  | ok core =>
    obtain ⟨x, hx, rfl⟩ := Core.issue_ok hq
    have hmoved := Core.Moved.issue hx
    have hadd := inPipeline_afterIssue (c := s.core) warp x accessq
    have hflight := inFlight_add hadd
    rw [hx.warp_eq] at hflight
    show Sound (exits.foldlM ShdWarp.threadDone (s.warps warp).ibufferFree >>= _)
    rcases ((h.counts warp).ibufferFree hvalid).threadsDone exits with herr | ⟨v, hv, hcounts⟩
    · rw [herr]
      exact .error (by decide) (by decide)
    · rw [hv, ok_bind]
      apply Sound.ok
      apply h.move (hmoved.ok h.core) (hmoved.loadInv h.loads h.core) (h.stores.congr rfl rfl)
      · rw [hflight, if_pos rfl, Nat.add_comm 1]
        exact hcounts.congr rfl rfl
      · intro other hne
        rw [hflight, if_neg (Ne.symm hne), zero_add]
      · -- the fetch buffer has nothing for a warp that issues
        intro hempty
        have hnext := hempty (s.warps warp).next
        cases hvalid.symm.trans hnext
      · show ((x.inst :: s.core.issued : List WarpInst) : Multiset WarpInst) = _
        rw [hadd, ← Multiset.cons_coe, h.issued, ← Multiset.singleton_add]
        abel

theorem schedule {pc : Nat}
    (hr : s.schedule cfg warp pc lanes accessq exits = some r) : Sound r := by
  unfold ShaderCoreCtx.schedule at hr
  dsimp only at hr
  split at hr
  case isTrue => cases hr
  case isFalse =>
  split at hr
  case h_1 i hi =>
    split at hr
    case isTrue =>
      cases hr
      exact .error (by decide) (by decide)
    case isFalse hvalid =>
    split at hr
    case isTrue =>
      cases hr
      exact h.flush warp pc
    case isFalse => exact h.issueWarp (by simpa using hvalid) hr
  case h_2 =>
    split at hr
    case isTrue =>
      cases hr
      exact h.flush warp pc
    case isFalse => cases hr

theorem coreStep {a : Act} (hissue : ∀ warp i lanes accessq, a ≠ .issue warp i lanes accessq)
    (hread : ∀ busy status, a = .cycle busy status → writesReadOnly s.core = false)
    (hr : s.coreStep cfg a = some r) : Sound r := by
  obtain ⟨q, hq, rfl⟩ := Option.map_eq_some_iff.mp hr
  cases q with
  | error e =>
    refine .error (by simp) fun he => ?_
    cases he
    exact h.stores.ne_noStore h.core h.loads hq
  | ok c' =>
    have hmoved := Core.step_ok h.core hq
    have hok := hmoved.ok h.core
    have hloads := hmoved.loadInv h.loads h.core
    have hstores := h.stores.step h.core hread hq
    have hpipe := inPipeline_moved hmoved hissue
    have hissued : (c'.issued : Multiset WarpInst) = ↑s.left + inPipeline s.core := by
      rw [issued_moved hmoved hissue]
      exact h.issued
    show Sound (s.countOff c' (leaving s.core a c'))
    cases hleave : leaving s.core a c' with
    | none =>
      rw [hleave, Option.toList_none, Multiset.coe_nil, zero_add] at hpipe
      rw [hpipe] at hissued
      refine .ok ⟨hok, hloads, hstores, fun warp => ?_, h.fetched, hissued⟩
      show (s.warps warp).Counts (inFlight c' warp)
      rw [inFlight, ← hpipe]
      exact h.counts warp
    | some w =>
      rw [hleave, Option.toList_some, Multiset.coe_singleton] at hpipe
      rw [hpipe] at hissued
      have hflight := inFlight_add hpipe
      have hcounts := h.counts w.warp
      rw [hflight, if_pos rfl, Nat.add_comm 1] at hcounts
      obtain ⟨v, hv, hcounts, hbuffer⟩ := hcounts.leave
      show Sound ((s.warps w.warp).decInstInPipeline >>= _)
      rw [hv, ok_bind]
      apply Sound.ok
      apply h.move hok hloads hstores hcounts
      · intro other hne
        rw [hflight, if_neg (Ne.symm hne), zero_add]
      · intro hempty slot
        rw [hbuffer]
        exact hempty slot
      · rw [hissued, ← Multiset.cons_coe, ← Multiset.singleton_add]
        abel

/-- **The step.** Every action of the core keeps the accounts. -/
theorem step {a : FrontAct} (hr : (shaderCore cfg).step s a = some r) : Sound r := by
  cases a with
  | reset warp =>
    cases hr
    exact h.reset warp
  | init warp startPc active =>
    cases hr
    exact h.initWarp warp startPc active
  | reclaim => exact h.reclaim hr
  | fetch => exact h.fetch hr
  | accessReady warp =>
    cases hr
    apply Sound.ok
    apply h.setWarp_same <;> rfl
  | decode => exact h.decode hr
  | schedule => exact h.schedule hr
  | core a =>
    cases a with
    | issue => cases hr
    | cycle busy status =>
      change (if writesReadOnly s.core then some (.error .readOnly)
        else s.coreStep cfg (.cycle busy status)) = some r at hr
      split at hr
      case isTrue =>
        cases hr
        exact .error (by decide) (by decide)
      case isFalse hread =>
        apply h.coreStep _ _ hr
        · simp
        · exact fun _ _ _ => by simpa using hread
    | _ => exact h.coreStep (by simp) (by simp) hr

end

end Inv

theorem inv_of_reachable (h : (shaderCore cfg).Reachable s) : Inv s :=
  h.invariant (.init cfg) fun _ _ _ hs _ hr => (hs.step hr).inv _ rfl

theorem Inv.of_hardwareDone (h : Inv s) (hdone : s.hardwareDone cfg warp) :
    (s.warps warp).ibufferEmpty ∧ (∀ w ∈ inPipeline s.core, w.warp ≠ warp) ∧
      ∀ f ∈ s.core.fetches, f.inst.isStore = true → f.inst.warp ≠ warp := by
  obtain ⟨-, hstores, hinst⟩ := hdone
  have hcounts := h.counts warp
  unfold ShdWarp.Counts at hcounts
  refine ⟨ShdWarp.validEntries_eq_zero_iff.mp (by omega), ?_, ?_⟩
  · have hzero : inFlight s.core warp = 0 := by omega
    exact Multiset.countP_eq_zero.mp hzero
  · rintro f hf hstore rfl
    have hpos := h.stores.pos hf hstore
    omega

/-- A warp whose threads leave the core has written back the registers of all its instructions,
those of its loads too. -/
theorem Inv.of_reclaim (h : Inv s) (hr : s.reclaim cfg warp = some r) (hw : w.warp = warp)
    (hout : w.out ≠ []) : ¬ (s.core.place w).Underway w := by
  unfold ShaderCoreCtx.reclaim at hr
  split at hr
  case isFalse => cases hr
  case isTrue hidle =>
  intro hunder
  obtain ⟨r, hr⟩ := List.exists_mem_of_ne_nil _ hout
  have hmem := h.loads.hold w hunder r hr
  rw [hw] at hmem
  apply hidle.2.1
  exact Finset.ne_empty_of_mem hmem

/-- The accounts of the warps of a core. An instruction of a warp is in flight from `decode` until
it is flushed or leaves the pipeline, a store until it is acknowledged. -/
structure Accounted (cfg : Config) (s : ShaderCoreCtx) : Prop where
  /-- what is in the pipeline is what was issued and has not left -/
  issued : (s.core.issued : Multiset WarpInst) = ↑s.left + inPipeline s.core
  instInPipeline : ∀ warp,
    (s.warps warp).instInPipeline = (s.warps warp).validEntries + inFlight s.core warp
  noUnderflow : ∀ a, (shaderCore cfg).step s a ≠ some (.error .noInst) ∧
    (shaderCore cfg).step s a ≠ some (.error (.core .noStore))
  hardwareDone : ∀ warp, s.hardwareDone cfg warp →
    (s.warps warp).ibufferEmpty ∧ (∀ w ∈ inPipeline s.core, w.warp ≠ warp) ∧
      ∀ f ∈ s.core.fetches, f.inst.isStore = true → f.inst.warp ≠ warp

/-- **The accounts of a warp**, in every state of every run. -/
theorem run_accounted (cfg : Config) (h : (shaderCore cfg).Reachable s) : Accounted cfg s := by
  have hinv := inv_of_reachable h
  refine ⟨hinv.issued, hinv.counts, fun a => ?_, fun warp => hinv.of_hardwareDone⟩
  constructor
  · intro hr
    exact ((hinv.step hr).fault _ rfl).1 rfl
  · intro hr
    exact ((hinv.step hr).fault _ rfl).2 rfl

/-- **Nothing is left of a warp whose threads leave the core**: no instruction waits or is in the
pipeline, every store has been acknowledged, and every load has written back its registers. -/
theorem reclaim_nothingLeft (h : (shaderCore cfg).Reachable s) (hr : s.reclaim cfg warp = some r) :
    (s.warps warp).ibufferEmpty ∧ (∀ w ∈ inPipeline s.core, w.warp ≠ warp) ∧
      (∀ f ∈ s.core.fetches, f.inst.isStore = true → f.inst.warp ≠ warp) ∧
      ∀ w : WarpInst, w.warp = warp → w.out ≠ [] → ¬ (s.core.place w).Underway w := by
  have hinv := inv_of_reachable h
  have hdone : s.hardwareDone cfg warp := by
    unfold ShaderCoreCtx.reclaim at hr
    split at hr
    next hidle => exact hidle.1
    next => cases hr
  obtain ⟨hempty, hpipe, hstores⟩ := hinv.of_hardwareDone hdone
  exact ⟨hempty, hpipe, hstores, fun w hw hout => hinv.of_reclaim hr hw hout⟩

end Runs

section Example

def exitInst : Inst :=
  ⟨8, .other, .undefined, none, [], [], by decide, by decide, by decide, Core.no_cacheOption⟩

/-- Two lanes to a warp, and a program that stores and exits. -/
def storeAndExit : Config where
  toConfig := Core.uncached .looseRoundRobin
  warpSize := 2
  ptxFetchInst pc := if pc = 0 then some Core.stGlobal else if pc = 8 then some exitInst else none
  isize _ := 8

/-- One thread of warp 0 starts, stores, exits, and the store is acknowledged. -/
def storeAndExitRun : List FrontAct :=
  [.init 0 0 {0}, .fetch 0 .hit, .decode, .schedule 0 0 [⟨0, true, 0, .global⟩] [{0}] [],
    .schedule 0 8 [⟨0, true, 0, .undefined⟩] [] [0], .core (.ldstIssue 0), .core (.cycle false .miss),
    .core (.unitWriteback 0), .core (.storeAck 0)]

/-- At the end of the run the warp is done with the hardware, and two instructions have left it. -/
theorem run_accounted_storeAndExit : ∃ s, s.hardwareDone storeAndExit 0 ∧ s.left.length = 2 ∧
    Accounted storeAndExit s := by
  obtain ⟨s, -, hs, hend⟩ := (shaderCore storeAndExit).exists_reachable_of_run storeAndExitRun
    (fun s => (decide (s.hardwareDone storeAndExit 0), s.left.length)) (y := (true, 2)) (by rfl)
  simp only [Prod.mk.injEq, decide_eq_true_eq] at hend
  exact ⟨s, hend.1, hend.2, run_accounted storeAndExit hs⟩

theorem reclaim_nothingLeft_storeAndExit : ∃ s : ShaderCoreCtx, ∃ r, s.reclaim storeAndExit 0 = some r ∧
      ∀ w ∈ inPipeline s.core, w.warp ≠ 0 := by
  obtain ⟨s, -, hs, hend⟩ := (shaderCore storeAndExit).exists_reachable_of_run storeAndExitRun
    (fun s => (s.reclaim storeAndExit 0).isSome) (y := true) (by rfl)
  obtain ⟨r, hr⟩ := Option.isSome_iff_exists.mp hend
  exact ⟨s, r, hr, (reclaim_nothingLeft hs hr).2.1⟩

end Example

end GpgpuSimRuby.Shader.FrontEnd
