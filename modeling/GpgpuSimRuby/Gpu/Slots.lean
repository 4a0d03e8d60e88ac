import GpgpuSimRuby.Gpu.Kernel

/-!
# The kernel slots

A kernel stays in one slot of `m_running_kernels` from its launch until it is done, and the cores only
run kernels that are in a slot: `Slots`. So a slot is free exactly when it is empty.
-/

namespace GpgpuSimRuby.Gpu

open Library Function

/-- The kernel with one core less. -/
def KernelInfo.released (k : KernelInfo) : KernelInfo :=
  { k with numCoresRunning := k.numCoresRunning - 1 }

namespace GpgpuSim

structure Slots (g : GpgpuSim) : Prop where
  alive : ∀ k, some k ∈ g.runningKernels → (g.kernels k).done = false
  bound : ∀ k, 0 < (g.kernels k).numCoresRunning → some k ∈ g.runningKernels
  unique : ∀ (i j : Nat) k, g.runningKernels[i]? = some (some k) →
    g.runningKernels[j]? = some (some k) → i = j

variable {cfg : GpuConfig} {g g' : GpgpuSim} {k k' : KernelPtr} {info : KernelInfo}

theorem Slots.init : (GpgpuSim.init cfg).Slots where
  alive k hk := absurd (List.eq_of_mem_replicate hk) (Option.some_ne_none k)
  bound _ hk := absurd hk (Nat.lt_irrefl 0)
  unique _ _ k hi := absurd (List.eq_of_mem_replicate (List.mem_of_getElem? hi)) (Option.some_ne_none k)

@[simp]
theorem setKernel_self : (g.setKernel k info).kernels k = info := update_self ..

theorem setKernel_of_ne (h : k' ≠ k) : (g.setKernel k info).kernels k' = g.kernels k' :=
  update_of_ne h _ _

/-- A kernel can start where a slot is free. -/
theorem canStartKernel_iff :
    g.canStartKernel = true ↔ ∃ s ∈ g.runningKernels, g.slotFree s = true := List.any_eq_true

/-! ## A kernel goes on -/

theorem Slots.setKernel (h : g.Slots) (hk : some k ∈ g.runningKernels) (hd : info.done = false) :
    (g.setKernel k info).Slots where
  alive j hj := by
    by_cases hjk : j = k
    · rw [hjk, setKernel_self]
      exact hd
    · rw [setKernel_of_ne hjk]
      exact h.alive j hj
  bound j hj := by
    by_cases hjk : j = k
    · exact hjk ▸ hk
    · rw [setKernel_of_ne hjk] at hj
      exact h.bound j hj
  unique := h.unique

/-- A kernel that has not been launched takes no slot. -/
theorem Slots.newKernel (h : g.Slots) (hfresh : some g.numKernels ∉ g.runningKernels)
    (gridDim blockDim : Dim3) : (g.newKernel gridDim blockDim).Slots where
  alive j hj := by
    have hne : j ≠ g.numKernels := fun heq => hfresh (heq ▸ hj)
    show (update g.kernels g.numKernels _ j).done = false
    rw [update_of_ne hne]
    exact h.alive j hj
  bound j hj := by
    have hj : 0 < (update g.kernels g.numKernels _ j).numCoresRunning := hj
    by_cases heq : j = g.numKernels
    · rw [heq, update_self] at hj
      exact absurd hj (Nat.lt_irrefl 0)
    · rw [update_of_ne heq] at hj
      exact h.bound j hj
  unique := h.unique

/-! ## Launch -/

/-- What a launch asserts and does: the kernel takes the first free slot. -/
theorem launch_ok (h : g.launch cfg k = .ok g') : (g.kernels k).threadsPerCta ≤ cfg.nThreadPerShader ∧
    ∃ n s, g.runningKernels[n]? = some s ∧ g.slotFree s = true ∧
      g' = { g with runningKernels := g.runningKernels.set n (some k) } := by
  obtain ⟨_, hsize, h⟩ := bind_eq_ok.mp h
  refine ⟨assert_eq_ok.mp hsize, ?_⟩
  split at h
  · next n hn =>
    cases h
    obtain ⟨hlt, hfree, -⟩ := List.findIdx?_eq_some_iff_getElem.mp hn
    exact ⟨n, g.runningKernels[n], List.getElem?_eq_getElem hlt, hfree, rfl⟩
  · cases h

/-- Where a slot is free, only the size of its CTAs stops a launch. -/
theorem launch_error {e : Fault} (hroom : g.canStartKernel = true) (h : g.launch cfg k = .error e) :
    e = .ctaTooLarge := by
  rcases bind_eq_error.mp h with h | ⟨_, -, h⟩
  · exact (assert_eq_error.mp h).2.symm
  · split at h
    · cases h
    · next hnone =>
      obtain ⟨s, hs, hfree⟩ := canStartKernel_iff.mp hroom
      rw [List.findIdx?_eq_none_iff] at hnone
      rw [hnone s hs] at hfree
      cases hfree

/-- A free slot is empty: none holds a kernel that is done. -/
theorem Slots.slotFree_eq_none (h : g.Slots) {s : Option KernelPtr} (hs : s ∈ g.runningKernels)
    (hfree : g.slotFree s = true) : s = none := by
  cases s with
  | none => rfl
  | some j =>
    have hd : (g.kernels j).done = true := hfree
    rw [h.alive j hs] at hd
    cases hd

/-- A launch takes no slot from another kernel. -/
theorem Slots.mem_launch (h : g.Slots) (hl : g.launch cfg k = .ok g') :
    some k' ∈ g'.runningKernels ↔ k' = k ∨ some k' ∈ g.runningKernels := by
  obtain ⟨-, n, s, hn, hfree, rfl⟩ := launch_ok hl
  have hs : s = none := h.slotFree_eq_none (List.mem_of_getElem? hn) hfree
  subst hs
  simp only [List.mem_iff_getElem?]
  constructor
  · rintro ⟨j, hj⟩
    rw [List.getElem?_set] at hj
    split at hj
    · split at hj
      · left
        exact (Option.some.inj (Option.some.inj hj)).symm
      · cases hj
    · exact .inr ⟨j, hj⟩
  · rintro (rfl | ⟨j, hj⟩)
    · refine ⟨n, ?_⟩
      have hlt : n < g.runningKernels.length := (List.getElem?_eq_some_iff.mp hn).1
      rw [List.getElem?_set_self hlt]
    · refine ⟨j, ?_⟩
      have hjn : n ≠ j := by
        rintro rfl
        rw [hn] at hj
        cases hj
      rw [List.getElem?_set_ne hjn]
      exact hj

theorem Slots.launch (h : g.Slots) (hk : some k ∉ g.runningKernels) (hd : (g.kernels k).done = false)
    (hl : g.launch cfg k = .ok g') : g'.Slots := by
  have hmem := @Slots.mem_launch cfg g g' k
  obtain ⟨-, n, s, hn, hfree, rfl⟩ := launch_ok hl
  constructor
  · intro j hj
    rcases (hmem h hl).mp hj with rfl | hj
    · exact hd
    · exact h.alive j hj
  · intro j hj
    exact (hmem h hl).mpr (.inr (h.bound j hj))
  · intro i j k' hi hj
    rw [List.getElem?_set] at hi hj
    have hlt : n < g.runningKernels.length := (List.getElem?_eq_some_iff.mp hn).1
    split at hi
    · next hni =>
      split at hj
      · next hnj => exact hni.symm.trans hnj
      · cases hi
        exact absurd (List.mem_of_getElem? hj) hk
    · split at hj
      · cases hj
        exact absurd (List.mem_of_getElem? hi) hk
      · exact h.unique i j k' hi hj

/-! ## Release -/

/-- What becomes of a kernel that a core releases. -/
inductive Releases (g : GpgpuSim) (k : KernelPtr) : GpgpuSim → Prop
  | goesOn (hd : (g.kernels k).released.done = false) :
      Releases g k (g.setKernel k (g.kernels k).released)
  | done {n : Nat} (hn : g.runningKernels[n]? = some (some k))
      (hd : (g.kernels k).released.done = true) :
      Releases g k { g.setKernel k (g.kernels k).released with
        finishedKernel := g.finishedKernel ++ [(g.kernels k).uid]
        runningKernels := g.runningKernels.set n none }

/-- What a release asserts and does. -/
theorem releaseKernel_ok (h : g.releaseKernel k = .ok g') : g.Releases k g' := by
  obtain ⟨info, hinfo, h⟩ := bind_eq_ok.mp h
  obtain ⟨_, -, hinfo⟩ := bind_eq_ok.mp hinfo
  cases hinfo
  dsimp only at h
  split at h
  · next hd =>
    unfold setKernelDone at h
    split at h
    · next n hn =>
      cases h
      obtain ⟨hlt, hk, -⟩ := List.findIdx?_eq_some_iff_getElem.mp hn
      have hk : g.runningKernels[n]? = some (some k) :=
        (List.getElem?_eq_getElem hlt).trans (congrArg some (of_decide_eq_true hk))
      rw [setKernel_self]
      exact .done hk hd
    · cases h
  · next hd =>
    cases h
    exact .goesOn (Bool.not_eq_true _ ▸ hd)

theorem Slots.releaseKernel_ne_error (h : g.Slots) (hk : 0 < (g.kernels k).numCoresRunning)
    {e : Fault} : g.releaseKernel k ≠ .error e := by
  intro herr
  rcases bind_eq_error.mp herr with hdec | ⟨info, hinfo, herr⟩
  · rcases bind_eq_error.mp hdec with hassert | ⟨_, -, hret⟩
    · exact (assert_eq_error.mp hassert).1 hk
    · cases hret
  · dsimp only at herr
    split at herr
    · unfold setKernelDone at herr
      split at herr
      · cases herr
      · next hnone =>
        rw [List.findIdx?_eq_none_iff] at hnone
        have hfalse := hnone (some k) (h.bound k hk)
        rw [decide_eq_true rfl] at hfalse
        cases hfalse
    · cases herr

theorem Slots.mem_set_none (h : g.Slots) {n : Nat} (hn : g.runningKernels[n]? = some (some k)) :
    some k' ∈ g.runningKernels.set n none ↔ some k' ∈ g.runningKernels ∧ k' ≠ k := by
  simp only [List.mem_iff_getElem?]
  constructor
  · rintro ⟨j, hj⟩
    rw [List.getElem?_set] at hj
    split at hj
    · split at hj <;> cases hj
    · next hjn =>
      refine ⟨⟨j, hj⟩, ?_⟩
      rintro rfl
      exact hjn (h.unique n j _ hn hj)
  · rintro ⟨⟨j, hj⟩, hne⟩
    refine ⟨j, ?_⟩
    have hjn : n ≠ j := by
      rintro rfl
      rw [hn] at hj
      cases hj
      exact hne rfl
    rw [List.getElem?_set_ne hjn]
    exact hj

theorem Slots.releases (h : g.Slots) (hk : some k ∈ g.runningKernels) (hr : g.Releases k g') : g'.Slots := by
  cases hr with
  | goesOn hd => exact h.setKernel hk hd
  | @done n hn hd =>
    have hmem {j} : some j ∈ g.runningKernels.set n none ↔ some j ∈ g.runningKernels ∧ j ≠ k :=
      h.mem_set_none hn
    constructor
    · intro j hj
      obtain ⟨hj, hne⟩ := hmem.mp hj
      rw [show (GpgpuSim.kernels _ j) = _ from setKernel_of_ne hne]
      exact h.alive j hj
    · intro j hj
      by_cases hjk : j = k
      · subst hjk
        rw [show (GpgpuSim.kernels _ j) = _ from setKernel_self] at hj
        have hrun := (Bool.and_eq_true_iff.mp hd).2
        simp only [KernelInfo.running, Bool.not_eq_true', decide_eq_false_iff_not] at hrun
        exact absurd hj hrun
      · rw [show (GpgpuSim.kernels _ j) = _ from setKernel_of_ne hjk] at hj
        exact hmem.mpr ⟨h.bound j hj, hjk⟩
    · intro i j k' hi hj
      have hget {l : Nat} (hl : (g.runningKernels.set n none)[l]? = some (some k')) :
          g.runningKernels[l]? = some (some k') := by
        rw [List.getElem?_set] at hl
        split at hl
        · split at hl <;> cases hl
        · exact hl
      exact h.unique i j k' (hget hi) (hget hj)

end GpgpuSim

end GpgpuSimRuby.Gpu
