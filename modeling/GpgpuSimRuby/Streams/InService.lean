import GpgpuSimRuby.Streams.Turns
import GpgpuSimRuby.Gpu.Slots

/-!
# The kernels in service

A stream whose front operation is a kernel that has started is in service of that kernel. `Live` relates
the kernels in service to the GPU and to `m_grid_id_to_stream`: each runs in a slot, or its uid waits in
`m_finished_kernel`, and nothing else does.
-/

namespace GpgpuSimRuby.Streams

open Library Gpu Function

variable {n : Nat}

structure Live (serving : StreamId n → Option KernelPtr) (grid : Nat → Option (StreamId n))
    (g : GpgpuSim) : Prop where
  slots : g.Slots
  uid : ∀ k < g.numKernels, (g.kernels k).uid = k + 1
  made : ∀ i k, serving i = some k → k < g.numKernels
  inj : ∀ i j k, serving i = some k → serving j = some k → i = j
  running : ∀ i k, serving i = some k →
    some k ∈ g.runningKernels ∨ (g.kernels k).uid ∈ g.finishedKernel
  ofSlot : ∀ k, some k ∈ g.runningKernels → ∃ i, serving i = some k
  ofFinished : ∀ u ∈ g.finishedKernel, ∃ i k, serving i = some k ∧ (g.kernels k).uid = u
  apart : ∀ k, some k ∈ g.runningKernels → (g.kernels k).uid ∉ g.finishedKernel
  nodup : g.finishedKernel.Nodup
  grid : ∀ u i, grid u = some i ↔ ∃ k, serving i = some k ∧ (g.kernels k).uid = u

namespace Live

variable {serving : StreamId n → Option KernelPtr} {grid : Nat → Option (StreamId n)}
  {g g' : GpgpuSim} {cfg : GpuConfig} {i : StreamId n} {k : KernelPtr}

/-- Kernels in service have different numbers. -/
theorem uid_inj (h : Live serving grid g) {j : StreamId n} {k' : KernelPtr} (hi : serving i = some k)
    (hj : serving j = some k') (heq : (g.kernels k).uid = (g.kernels k').uid) : k = k' := by
  rw [h.uid k (h.made i k hi), h.uid k' (h.made j k' hj)] at heq
  exact Nat.succ_injective heq

theorem lt_of_slot (h : Live serving grid g) (hk : some k ∈ g.runningKernels) : k < g.numKernels := by
  obtain ⟨i, hi⟩ := h.ofSlot k hk
  exact h.made i k hi

theorem uid_pos (h : Live serving grid g) (hi : serving i = some k) : 0 < (g.kernels k).uid := by
  rw [h.uid k (h.made i k hi)]
  exact Nat.succ_pos k

theorem init : Live (fun _ : StreamId n => none) (fun _ => none) (GpgpuSim.init cfg) where
  slots := .init
  uid k hk := absurd hk (Nat.not_lt_zero k)
  made i k hi := by cases hi
  inj i j k hi := by cases hi
  running i k hi := by cases hi
  ofSlot k hk := absurd (List.eq_of_mem_replicate hk) (Option.some_ne_none k)
  ofFinished u hu := by cases hu
  apart k hk := absurd (List.eq_of_mem_replicate hk) (Option.some_ne_none k)
  nodup := .nil
  grid u i := by
    constructor
    · intro h
      cases h
    · rintro ⟨k, hk, -⟩
      cases hk

section

variable (h : Live serving grid g)
include h

/-- The number of a finished kernel is taken off the list, and its stream is free. -/
theorem finish {us : List Nat}
    (hfin : g.finishedKernel = (g.kernels k).uid :: us) (hi : serving i = some k) :
    Live (update serving i none) (update grid (g.kernels k).uid none)
      { g with finishedKernel := us } := by
  have hserving {j k'} (hj : update serving i none j = some k') : j ≠ i ∧ serving j = some k' := by
    rw [update_apply] at hj
    split at hj
    · cases hj
    · next hne => exact ⟨hne, hj⟩
  have hkeep {j k'} (hne : j ≠ i) (hj : serving j = some k') :
      update serving i none j = some k' := by
    rw [update_of_ne hne]
    exact hj
  have hother {j k'} (hne : j ≠ i) (hj : serving j = some k') : (g.kernels k').uid ≠ (g.kernels k).uid := by
    intro heq
    have hk' := h.uid_inj hj hi heq
    exact hne (h.inj j i k (hk' ▸ hj) hi)
  have hnodup : (g.kernels k).uid ∉ us ∧ us.Nodup := List.nodup_cons.mp (hfin ▸ h.nodup)
  have hsub {u} (hu : u ∈ us) : u ∈ g.finishedKernel := hfin ▸ List.mem_cons_of_mem _ hu
  exact {
    slots := ⟨h.slots.alive, h.slots.bound, h.slots.unique⟩
    uid := h.uid
    made := fun j k' hj => h.made j k' (hserving hj).2
    inj := fun j j' k' hj hj' => h.inj j j' k' (hserving hj).2 (hserving hj').2
    running := fun j k' hj => by
      obtain ⟨hne, hj⟩ := hserving hj
      refine (h.running j k' hj).imp_right fun hu => ?_
      rw [hfin] at hu
      exact (List.mem_cons.mp hu).resolve_left (hother hne hj)
    ofSlot := fun k' hk' => by
      obtain ⟨j, hj⟩ := h.ofSlot k' hk'
      refine ⟨j, hkeep ?_ hj⟩
      rintro rfl
      cases hi.symm.trans hj
      exact h.apart k hk' (hfin ▸ List.mem_cons_self)
    ofFinished := fun u hu => by
      obtain ⟨j, k', hj, huid⟩ := h.ofFinished u (hsub hu)
      refine ⟨j, k', hkeep ?_ hj, huid⟩
      rintro rfl
      cases hi.symm.trans hj
      exact hnodup.1 (huid ▸ hu)
    apart := fun k' hk' hu => h.apart k' hk' (hsub hu)
    nodup := hnodup.2
    grid := fun u j => by
      rw [update_apply]
      constructor
      · intro hu
        split at hu
        · cases hu
        · next hne =>
          obtain ⟨k', hj, huid⟩ := (h.grid u j).mp hu
          refine ⟨k', hkeep ?_ hj, huid⟩
          rintro rfl
          cases hi.symm.trans hj
          exact hne huid.symm
      · rintro ⟨k', hj, huid⟩
        obtain ⟨hne, hj⟩ := hserving hj
        rw [if_neg (huid ▸ hother hne hj)]
        exact (h.grid u j).mpr ⟨k', hj, huid⟩ }

/-- A stream launches its kernel, which is new to the GPU. -/
theorem launch (hi : serving i = none) (hnew : ∀ j, serving j ≠ some k)
    (hk : k < g.numKernels) (hd : (g.kernels k).done = false) (hl : g.launch cfg k = .ok g') :
    Live (update serving i (some k)) (update grid (g.kernels k).uid (some i)) g' := by
  have hslot : some k ∉ g.runningKernels := fun hin =>
    (h.ofSlot k hin).elim fun j hj => hnew j hj
  have hslots : g'.Slots := h.slots.launch hslot hd hl
  have hmem {k'} : some k' ∈ g'.runningKernels ↔ k' = k ∨ some k' ∈ g.runningKernels :=
    h.slots.mem_launch hl
  have hserving {j k'} : update serving i (some k) j = some k' ↔
      j = i ∧ k' = k ∨ serving j = some k' := by
    rw [update_apply]
    split
    · next hj =>
      rw [hj, hi]
      simp [eq_comm]
    · next hj => simp [hj]
  have huid {j k'} (hj : serving j = some k') : (g.kernels k').uid ≠ (g.kernels k).uid := by
    rw [h.uid k hk, h.uid k' (h.made j k' hj)]
    intro heq
    exact hnew j (Nat.succ_injective heq ▸ hj)
  obtain ⟨-, s, t, hs, hfree, rfl⟩ := GpgpuSim.launch_ok hl
  exact {
    slots := hslots
    uid := h.uid
    made := fun j k' hj => (hserving.mp hj).elim (fun hj => hj.2 ▸ hk) (h.made j k')
    inj := fun j j' k' hj hj' => by
      rcases hserving.mp hj with ⟨hji, hk₁⟩ | hj <;> rcases hserving.mp hj' with ⟨hji', hk₂⟩ | hj'
      · exact hji.trans hji'.symm
      · exact absurd (hk₁ ▸ hj') (hnew j')
      · exact absurd (hk₂ ▸ hj) (hnew j)
      · exact h.inj j j' k' hj hj'
    running := fun j k' hj => by
      rcases hserving.mp hj with ⟨rfl, rfl⟩ | hj
      · exact .inl (hmem.mpr (.inl rfl))
      · exact (h.running j k' hj).imp_left fun hin => hmem.mpr (.inr hin)
    ofSlot := fun k' hk' => by
      rcases hmem.mp hk' with rfl | hk'
      · exact ⟨i, hserving.mpr (.inl ⟨rfl, rfl⟩)⟩
      · obtain ⟨j, hj⟩ := h.ofSlot k' hk'
        exact ⟨j, hserving.mpr (.inr hj)⟩
    ofFinished := fun u hu => by
      obtain ⟨j, k', hj, hu'⟩ := h.ofFinished u hu
      exact ⟨j, k', hserving.mpr (.inr hj), hu'⟩
    apart := fun k' hk' hu => by
      rcases hmem.mp hk' with rfl | hk'
      · obtain ⟨j, k'', hj, hu'⟩ := h.ofFinished _ hu
        exact huid hj hu'
      · exact h.apart k' hk' hu
    nodup := h.nodup
    grid := fun u j => by
      rw [update_apply]
      constructor
      · intro hu
        split at hu
        · next hu' =>
          cases hu
          exact ⟨k, hserving.mpr (.inl ⟨rfl, rfl⟩), hu'.symm⟩
        · obtain ⟨k', hj, hu'⟩ := (h.grid u j).mp hu
          exact ⟨k', hserving.mpr (.inr hj), hu'⟩
      · rintro ⟨k', hj, hu⟩
        rcases hserving.mp hj with ⟨rfl, rfl⟩ | hj
        · rw [if_pos hu.symm]
        · rw [if_neg (hu ▸ huid hj)]
          exact (h.grid u j).mpr ⟨k', hj, hu⟩ }

/-- A kernel goes on under its number. -/
theorem setKernel {info : KernelInfo} (hk : some k ∈ g.runningKernels)
    (huid : info.uid = (g.kernels k).uid) (hd : info.done = false) :
    Live serving grid (g.setKernel k info) := by
  have hsame (k') : ((g.setKernel k info).kernels k').uid = (g.kernels k').uid := by
    by_cases heq : k' = k
    · rw [heq, GpgpuSim.setKernel_self, huid]
    · rw [GpgpuSim.setKernel_of_ne heq]
  exact {
    slots := h.slots.setKernel hk hd
    uid := fun k' hk' => (hsame k').trans (h.uid k' hk')
    made := h.made
    inj := h.inj
    running := fun j k' hj => by
      rw [hsame]
      exact h.running j k' hj
    ofSlot := h.ofSlot
    ofFinished := fun u hu => by
      obtain ⟨j, k', hj, hu'⟩ := h.ofFinished u hu
      exact ⟨j, k', hj, (hsame k').trans hu'⟩
    apart := fun k' hk' => by
      rw [hsame]
      exact h.apart k' hk'
    nodup := h.nodup
    grid := fun u j => by
      simp only [hsame]
      exact h.grid u j }

/-- A core gives a kernel up; the last one puts its number on the list. -/
theorem releases (hk : some k ∈ g.runningKernels) (hr : g.Releases k g') :
    Live serving grid g' := by
  have hslots := h.slots.releases hk hr
  cases hr with
  | goesOn hd => exact h.setKernel hk rfl hd
  | @done s hs hd =>
    have hsame (k') : ((g.setKernel k (g.kernels k).released).kernels k').uid = (g.kernels k').uid := by
      by_cases heq : k' = k
      · rw [heq, GpgpuSim.setKernel_self]
        rfl
      · rw [GpgpuSim.setKernel_of_ne heq]
    have hmem {k'} : some k' ∈ g.runningKernels.set s none ↔ some k' ∈ g.runningKernels ∧ k' ≠ k :=
      h.slots.mem_set_none hs
    obtain ⟨i, hi⟩ := h.ofSlot k hk
    exact {
      slots := hslots
      uid := fun k' hk' => (hsame k').trans (h.uid k' hk')
      made := h.made
      inj := h.inj
      running := fun j k' hj => by
        show _ ∨ ((g.setKernel k (g.kernels k).released).kernels k').uid ∈ _
        rw [hsame]
        rcases h.running j k' hj with hin | hu
        · by_cases heq : k' = k
          · right
            rw [heq]
            exact List.mem_append_right _ (List.mem_singleton.mpr rfl)
          · exact .inl (hmem.mpr ⟨hin, heq⟩)
        · exact .inr (List.mem_append_left _ hu)
      ofSlot := fun k' hk' => h.ofSlot k' (hmem.mp hk').1
      ofFinished := fun u hu => by
        rcases List.mem_append.mp hu with hu | hu
        · obtain ⟨j, k', hj, hu'⟩ := h.ofFinished u hu
          exact ⟨j, k', hj, (hsame k').trans hu'⟩
        · exact ⟨i, k, hi, (hsame k).trans (List.mem_singleton.mp hu).symm⟩
      apart := fun k' hk' hu => by
        obtain ⟨hk', hne⟩ := hmem.mp hk'
        have hu : ((g.setKernel k (g.kernels k).released).kernels k').uid ∈ _ := hu
        rw [hsame] at hu
        rcases List.mem_append.mp hu with hu | hu
        · exact h.apart k' hk' hu
        · obtain ⟨j, hj⟩ := h.ofSlot k' hk'
          exact hne (h.uid_inj hj hi (List.mem_singleton.mp hu))
      nodup := by
        refine List.nodup_append.mpr ⟨h.nodup, List.nodup_singleton _, ?_⟩
        intro u hu u' hu' heq
        rw [List.mem_singleton.mp hu'] at heq
        exact h.apart k hk (heq ▸ hu)
      grid := fun u j => by
        show _ ↔ ∃ k', _ ∧ ((g.setKernel k (g.kernels k).released).kernels k').uid = u
        simp only [hsame]
        exact h.grid u j }

theorem newKernel (hnext : g.nextUid = g.numKernels + 1)
    (gridDim blockDim : Dim3) :
    Live serving grid (g.newKernel gridDim blockDim) := by
  have hold {k'} (hk' : k' < g.numKernels) :
      (g.newKernel gridDim blockDim).kernels k' = g.kernels k' :=
    update_of_ne (Nat.ne_of_lt hk') _ _
  have hfresh : some g.numKernels ∉ g.runningKernels := fun hin =>
    absurd (h.lt_of_slot hin) (Nat.lt_irrefl _)
  exact {
    slots := h.slots.newKernel hfresh gridDim blockDim
    uid := fun k' hk' => by
      rcases Nat.lt_succ_iff_lt_or_eq.mp hk' with hlt | rfl
      · rw [hold hlt]
        exact h.uid k' hlt
      · show (update g.kernels g.numKernels _ g.numKernels).uid = _
        rw [update_self]
        exact hnext
    made := fun j k' hj => Nat.lt_succ_of_lt (h.made j k' hj)
    inj := h.inj
    running := fun j k' hj => by
      rw [hold (h.made j k' hj)]
      exact h.running j k' hj
    ofSlot := h.ofSlot
    ofFinished := fun u hu => by
      obtain ⟨j, k', hj, hu'⟩ := h.ofFinished u hu
      exact ⟨j, k', hj, by rwa [hold (h.made j k' hj)]⟩
    apart := fun k' hk' => by
      rw [hold (h.lt_of_slot hk')]
      exact h.apart k' hk'
    nodup := h.nodup
    grid := fun u j => by
      rw [h.grid u j]
      constructor
      · rintro ⟨k', hj, hu⟩
        exact ⟨k', hj, by rwa [hold (h.made j k' hj)]⟩
      · rintro ⟨k', hj, hu⟩
        exact ⟨k', hj, by rwa [hold (h.made j k' hj)] at hu⟩ }

end

end Live

end GpgpuSimRuby.Streams
