import GpgpuSimRuby.Library.Barrier
import GpgpuSimRuby.Library.SortedMap

/-!
# Barrier sets

`barrier_set_t`: the CTAs of a core with their warps, the warps that run and those that wait. The
warps of one CTA are the parties of a barrier: a warp that reaches it arrives, one that exits
leaves.
-/

namespace GpgpuSimRuby.Shader

open Library

/-- The assertions and aborts of `barrier_set_t`; `noCta` is the end of `m_cta_to_warps`, which is
read. -/
inductive BarrierFault where
  | ctaIdTooLarge | ctaAllocated | tooManyCtas
  | warpsAtBarrier | warpsActive
  | ctaNotFound | warpNotInCta | noCta
  deriving DecidableEq, Repr

/-- A `warp_set_t` has `nWarps` bits. -/
structure BarrierSet (nWarps : Nat) where
  maxCtaPerCore : Nat
  ctaToWarps : SortedMap Nat (Finset (Fin nWarps))
  warpActive : Finset (Fin nWarps)
  warpAtBarrier : Finset (Fin nWarps)

namespace BarrierSet

variable {nWarps : Nat} (b : BarrierSet nWarps) (ctaId : Nat) (warpId : Fin nWarps)
  (warps : Finset (Fin nWarps))

def new (maxCtaPerCore : Nat) : BarrierSet nWarps := ⟨maxCtaPerCore, .empty, ∅, ∅⟩

def allocateBarrier : Except BarrierFault (BarrierSet nWarps) := do
  assert (ctaId < b.maxCtaPerCore) .ctaIdTooLarge
  assert (b.ctaToWarps.find? ctaId = none) .ctaAllocated
  let ctaToWarps := b.ctaToWarps.insert ctaId warps
  assert (ctaToWarps.entries.length ≤ b.maxCtaPerCore) .tooManyCtas
  .ok { b with
    ctaToWarps
    warpActive := b.warpActive ∪ warps
    warpAtBarrier := b.warpAtBarrier \ warps }

def deallocateBarrier : Except BarrierFault (BarrierSet nWarps) :=
  match b.ctaToWarps.find? ctaId with
  | none => .ok b
  | some warps => do
    assert (warps ∩ b.warpAtBarrier = ∅) .warpsAtBarrier
    assert (warps ∩ b.warpActive = ∅) .warpsActive
    .ok { b with
      ctaToWarps := b.ctaToWarps.erase ctaId
      warpActive := b.warpActive \ warps
      warpAtBarrier := b.warpAtBarrier \ warps }

/-- The end of both functions below. -/
def releaseWaiting (warpsInCta : Finset (Fin nWarps)) : BarrierSet nWarps :=
  let atBarrier := warpsInCta ∩ b.warpAtBarrier
  let active := warpsInCta ∩ b.warpActive
  if atBarrier = active then { b with warpAtBarrier := b.warpAtBarrier \ atBarrier } else b

def warpReachesBarrier : Except BarrierFault (BarrierSet nWarps) :=
  match b.ctaToWarps.find? ctaId with
  | none => .error .ctaNotFound
  | some warps => do
    assert (warpId ∈ warps) .warpNotInCta
    .ok (releaseWaiting { b with warpAtBarrier := insert warpId b.warpAtBarrier } warps)

def warpExit : Except BarrierFault (BarrierSet nWarps) :=
  match b.ctaToWarps.entries.find? fun w => warpId ∈ w.2 with
  | none => .error .noCta
  | some (_, warps) => .ok (releaseWaiting { b with warpActive := b.warpActive.erase warpId } warps)

def warpWaitingAtBarrier : Bool := warpId ∈ b.warpAtBarrier

/-- The barrier of a CTA. -/
def barrier : Barrier (Fin nWarps) := ⟨warps ∩ b.warpActive, warps ∩ b.warpAtBarrier⟩

/-! ## Well-formed sets -/

/-- The CTAs have warps of their own, only these run, and their barriers are what they should be. -/
structure WellFormed : Prop where
  key : ∀ c ws, b.ctaToWarps.find? c = some ws → c < b.maxCtaPerCore
  disjoint : ∀ c c' ws ws' w, b.ctaToWarps.find? c = some ws → b.ctaToWarps.find? c' = some ws' →
    w ∈ ws → w ∈ ws' → c = c'
  owned : ∀ w ∈ b.warpActive, ∃ c ws, b.ctaToWarps.find? c = some ws ∧ w ∈ ws
  waiting : b.warpAtBarrier ⊆ b.warpActive
  ok : ∀ c ws, b.ctaToWarps.find? c = some ws → (b.barrier ws).Ok

variable {b} {ctaId} {warpId} {warps} {b' : BarrierSet nWarps} {c c' : Nat} {ws ws' : Finset (Fin nWarps)}
  {w : Fin nWarps}

theorem WellFormed.new {maxCtaPerCore : Nat} : (new maxCtaPerCore : BarrierSet nWarps).WellFormed where
  key c ws h := by cases h
  disjoint c c' ws ws' w h := by cases h
  owned w h := by cases h
  waiting := Finset.Subset.refl ∅
  ok c ws h := by cases h

theorem WellFormed.disjoint_of_ne (h : b.WellFormed) (hc : b.ctaToWarps.find? c = some ws)
    (hc' : b.ctaToWarps.find? c' = some ws') (hne : c ≠ c') : Disjoint ws ws' := by
  apply Finset.disjoint_left.mpr
  intro w hw hw'
  exact hne (h.disjoint c c' ws ws' w hc hc' hw hw')

theorem WellFormed.mem_warpAtBarrier (h : b.WellFormed) :
    w ∈ b.warpAtBarrier ↔ ∃ c ws, b.ctaToWarps.find? c = some ws ∧ w ∈ (b.barrier ws).arrived := by
  constructor
  · intro hw
    obtain ⟨c, ws, hc, hws⟩ := h.owned w (h.waiting hw)
    exact ⟨c, ws, hc, Finset.mem_inter.mpr ⟨hws, hw⟩⟩
  · rintro ⟨c, ws, -, hw⟩
    exact (Finset.mem_inter.mp hw).2

/-- A warp waits exactly if it has arrived at the barrier of its CTA and another warp that runs has
not. -/
theorem WellFormed.waits_iff (h : b.WellFormed) :
    b.warpWaitingAtBarrier w = true ↔ ∃ c ws, b.ctaToWarps.find? c = some ws ∧ (b.barrier ws).Waits w := by
  rw [warpWaitingAtBarrier, decide_eq_true_eq, h.mem_warpAtBarrier]
  constructor
  · rintro ⟨c, ws, hc, hw⟩
    exact ⟨c, ws, hc, (h.ok c ws hc).mem_arrived.mp hw⟩
  · rintro ⟨c, ws, hc, hw, -⟩
    exact ⟨c, ws, hc, hw⟩

/-- If a warp is freed, so are all warps of its CTA, and for the other CTAs nothing changes. -/
def Frees (b b' : BarrierSet nWarps) : Prop :=
  ∀ c ws w, b.ctaToWarps.find? c = some ws → w ∈ ws →
    b.warpWaitingAtBarrier w = true → b'.warpWaitingAtBarrier w = false →
    (∀ v ∈ ws, b'.warpWaitingAtBarrier v = false) ∧
      ∀ v, v ∉ ws → b'.warpWaitingAtBarrier v = b.warpWaitingAtBarrier v

theorem Frees.of_eq (h : b'.warpAtBarrier = b.warpAtBarrier) : Frees b b' := by
  intro c ws w _ _ hw hw'
  unfold warpWaitingAtBarrier at hw hw'
  rw [h, hw] at hw'
  cases hw'

/-! ## Releases -/

theorem barrier_releaseWaiting (h : (b.barrier ws).arrived ⊆ (b.barrier ws).running) :
    (b.releaseWaiting ws).barrier ws = (b.barrier ws).release := by
  unfold releaseWaiting Barrier.release
  by_cases heq : ws ∩ b.warpAtBarrier = ws ∩ b.warpActive
  · have hsub : (b.barrier ws).running ⊆ (b.barrier ws).arrived := heq.ge
    rw [if_pos heq, if_pos hsub]
    ext w
    · rfl
    · simp [barrier]
  · have hnot : ¬ (b.barrier ws).running ⊆ (b.barrier ws).arrived := fun hsub => heq (h.antisymm hsub)
    rw [if_neg heq, if_neg hnot]

theorem barrier_releaseWaiting_of_disjoint (h : Disjoint ws ws') :
    (b.releaseWaiting ws).barrier ws' = b.barrier ws' := by
  unfold releaseWaiting
  dsimp only
  split
  · ext w
    · rfl
    · have hnot (hw : w ∈ ws') : w ∉ ws := fun hw' => Finset.disjoint_left.mp h hw' hw
      simp only [barrier, Finset.mem_inter, Finset.mem_sdiff]
      tauto
  · rfl

@[simp]
theorem releaseWaiting_ctaToWarps : (b.releaseWaiting ws).ctaToWarps = b.ctaToWarps := by
  unfold releaseWaiting
  dsimp only
  split <;> rfl

@[simp]
theorem releaseWaiting_maxCtaPerCore : (b.releaseWaiting ws).maxCtaPerCore = b.maxCtaPerCore := by
  unfold releaseWaiting
  dsimp only
  split <;> rfl

@[simp]
theorem releaseWaiting_warpActive : (b.releaseWaiting ws).warpActive = b.warpActive := by
  unfold releaseWaiting
  dsimp only
  split <;> rfl

theorem releaseWaiting_warpAtBarrier : (b.releaseWaiting ws).warpAtBarrier ⊆ b.warpAtBarrier := by
  unfold releaseWaiting
  dsimp only
  split
  · exact Finset.sdiff_subset
  · exact Finset.Subset.refl _

/-- A warp that waits and does not run keeps its CTA from being released. -/
theorem mem_releaseWaiting (hws : w ∈ ws) (hwaiting : w ∈ b.warpAtBarrier) (hactive : w ∉ b.warpActive) :
    w ∈ (b.releaseWaiting ws).warpAtBarrier := by
  unfold releaseWaiting
  dsimp only
  split
  · next heq =>
    have hmem : w ∈ ws ∩ b.warpActive := heq ▸ Finset.mem_inter.mpr ⟨hws, hwaiting⟩
    exact absurd (Finset.mem_inter.mp hmem).2 hactive
  · exact hwaiting

/-! ## Arrivals and exits -/

/-- The barrier of one CTA becomes `g`; all others stay. -/
structure Acts (b b' : BarrierSet nWarps) (ws : Finset (Fin nWarps)) (g : Barrier (Fin nWarps)) : Prop where
  maxCtaPerCore : b'.maxCtaPerCore = b.maxCtaPerCore
  ctaToWarps : b'.ctaToWarps = b.ctaToWarps
  barrier : b'.barrier ws = g
  others : ∀ ws', Disjoint ws ws' → b'.barrier ws' = b.barrier ws'

variable {g : Barrier (Fin nWarps)}

section

variable (h : b.WellFormed)
include h

theorem WellFormed.acts (hc : b.ctaToWarps.find? c = some ws)
    (ha : Acts b b' ws g) (hg : g.Ok) (hactive : b'.warpActive ⊆ b.warpActive)
    (hwaiting : b'.warpAtBarrier ⊆ b.warpActive) : b'.WellFormed := by
  have hok : ∀ c' ws', b.ctaToWarps.find? c' = some ws' → (b'.barrier ws').Ok := by
    intro c' ws' hc'
    by_cases hcc : c = c'
    · subst hcc
      cases hc.symm.trans hc'
      rw [ha.barrier]
      exact hg
    · rw [ha.others ws' (h.disjoint_of_ne hc hc' hcc)]
      exact h.ok c' ws' hc'
  constructor
  · rw [ha.ctaToWarps, ha.maxCtaPerCore]
    exact h.key
  · rw [ha.ctaToWarps]
    exact h.disjoint
  · rw [ha.ctaToWarps]
    exact fun w hw => h.owned w (hactive hw)
  · intro w hw
    obtain ⟨c', ws', hc', hws'⟩ := h.owned w (hwaiting hw)
    have harrived : w ∈ (b'.barrier ws').arrived := Finset.mem_inter.mpr ⟨hws', hw⟩
    exact (Finset.mem_inter.mp ((hok c' ws' hc').running harrived)).2
  · rw [ha.ctaToWarps]
    exact hok

theorem WellFormed.others_waiting (h' : b'.WellFormed)
    (hc : b.ctaToWarps.find? c = some ws) (ha : Acts b b' ws g) (hw : w ∉ ws) :
    w ∈ b'.warpAtBarrier ↔ w ∈ b.warpAtBarrier := by
  have hothers : ∀ c' ws', b.ctaToWarps.find? c' = some ws' → w ∈ ws' → b'.barrier ws' = b.barrier ws' := by
    intro c' ws' hc' hws'
    apply ha.others ws' (h.disjoint_of_ne hc hc' _)
    rintro rfl
    cases hc.symm.trans hc'
    exact hw hws'
  rw [h.mem_warpAtBarrier, h'.mem_warpAtBarrier, ha.ctaToWarps]
  constructor
  · rintro ⟨c', ws', hc', harrived⟩
    rw [hothers c' ws' hc' (Finset.mem_inter.mp harrived).1] at harrived
    exact ⟨c', ws', hc', harrived⟩
  · rintro ⟨c', ws', hc', harrived⟩
    rw [← hothers c' ws' hc' (Finset.mem_inter.mp harrived).1] at harrived
    exact ⟨c', ws', hc', harrived⟩

theorem WellFormed.frees_of_acts (h' : b'.WellFormed)
    (hc : b.ctaToWarps.find? c = some ws) (ha : Acts b b' ws g)
    (hg : ∀ v ∈ (b.barrier ws).arrived, v ∉ g.arrived → g.arrived = ∅) : Frees b b' := by
  intro c' ws' w hc' hws' hw hw'
  have hw := of_decide_eq_true hw
  have hw' := of_decide_eq_false hw'
  have hmem : w ∈ ws := by
    by_contra hnot
    exact hw' ((h.others_waiting h' hc ha hnot).mpr hw)
  cases h.disjoint c c' ws ws' w hc hc' hmem hws'
  cases hc.symm.trans hc'
  have hempty : g.arrived = ∅ := by
    apply hg w (Finset.mem_inter.mpr ⟨hmem, hw⟩)
    rw [← ha.barrier]
    exact fun harrived => hw' (Finset.mem_inter.mp harrived).2
  constructor
  · intro v hv
    apply decide_eq_false
    intro hwaiting
    have harrived : v ∈ (b'.barrier ws).arrived := Finset.mem_inter.mpr ⟨hv, hwaiting⟩
    rw [ha.barrier, hempty] at harrived
    cases harrived
  · intro v hv
    exact decide_eq_decide.mpr (h.others_waiting h' hc ha hv)

theorem warpReachesBarrier_ok (hc : b.ctaToWarps.find? c = some ws) (hws : w ∈ ws)
    (hactive : w ∈ b.warpActive) : ∃ b', b.warpReachesBarrier c w = .ok b' ∧ b'.WellFormed ∧
      b'.warpActive = b.warpActive ∧ Acts b b' ws ((b.barrier ws).arrive w) := by
  let b₁ : BarrierSet nWarps := { b with warpAtBarrier := insert w b.warpAtBarrier }
  have hbarrier : b₁.barrier ws = ⟨(b.barrier ws).running, insert w (b.barrier ws).arrived⟩ := by
    ext v
    · rfl
    · simp only [b₁, barrier, Finset.mem_inter, Finset.mem_insert]
      constructor
      · tauto
      · rintro (rfl | hv)
        · exact ⟨hws, .inl rfl⟩
        · exact ⟨hv.1, .inr hv.2⟩
  have hothers : ∀ ws', Disjoint ws ws' → b₁.barrier ws' = b.barrier ws' := by
    intro ws' hdisj
    ext v
    · rfl
    · have hnot : w ∉ ws' := Finset.disjoint_left.mp hdisj hws
      simp only [b₁, barrier, Finset.mem_inter, Finset.mem_insert]
      grind
  have hrunning : w ∈ (b.barrier ws).running := Finset.mem_inter.mpr ⟨hws, hactive⟩
  have hsub : (b₁.barrier ws).arrived ⊆ (b₁.barrier ws).running := by
    rw [hbarrier]
    exact Finset.insert_subset hrunning (h.ok c ws hc).running
  have hacts : Acts b (b₁.releaseWaiting ws) ws ((b.barrier ws).arrive w) := by
    constructor
    · exact releaseWaiting_maxCtaPerCore
    · exact releaseWaiting_ctaToWarps
    · rw [barrier_releaseWaiting hsub, hbarrier]
      rfl
    · intro ws' hdisj
      rw [barrier_releaseWaiting_of_disjoint hdisj, hothers ws' hdisj]
  refine ⟨b₁.releaseWaiting ws, ?_, ?_, releaseWaiting_warpActive, hacts⟩
  · unfold warpReachesBarrier
    rw [hc]
    exact bind_eq_ok.mpr ⟨(), assert_pos hws, rfl⟩
  · apply h.acts hc hacts ((h.ok c ws hc).arrive hrunning) releaseWaiting_warpActive.le
    exact releaseWaiting_warpAtBarrier.trans (Finset.insert_subset hactive h.waiting)

theorem WellFormed.find_cta (hc : b.ctaToWarps.find? c = some ws) (hws : w ∈ ws) :
    b.ctaToWarps.entries.find? (fun e => w ∈ e.2) = some (c, ws) := by
  have hmem := SortedMap.find?_eq_some_iff.mp hc
  cases hfind : b.ctaToWarps.entries.find? fun e => w ∈ e.2 with
  | none =>
    have hnone := List.find?_eq_none.mp hfind (c, ws) hmem
    exact absurd (decide_eq_true hws) hnone
  | some e =>
    have hc' := SortedMap.find?_eq_some_iff.mpr (List.mem_of_find?_eq_some hfind)
    have hfound := List.find?_some (p := fun e : Nat × Finset (Fin nWarps) => decide (w ∈ e.2)) hfind
    have hws' : w ∈ e.2 := of_decide_eq_true hfound
    have hcc := h.disjoint c e.1 ws e.2 w hc hc' hws hws'
    rw [← hcc, hc] at hc'
    rw [hcc, Option.some.inj hc']

theorem warpExit_ok (hc : b.ctaToWarps.find? c = some ws) (hws : w ∈ ws)
    (hwaiting : w ∉ b.warpAtBarrier) : ∃ b', b.warpExit w = .ok b' ∧ b'.WellFormed ∧
      b'.warpActive = b.warpActive.erase w ∧ Acts b b' ws ((b.barrier ws).leave w) := by
  let b₁ : BarrierSet nWarps := { b with warpActive := b.warpActive.erase w }
  have hbarrier : b₁.barrier ws = ⟨(b.barrier ws).running.erase w, (b.barrier ws).arrived⟩ := by
    ext v
    · simp only [b₁, barrier, Finset.mem_inter, Finset.mem_erase]
      tauto
    · rfl
  have hothers : ∀ ws', Disjoint ws ws' → b₁.barrier ws' = b.barrier ws' := by
    intro ws' hdisj
    ext v
    · have hnot : w ∉ ws' := Finset.disjoint_left.mp hdisj hws
      simp only [b₁, barrier, Finset.mem_inter, Finset.mem_erase]
      grind
    · rfl
  have harrived : w ∉ (b.barrier ws).arrived := fun hw => hwaiting (Finset.mem_inter.mp hw).2
  have hsub : (b₁.barrier ws).arrived ⊆ (b₁.barrier ws).running := by
    rw [hbarrier]
    intro v hv
    exact Finset.mem_erase.mpr ⟨fun heq => harrived (heq ▸ hv), (h.ok c ws hc).running hv⟩
  have hacts : Acts b (b₁.releaseWaiting ws) ws ((b.barrier ws).leave w) := by
    constructor
    · exact releaseWaiting_maxCtaPerCore
    · exact releaseWaiting_ctaToWarps
    · rw [barrier_releaseWaiting hsub, hbarrier]
      rfl
    · intro ws' hdisj
      rw [barrier_releaseWaiting_of_disjoint hdisj, hothers ws' hdisj]
  refine ⟨b₁.releaseWaiting ws, ?_, ?_, releaseWaiting_warpActive, hacts⟩
  · unfold warpExit
    rw [h.find_cta hc hws]
  · apply h.acts hc hacts ((h.ok c ws hc).leave harrived)
    · rw [releaseWaiting_warpActive]
      exact Finset.erase_subset w b.warpActive
    · exact releaseWaiting_warpAtBarrier.trans h.waiting

/-! ## Allocation and deallocation -/

theorem allocateBarrier_ok (hkey : c < b.maxCtaPerCore) (hfree : b.ctaToWarps.find? c = none)
    (hdisj : ∀ c' ws', b.ctaToWarps.find? c' = some ws' → Disjoint ws ws') :
    ∃ b', b.allocateBarrier c ws = .ok b' ∧ b'.WellFormed ∧
      b'.warpActive = b.warpActive ∪ ws ∧ b'.ctaToWarps = b.ctaToWarps.insert c ws ∧
      b'.warpAtBarrier = b.warpAtBarrier \ ws ∧ b'.barrier ws = ⟨ws, ∅⟩ ∧
      ∀ ws', Disjoint ws ws' → b'.barrier ws' = b.barrier ws' := by
  let b₁ : BarrierSet nWarps := { b with
    ctaToWarps := b.ctaToWarps.insert c ws
    warpActive := b.warpActive ∪ ws
    warpAtBarrier := b.warpAtBarrier \ ws }
  have hbarrier : b₁.barrier ws = ⟨ws, ∅⟩ := by
    ext v
    · simp [b₁, barrier]
    · simp [b₁, barrier]
  have hothers : ∀ ws', Disjoint ws ws' → b₁.barrier ws' = b.barrier ws' := by
    intro ws' hws'
    have hnot := Finset.disjoint_right.mp hws'
    ext v
    · simp only [b₁, barrier, Finset.mem_inter, Finset.mem_union]
      grind
    · simp only [b₁, barrier, Finset.mem_inter, Finset.mem_sdiff]
      grind
  have hfind {c' : Nat} {ws' : Finset (Fin nWarps)} (h' : b₁.ctaToWarps.find? c' = some ws') :
      (c' = c ∧ ws' = ws) ∨ b.ctaToWarps.find? c' = some ws' := by
    rw [SortedMap.find?_insert] at h'
    split at h'
    · next heq => exact .inl ⟨heq, (Option.some.inj h').symm⟩
    · exact .inr h'
  have hkeys : ∀ c' ws', b₁.ctaToWarps.find? c' = some ws' → c' < b.maxCtaPerCore := by
    intro c' ws' h'
    rcases hfind h' with ⟨rfl, -⟩ | h'
    · exact hkey
    · exact h.key c' ws' h'
  refine ⟨b₁, ?_, ⟨hkeys, ?_, ?_, ?_, ?_⟩, rfl, rfl, rfl, hbarrier, hothers⟩
  · unfold allocateBarrier
    have hlength : (b.ctaToWarps.insert c ws).entries.length ≤ b.maxCtaPerCore := SortedMap.length_le hkeys
    refine bind_eq_ok.mpr ⟨(), assert_pos hkey, bind_eq_ok.mpr ⟨(), assert_pos hfree, ?_⟩⟩
    exact bind_eq_ok.mpr ⟨(), assert_pos hlength, rfl⟩
  · intro c₁ c₂ ws₁ ws₂ v h₁ h₂ hv₁ hv₂
    rcases hfind h₁ with ⟨hc₁, hws₁⟩ | hold₁ <;> rcases hfind h₂ with ⟨hc₂, hws₂⟩ | hold₂
    · exact hc₁.trans hc₂.symm
    · exact absurd hv₂ (Finset.disjoint_left.mp (hdisj c₂ ws₂ hold₂) (hws₁ ▸ hv₁))
    · exact absurd hv₁ (Finset.disjoint_left.mp (hdisj c₁ ws₁ hold₁) (hws₂ ▸ hv₂))
    · exact h.disjoint c₁ c₂ ws₁ ws₂ v hold₁ hold₂ hv₁ hv₂
  · intro v hv
    rcases Finset.mem_union.mp hv with hv | hv
    · obtain ⟨c', ws', hc', hws'⟩ := h.owned v hv
      refine ⟨c', ws', ?_, hws'⟩
      rw [SortedMap.find?_insert, if_neg]
      · exact hc'
      · rintro rfl
        cases hfree.symm.trans hc'
    · exact ⟨c, ws, by rw [SortedMap.find?_insert, if_pos rfl], hv⟩
  · exact Finset.sdiff_subset.trans (h.waiting.trans Finset.subset_union_left)
  · intro c' ws' h'
    rcases hfind h' with ⟨rfl, rfl⟩ | h'
    · rw [hbarrier]
      exact .fresh
    · rw [hothers ws' (hdisj c' ws' h')]
      exact h.ok c' ws' h'

theorem deallocateBarrier_ok
    (hexited : ∀ ws, b.ctaToWarps.find? c = some ws → Disjoint ws b.warpActive) :
    b.deallocateBarrier c = .ok { b with ctaToWarps := b.ctaToWarps.erase c } := by
  unfold deallocateBarrier
  cases hc : b.ctaToWarps.find? c with
  | none =>
    have herase : b.ctaToWarps.erase c = b.ctaToWarps := SortedMap.erase_of_none hc
    rw [herase]
  | some ws =>
    have hdisj := hexited ws hc
    have hactive : ws ∩ b.warpActive = ∅ := Finset.disjoint_iff_inter_eq_empty.mp hdisj
    have hwaiting : Disjoint ws b.warpAtBarrier := hdisj.mono_right h.waiting
    dsimp only
    rw [assert_pos (Finset.disjoint_iff_inter_eq_empty.mp hwaiting), assert_pos hactive,
      Finset.sdiff_eq_self_of_disjoint hdisj.symm, Finset.sdiff_eq_self_of_disjoint hwaiting.symm]
    rfl

theorem WellFormed.erase (hexited : ∀ ws, b.ctaToWarps.find? c = some ws →
    Disjoint ws b.warpActive) : WellFormed { b with ctaToWarps := b.ctaToWarps.erase c } := by
  have hfind {c' : Nat} {ws' : Finset (Fin nWarps)} (h' : (b.ctaToWarps.erase c).find? c' = some ws') :
      b.ctaToWarps.find? c' = some ws' := by
    rw [SortedMap.find?_erase] at h'
    split at h'
    · cases h'
    · exact h'
  constructor
  · exact fun c' ws' h' => h.key c' ws' (hfind h')
  · exact fun c₁ c₂ ws₁ ws₂ v h₁ h₂ => h.disjoint c₁ c₂ ws₁ ws₂ v (hfind h₁) (hfind h₂)
  · intro v hv
    obtain ⟨c', ws', hc', hws'⟩ := h.owned v hv
    refine ⟨c', ws', ?_, hws'⟩
    rw [SortedMap.find?_erase, if_neg]
    · exact hc'
    · rintro rfl
      exact Finset.disjoint_left.mp (hexited ws' hc') hws' hv
  · exact h.waiting
  · exact fun c' ws' h' => h.ok c' ws' (hfind h')

end

end BarrierSet

end GpgpuSimRuby.Shader
