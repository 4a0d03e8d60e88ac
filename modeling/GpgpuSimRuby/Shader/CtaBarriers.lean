import GpgpuSimRuby.Library.Runs
import GpgpuSimRuby.Shader.BarrierSet

/-!
# The barriers of a core

The calls that `shader_core_ctx` makes to its barrier set. Beside the barrier set run the barriers
as they are meant, one for each CTA.

A scheduler issues nothing for a warp that has exited or waits. But `issue_warp` executes an
instruction before it calls `warp_reaches_barrier`, and a `bar.sync` with the option `.exit` makes
its threads exit then: the warp waits at the barrier although it does not run, and is never
released.
-/

namespace GpgpuSimRuby.Shader.CtaBarriers

open Library Function

variable {nWarps warpSize : Nat}

/-- `thread` says of the threads in `m_thread` whether they are done; `barriers` is what is meant. -/
structure State (nWarps warpSize : Nat) where
  barrierSet : BarrierSet nWarps
  thread : Fin nWarps → Fin warpSize → Option Bool
  ctaId : Fin nWarps → Nat
  barriers : Nat → Option (Barrier (Fin nWarps))

/-- A CTA that is issued to the core, with the lanes its threads get; a warp that reaches a barrier;
a thread that exits, or returns from the kernel; a CTA whose warps have all exited. -/
inductive Event (nWarps warpSize : Nat) where
  | issueBlock (ctaId : Nat) (lanes : Fin nWarps → Finset (Fin warpSize))
  | issueBarrier (warpId : Fin nWarps)
  | exit (warpId : Fin nWarps) (lane : Fin warpSize)
  | finish (ctaId : Nat)

namespace State

variable (s : State nWarps warpSize) (ctaId : Nat) (warpId : Fin nWarps) (lane : Fin warpSize)
  (lanes : Fin nWarps → Finset (Fin warpSize))

/-- No thread of the warp is left to be done: `done` of `warp_exit`, and `functional_done`. -/
def done : Bool := ∀ t, s.thread warpId t ≠ some false

/-- The warp is one of its CTA, which has not finished. -/
def Resident : Prop := warpId ∈ (s.barrierSet.ctaToWarps.find? (s.ctaId warpId)).getD ∅

instance : Decidable (s.Resident warpId) := inferInstanceAs (Decidable (_ ∈ _))

def warpsOf : Finset (Fin nWarps) := Finset.univ.filter fun w => (lanes w).Nonempty

/-- The CTA context is free, and no other CTA has one of the warps. -/
def Free : Prop := ctaId < s.barrierSet.maxCtaPerCore ∧ s.barrierSet.ctaToWarps.find? ctaId = none ∧
  ∀ e ∈ s.barrierSet.ctaToWarps.entries, Disjoint (warpsOf lanes) e.2

instance : Decidable (s.Free ctaId lanes) := inferInstanceAs (Decidable (_ ∧ _ ∧ _))

def issueBlock : Except BarrierFault (State nWarps warpSize) := do
  let barrierSet ← s.barrierSet.allocateBarrier ctaId (warpsOf lanes)
  .ok {
    barrierSet
    thread := fun w t => if t ∈ lanes w then some false else s.thread w t
    ctaId := fun w => if w ∈ warpsOf lanes then ctaId else s.ctaId w
    barriers := update s.barriers ctaId (some ⟨warpsOf lanes, ∅⟩) }

def issueBarrier : Except BarrierFault (State nWarps warpSize) := do
  let barrierSet ← s.barrierSet.warpReachesBarrier (s.ctaId warpId) warpId
  .ok { s with
    barrierSet
    barriers :=
      update s.barriers (s.ctaId warpId) ((s.barriers (s.ctaId warpId)).map (·.arrive warpId)) }

def setDone : State nWarps warpSize :=
  { s with thread := update s.thread warpId (update (s.thread warpId) lane (some true)) }

def warpExit : Except BarrierFault (State nWarps warpSize) :=
  if s.done warpId then do
    let barrierSet ← s.barrierSet.warpExit warpId
    .ok { s with
      barrierSet
      barriers :=
        update s.barriers (s.ctaId warpId) ((s.barriers (s.ctaId warpId)).map (·.leave warpId)) }
  else .ok s

def finish : Except BarrierFault (State nWarps warpSize) := do
  let barrierSet ← s.barrierSet.deallocateBarrier ctaId
  .ok { s with
    barrierSet
    barriers := update s.barriers ctaId none }

/-- All warps of the CTA have exited. -/
def Exited : Prop := ∀ w ∈ (s.barrierSet.ctaToWarps.find? ctaId).getD ∅, s.done w = true

instance : Decidable (s.Exited ctaId) := inferInstanceAs (Decidable (∀ w ∈ _, _))

end State

/-- There is no call for a CTA whose context or warps are not free, a warp of no CTA, a thread that
does not run, or a CTA that has not exited. -/
def step (s : State nWarps warpSize) :
    Event nWarps warpSize → Except BarrierFault (State nWarps warpSize)
  | .issueBlock ctaId lanes => if s.Free ctaId lanes then s.issueBlock ctaId lanes else .ok s
  | .issueBarrier warpId => if s.Resident warpId then s.issueBarrier warpId else .ok s
  | .exit warpId lane =>
    if s.thread warpId lane = some false then (s.setDone warpId lane).warpExit warpId else .ok s
  | .finish ctaId => if s.Exited ctaId then s.finish ctaId else .ok s

def start (maxCtaPerCore : Nat) : Except BarrierFault (State nWarps warpSize) :=
  .ok ⟨.new maxCtaPerCore, fun _ _ => none, fun _ => 0, fun _ => none⟩

/-- A warp that has exited reaches no barrier, and a warp that waits does not exit. -/
def Orderly (s : State nWarps warpSize) : Event nWarps warpSize → Prop
  | .issueBarrier warpId => s.Resident warpId → s.done warpId = false
  | .exit warpId lane => s.thread warpId lane = some false →
    s.barrierSet.warpWaitingAtBarrier warpId = true → (s.setDone warpId lane).done warpId = false
  | .issueBlock .. | .finish _ => True

/-! ## The invariant -/

/-- The barrier set is well formed, knows which warps run, and its barriers are the ones meant. -/
structure Inv (s : State nWarps warpSize) : Prop where
  wellFormed : s.barrierSet.WellFormed
  running : ∀ w, w ∈ s.barrierSet.warpActive ↔ s.done w = false
  ctaId : ∀ c ws, s.barrierSet.ctaToWarps.find? c = some ws → ∀ w ∈ ws, s.ctaId w = c
  barriers : ∀ c, s.barriers c = (s.barrierSet.ctaToWarps.find? c).map s.barrierSet.barrier

section Steps

variable {s s' : State nWarps warpSize} {w : Fin nWarps} {t : Fin warpSize} {c : Nat}
  {lanes : Fin nWarps → Finset (Fin warpSize)} {maxCtaPerCore : Nat}

theorem done_eq_false : s.done w = false ↔ ∃ t, s.thread w t = some false := by
  unfold State.done
  rw [decide_eq_false_iff_not]
  push Not
  rfl

theorem mem_warpsOf : w ∈ State.warpsOf lanes ↔ (lanes w).Nonempty := by
  unfold State.warpsOf
  rw [Finset.mem_filter]
  exact and_iff_right (Finset.mem_univ w)

theorem Inv.cta (h : Inv s) (hw : s.done w = false) :
    ∃ ws, s.barrierSet.ctaToWarps.find? (s.ctaId w) = some ws ∧ w ∈ ws := by
  obtain ⟨c, ws, hc, hws⟩ := h.wellFormed.owned w ((h.running w).mpr hw)
  rw [h.ctaId c ws hc w hws]
  exact ⟨ws, hc, hws⟩

theorem inv_start : Inv (⟨.new maxCtaPerCore, fun _ _ => none, fun _ => 0, fun _ => none⟩ :
    State nWarps warpSize) where
  wellFormed := .new
  running w := by
    constructor
    · intro hw
      cases hw
    · intro hw
      obtain ⟨t, ht⟩ := done_eq_false.mp hw
      cases ht
  ctaId c ws hc := by cases hc
  barriers c := rfl

theorem Inv.barriers_of_acts {b' : BarrierSet nWarps} {ws : Finset (Fin nWarps)}
    {f : Barrier (Fin nWarps) → Barrier (Fin nWarps)} (h : Inv s)
    (hc : s.barrierSet.ctaToWarps.find? c = some ws)
    (ha : BarrierSet.Acts s.barrierSet b' ws (f (s.barrierSet.barrier ws))) (c' : Nat) :
    update s.barriers c ((s.barriers c).map f) c' = (b'.ctaToWarps.find? c').map b'.barrier := by
  rw [ha.ctaToWarps]
  by_cases hcc : c' = c
  · subst hcc
    rw [update_self, h.barriers, hc]
    exact congrArg some ha.barrier.symm
  · rw [update_of_ne hcc, h.barriers]
    cases hc' : s.barrierSet.ctaToWarps.find? c' with
    | none => rfl
    | some ws' =>
      have hdisj := h.wellFormed.disjoint_of_ne hc hc' (Ne.symm hcc)
      exact congrArg some (ha.others ws' hdisj).symm

theorem Inv.issueBarrier (h : Inv s) (hdone : s.done w = false) :
    ∃ s', s.issueBarrier w = .ok s' ∧ Inv s' ∧ s.barrierSet.Frees s'.barrierSet := by
  obtain ⟨ws, hc, hws⟩ := h.cta hdone
  obtain ⟨b', hb', hwf, hactive, ha⟩ :=
    BarrierSet.warpReachesBarrier_ok h.wellFormed hc hws ((h.running w).mpr hdone)
  refine ⟨_, bind_eq_ok.mpr ⟨b', hb', rfl⟩, ?_, ?_⟩
  · constructor
    · exact hwf
    · intro v
      rw [show b'.warpActive = _ from hactive]
      exact h.running v
    · intro c' ws' hc'
      rw [show b'.ctaToWarps = _ from ha.ctaToWarps] at hc'
      exact h.ctaId c' ws' hc'
    · exact h.barriers_of_acts (f := (·.arrive w)) hc ha
  · apply h.wellFormed.frees_of_acts hwf hc ha
    intro v hv hfree
    exact Barrier.arrive_frees hv hfree

theorem setDone_done (hne : w ≠ v) : (s.setDone w t).done v = s.done v := by
  unfold State.done State.setDone
  simp only [update_of_ne (Ne.symm hne)]

theorem Inv.exit (h : Inv s) (ht : s.thread w t = some false)
    (horderly : s.barrierSet.warpWaitingAtBarrier w = true → (s.setDone w t).done w = false) :
    ∃ s', (s.setDone w t).warpExit w = .ok s' ∧ Inv s' ∧ s.barrierSet.Frees s'.barrierSet := by
  have hdone := done_eq_false.mpr ⟨t, ht⟩
  have hactive := (h.running w).mpr hdone
  unfold State.warpExit
  cases hall : (s.setDone w t).done w with
  | false =>
    refine ⟨s.setDone w t, if_neg Bool.false_ne_true, ⟨h.wellFormed, ?_, h.ctaId, h.barriers⟩,
      .of_eq rfl⟩
    intro v
    by_cases hv : w = v
    · subst hv
      exact iff_of_true hactive hall
    · rw [setDone_done hv]
      exact h.running v
  | true =>
    obtain ⟨ws, hc, hws⟩ := h.cta hdone
    have hnot : w ∉ s.barrierSet.warpAtBarrier := by
      intro hwaiting
      exact Bool.noConfusion (hall.symm.trans (horderly (decide_eq_true hwaiting)))
    obtain ⟨b', hb', hwf, hactive', ha⟩ := BarrierSet.warpExit_ok h.wellFormed hc hws hnot
    refine ⟨_, (if_pos rfl).trans (bind_eq_ok.mpr ⟨b', hb', rfl⟩), ?_, ?_⟩
    · constructor
      · exact hwf
      · intro v
        rw [show b'.warpActive = _ from hactive', Finset.mem_erase]
        by_cases hv : w = v
        · subst hv
          apply iff_of_false
          · exact fun hmem => hmem.1 rfl
          · exact fun hfalse => Bool.noConfusion (hall.symm.trans hfalse)
        · rw [and_iff_right (Ne.symm hv)]
          exact (h.running v).trans (by rw [← setDone_done hv]; rfl)
      · intro c' ws' hc'
        rw [show b'.ctaToWarps = _ from ha.ctaToWarps] at hc'
        exact h.ctaId c' ws' hc'
      · exact h.barriers_of_acts (f := (·.leave w)) hc ha
    · apply h.wellFormed.frees_of_acts hwf hc ha
      intro v hv hfree
      exact Barrier.leave_frees hv hfree

theorem Inv.issueBlock (h : Inv s) (hfree : s.Free c lanes) :
    ∃ s', s.issueBlock c lanes = .ok s' ∧ Inv s' ∧ s.barrierSet.Frees s'.barrierSet := by
  obtain ⟨hkey, hnone, hentries⟩ := hfree
  have hdisj : ∀ c' ws', s.barrierSet.ctaToWarps.find? c' = some ws' →
      Disjoint (State.warpsOf lanes) ws' :=
    fun c' ws' hc' => hentries (c', ws') (SortedMap.find?_eq_some_iff.mp hc')
  have hnew : Disjoint s.barrierSet.warpActive (State.warpsOf lanes) := by
    apply Finset.disjoint_left.mpr
    intro v hv hlanes
    obtain ⟨c', ws', hc', hws'⟩ := h.wellFormed.owned v hv
    exact Finset.disjoint_left.mp (hdisj c' ws' hc') hlanes hws'
  obtain ⟨b', hb', hwf, hactive, hmap, hwaiting, hbarrier, hothers⟩ :=
    BarrierSet.allocateBarrier_ok h.wellFormed hkey hnone hdisj
  refine ⟨_, bind_eq_ok.mpr ⟨b', hb', rfl⟩, ?_, ?_⟩
  · constructor
    · exact hwf
    · intro v
      rw [show b'.warpActive = _ from hactive, Finset.mem_union, h.running, mem_warpsOf, done_eq_false,
        done_eq_false]
      dsimp only
      constructor
      · rintro (⟨t, ht⟩ | ⟨t, ht⟩)
        · refine ⟨t, ?_⟩
          rw [ht]
          exact ite_self _
        · exact ⟨t, if_pos ht⟩
      · rintro ⟨t, ht⟩
        split at ht
        · next hmem => exact .inr ⟨t, hmem⟩
        · exact .inl ⟨t, ht⟩
    · intro c' ws' hc' v hv
      rw [show b'.ctaToWarps = _ from hmap, SortedMap.find?_insert] at hc'
      dsimp only
      split at hc'
      · next heq =>
        cases hc'
        rw [if_pos hv, heq]
      · rw [if_neg fun hlanes => Finset.disjoint_left.mp (hdisj c' ws' hc') hlanes hv]
        exact h.ctaId c' ws' hc' v hv
    · intro c'
      dsimp only
      rw [hmap, SortedMap.find?_insert]
      by_cases hcc : c' = c
      · subst hcc
        rw [update_self, if_pos rfl]
        exact congrArg some hbarrier.symm
      · rw [update_of_ne hcc, if_neg hcc, h.barriers]
        cases hc' : s.barrierSet.ctaToWarps.find? c' with
        | none => rfl
        | some ws' => exact congrArg some (hothers ws' (hdisj c' ws' hc')).symm
  · apply BarrierSet.Frees.of_eq
    exact hwaiting.trans (Finset.sdiff_eq_self_of_disjoint (hnew.mono_left h.wellFormed.waiting))

theorem Inv.finish (h : Inv s) (hexited : s.Exited c) :
    ∃ s', s.finish c = .ok s' ∧ Inv s' ∧ s.barrierSet.Frees s'.barrierSet := by
  have hdisj : ∀ ws, s.barrierSet.ctaToWarps.find? c = some ws →
      Disjoint ws s.barrierSet.warpActive := by
    intro ws hc
    apply Finset.disjoint_left.mpr
    intro v hv hactive
    have hdone : s.done v = true := hexited v (by rw [hc]; exact hv)
    rw [(h.running v).mp hactive] at hdone
    cases hdone
  refine ⟨_, bind_eq_ok.mpr ⟨_, BarrierSet.deallocateBarrier_ok h.wellFormed hdisj, rfl⟩, ?_,
    .of_eq rfl⟩
  constructor
  · exact h.wellFormed.erase hdisj
  · exact h.running
  · intro c' ws' hc'
    dsimp only at hc'
    rw [SortedMap.find?_erase] at hc'
    split at hc'
    · cases hc'
    · exact h.ctaId c' ws' hc'
  · intro c'
    dsimp only
    rw [SortedMap.find?_erase]
    by_cases hcc : c' = c
    · subst hcc
      rw [update_self, if_pos rfl]
      rfl
    · rw [update_of_ne hcc, if_neg hcc]
      exact h.barriers c'

theorem Inv.step {e : Event nWarps warpSize} (h : Inv s) (he : Orderly s e) :
    ∃ s', step s e = .ok s' ∧ Inv s' ∧ s.barrierSet.Frees s'.barrierSet := by
  have hnothing : ∃ s', (.ok s : Except BarrierFault _) = .ok s' ∧
      Inv s' ∧ s.barrierSet.Frees s'.barrierSet :=
    ⟨s, rfl, h, .of_eq rfl⟩
  cases e with
  | issueBlock c lanes =>
    by_cases hfree : s.Free c lanes
    · obtain ⟨s', hs', hrest⟩ := h.issueBlock hfree
      exact ⟨s', (if_pos hfree).trans hs', hrest⟩
    · rw [show CtaBarriers.step s (.issueBlock c lanes) = .ok s from if_neg hfree]
      exact hnothing
  | issueBarrier w =>
    by_cases hres : s.Resident w
    · obtain ⟨s', hs', hrest⟩ := h.issueBarrier (he hres)
      exact ⟨s', (if_pos hres).trans hs', hrest⟩
    · rw [show CtaBarriers.step s (.issueBarrier w) = .ok s from if_neg hres]
      exact hnothing
  | exit w t =>
    by_cases ht : s.thread w t = some false
    · obtain ⟨s', hs', hrest⟩ := h.exit ht (he ht)
      exact ⟨s', (if_pos ht).trans hs', hrest⟩
    · rw [show CtaBarriers.step s (.exit w t) = .ok s from if_neg ht]
      exact hnothing
  | finish c =>
    by_cases hexited : s.Exited c
    · obtain ⟨s', hs', hrest⟩ := h.finish hexited
      exact ⟨s', (if_pos hexited).trans hs', hrest⟩
    · rw [show CtaBarriers.step s (.finish c) = .ok s from if_neg hexited]
      exact hnothing

/-- A step that is not orderly leaves a warp waiting that does not run. -/
theorem Inv.orderly {e : Event nWarps warpSize} (h : Inv s) (hs : CtaBarriers.step s e = .ok s')
    (hwaiting : s'.barrierSet.warpAtBarrier ⊆ s'.barrierSet.warpActive) : Orderly s e := by
  cases e with
  | issueBlock | finish => trivial
  | issueBarrier w =>
    intro hres
    by_contra hdone
    have hactive : w ∉ s.barrierSet.warpActive := fun hw => hdone ((h.running w).mp hw)
    have hs : s.issueBarrier w = .ok s' := (if_pos hres).symm.trans hs
    obtain ⟨b', hb', hs⟩ := bind_eq_ok.mp hs
    obtain rfl := Except.ok.inj hs
    unfold BarrierSet.warpReachesBarrier at hb'
    unfold State.Resident at hres
    cases hc : s.barrierSet.ctaToWarps.find? (s.ctaId w) with
    | none =>
      rw [hc] at hres
      cases hres
    | some ws =>
      rw [hc] at hres hb'
      obtain ⟨_, -, hb'⟩ := bind_eq_ok.mp hb'
      obtain rfl := Except.ok.inj hb'
      have hin := hwaiting (BarrierSet.mem_releaseWaiting hres (Finset.mem_insert_self w _) hactive)
      rw [BarrierSet.releaseWaiting_warpActive] at hin
      exact hactive hin
  | exit w t =>
    intro ht hw
    by_contra hdone
    have hall : (s.setDone w t).done w = true := Bool.eq_true_of_not_eq_false hdone
    obtain ⟨ws, hc, hws⟩ := h.cta (done_eq_false.mpr ⟨t, ht⟩)
    have hs : (s.setDone w t).warpExit w = .ok s' := (if_pos ht).symm.trans hs
    unfold State.warpExit at hs
    rw [if_pos hall] at hs
    obtain ⟨b', hb', hs⟩ := bind_eq_ok.mp hs
    obtain rfl := Except.ok.inj hs
    unfold BarrierSet.warpExit at hb'
    rw [show (s.setDone w t).barrierSet = s.barrierSet from rfl, h.wellFormed.find_cta hc hws] at hb'
    obtain rfl := Except.ok.inj hb'
    have hin := hwaiting
        (BarrierSet.mem_releaseWaiting hws (of_decide_eq_true hw) (Finset.notMem_erase w _))
    rw [BarrierSet.releaseWaiting_warpActive] at hin
    exact Finset.notMem_erase w _ hin

end Steps

/-! ## Runs -/

/-- Who waits, who runs and what the barriers are. -/
structure Lawful (s : State nWarps warpSize) : Prop where
  waits : ∀ w, s.barrierSet.warpWaitingAtBarrier w = true ↔ ∃ c b, s.barriers c = some b ∧ b.Waits w
  running : ∀ c b, s.barriers c = some b → ∀ w, w ∈ b.running ↔ s.ctaId w = c ∧ s.done w = false
  active : ∀ w, w ∈ s.barrierSet.warpActive ↔ s.done w = false
  waiting : s.barrierSet.warpAtBarrier ⊆ s.barrierSet.warpActive

theorem Inv.lawful {s : State nWarps warpSize} (h : Inv s) : Lawful s where
  waits w := by
    rw [h.wellFormed.waits_iff]
    constructor
    · rintro ⟨c, ws, hc, hw⟩
      exact ⟨c, _, by rw [h.barriers, hc]; rfl, hw⟩
    · rintro ⟨c, b, hb, hw⟩
      rw [h.barriers, Option.map_eq_some_iff] at hb
      obtain ⟨ws, hc, rfl⟩ := hb
      exact ⟨c, ws, hc, hw⟩
  running c b hb w := by
    rw [h.barriers, Option.map_eq_some_iff] at hb
    obtain ⟨ws, hc, rfl⟩ := hb
    rw [← h.running]
    constructor
    · intro hw
      obtain ⟨hws, hactive⟩ := Finset.mem_inter.mp hw
      exact ⟨h.ctaId c ws hc w hws, hactive⟩
    · rintro ⟨rfl, hactive⟩
      obtain ⟨ws', hc', hws'⟩ := h.cta ((h.running w).mp hactive)
      cases hc.symm.trans hc'
      exact Finset.mem_inter.mpr ⟨hws', hactive⟩
  active := h.running
  waiting := h.wellFormed.waiting

/-- A step that frees a warp frees its CTA and no other. -/
def Releases (s : State nWarps warpSize) (e : Event nWarps warpSize) : Prop :=
  ∀ s', step s e = .ok s' → s.barrierSet.Frees s'.barrierSet

theorem always_inv_iff {maxCtaPerCore : Nat} {events : List (Event nWarps warpSize)} :
    Always (start maxCtaPerCore) step Inv events ↔
      Throughout (start maxCtaPerCore) step Orderly events := by
  have htrue : (fun _ : State nWarps warpSize => True) ⟨.new maxCtaPerCore, fun _ _ => none, fun _ => 0,
    fun _ => none⟩ := trivial
  apply always_iff_throughout rfl htrue inv_start (fun _ _ _ _ _ => trivial)
  intro s e _ h
  constructor
  · intro he
    obtain ⟨s', hs', h', -⟩ := h.step he
    exact ⟨s', hs', h'⟩
  · rintro ⟨s', hs', h'⟩
    exact h.orderly hs' h'.wellFormed.waiting

theorem always_inv_of_lawful {maxCtaPerCore : Nat} {events : List (Event nWarps warpSize)}
    (h : Always (start maxCtaPerCore) step Lawful events) :
    Always (start maxCtaPerCore) step Inv events := by
  intro done
  induction done using List.reverseRecOn with
  | nil =>
    intro rest _
    exact ⟨_, rfl, inv_start⟩
  | append_singleton done e ih =>
    intro rest hevents
    obtain ⟨s', hs', hlawful⟩ := h _ _ hevents
    rw [List.append_assoc, List.singleton_append] at hevents
    obtain ⟨s, hs, hinv⟩ := ih _ hevents
    have hstep := (exec_concat hs).symm.trans hs'
    obtain ⟨s₁, hs₁, hinv', -⟩ := hinv.step (hinv.orderly hstep hlawful.waiting)
    cases hs₁.symm.trans hstep
    exact ⟨_, hs', hinv'⟩

/-- **Barrier sets**: CTAs with warps of their own are issued and finish, and their warps reach
barriers and exit, in any order. No assertion fails, the warps that wait are those that have arrived
since the last release of their CTA while another warp of it has not, only warps that run wait, and
a step that frees a warp frees its CTA and no other, if and only if no warp that has exited reaches
a barrier and no warp that waits exits. -/
theorem run_lawful_iff (maxCtaPerCore : Nat) (events : List (Event nWarps warpSize)) :
    (Always (start maxCtaPerCore) step Lawful events ∧
      Throughout (start maxCtaPerCore) step Releases events) ↔
      Throughout (start maxCtaPerCore) step Orderly events := by
  constructor
  · rintro ⟨h, -⟩
    exact always_inv_iff.mp (always_inv_of_lawful h)
  · intro h
    have hinv := always_inv_iff.mpr h
    constructor
    · intro done rest hevents
      obtain ⟨s, hs, hs'⟩ := hinv done rest hevents
      exact ⟨s, hs, hs'.lawful⟩
    · intro done e rest s hevents hs s' hs'
      obtain ⟨s₁, hs₁, hinv₁⟩ := hinv done (e :: rest) hevents
      cases hs.symm.trans hs₁
      obtain ⟨s₂, hs₂, -, hfrees⟩ := hinv₁.step (h done e rest s hevents hs)
      cases hs'.symm.trans hs₂
      exact hfrees

/-- A CTA of two warps of one thread, of which `w` issues a `bar.sync` with `.exit`. -/
def barrierExit (w : Fin 2) (lane : Fin 1) : List (Event 2 1) :=
  [.issueBlock 0 fun _ => {lane}, .exit w lane, .issueBarrier w]

/-- The warp waits although it does not run, and when the other one has exited, the assertion that
no warp is stuck at the barrier fails. -/
theorem barrierExit_not_lawful :
    ¬ (Always (start 1) step Lawful (barrierExit 0 0) ∧
        Throughout (start 1) step Releases (barrierExit 0 0)) ∧
      (exec (start 1) step (barrierExit 0 0 ++ [.exit 1 0, .finish 0])).map (fun _ => ()) =
        .error .warpsAtBarrier := by
  constructor
  · rintro ⟨h, -⟩
    obtain ⟨s, hs, hlawful⟩ := h (barrierExit 0 0) [] rfl
    have hstuck : (exec (start 1) step (barrierExit 0 0)).map (fun s =>
        decide (0 ∈ s.barrierSet.warpAtBarrier ∧ 0 ∉ s.barrierSet.warpActive)) = .ok true := by decide
    rw [hs] at hstuck
    obtain ⟨hwaiting, hactive⟩ := of_decide_eq_true (Except.ok.inj hstuck)
    exact hactive (hlawful.waiting hwaiting)
  · decide

end GpgpuSimRuby.Shader.CtaBarriers
