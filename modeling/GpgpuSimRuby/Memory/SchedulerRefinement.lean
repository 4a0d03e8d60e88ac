import GpgpuSimRuby.Memory.Transfers

/-!
# The controller and its scheduler

The controller keeps a list of requests for each bank, and `frfcfs_scheduler` keeps bins of
iterators. Every state of the controller is matched by a run of the scheduler, which then returns
the requests that the controller serves.
-/

namespace GpgpuSimRuby.Memory.Frfcfs

open Library Dram

variable {cfg : MemoryConfig} {d d' : Dram} {j bank : Nat} {mrq req : DramReq}

/-- The requests that are still to be scheduled are those of a run of the scheduler. -/
structure Matched (cfg : MemoryConfig) (d : Dram) : Prop where
  banks : ∀ r ∈ d.mrqq, r.bk < cfg.nbk
  run : ∃ s, (frfcfs cfg.nbk).Reachable s ∧ Refines s d

/-- What only concerns the commands. -/
structure SameQueues (d d' : Dram) : Prop where
  queue : d'.queue = d.queue
  lastRow : d'.lastRow = d.lastRow
  mrqq : ∀ r ∈ d'.mrqq, r ∈ d.mrqq

theorem Matched.of_banks (h : Matched cfg d) (hqueue : d'.queue = d.queue)
    (hlast : d'.lastRow = d.lastRow)
    (hbanks : ∀ r ∈ d'.mrqq, r.bk < cfg.nbk) : Matched cfg d' := by
  obtain ⟨s, hs, href⟩ := h.run
  exact ⟨hbanks, s, hs, hqueue.trans href.queue, hlast.trans href.lastRow⟩

theorem Matched.congr (h : Matched cfg d) (hsame : SameQueues d d') : Matched cfg d' :=
  h.of_banks hsame.queue hsame.lastRow fun r hr => h.banks r (hsame.mrqq r hr)

/-! ## The commands -/

theorem turn_same {isWrite : Bool} (h : d.turn cfg isWrite = .ok d') : SameQueues d d' := by
  unfold Dram.turn at h
  split at h
  · cases h
    exact ⟨rfl, rfl, fun _ hr => hr⟩
  · obtain ⟨rwq, -, h⟩ := bind_eq_ok.mp h
    cases h
    exact ⟨rfl, rfl, fun _ hr => hr⟩

theorem served_same {y : Dram × Option Command} (h : Served cfg d j mrq y) : SameQueues d y.1 := by
  cases h with
  | read _ hd =>
    obtain ⟨d₁, hturn, hd⟩ := bind_eq_ok.mp hd
    obtain ⟨rwq, -, hd⟩ := bind_eq_ok.mp hd
    cases hd
    have := turn_same hturn
    exact ⟨this.queue, this.lastRow, this.mrqq⟩
  | write _ hd =>
    obtain ⟨d₁, hturn, hd⟩ := bind_eq_ok.mp hd
    obtain ⟨rwq, -, hd⟩ := bind_eq_ok.mp hd
    cases hd
    have := turn_same hturn
    exact ⟨this.queue, this.lastRow, this.mrqq⟩
  | activate | precharge | nothing => exact ⟨rfl, rfl, fun _ hr => hr⟩

/-! ## The scheduler -/

theorem Matched.takeReqs (h : Matched cfg d) (reqs : List DramReq)
    (hreqs : ∀ r ∈ reqs, r.bk < cfg.nbk) :
    Matched cfg (takeReqs cfg reqs d) := by
  induction reqs generalizing d with
  | nil => exact h.of_banks rfl rfl fun r hr => absurd hr List.not_mem_nil
  | cons req rest ih =>
    unfold Dram.takeReqs
    split
    · apply ih _ fun r hr => hreqs r (List.mem_cons_of_mem _ hr)
      obtain ⟨s, hs, href⟩ := h.run
      refine ⟨h.banks, s.addReq req, .step (a := .addReq req) hs trivial ?_, href.addReq req⟩
      exact if_pos (hreqs req List.mem_cons_self)
    · exact h.of_banks rfl rfl hreqs

/-- The controller and the scheduler choose the same request. -/
theorem Matched.schedule (h : Matched cfg d) (hbank : bank < cfg.nbk)
    (hd : d.schedule bank = some (req, d')) :
    Matched cfg d' := by
  obtain ⟨s, hs, href⟩ := h.run
  rcases href.schedule (sound_of_reachable hs) hbank with
    ⟨hnone, -⟩ | ⟨req', t, d₂, hsome, ht, -, href'⟩
  · cases hnone.symm.trans hd
  · cases hsome.symm.trans hd
    refine ⟨?_, t, .step (a := .schedule bank (d.bk bank).currRow) hs trivial ?_, href'⟩
    · rw [schedule_eq] at hd
      obtain ⟨r, -, hx⟩ := Option.map_eq_some_iff.mp hd
      cases hx
      exact h.banks
    · exact (if_pos hbank).trans (congrArg some ht)

theorem Matched.scheduler (h : Matched cfg d) : Matched cfg (d.scheduler cfg) := by
  unfold Dram.scheduler
  split
  · unfold Dram.schedulerFifo
    split
    · exact h
    next head rest hmrqq =>
      split
      · exact h.congr ⟨rfl, rfl, fun r hr => hmrqq ▸ List.mem_cons_of_mem head hr⟩
      · exact h
  · have htake := h.takeReqs d.mrqq h.banks
    unfold Dram.schedulerFrfcfs
    dsimp only
    split
    · exact htake
    next b req d₂ hfound =>
      obtain ⟨i, hi, hbank⟩ := List.exists_of_findSome?_eq_some hfound
      have hpos : 0 < cfg.nbk := Nat.zero_lt_of_lt (List.mem_range.mp hi)
      split at hbank
      · obtain ⟨⟨r, d₃⟩, hr, hx⟩ := Option.map_eq_some_iff.mp hbank
        cases hx
        exact (htake.schedule (Nat.mod_lt _ hpos) hr).congr ⟨rfl, rfl, fun _ hr => hr⟩
      · cases hbank

theorem Matched.cycle (h : Matched cfg d) (hd : d.cycle cfg = .ok d') : Matched cfg d' := by
  obtain ⟨d₁, hout, hd⟩ := bind_eq_ok.mp hd
  obtain ⟨⟨d₂, command⟩, hloop, hd⟩ := bind_eq_ok.mp hd
  cases hd
  have h₁ : Matched cfg d₁ := by
    cases dataOut_outs hout <;> exact h.congr ⟨rfl, rfl, fun _ hr => hr⟩
  have h₂ : Matched cfg d₂ := by
    cases bankLoop_serves hloop with
    | nothing => exact h₁.scheduler
    | one _ _ hserved => exact h₁.scheduler.congr (served_same hserved)
  exact h₂.congr ⟨rfl, rfl, fun _ hr => hr⟩

/-- **The scheduler refines the controller.** Every state of the controller is that of a run of
`frfcfs_scheduler`, and for every bank the two return the same request next. -/
theorem controller_matched (h : (dram cfg).Reachable d) :
    ∃ s, (frfcfs cfg.nbk).Reachable s ∧ Refines s d ∧
    ∀ bank < cfg.nbk,
      (d.schedule bank = none ∧
        (frfcfs cfg.nbk).step s (.schedule bank (d.bk bank).currRow) = some (.ok s)) ∨
      ∃ req t d', d.schedule bank = some (req, d') ∧
        (frfcfs cfg.nbk).step s (.schedule bank (d.bk bank).currRow) = some (.ok t) ∧
        t.returned = req :: s.returned ∧ Refines t d' := by
  have hmatched : Matched cfg d := by
    refine h.invariant ⟨fun r hr => absurd hr List.not_mem_nil, {}, .init, rfl, rfl⟩
      fun d a d' hd _ hstep => ?_
    cases a with
    | push req =>
      simp only [dram, Dram.push] at hstep
      split at hstep
      next hreq =>
        obtain ⟨-, -, hstep⟩ := bind_eq_ok.mp (Option.some.inj hstep)
        cases hstep
        refine hd.of_banks rfl rfl fun r hr => ?_
        rcases List.mem_append.mp hr with hr | hr
        · exact hd.banks r hr
        · exact List.mem_singleton.mp hr ▸ hreq
      next => cases hstep
    | cycle => exact hd.cycle (Option.some.inj hstep)
    | pop =>
      cases hstep
      exact hd.congr ⟨rfl, rfl, fun _ hr => hr⟩
  obtain ⟨s, hs, href⟩ := hmatched.run
  refine ⟨s, hs, href, fun bank hbank => ?_⟩
  have hstep : (frfcfs cfg.nbk).step s (.schedule bank (d.bk bank).currRow) =
      some (s.schedule bank (d.bk bank).currRow) := if_pos hbank
  rw [hstep]
  rcases href.schedule (sound_of_reachable hs) hbank with
    ⟨hnone, ht⟩ | ⟨req, t, d', hd, ht, hreturned, href'⟩
  · exact .inl ⟨hnone, congrArg some ht⟩
  · exact .inr ⟨req, t, d', hd, congrArg some ht, hreturned, href'⟩

/-- Two requests for a bank: one is served, the other waits. -/
theorem controller_matched_two :
    ∃ d, (dram { twoBanks with schedulerType := .frfcfs }).Reachable d ∧ (d.queue 0).length = 1 ∧
    ∃ s, (frfcfs 2).Reachable s ∧ Refines s d := by
  obtain ⟨d, -, hd, hlength⟩ :=
    (dram { twoBanks with schedulerType := .frfcfs }).exists_reachable_of_run
    [.push ⟨1, 0, 7, 32, 0, false, false⟩, .push ⟨2, 0, 8, 32, 0, false, false⟩, .cycle]
    (fun d => (d.queue 0).length) (y := 1) (by rfl)
  obtain ⟨s, hs, href, -⟩ := controller_matched hd
  exact ⟨d, hd, hlength, s, hs, href⟩

end GpgpuSimRuby.Memory.Frfcfs
