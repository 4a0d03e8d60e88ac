import GpgpuSimRuby.Library.Calendar
import GpgpuSimRuby.Shader.ExecutePipeline

/-!
# No structural hazards

The instructions of a unit are a calendar: the stage of the pipeline, or what is left of the time in
the dispatch register, says when an instruction comes out. `occupied` covers the calendar, so no two
instructions of a unit meet; and at every time there are as many reservations on the result buses as
units that deliver then, so `EX_WB` has room for them.
-/

namespace GpgpuSimRuby.Shader.Execute

open Library Function

/-! ## Bit sets -/

theorem getLsbD_set (bits : Bits) {i : Nat} (hi : i < maxAluLatency) (r : Nat) :
    (set bits i).getLsbD r = (bits.getLsbD r || decide (r = i)) := by
  unfold set
  rw [BitVec.getLsbD_or, BitVec.getLsbD_twoPow]
  by_cases hr : r = i
  · subst hr
    simp [hi]
  · have hr' : i ≠ r := fun h => hr h.symm
    simp [hr, hr']

theorem getLsbD_shift (bits : Bits) (r : Nat) : (bits >>> 1).getLsbD r = bits.getLsbD (r + 1) := by
  rw [BitVec.getLsbD_ushiftRight, Nat.add_comm]

/-! ## The loop over the stages -/

theorem shiftStages {depth : Nat} {regs : Nat → Option WarpInst} (h₀ : regs 0 = none)
    (hdepth : ∀ r, depth ≤ r → regs r = none) (hpos : 0 < depth) :
    (List.range (depth - 1)).foldlM (fun regs stage => moveWarp regs stage (stage + 1)) regs =
      .ok fun r => regs (r + 1) := by
  -- after `n` rounds the first `n` stages have moved, and stage `n` is the empty one
  have hrounds : ∀ n, (List.range n).foldlM (fun regs stage => moveWarp regs stage (stage + 1)) regs =
      .ok fun r => if r < n then regs (r + 1) else if r = n then none else regs r := by
    intro n
    induction n with
    | zero =>
      show Except.ok regs = _
      congr 1
      funext r
      by_cases hr : r = 0
      · simp [hr, h₀]
      · simp [hr]
    | succ n ih =>
      rw [List.range_succ, foldlM_append, ih, ok_bind, List.foldlM_cons]
      have hmove : moveWarp (fun r => if r < n then regs (r + 1) else if r = n then none else regs r)
          n (n + 1) = .ok fun r => if r < n + 1 then regs (r + 1) else
            if r = n + 1 then none else regs r := by
        unfold moveWarp
        rw [assert_pos (by simp), ok_bind]
        congr 1
        funext r
        rcases Nat.lt_trichotomy r n with hlt | rfl | hgt
        · rw [update_of_ne (by omega), update_of_ne (by omega), if_pos hlt,
            if_pos (by omega)]
        · rw [update_of_ne (by omega), update_self, if_pos (by omega)]
          simp
        · by_cases hr : r = n + 1
          · subst hr
            simp
          · rw [update_of_ne hr, update_of_ne (by omega), if_neg (by omega),
              if_neg (by omega), if_neg (by omega), if_neg hr]
      rw [hmove]
      rfl
  rw [hrounds]
  congr 1
  funext r
  split
  · rfl
  · have hnone : regs (r + 1) = none := hdepth _ (by omega)
    split
    · exact hnone.symm
    · rw [hnone, hdepth r (by omega)]

/-! ## A unit as a calendar -/

namespace PipelinedUnit

/-- What comes out of the unit after `r` more cycles than the next. -/
def job (u : PipelinedUnit) : Calendar WarpInst := fun r =>
  match u.pipelineReg r with
  | some w => some w
  | none =>
    match u.dispatchReg with
    | none => none
    | some (w, cycles) => if w.latency - w.initiationInterval + cycles = r then some w else none

/-- The time left of a dispatched instruction does not belong to any other. -/
structure Dispatched (depth : Nat) (regs : Nat → Option WarpInst) (w : WarpInst) (cycles : Nat) : Prop where
  cycles_pos : 1 ≤ cycles
  cycles_le : cycles ≤ w.initiationInterval
  interval_le : w.initiationInterval ≤ w.latency
  latency_le : w.latency ≤ depth
  free : regs (w.latency - w.initiationInterval + cycles) = none

/-- The invariant of a unit at the end of the cycle `now`. -/
structure Inv (depth now : Nat) (u : PipelinedUnit) : Prop where
  regs_depth : ∀ r, depth ≤ r → u.pipelineReg r = none
  dispatched : ∀ w cycles, u.dispatchReg = some (w, cycles) → Dispatched depth u.pipelineReg w cycles
  occupied : ∀ r, (u.job r).isSome = true → u.occupied.getLsbD r = true
  kept : Calendar.Kept WarpInst.latency u.job now u.issued u.results

variable {depth now : Nat} {u u' : PipelinedUnit} {w : WarpInst} {r : Nat}

theorem job_of_idle (h : u.dispatchReg = none) : u.job = u.pipelineReg := by
  funext r
  unfold job
  rw [h]
  cases u.pipelineReg r <;> rfl

theorem job_of_dispatch {cycles : Nat} (h : u.dispatchReg = some (w, cycles))
    (hd : Dispatched depth u.pipelineReg w cycles) :
    u.job = update u.pipelineReg (w.latency - w.initiationInterval + cycles) (some w) := by
  funext r
  unfold job
  rw [h]
  by_cases hr : r = w.latency - w.initiationInterval + cycles
  · subst hr
    rw [hd.free, update_self]
    simp
  · rw [update_of_ne hr]
    have hr' : w.latency - w.initiationInterval + cycles ≠ r := fun heq => hr heq.symm
    cases u.pipelineReg r with
    | some w' => rfl
    | none => simp [hr']

theorem Inv.job_zero (h : Inv depth now u) : u.job 0 = u.pipelineReg 0 := by
  cases hdisp : u.dispatchReg with
  | none => rw [job_of_idle hdisp]
  | some p =>
    have hd := h.dispatched p.1 p.2 hdisp
    rw [job_of_dispatch hdisp hd, update_of_ne]
    have := hd.cycles_pos
    omega

/-- The unit after `deliver`. -/
def delivered (now : Nat) (u : PipelinedUnit) : PipelinedUnit :=
  { u with
    pipelineReg := update u.pipelineReg 0 none
    results := u.results ++ (u.pipelineReg 0).toList.map fun w => (now, w) }

theorem deliver_ok (now : Nat) {exWb : RegisterSet WarpInst}
    (hroom : (u.pipelineReg 0).isSome = true → exWb.hasFree = true) :
    ∃ exWb', u.deliver now exWb = .ok (exWb', u.delivered now) ∧ exWb'.length = exWb.length ∧
      exWb'.countP Option.isSome =
        exWb.countP Option.isSome + if (u.pipelineReg 0).isSome then 1 else 0 := by
  unfold deliver delivered
  cases h₀ : u.pipelineReg 0 with
  | none =>
    refine ⟨exWb, ?_, rfl, by simp⟩
    have hsame : update u.pipelineReg 0 none = u.pipelineReg := by
      rw [← h₀, update_eq_self]
    simp [hsame]
  | some w =>
    obtain ⟨exWb', hok⟩ := RegisterSet.moveIn_ok Fault.noFreeRegister (hroom (by simp [h₀])) w
    have hmoved := RegisterSet.moveIn_eq_ok hok
    refine ⟨exWb', by simp [hok], hmoved.length_eq, ?_⟩
    have hcount := hmoved.countP Option.isSome
    simpa using hcount

/-- A unit whose stages have shifted. -/
def shifted (now : Nat) (u : PipelinedUnit) : PipelinedUnit :=
  { u.delivered now with pipelineReg := fun r => u.pipelineReg (r + 1) }

/-- **The dispatch register.** The dispatched instruction comes a cycle closer, there or in the
pipeline. -/
theorem Inv.dispatch (h : Inv depth now u) {v : PipelinedUnit} (hv : v = u.shifted (now + 1)) :
    ∃ u', v.dispatch depth = .ok u' ∧ u'.job = u.job.tick ∧ (∀ r, depth ≤ r → u'.pipelineReg r = none) ∧
      (∀ w cycles, u'.dispatchReg = some (w, cycles) → Dispatched depth u'.pipelineReg w cycles) ∧
      u'.kind = v.kind ∧ u'.occupied = v.occupied ∧ u'.issued = v.issued ∧ u'.results = v.results := by
  have hreg : v.pipelineReg = Calendar.tick u.pipelineReg := by
    rw [hv]
    rfl
  have hregs : ∀ r, depth ≤ r → v.pipelineReg r = none := by
    intro r hr
    rw [hreg]
    exact h.regs_depth (r + 1) (by omega)
  have hreg_disp : v.dispatchReg = u.dispatchReg := by
    rw [hv]
    rfl
  unfold PipelinedUnit.dispatch
  cases hdisp : u.dispatchReg with
  | none =>
    rw [hdisp] at hreg_disp
    refine ⟨v, by rw [hreg_disp], ?_, hregs, ?_, rfl, rfl, rfl, rfl⟩
    · rw [job_of_idle hreg_disp, job_of_idle hdisp, hreg]
    · intro w cycles hw
      rw [hreg_disp] at hw
      cases hw
  | some p =>
    obtain ⟨w, cycles⟩ := p
    rw [hdisp] at hreg_disp
    have hd := h.dispatched w cycles hdisp
    have hpos := hd.cycles_pos
    have hinterval := hd.cycles_le
    have hle := hd.interval_le
    have hdepth := hd.latency_le
    rw [hreg_disp, job_of_dispatch hdisp hd]
    by_cases hdelay : 0 < cycles - 1
    · -- the initiation interval is not over
      have hd' : Dispatched depth v.pipelineReg w (cycles - 1) := by
        refine ⟨hdelay, by omega, hle, hdepth, ?_⟩
        have hplace : w.latency - w.initiationInterval + (cycles - 1) + 1 =
            w.latency - w.initiationInterval + cycles := by omega
        rw [hreg, Calendar.tick, hplace, hd.free]
      refine ⟨{ v with dispatchReg := some (w, cycles - 1) }, by simp [hdelay], ?_, hregs, ?_,
        rfl, rfl, rfl, rfl⟩
      · rw [job_of_dispatch (u := { v with dispatchReg := some (w, cycles - 1) }) rfl hd']
        funext r
        unfold Calendar.tick
        by_cases hr : r = w.latency - w.initiationInterval + (cycles - 1)
        · have hr' : r + 1 = w.latency - w.initiationInterval + cycles := by omega
          rw [hr', update_self, hr, update_self]
        · rw [update_of_ne hr, update_of_ne (by omega), hreg]
          rfl
      · intro w' cycles' heq
        cases heq
        exact hd'
    · -- it enters the stage it would have reached by now
      obtain rfl : cycles = 1 := by omega
      have hfree : v.pipelineReg (w.latency - w.initiationInterval) = none := by
        rw [hreg]
        exact hd.free
      refine ⟨{ v with
        dispatchReg := none
        pipelineReg := update v.pipelineReg (w.latency - w.initiationInterval) (some w) },
        ?_, ?_, ?_, ?_, rfl, rfl, rfl, rfl⟩
      · dsimp only
        rw [if_neg hdelay, assert_pos ⟨hle, by omega⟩, ok_bind, assert_pos hfree]
        rfl
      · rw [job_of_idle rfl]
        funext r
        unfold Calendar.tick
        by_cases hr : r = w.latency - w.initiationInterval
        · subst hr
          rw [update_self]
          exact update_self ..
        · rw [update_of_ne (by omega)]
          refine (update_of_ne hr _ _).trans ?_
          rw [hreg]
          rfl
      · intro r hr
        refine (update_of_ne (by omega) _ _).trans (hregs r hr)
      · intro w' cycles' heq
        cases heq

/-- **A cycle of a unit** is a tick of its calendar, and meets no occupied stage. -/
theorem Inv.cycle (h : Inv depth now u) (hpos : 0 < depth) {exWb : RegisterSet WarpInst}
    (hroom : (u.job 0).isSome = true → exWb.hasFree = true) :
    ∃ exWb' u', u.cycle depth (now + 1) exWb = .ok (exWb', u') ∧ Inv depth (now + 1) u' ∧
      u'.kind = u.kind ∧ u'.job = u.job.tick ∧ exWb'.length = exWb.length ∧
      exWb'.countP Option.isSome = exWb.countP Option.isSome + if (u.job 0).isSome then 1 else 0 := by
  rw [h.job_zero] at hroom ⊢
  obtain ⟨exWb', hdeliver, hlength, hcount⟩ := deliver_ok (now + 1) hroom
  obtain ⟨u', hdispatch, hjob, hregs, hdispatched, hkind, hocc, hissued, hresults⟩ := h.dispatch rfl
  have hstages : (List.range (depth - 1)).foldlM (fun regs stage => moveWarp regs stage (stage + 1))
      (u.delivered (now + 1)).pipelineReg = .ok (u.shifted (now + 1)).pipelineReg := by
    have h₀ : (u.delivered (now + 1)).pipelineReg 0 = none := by simp [delivered]
    have hempty : ∀ r, depth ≤ r → (u.delivered (now + 1)).pipelineReg r = none := by
      intro r hr
      refine (update_of_ne (by omega) _ _).trans (h.regs_depth r hr)
    exact shiftStages h₀ hempty hpos
  refine ⟨exWb', { u' with occupied := u'.occupied >>> 1 }, ?_, ?_, hkind, hjob, hlength, hcount⟩
  · rw [PipelinedUnit.cycle, hdeliver, ok_bind]
    dsimp only
    rw [hstages, ok_bind]
    show ((u.shifted (now + 1)).dispatch depth >>= fun _ => _) = _
    rw [hdispatch]
    rfl
  · refine ⟨hregs, hdispatched, ?_, ?_⟩
    · intro r hr
      have hr : (u'.job r).isSome = true := hr
      rw [hjob] at hr
      rw [hocc, getLsbD_shift]
      exact h.occupied (r + 1) hr
    · have hkept := h.kept.tick
      rw [h.job_zero] at hkept
      have hjob' : PipelinedUnit.job { u' with occupied := u'.occupied >>> 1 } = u.job.tick := hjob
      rw [hjob']
      dsimp only
      rw [hissued, hresults]
      exact hkept

/-- **An issue** to a unit that has no instruction for the time it takes. -/
theorem Inv.issue (h : Inv depth now u) {cfg : Config} {k : Fu} (hfits : w.Fits cfg k)
    (hdepth : cfg.depth k = depth) (hidle : u.dispatchReg = none)
    (hbit : u.occupied.getLsbD w.latency = false) :
    ∃ u', u.issue now w = .ok u' ∧ Inv depth now u' ∧ u'.kind = u.kind ∧
      u.job w.latency = none ∧ u'.job = u.job.enter w.latency w := by
  have hfree : u.job w.latency = none := by
    by_contra hsome
    rw [h.occupied _ (Option.isSome_iff_ne_none.mpr hsome)] at hbit
    cases hbit
  have hle := hfits.interval_le
  have hplace : w.latency - w.initiationInterval + w.initiationInterval = w.latency := by omega
  have hd : Dispatched depth u.pipelineReg w w.initiationInterval := by
    refine ⟨hfits.interval_pos, le_rfl, hle, hdepth ▸ hfits.latency_le, ?_⟩
    rw [hplace, ← job_of_idle hidle, hfree]
  have hjob : PipelinedUnit.job { u with
      dispatchReg := some (w, w.initiationInterval)
      occupied := set u.occupied w.latency
      issued := u.issued ++ [(now, w)] } = u.job.enter w.latency w := by
    refine (job_of_dispatch (u := { u with
      dispatchReg := some (w, w.initiationInterval)
      occupied := set u.occupied w.latency
      issued := u.issued ++ [(now, w)] }) rfl hd).trans ?_
    rw [hplace, job_of_idle hidle]
    rfl
  refine ⟨{ u with
    dispatchReg := some (w, w.initiationInterval)
    occupied := set u.occupied w.latency
    issued := u.issued ++ [(now, w)] }, ?_, ?_, rfl, hfree, hjob⟩
  · rw [PipelinedUnit.issue, assert_pos hidle, ok_bind, assert_pos hfits.latency_lt]
    rfl
  · refine ⟨h.regs_depth, ?_, ?_, ?_⟩
    · intro w' cycles heq
      cases heq
      exact hd
    · intro r hr
      rw [hjob] at hr
      rw [getLsbD_set _ hfits.latency_lt]
      by_cases hr' : r = w.latency
      · simp [hr']
      · rw [Calendar.enter, update_of_ne hr'] at hr
        simp [h.occupied r hr]
    · rw [hjob]
      exact h.kept.enter hfree

end PipelinedUnit

/-! ## Result buses -/

/-- The number of reservations on the result buses for a time. -/
def reserved (resultBus : List Bits) (r : Nat) : Nat := resultBus.countP fun bus => bus.getLsbD r

theorem reserved_shift (resultBus : List Bits) (r : Nat) :
    reserved (resultBus.map fun bus : Bits => bus >>> 1) r = reserved resultBus (r + 1) := by
  unfold reserved
  rw [List.countP_map]
  apply List.countP_congr
  intro bus _
  simp only [Function.comp_apply, getLsbD_shift]

theorem reserved_le_length (resultBus : List Bits) (r : Nat) : reserved resultBus r ≤ resultBus.length :=
  List.countP_le_length

theorem reserved_set {resultBus : List Bits} {b latency : Nat} (hlt : latency < maxAluLatency)
    (hb : resultBus.findIdx? (fun bus => !bus.getLsbD latency) = some b) (r : Nat) :
    reserved (resultBus.modify b fun bus => set bus latency) r =
      reserved resultBus r + if r = latency then 1 else 0 := by
  obtain ⟨hlen, hfree, -⟩ := List.findIdx?_eq_some_iff_getElem.mp hb
  have hget : resultBus[b]? = some resultBus[b] := List.getElem?_eq_getElem hlen
  have hmodify : (resultBus.modify b fun bus => set bus latency) =
      resultBus.set b (set resultBus[b] latency) := by
    rw [List.modify_eq_set_getElem?, hget]
    rfl
  have hcount := (Replaced.set hget (set resultBus[b] latency)).countP fun bus => bus.getLsbD r
  rw [getLsbD_set _ hlt] at hcount
  unfold reserved
  rw [hmodify]
  by_cases hr : r = latency
  · subst hr
    have hfalse : resultBus[b].getLsbD r = false := by simpa using hfree
    simpa [hfalse] using hcount
  · simpa [hr] using hcount

/-! ## A round of `execute` -/

/-- Is the unit to deliver an instruction after `r` more cycles? -/
def PipelinedUnit.busy (u : PipelinedUnit) (r : Nat) : Bool := (u.job r).isSome

/-- The register sets `OC_EX` hold instructions that their units are made for. -/
def PortsFit (cfg : Config) (issuePort : Fu → RegisterSet WarpInst) : Prop :=
  ∀ k w, some w ∈ issuePort k → w.Fits cfg k

variable {cfg : Config} {s s' : Shared} {u u' : PipelinedUnit}

theorem PortsFit.clear (h : PortsFit cfg s.issuePort) (k : Fu) (i : Nat) :
    PortsFit cfg (update s.issuePort k ((s.issuePort k).clear i)) := by
  intro k' w hw
  by_cases hk : k' = k
  · subst hk
    rw [update_self] at hw
    rcases List.mem_or_eq_of_mem_set hw with hw | hw
    · exact h k' w hw
    · cases hw
  · rw [update_of_ne hk] at hw
    exact h k' w hw

/-- What a unit does to the reservations: it may take places that it also reserves. -/
structure Rounded (cfg : Config) (now : Nat) (before : Nat → Bool) (s : Shared) (u' : PipelinedUnit)
    (s' : Shared) : Prop where
  inv : u'.Inv (cfg.depth u'.kind) now
  places : ∀ r, (u'.busy r).toNat + reserved s.resultBus r = (before r).toNat + reserved s'.resultBus r
  now_eq : s'.now = s.now
  buses_eq : s'.resultBus.length = s.resultBus.length
  ports : PortsFit cfg s'.issuePort

theorem canIssue_ok {w : WarpInst} (hlt : w.latency < maxAluLatency) : ∃ can, u.canIssue w = .ok can ∧
    (can = true → u.dispatchReg = none ∧ u.occupied.getLsbD w.latency = false) := by
  unfold PipelinedUnit.canIssue
  split
  · rename_i h
    rw [Bool.and_eq_true, Option.isNone_iff_eq_none] at h
    refine ⟨!u.occupied.getLsbD w.latency, ?_, fun hcan => ⟨h.2, by simpa using hcan⟩⟩
    rw [test, assert_pos hlt]
    rfl
  · exact ⟨false, rfl, fun h => by cases h⟩

/-- **Issue** reserves the place that the instruction takes. -/
theorem issueUnit_ok (hu : u.Inv (cfg.depth u.kind) s.now) (hports : PortsFit cfg s.issuePort) :
    ∃ u' s', issueUnit s u = .ok (u', s') ∧ Rounded cfg s.now u.busy s u' s' ∧ s'.exWb = s.exWb ∧
      u'.kind = u.kind := by
  have hsame : Rounded cfg s.now u.busy s u s := ⟨hu, fun _ => rfl, rfl, rfl, hports⟩
  unfold issueUnit
  cases hready : (s.issuePort u.kind).getReady WarpInst.uid with
  | none => exact ⟨u, s, rfl, hsame, rfl, rfl⟩
  | some p =>
    obtain ⟨i, w⟩ := p
    have hfits : w.Fits cfg u.kind :=
      hports u.kind w (List.mem_of_getElem? (RegisterSet.getReady_some hready))
    obtain ⟨can, hcan, hfree⟩ := canIssue_ok (u := u) hfits.latency_lt
    dsimp only
    rw [hcan, ok_bind]
    cases can with
    | false => exact ⟨u, s, rfl, hsame, rfl, rfl⟩
    | true =>
      obtain ⟨hidle, hbit⟩ := hfree rfl
      rw [if_pos rfl, testResBus, assert_pos hfits.latency_lt, ok_bind, ok_bind]
      cases hbus : s.resultBus.findIdx? fun bus => !bus.getLsbD w.latency with
      | none => exact ⟨u, s, rfl, hsame, rfl, rfl⟩
      | some b =>
        obtain ⟨u', hissue, hinv, hkind, hnone, hjob⟩ := hu.issue hfits rfl hidle hbit
        dsimp only
        rw [assert_pos hfits.latency_lt, ok_bind, hissue, ok_bind]
        refine ⟨u', _, rfl, ⟨hkind ▸ hinv, ?_, rfl, List.length_modify .., hports.clear u.kind i⟩, rfl, hkind⟩
        intro r
        dsimp only
        rw [reserved_set hfits.latency_lt hbus, PipelinedUnit.busy, PipelinedUnit.busy, hjob]
        by_cases hr : r = w.latency
        · subst hr
          rw [hnone, Calendar.enter, update_self]
          simp
          omega
        · rw [Calendar.enter, update_of_ne hr, if_neg hr]
          rfl

/-- **A round of the loop.** -/
theorem executeUnit_ok {now : Nat} (hu : u.Inv (cfg.depth u.kind) now) (hnow : s.now = now + 1)
    (hports : PortsFit cfg s.issuePort) (hroom : u.busy 0 = true → s.exWb.hasFree = true) :
    ∃ u' s', executeUnit cfg s u = .ok (u', s') ∧ Rounded cfg (now + 1) (fun r => u.busy (r + 1)) s u' s' ∧
      s'.exWb.length = s.exWb.length ∧
      s'.exWb.countP Option.isSome = s.exWb.countP Option.isSome + (u.busy 0).toNat := by
  obtain ⟨exWb', u₁, hcycle, hinv, hkind, hjob, hlength, hcount⟩ := hu.cycle (cfg.depth_pos u.kind) hroom
  rw [← hnow] at hcycle
  rw [← hkind, ← hnow] at hinv
  obtain ⟨u', s', hissue, hround, hexWb, -⟩ :=
    issueUnit_ok (s := { s with exWb := exWb' }) hinv hports
  refine ⟨u', s', ?_, ?_, ?_, ?_⟩
  · rw [executeUnit, hcycle, ok_bind]
    exact hissue
  · have hbusy : u₁.busy = fun r => u.busy (r + 1) := by
      funext r
      rw [PipelinedUnit.busy, hjob]
      rfl
    rw [← hnow, ← hbusy]
    exact ⟨hround.inv, hround.places, hround.now_eq, hround.buses_eq, hround.ports⟩
  · rw [hexWb]
    exact hlength
  · rw [hexWb]
    refine hcount.trans ?_
    unfold PipelinedUnit.busy
    cases (u.job 0).isSome <;> rfl

/-! ## `execute` -/

/-- What the loop over the units keeps, with `taken r` places taken by the units that have had their
round. -/
theorem executeUnits_ok {now : Nat} (us : List PipelinedUnit) (taken : Nat → Nat) (s : Shared)
    (hus : ∀ u ∈ us, u.Inv (cfg.depth u.kind) now) (hnow : s.now = now + 1)
    (hports : PortsFit cfg s.issuePort)
    (hplaces : ∀ r, taken r + us.countP (fun u => u.busy (r + 1)) ≤ reserved s.resultBus r)
    (hroom : s.exWb.countP Option.isSome + us.countP (fun u => u.busy 0) ≤ s.exWb.length) :
    ∃ us' s', executeUnits cfg us s = .ok (us', s') ∧
      (∀ u ∈ us', u.Inv (cfg.depth u.kind) (now + 1)) ∧ s'.now = now + 1 ∧ PortsFit cfg s'.issuePort ∧
      (∀ r, taken r + us'.countP (fun u => u.busy r) ≤ reserved s'.resultBus r) ∧
      s'.resultBus.length = s.resultBus.length ∧ s'.exWb.length = s.exWb.length := by
  induction us generalizing taken s with
  | nil => exact ⟨[], s, rfl, by simp, hnow, hports, hplaces, rfl, rfl⟩
  | cons u us ih =>
    rw [List.countP_cons] at hroom
    have hfree : u.busy 0 = true → s.exWb.hasFree = true := by
      intro hbusy
      by_contra hfull
      -- a full `EX_WB` would have no room for this instruction
      have hall : s.exWb.countP Option.isSome = s.exWb.length := by
        rw [List.countP_eq_length]
        intro r hr
        cases r with
        | some w => rfl
        | none => exact absurd (RegisterSet.hasFree_iff.mpr hr) hfull
      rw [hbusy, hall, if_pos rfl] at hroom
      omega
    obtain ⟨u', s₁, hround, hrounded, hlength, hcount⟩ :=
      executeUnit_ok (hus u List.mem_cons_self) hnow hports hfree
    have hplaces' : ∀ r, taken r + (u'.busy r).toNat + us.countP (fun u => u.busy (r + 1)) ≤
        reserved s₁.resultBus r := by
      intro r
      have hold := hplaces r
      have hplace := hrounded.places r
      rw [List.countP_cons] at hold
      cases hb : u.busy (r + 1) <;> simp [hb] at hold hplace <;> omega
    have hroom' : s₁.exWb.countP Option.isSome + us.countP (fun u => u.busy 0) ≤ s₁.exWb.length := by
      rw [hcount, hlength]
      cases hb : u.busy 0 <;> simp [hb] at hroom ⊢ <;> omega
    obtain ⟨us', s', hrest, hinv, hnow', hports', hplaces'', hbuses, hexWb⟩ :=
      ih (fun r => taken r + (u'.busy r).toNat) s₁ (fun v hv => hus v (List.mem_cons_of_mem _ hv))
        (hrounded.now_eq.trans hnow) hrounded.ports hplaces' hroom'
    refine ⟨u' :: us', s', ?_, ?_, hnow', hports', ?_, hbuses.trans hrounded.buses_eq,
      hexWb.trans hlength⟩
    · rw [executeUnits, hround, ok_bind, hrest, ok_bind]
    · intro v hv
      rcases List.mem_cons.mp hv with rfl | hv
      · exact hrounded.inv
      · exact hinv v hv
    · intro r
      have hplace := hplaces'' r
      rw [List.countP_cons]
      cases hb : u'.busy r <;> simp [hb] at hplace ⊢ <;> omega

/-- The invariant of the core at the end of a cycle. -/
structure Core.Inv (cfg : Config) (c : Core) : Prop where
  units : ∀ u ∈ c.units, u.Inv (cfg.depth u.kind) c.shared.now
  /-- for every time there are as many reservations as instructions -/
  places : ∀ r, c.units.countP (fun u => u.busy r) ≤ reserved c.shared.resultBus r
  ports : PortsFit cfg c.shared.issuePort
  buses : c.shared.resultBus.length = c.shared.exWb.length

/-- **`writeback` empties `EX_WB`.** -/
theorem drain_ready (n : Nat) (regs : RegisterSet WarpInst) (h : regs.countP Option.isSome ≤ n) :
    (drain n regs).countP Option.isSome = 0 ∧ (drain n regs).length = regs.length := by
  induction n generalizing regs with
  | zero => exact ⟨Nat.le_zero.mp h, rfl⟩
  | succ n ih =>
    unfold drain
    cases hready : regs.getReady WarpInst.uid with
    | none =>
      refine ⟨?_, rfl⟩
      rw [List.countP_eq_zero]
      intro r hr hsome
      have hno := RegisterSet.getReady_none hready
      unfold RegisterSet.hasReady at hno
      rw [List.any_eq_false] at hno
      exact hno r hr hsome
    | some p =>
      have hclear := RegisterSet.clear_replaced hready
      have hcount := hclear.countP Option.isSome
      simp only [Option.isSome_some, Option.isSome_none, if_true, Bool.false_eq_true, if_false] at hcount
      obtain ⟨hempty, hlength⟩ := ih (regs.clear p.1) (by omega)
      exact ⟨hempty, hlength.trans hclear.length_eq⟩

/-- **One cycle.** -/
theorem Core.Inv.cycle {c : Core} (h : c.Inv cfg) :
    ∃ c', Execute.cycle cfg c = .ok c' ∧ c'.Inv cfg ∧ c'.shared.now = c.shared.now + 1 := by
  obtain ⟨hempty, hlength⟩ := drain_ready c.shared.exWb.length c.shared.exWb List.countP_le_length
  obtain ⟨us', s', hok, hinv, hnow, hports, hplaces, hbuses, hexWb⟩ :=
    executeUnits_ok c.units (fun _ => 0)
      { c.shared with
        now := c.shared.now + 1
        exWb := drain c.shared.exWb.length c.shared.exWb
        resultBus := c.shared.resultBus.map fun bus : Bits => bus >>> 1 }
      h.units rfl h.ports
      (by
        intro r
        rw [Nat.zero_add, reserved_shift]
        exact h.places (r + 1))
      (by
        dsimp only
        rw [hempty, Nat.zero_add, hlength, ← h.buses]
        exact (h.places 0).trans (reserved_le_length _ 0))
  refine ⟨{ units := us', shared := s' }, ?_, ?_, hnow⟩
  · rw [Execute.cycle, execute]
    dsimp only
    rw [hok]
    rfl
  · refine ⟨by rw [hnow]; exact hinv, ?_, hports, ?_⟩
    · intro r
      have := hplaces r
      rwa [Nat.zero_add] at this
    · rw [hbuses, hexWb, List.length_map, hlength]
      exact h.buses

theorem Core.Inv.call {c : Core} (h : c.Inv cfg) (e : Call cfg) :
    ∃ c', Execute.call cfg c e = .ok c' ∧ c'.Inv cfg := by
  cases e with
  | cycle =>
    obtain ⟨c', hok, hinv, -⟩ := h.cycle
    exact ⟨c', hok, hinv⟩
  | arrive k w fits =>
    cases hfree : (c.shared.issuePort k).hasFree with
    | false => exact ⟨c, if_neg (by simp [hfree]), h⟩
    | true =>
      obtain ⟨regs, hregs⟩ := RegisterSet.moveIn_ok Fault.noFreeRegister hfree w
      refine ⟨{ c with shared := { c.shared with
        issuePort := update c.shared.issuePort k regs } },
        (if_pos hfree).trans (by rw [hregs, ok_bind]), h.units, h.places, ?_, h.buses⟩
      intro k' w' hw
      dsimp only at hw
      by_cases hk : k' = k
      · subst hk
        rw [update_self] at hw
        obtain ⟨rest, hold, hnew⟩ := RegisterSet.moveIn_eq_ok hregs
        rcases List.mem_cons.mp (hnew.mem_iff.mp hw) with heq | hw
        · rw [Option.some.inj heq]
          exact fits
        · exact h.ports k' w' (hold.mem_iff.mpr (List.mem_cons_of_mem _ hw))
      · rw [update_of_ne hk] at hw
        exact h.ports k' w' hw

theorem Core.Inv.init (cfg : Config) (width : Fu → Nat) : (Execute.init cfg width).Inv cfg where
  units u hu := by
    obtain ⟨k, -, rfl⟩ := List.mem_map.mp hu
    refine ⟨fun _ _ => rfl, ?_, ?_, Calendar.Kept.empty _ _⟩
    · intro w cycles h
      cases h
    · intro r h
      cases h
  places r := by
    have hidle : (Execute.init cfg width).units.countP (fun u => u.busy r) = 0 := by
      rw [List.countP_eq_zero]
      intro u hu hbusy
      obtain ⟨k, -, rfl⟩ := List.mem_map.mp hu
      cases hbusy
    rw [hidle]
    exact Nat.zero_le _
  ports k w hw := by
    cases (List.mem_replicate.mp hw).2
  buses := by simp [Execute.init]

/-! ## Runs -/

/-- Every instruction that a unit has issued reaches `EX_WB` once, its latency and one cycle later,
and nothing else does. -/
def PipelinedUnit.DeliversInTime (now : Nat) (u : PipelinedUnit) : Prop :=
  (∀ t w, u.results.count (t + w.latency + 1, w) =
    if t + w.latency + 1 ≤ now then u.issued.count (t, w) else 0) ∧
  ∀ t w, (t, w) ∈ u.results → w.latency + 1 ≤ t

theorem PipelinedUnit.Inv.deliversInTime {depth now : Nat} (h : u.Inv depth now) : u.DeliversInTime now :=
  ⟨h.kept.delivered_count, fun t w hmem => (h.kept.past t w hmem).2⟩

/-- **No structural hazard.** No assertion fails in any run: no stage that an instruction moves to
is occupied, and `EX_WB` has a free register for what arrives. Every unit delivers in time. -/
theorem run_deliversInTime (cfg : Config) (width : Fu → Nat) (calls : List (Call cfg)) :
    ∃ c, exec (.ok (init cfg width)) (call cfg) calls = .ok c ∧
      ∀ u ∈ c.units, u.DeliversInTime c.shared.now := by
  have hrun : ∃ c, exec (.ok (init cfg width)) (call cfg) calls = .ok c ∧ c.Inv cfg := by
    induction calls using List.reverseRecOn with
    | nil => exact ⟨_, rfl, .init cfg width⟩
    | append_singleton calls e ih =>
      obtain ⟨c, hok, hc⟩ := ih
      rw [exec_concat hok]
      exact hc.call e
  obtain ⟨c, hok, hc⟩ := hrun
  exact ⟨c, hok, fun u hu => (hc.units u hu).deliversInTime⟩

end GpgpuSimRuby.Shader.Execute
