import GpgpuSimRuby.Shader.Faults
import GpgpuSimRuby.Shader.Membar

/-!
# The law of load completion

`m_pending_writes` has, for each destination register of a load in the `ldst_unit`, the number of its
accesses that are not accounted for. A load with a destination register releases its registers and
completes once, in the step in which its last access is accounted for. One without completes when it
leaves the pipeline registers, whatever becomes of its accesses.
-/

namespace GpgpuSimRuby.Shader

open Library Ptx

namespace Place

variable (p : Place)

/-- Is an access of the instruction still to be made or accounted for? -/
def Outstanding : Prop :=
  0 < p.collector ∨ 0 < p.units ∨ p.dispatch.isSome = true ∨ 0 < p.pipe ∨ 0 < p.fetches ∨ p.nextWb = true

instance : Decidable p.Outstanding := inferInstanceAs (Decidable (_ ∨ _))

theorem underway_iff_outstanding {w : WarpInst} (hout : w.out ≠ []) : p.Underway w ↔ p.Outstanding := by
  simp [Underway, Outstanding, hout]

end Place

namespace Core

variable {cfg : Config} {c c' : Core} {w : WarpInst}

/-- What holds of a load. -/
structure LoadLaw (c : Core) (w : WarpInst) : Prop where
  pending : w.space ≠ .shared → (c.place w).InUnit → ∀ r ∈ w.out,
    c.pendingWrites w.warp r = some (c.place w).accesses
  released : ∀ r ∈ w.out,
    c.released.count (w.uid, r) = if (c.place w).Outstanding then 0 else 1
  completed : c.completed.count w.uid = if (c.place w).Outstanding then 0 else 1

theorem LoadInv.loadLaw (hc : c.LoadInv) (hw : w ∈ c.issued) (hload : w.isLoad = true) (hout : w.out ≠ []) :
    c.LoadLaw w where
  pending hs hin r hr := by
    rw [hc.pending w ⟨hload, hs⟩ (inUnit_underway hr hin) r hr, if_pos hin]
  released r hr := by
    rw [hc.released w hw r hr, if_congr (Place.underway_iff_outstanding _ hout) rfl rfl]
  completed := by
    have hu : ¬ w.Untracked := fun h => hout h.2.2
    rw [hc.completed w hw hu, if_congr (Place.underway_iff_outstanding _ hout) rfl rfl]

/-- **Load completion.** In every reachable state the law holds of the loads with a destination
register, nothing else has pending writes, and the assertions on them and on the access queue hold.
-/
theorem loadCompletion (cfg : Config) {c : Core} (h : (core cfg).Reachable c) :
    (∀ w ∈ c.issued, w.isLoad = true → w.out ≠ [] → c.LoadLaw w) ∧
      (∀ warp r n, c.pendingWrites warp r = some n →
        ∃ w ∈ c.issued, w.isLoad = true ∧ w.space ≠ .shared ∧ (c.place w).InUnit ∧ w.warp = warp ∧
          r ∈ w.out) ∧
      ∀ a e, (core cfg).step c a = some (.error e) → e ≠ .noPendingWrite ∧ e ≠ .emptyAccessq := by
  have hc := loadInv_of_reachableUnder h
  have hok := ok_of_reachableUnder h
  refine ⟨fun w hw hload hout => hc.loadLaw hw hload hout, ?_, ?_⟩
  · intro warp r n hn
    obtain ⟨w, hw, hin, hwarp, hr⟩ := hc.counted warp r n hn
    have hissued : w ∈ c.issued := by
      apply hc.mem_issued
      intro hnowhere
      rw [hnowhere] at hin
      exact absurd hin (by decide)
    exact ⟨w, hissued, hw.1, hw.2, hin, hwarp, hr⟩
  · intro a e he
    cases step_error hok hc he with
    | issue h => rcases h with (rfl | rfl | rfl) | rfl | rfl <;> decide
    | cycle h => rcases h with rfl | rfl <;> decide
    | _ => decide

/-- The law for every load. -/
def LoadLawOfAll : Prop :=
  ∀ (cfg : Config) (c : Core), (core cfg).Reachable c → ∀ w ∈ c.issued, w.isLoad = true → c.LoadLaw w

section Runs

theorem no_cacheOption : (none : Option CacheOperator) ≠ some .undefined :=
  (Option.some_ne_none _).symm

def atomInst (spaceSpec : MemorySpace) (out uses : List Nat) : Inst :=
  ⟨0, .atom, spaceSpec, none, out, uses, by simp, by simp, by simp, no_cacheOption⟩

/-- An atomic whose destination is `_`. -/
def atomNoDst : Inst := atomInst .global [] [1, 2]

/-- The instructions that were issued, and whether each one has completed and has accesses
outstanding. -/
def progress (c : Core) : List (Bool × Bool × List Nat × Nat × Bool) :=
  c.issued.map fun w =>
    (w.isLoad, decide (w.space = .shared), w.out, c.completed.count w.uid, decide ((c.place w).Outstanding))

/-- A load with its access in flight, which has written back in the end. -/
theorem loadCompletion_ldGlobal : ∃ c, (core (uncached .looseRoundRobin)).Reachable c ∧
    ∃ w ∈ c.issued, ¬ (c.place w).Outstanding ∧ c.LoadLaw w := by
  obtain ⟨c, -, hc, hp⟩ := (core (uncached .looseRoundRobin)).exists_reachable_of_run
    (accessOnce ldGlobal ++ [.reply 0, .serviceFetch 0, .writeback]) progress
    (y := [(true, false, [1], 1, false)]) (by rfl)
  obtain ⟨w, hw, hprogress⟩ := List.mem_map.mp (hp ▸ List.mem_cons_self)
  simp only [Prod.mk.injEq, decide_eq_false_iff_not] at hprogress
  obtain ⟨hload, -, hout, -, hdone⟩ := hprogress
  have hne : w.out ≠ [] := by
    rw [hout]
    exact List.cons_ne_nil _ _
  exact ⟨c, hc, w, hw, hdone, (loadCompletion _ hc).1 w hw hload hne⟩

/-- An atomic without destination register completes with its access in flight. -/
theorem not_loadLawOfAll : ¬ LoadLawOfAll := by
  intro hlaw
  obtain ⟨c, -, hc, hp⟩ := (core (uncached .looseRoundRobin)).exists_reachable_of_run
    (accessOnce atomNoDst) progress (y := [(true, false, [], 1, true)]) (by rfl)
  obtain ⟨w, hw, hprogress⟩ := List.mem_map.mp (hp ▸ List.mem_cons_self)
  simp only [Prod.mk.injEq, decide_eq_true_eq] at hprogress
  obtain ⟨hload, -, -, hone, hout⟩ := hprogress
  have := (hlaw _ c hc w hw hload).completed
  rw [hone, if_pos hout] at this
  cases this

end Runs

end Core

end GpgpuSimRuby.Shader
