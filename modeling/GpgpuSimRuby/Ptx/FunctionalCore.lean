import Mathlib

/-!
# The functional simulation of a CTA

`functionalCoreSim::execute`: the warps take turns, and a warp that executes a barrier stops until
every live warp has stopped. A `membar` stops a warp in the same way, so a warp is let past a
`bar.sync` by warps that have only reached a `membar`.
-/

open Function (update update_self update_of_ne)

namespace GpgpuSimRuby.Ptx.FunctionalCore

/-- The kinds of `op_type` that the loop tells apart. -/
inductive Op where
  | barrier | memoryBarrier | other
  deriving DecidableEq, Repr

/-- A warp instruction that was executed: its kind and how many of its threads are done after it. -/
structure WarpInst where
  op : Op
  done : Nat
  deriving DecidableEq, Repr

variable {σ : Type} {nWarps : Nat}

/-- What executes an instruction of a warp: `getExecuteWarp`, `execute_warp_inst_t` and
`updateSIMTStack`, on threads, stacks and memories of any kind. -/
abbrev Machine (σ : Type) (nWarps : Nat) := σ → Fin nWarps → WarpInst × σ

/-- An instruction with its warp. -/
structure Executed (nWarps : Nat) where
  warp : Fin nWarps
  inst : WarpInst
  deriving DecidableEq, Repr

/-- `executed` is everything that was executed, newest first. -/
structure State (σ : Type) (nWarps : Nat) where
  machine : σ
  warpAtBarrier : Fin nWarps → Bool
  liveThreadCount : Fin nWarps → BitVec 32
  someOneLive : Bool
  allAtBarrier : Bool
  executed : List (Executed nWarps)

namespace State

variable (exec : Machine σ nWarps) (s : State σ nWarps)

def start (machine : σ) (liveThreadCount : Fin nWarps → BitVec 32) : State σ nWarps :=
  ⟨machine, fun _ => false, liveThreadCount, false, true, []⟩

/-- The instruction of a warp, with the threads that are done counted off. -/
def executeInst (i : Fin nWarps) : State σ nWarps :=
  let (inst, machine) := exec s.machine i
  { s with
    machine
    liveThreadCount :=
      update s.liveThreadCount i (s.liveThreadCount i - BitVec.ofNat 32 inst.done)
    warpAtBarrier :=
      if inst.op = .barrier ∨ inst.op = .memoryBarrier then update s.warpAtBarrier i true
      else s.warpAtBarrier
    executed := ⟨i, inst⟩ :: s.executed }

/-- The two flags that a turn may change. -/
def report (i : Fin nWarps) : State σ nWarps :=
  { s with
    someOneLive := if s.liveThreadCount i > 0 then true else s.someOneLive
    allAtBarrier := if !s.warpAtBarrier i ∧ s.liveThreadCount i > 0 then false else s.allAtBarrier }

def executeWarp (i : Fin nWarps) : State σ nWarps :=
  if !s.warpAtBarrier i ∧ s.liveThreadCount i ≠ 0 then (s.executeInst exec i).report i else s.report i

/-- A turn for each warp. -/
def round : State σ nWarps :=
  (List.finRange nWarps).foldl (executeWarp exec) { s with someOneLive := false, allAtBarrier := true }

def clear : State σ nWarps := { s with warpAtBarrier := fun _ => false }

/-- The loop, for as many rounds as there is fuel. -/
def execute : Nat → State σ nWarps → State σ nWarps
  | 0, s => s
  | fuel + 1, s =>
    let s := s.round exec
    if !s.someOneLive then s
    else execute fuel (if s.allAtBarrier then s.clear else s)

end State

/-! ## The barrier law -/

section Trace

variable (liveThreadCount : Fin nWarps → BitVec 32)

/-- The live threads after everything that was executed. -/
def liveAfter : List (Executed nWarps) → Fin nWarps → BitVec 32
  | [] => liveThreadCount
  | e :: executed =>
    update (liveAfter executed) e.warp (liveAfter executed e.warp - BitVec.ofNat 32 e.inst.done)

/-- How often a warp has executed `bar.sync`. -/
def syncs (executed : List (Executed nWarps)) (i : Fin nWarps) : Nat :=
  executed.countP fun e => e.warp = i ∧ e.inst.op = .barrier

/-- A warp that executes an instruction has executed no more `bar.sync` before it than any live warp. -/
def Law : List (Executed nWarps) → Prop
  | [] => True
  | e :: executed =>
    Law executed ∧ ∀ j, liveAfter liveThreadCount executed j ≠ 0 → syncs executed e.warp ≤ syncs executed j

/-- What a warp has executed last. -/
def lastOp (executed : List (Executed nWarps)) (i : Fin nWarps) : Option Op :=
  (executed.find? fun e => e.warp = i).map fun e => e.inst.op

end Trace

/-- The live warps have all executed `bar.sync` last, or none has. -/
def Aligned (s : State σ nWarps) : Prop :=
  ∀ i j, s.liveThreadCount i ≠ 0 → s.liveThreadCount j ≠ 0 →
    (lastOp s.executed i = some .barrier ↔ lastOp s.executed j = some .barrier)

instance (s : State σ nWarps) : Decidable (Aligned s) := inferInstanceAs (Decidable (∀ _ _, _))

/-- The warps are aligned whenever the flags are cleared. -/
def AlignedClears (exec : Machine σ nWarps) : Nat → State σ nWarps → Prop
  | 0, _ => True
  | fuel + 1, s =>
    let s := s.round exec
    s.someOneLive = true →
      (s.allAtBarrier = true → Aligned s) ∧ AlignedClears exec fuel (if s.allAtBarrier then s.clear else s)

section Counting

variable {executed : List (Executed nWarps)} {e : Executed nWarps} {i : Fin nWarps}

theorem syncs_cons_of_ne (h : e.warp ≠ i) : syncs (e :: executed) i = syncs executed i := by
  unfold syncs
  rw [List.countP_cons_of_neg]
  simp [h]

theorem syncs_cons_self : syncs (e :: executed) e.warp =
    syncs executed e.warp + if e.inst.op = .barrier then 1 else 0 := by
  unfold syncs
  rw [List.countP_cons]
  simp

theorem lastOp_cons_of_ne (h : e.warp ≠ i) : lastOp (e :: executed) i = lastOp executed i := by
  unfold lastOp
  rw [List.find?_cons_of_neg]
  simp [h]

theorem lastOp_cons_self : lastOp (e :: executed) e.warp = some e.inst.op := by
  unfold lastOp
  rw [List.find?_cons_of_pos]
  · rfl
  · exact decide_eq_true rfl

end Counting

/-! ## Turns -/

/-- Between two clears every live warp that goes on has executed `k` times `bar.sync`, and one that
has stopped once more if this is where it stopped. -/
structure Phase (liveThreadCount : Fin nWarps → BitVec 32) (k : Nat) (s : State σ nWarps) : Prop where
  live : s.liveThreadCount = liveAfter liveThreadCount s.executed
  law : Law liveThreadCount s.executed
  syncs : ∀ i, s.liveThreadCount i ≠ 0 → syncs s.executed i =
    k + if s.warpAtBarrier i = true ∧ lastOp s.executed i = some .barrier then 1 else 0

section Turns

variable {exec : Machine σ nWarps} {s : State σ nWarps} {i j : Fin nWarps} {k fuel : Nat} {machine : σ}
  {liveThreadCount : Fin nWarps → BitVec 32} {l : List (Fin nWarps)}

theorem Phase.start : Phase liveThreadCount 0 (State.start machine liveThreadCount) where
  live := rfl
  law := trivial
  syncs _ _ := rfl

theorem Phase.report (h : Phase liveThreadCount k s) : Phase liveThreadCount k (s.report i) :=
  ⟨h.live, h.law, h.syncs⟩

theorem executeInst_executed :
    (s.executeInst exec i).executed = ⟨i, (exec s.machine i).1⟩ :: s.executed := rfl

theorem executeInst_live_of_ne (h : i ≠ j) :
    (s.executeInst exec i).liveThreadCount j = s.liveThreadCount j := update_of_ne (Ne.symm h) _ _

theorem executeInst_atBarrier_of_ne (h : i ≠ j) :
    (s.executeInst exec i).warpAtBarrier j = s.warpAtBarrier j := by
  show (if _ then update s.warpAtBarrier i true else s.warpAtBarrier) j = _
  split
  · exact update_of_ne (Ne.symm h) _ _
  · rfl

theorem executeInst_atBarrier_self (h : s.warpAtBarrier i = false) :
    (s.executeInst exec i).warpAtBarrier i = decide ((exec s.machine i).1.op ≠ .other) := by
  show (if _ then update s.warpAtBarrier i true else s.warpAtBarrier) i = _
  cases (exec s.machine i).1.op with
  | barrier => exact update_self _ _ _
  | memoryBarrier => exact update_self _ _ _
  | other => exact h

theorem Phase.executeInst (h : Phase liveThreadCount k s) (hi : s.warpAtBarrier i = false)
    (hlive : s.liveThreadCount i ≠ 0) : Phase liveThreadCount k (s.executeInst exec i) := by
  have hsyncs : FunctionalCore.syncs s.executed i = k := by
    rw [h.syncs i hlive, hi, if_neg fun hat => Bool.false_ne_true hat.1]
    rfl
  constructor
  · show update s.liveThreadCount i _ = update _ i _
    rw [h.live]
  · refine ⟨h.law, fun j hj => ?_⟩
    rw [← h.live] at hj
    rw [h.syncs j hj]
    exact hsyncs.trans_le (Nat.le_add_right k _)
  · intro j hj
    rw [executeInst_executed]
    by_cases hij : i = j
    · subst hij
      rw [executeInst_atBarrier_self hi, syncs_cons_self (e := ⟨i, _⟩),
        lastOp_cons_self (e := ⟨i, _⟩), hsyncs]
      cases (exec s.machine i).1.op <;> rfl
    · rw [executeInst_live_of_ne hij] at hj
      rw [executeInst_atBarrier_of_ne hij, syncs_cons_of_ne hij, lastOp_cons_of_ne hij]
      exact h.syncs j hj

theorem Phase.executeWarp (h : Phase liveThreadCount k s) :
    Phase liveThreadCount k (s.executeWarp exec i) := by
  unfold State.executeWarp
  split
  · next hgo => exact (h.executeInst ((Bool.not_eq_true' _).mp hgo.1) hgo.2).report
  · exact h.report

theorem executeWarp_of_ne (h : i ≠ j) : (s.executeWarp exec i).liveThreadCount j = s.liveThreadCount j ∧
    (s.executeWarp exec i).warpAtBarrier j = s.warpAtBarrier j := by
  unfold State.executeWarp
  split
  · exact ⟨executeInst_live_of_ne h, executeInst_atBarrier_of_ne h⟩
  · exact ⟨rfl, rfl⟩

theorem report_allAtBarrier (h : (s.report i).allAtBarrier = true) :
    s.allAtBarrier = true ∧ (s.liveThreadCount i ≠ 0 → s.warpAtBarrier i = true) := by
  unfold State.report at h
  dsimp only at h
  split at h
  · cases h
  · next hnot =>
    refine ⟨h, fun hlive => ?_⟩
    by_contra hflag
    exact hnot ⟨by simp [hflag], (BitVec.pos_iff_ne_zero _).mpr hlive⟩

theorem executeWarp_allAtBarrier (h : (s.executeWarp exec i).allAtBarrier = true) : s.allAtBarrier = true ∧
    ((s.executeWarp exec i).liveThreadCount i ≠ 0 → (s.executeWarp exec i).warpAtBarrier i = true) := by
  unfold State.executeWarp at h ⊢
  split
  · next hgo =>
    rw [if_pos hgo] at h
    exact report_allAtBarrier h
  · next hgo =>
    rw [if_neg hgo] at h
    exact report_allAtBarrier h

/-! ## Rounds -/

theorem Phase.turns (h : Phase liveThreadCount k s) :
    Phase liveThreadCount k (l.foldl (State.executeWarp exec) s) := by
  induction l generalizing s with
  | nil => exact h
  | cons i l ih => exact ih h.executeWarp

theorem turns_allAtBarrier (h : (l.foldl (State.executeWarp exec) s).allAtBarrier = true) (hj : j ∈ l)
    (hlive : (l.foldl (State.executeWarp exec) s).liveThreadCount j ≠ 0) :
    (l.foldl (State.executeWarp exec) s).warpAtBarrier j = true := by
  induction l using List.reverseRecOn with
  | nil => cases hj
  | append_singleton l i ih =>
    rw [List.foldl_append, List.foldl_cons, List.foldl_nil] at h hlive ⊢
    obtain ⟨hbefore, hi⟩ := executeWarp_allAtBarrier h
    by_cases hij : i = j
    · exact hij ▸ hi (hij ▸ hlive)
    · have hmem : j ∈ l := by
        rcases List.mem_append.mp hj with hj | hj
        · exact hj
        · exact absurd (List.mem_singleton.mp hj).symm hij
      have hkeep :
          (State.executeWarp exec (l.foldl (State.executeWarp exec) s) i).liveThreadCount j = _ ∧ _ = _ :=
        executeWarp_of_ne hij
      obtain ⟨hsame, hflag⟩ := hkeep
      rw [hsame] at hlive
      rw [hflag]
      exact ih hbefore hmem hlive

section

variable (h : Phase liveThreadCount k s)
include h

theorem Phase.round : Phase liveThreadCount k (s.round exec) :=
  Phase.turns ⟨h.live, h.law, h.syncs⟩

theorem Phase.aligned_iff
    (hall : ∀ j, s.liveThreadCount j ≠ 0 → s.warpAtBarrier j = true) : Aligned s ↔
      ∃ k', ∀ j, s.liveThreadCount j ≠ 0 → FunctionalCore.syncs s.executed j = k' := by
  have hsyncs : ∀ j, s.liveThreadCount j ≠ 0 → FunctionalCore.syncs s.executed j =
      k + if lastOp s.executed j = some .barrier then 1 else 0 := by
    intro j hj
    rw [h.syncs j hj]
    simp only [hall j hj, true_and]
  constructor
  · intro haligned
    by_cases hone : ∃ i, s.liveThreadCount i ≠ 0 ∧ lastOp s.executed i = some .barrier
    · obtain ⟨i, hi, hop⟩ := hone
      refine ⟨k + 1, fun j hj => ?_⟩
      rw [hsyncs j hj, if_pos ((haligned i j hi hj).mp hop)]
    · refine ⟨k, fun j hj => ?_⟩
      rw [hsyncs j hj, if_neg fun hop => hone ⟨j, hj, hop⟩]
      rfl
  · rintro ⟨k', hlevel⟩ i j hi hj
    have heq := (hlevel i hi).trans (hlevel j hj).symm
    rw [hsyncs i hi, hsyncs j hj] at heq
    split_ifs at heq with hi' hj' hj'
    · exact iff_of_true hi' hj'
    · omega
    · omega
    · exact iff_of_false hi' hj'

theorem Phase.clear
    (hall : ∀ j, s.liveThreadCount j ≠ 0 → s.warpAtBarrier j = true) (haligned : Aligned s) :
    ∃ k', Phase liveThreadCount k' s.clear := by
  obtain ⟨k', hlevel⟩ := (h.aligned_iff hall).mp haligned
  refine ⟨k', h.live, h.law, fun i hi => ?_⟩
  rw [if_neg fun hat => Bool.false_ne_true hat.1]
  exact hlevel i hi

theorem Phase.execute (haligned : AlignedClears exec fuel s) :
    Law liveThreadCount (s.execute exec fuel).executed := by
  induction fuel generalizing s k with
  | zero => exact h.law
  | succ fuel ih =>
    have hround : Phase liveThreadCount k (s.round exec) := h.round
    unfold State.execute
    dsimp only
    split
    · exact hround.law
    · next hlive =>
      obtain ⟨hclear, hrest⟩ := haligned (by simpa using hlive)
      split at hrest
      · next hall =>
        have hstopped : ∀ j, (s.round exec).liveThreadCount j ≠ 0 → (s.round exec).warpAtBarrier j = true :=
          fun j hj => turns_allAtBarrier hall (List.mem_finRange j) hj
        obtain ⟨k', hk'⟩ := hround.clear hstopped (hclear hall)
        rw [if_pos hall]
        exact ih hk' hrest
      · next hnot =>
        rw [if_neg hnot]
        exact ih hround hrest

end

end Turns

/-- **Barriers of the functional simulation**: whatever the warps execute, if they are aligned
whenever the flags are cleared then no warp executes an instruction before every live warp has
executed `bar.sync` as often. -/
theorem execute_law (exec : Machine σ nWarps) (machine : σ) (liveThreadCount : Fin nWarps → BitVec 32)
    (fuel : Nat) (h : AlignedClears exec fuel (.start machine liveThreadCount)) :
    Law liveThreadCount (State.execute exec fuel (.start machine liveThreadCount)).executed :=
  Phase.start.execute h

/-- Warps that execute the instructions of a list each. -/
def ofPrograms : Machine (Fin 2 → List WarpInst) 2 := fun programs i =>
  match programs i with
  | [] => (⟨.other, 1⟩, programs)
  | inst :: rest => (inst, update programs i rest)

theorem execute_law_sync :
    Law (fun _ => 1) (State.execute ofPrograms 3 (.start ![[⟨.barrier, 0⟩], [⟨.other, 0⟩, ⟨.barrier, 0⟩]]
      fun _ => 1)).executed :=
  execute_law ofPrograms _ (fun _ => 1) 3 fun _ =>
    ⟨by decide, fun _ => ⟨fun _ => by decide, fun _ => ⟨by decide, trivial⟩⟩⟩

/-- The first warp executes `bar.sync` and goes on while the second has only executed `membar`. -/
theorem not_law :
    ∃ (exec : Machine (Fin 2 → List WarpInst) 2) (programs : Fin 2 → List WarpInst) (fuel : Nat),
    ¬ Law (fun _ => 1) (State.execute exec fuel (.start programs fun _ => 1)).executed := by
  refine ⟨ofPrograms, ![[⟨.barrier, 0⟩, ⟨.other, 0⟩], [⟨.memoryBarrier, 0⟩, ⟨.barrier, 0⟩]], 2, fun h => ?_⟩
  have hbefore := h.1.2 1 (by decide)
  exact absurd hbefore (by decide)

end GpgpuSimRuby.Ptx.FunctionalCore
