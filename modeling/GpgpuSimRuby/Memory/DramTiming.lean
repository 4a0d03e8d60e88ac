import GpgpuSimRuby.Library.Countdown
import GpgpuSimRuby.Memory.Dram

/-!
# The timing of DRAM commands

Every constraint between two commands is a counter that the first one loads and the second one waits
for. So one invariant serves all constraints: each counter guards its period.
-/

namespace GpgpuSimRuby.Memory

open Library

/-! ## Counters -/

/-- The counters of the controller that commands wait for. -/
inductive Timer where
  | rrd | ccd | rtw | wtr
  | rcd (bk : Nat) | rcdwr (bk : Nat) | ras (bk : Nat) | rc (bk : Nat) | rp (bk : Nat) | wtp (bk : Nat)
  deriving DecidableEq

namespace Timer

/-- The commands that load a counter. -/
def Loads : Timer → Command → Prop
  | rrd, .act _ _ => True
  | ccd, .rd _ _ | ccd, .wr _ _ => True
  | rtw, .rd _ _ => True
  | wtr, .wr _ _ => True
  | rcd b, .act b' _ | rcdwr b, .act b' _ | ras b, .act b' _ | rc b, .act b' _ => b = b'
  | rp b, .pre b' => b = b'
  | wtp b, .wr b' _ => b = b'
  | _, _ => False

/-- The commands that wait for a counter. -/
def Blocks : Timer → Command → Prop
  | rrd, .act _ _ => True
  | ccd, .rd _ _ | ccd, .wr _ _ => True
  | rtw, .wr _ _ => True
  | wtr, .rd _ _ => True
  | rcd b, .rd b' _ => b = b'
  | rcdwr b, .wr b' _ => b = b'
  | ras b, .pre b' | wtp b, .pre b' => b = b'
  | rc b, .act b' _ | rp b, .act b' _ => b = b'
  | _, _ => False

instance (τ : Timer) (c : Command) : Decidable (τ.Loads c) := by
  unfold Loads
  split <;> infer_instance

end Timer

/-- The period that a counter is loaded with. -/
def MemoryConfig.period (cfg : MemoryConfig) : Timer → Nat
  | .rrd => cfg.tRRD.toNat
  | .ccd => cfg.tCCD.toNat
  | .rtw => cfg.tRTW.toNat
  | .wtr => cfg.tWTR.toNat
  | .rcd _ => cfg.tRCD.toNat
  | .rcdwr _ => cfg.tRCDWR.toNat
  | .ras _ => cfg.tRAS.toNat
  | .rc _ => cfg.tRC.toNat
  | .rp _ => cfg.tRP.toNat
  | .wtp _ => cfg.tWTP.toNat

/-- The row that the commands so far have left open in a bank. -/
def openRow : List (Nat × Command) → Nat → Option Nat
  | [], _ => none
  | (_, .act b row) :: rest, bk => if b = bk then some row else openRow rest bk
  | (_, .pre b) :: rest, bk => if b = bk then none else openRow rest bk
  | (_, .rd _ _) :: rest, bk | (_, .wr _ _) :: rest, bk => openRow rest bk

/-- A column command for a row of a bank. -/
def Command.Column (c : Command) (bk row : Nat) : Prop := c = .rd bk row ∨ c = .wr bk row

namespace Dram

variable {cfg : MemoryConfig} {d d' d₁ : Dram} {y : Dram × Option Command}

attribute [local simp] setBank setBankGroup activate precharge

def counter (d : Dram) : Timer → Nat
  | .rrd => d.RRDc
  | .ccd => d.CCDc
  | .rtw => d.RTWc
  | .wtr => d.WTRc
  | .rcd b => (d.bk b).RCDc
  | .rcdwr b => (d.bk b).RCDWRc
  | .ras b => (d.bk b).RASc
  | .rc b => (d.bk b).RCc
  | .rp b => (d.bk b).RPc
  | .wtp b => (d.bk b).WTPc

/-- The row that is open in a bank. -/
def currRow (d : Dram) (b : Nat) : Option Nat :=
  match (d.bk b).state with
  | .active => some (d.bk b).currRow
  | .idle => none

/-! ## What a cycle does to the counters -/

/-- A part of a cycle that issues no command. -/
structure Quiet (d d' : Dram) : Prop where
  counter : ∀ τ, d'.counter τ = d.counter τ
  currRow : ∀ b, d'.currRow b = d.currRow b
  now : d'.now = d.now
  commands : d'.commands = d.commands

namespace Quiet

theorem rfl' (d : Dram) : Quiet d d := ⟨fun _ => rfl, fun _ => rfl, rfl, rfl⟩

theorem trans (h : Quiet d d₁) (h' : Quiet d₁ d') : Quiet d d' :=
  ⟨fun τ => (h'.counter τ).trans (h.counter τ), fun b => (h'.currRow b).trans (h.currRow b),
    h'.now.trans h.now, h'.commands.trans h.commands⟩

theorem of_eq (h : (d'.bk, d'.RRDc, d'.CCDc, d'.RTWc, d'.WTRc, d'.now, d'.commands) =
    (d.bk, d.RRDc, d.CCDc, d.RTWc, d.WTRc, d.now, d.commands)) : Quiet d d' := by
  simp only [Prod.mk.injEq] at h
  obtain ⟨hbk, hr, hc, hrtw, hwtr, hnow, hcommands⟩ := h
  refine ⟨fun τ => ?_, fun b => ?_, hnow, hcommands⟩
  · cases τ <;> simp only [Dram.counter, hbk, hr, hc, hrtw, hwtr]
  · simp only [Dram.currRow, hbk]

theorem setMrq (d : Dram) (j : Nat) (mrq : Option DramReq) :
    Quiet d (d.setBank j { d.bk j with mrq := mrq }) := by
  have hbank : ∀ b, (d.setBank j { d.bk j with mrq := mrq }).bk b =
      { d.bk b with mrq := if b = j then mrq else (d.bk b).mrq } := by
    intro b
    by_cases hb : b = j
    · subst hb
      simp
    · simp [hb]
  refine ⟨fun τ => ?_, fun b => ?_, rfl, rfl⟩
  · cases τ <;> first | rfl | simp only [Dram.counter, hbank]
  · simp only [Dram.currRow, hbank]

end Quiet

theorem schedulerFifo_quiet : Quiet d d.schedulerFifo := by
  unfold schedulerFifo
  split
  · exact .rfl' d
  · split
    · exact (Quiet.setMrq d _ _).trans (.of_eq rfl)
    · exact .rfl' d

theorem takeReqs_quiet (reqs : List DramReq) : Quiet d (takeReqs cfg reqs d) := by
  induction reqs generalizing d with
  | nil => exact .of_eq rfl
  | cons req rest ih =>
    unfold takeReqs
    split
    · have hadd : Quiet d (d.addReq req) := .of_eq rfl
      exact hadd.trans ih
    · exact .of_eq rfl

theorem schedule_quiet {bank : Nat} {req : DramReq} (h : d.schedule bank = some (req, d')) : Quiet d d' := by
  unfold schedule at h
  split at h
  · cases h
  · obtain ⟨r, -, h⟩ := Option.map_eq_some_iff.mp h
    cases h
    exact .of_eq rfl

theorem scheduler_quiet : Quiet d (d.scheduler cfg) := by
  unfold scheduler
  split
  · exact schedulerFifo_quiet
  · have htake : Quiet d (d.takeReqs cfg d.mrqq) := takeReqs_quiet d.mrqq
    unfold schedulerFrfcfs
    simp only
    split
    case h_1 => exact htake
    case h_2 b req d₂ hfound =>
      obtain ⟨i, -, hi⟩ := List.exists_of_findSome?_eq_some hfound
      split at hi
      case isFalse => cases hi
      case isTrue =>
        obtain ⟨⟨r, d₃⟩, hr, hx⟩ := Option.map_eq_some_iff.mp hi
        cases hx
        have hset := (htake.trans (schedule_quiet hr)).trans
          (.setMrq d₃ ((i + (d.takeReqs cfg d.mrqq).prio) % cfg.nbk) (some r))
        exact hset.trans (.of_eq rfl)

theorem dataOut_quiet (h : d.dataOut cfg = .ok d') : Quiet d d' := by
  unfold dataOut at h
  split at h
  · cases h
    exact .rfl' d
  · obtain ⟨⟨cmd, rwq⟩, -, h⟩ := bind_eq_ok.mp h
    cases cmd with
    | none =>
      cases h
      exact .of_eq rfl
    | some req =>
      simp only at h
      split at h
      · cases h
        exact .of_eq rfl
      · obtain ⟨_, -, h⟩ := bind_eq_ok.mp h
        cases h
        exact .of_eq rfl

/-- The issue of a command: the counters that it waits for are zero, those that it loads get their
period, and it opens or closes the row that it names. -/
structure Issues (cfg : MemoryConfig) (d d' : Dram) (c : Command) : Prop where
  ready : ∀ τ, τ.Blocks c → d.counter τ = 0
  counter : ∀ τ, d'.counter τ = if τ.Loads c then cfg.period τ else d.counter τ
  currRow : ∀ l t b, openRow l b = d.currRow b → openRow ((t, c) :: l) b = d'.currRow b
  column : ∀ b row, c.Column b row → d.currRow b = some row
  now : d'.now = d.now
  commands : d'.commands = d.commands

theorem turn_quiet {isWrite : Bool} (h : d.turn cfg isWrite = .ok d') : Quiet d d' ∧ d'.bk = d.bk := by
  unfold turn at h
  split at h
  · cases h
    exact ⟨.rfl' d, rfl⟩
  · obtain ⟨rwq, -, h⟩ := bind_eq_ok.mp h
    cases h
    exact ⟨.of_eq rfl, rfl⟩

theorem read_ok {j grp : Nat} {mrq : DramReq} (h : d.read cfg j grp mrq = .ok d')
    (hready : d.CCDc = 0 ∧ (d.bk j).RCDc = 0 ∧ d.WTRc = 0) (hrow : d.currRow j = some mrq.row) :
    Issues cfg d d' (.rd j mrq.row) := by
  obtain ⟨d₁, hturn, h⟩ := bind_eq_ok.mp h
  obtain ⟨rwq, -, h⟩ := bind_eq_ok.mp h
  cases h
  obtain ⟨hquiet, hbk⟩ := turn_quiet hturn
  refine ⟨fun τ hτ => ?_, fun τ => ?_, fun l t b hb => ?_, fun b row hc => ?_, hquiet.now, hquiet.commands⟩
  · cases τ <;> simp_all [Timer.Blocks, Dram.counter]
  · have hτ := hquiet.counter τ
    cases τ with
    | rcd b | rcdwr b | ras b | rc b | rp b | wtp b =>
      by_cases hb : b = j
      · subst hb
        simpa [Dram.counter, Timer.Loads] using hτ
      · simpa [Dram.counter, Timer.Loads, hb] using hτ
    | ccd | rtw => simp [Dram.counter, Timer.Loads, MemoryConfig.period]
    | rrd | wtr => simpa [Dram.counter, Timer.Loads] using hτ
  · rw [openRow, hb, ← hquiet.currRow b]
    by_cases hbj : b = j
    · subst hbj
      simp [Dram.currRow]
    · simp [Dram.currRow, hbj]
  · rcases hc with hc | hc <;> cases hc
    exact hrow

theorem write_ok {j grp : Nat} {mrq : DramReq} (h : d.write cfg j grp mrq = .ok d')
    (hready : d.CCDc = 0 ∧ (d.bk j).RCDWRc = 0 ∧ d.RTWc = 0) (hrow : d.currRow j = some mrq.row) :
    Issues cfg d d' (.wr j mrq.row) := by
  obtain ⟨d₁, hturn, h⟩ := bind_eq_ok.mp h
  obtain ⟨rwq, -, h⟩ := bind_eq_ok.mp h
  cases h
  obtain ⟨hquiet, hbk⟩ := turn_quiet hturn
  refine ⟨fun τ hτ => ?_, fun τ => ?_, fun l t b hb => ?_, fun b row hc => ?_, hquiet.now, hquiet.commands⟩
  · cases τ <;> simp_all [Timer.Blocks, Dram.counter]
  · have hτ := hquiet.counter τ
    cases τ with
    | rcd b | rcdwr b | ras b | rc b | rp b =>
      by_cases hb : b = j
      · subst hb
        simpa [Dram.counter, Timer.Loads] using hτ
      · simpa [Dram.counter, Timer.Loads, hb] using hτ
    | wtp b =>
      by_cases hb : b = j
      · subst hb
        simp [Dram.counter, Timer.Loads, MemoryConfig.period]
      · simpa [Dram.counter, Timer.Loads, hb] using hτ
    | ccd | wtr => simp [Dram.counter, Timer.Loads, MemoryConfig.period]
    | rrd | rtw => simpa [Dram.counter, Timer.Loads] using hτ
  · rw [openRow, hb, ← hquiet.currRow b]
    by_cases hbj : b = j
    · subst hbj
      simp [Dram.currRow]
    · simp [Dram.currRow, hbj]
  · rcases hc with hc | hc <;> cases hc
    exact hrow

theorem activate_issues {j : Nat} {mrq : DramReq}
    (hready : d.RRDc = 0 ∧ (d.bk j).RPc = 0 ∧ (d.bk j).RCc = 0) :
    Issues cfg d (d.activate cfg j mrq) (.act j mrq.row) := by
  refine ⟨fun τ hτ => ?_, fun τ => ?_, fun l t b hb => ?_, fun b row hc => ?_, rfl, rfl⟩
  · cases τ <;> simp_all [Timer.Blocks, Dram.counter]
  · cases τ with
    | rcd b | rcdwr b | ras b | rc b | rp b | wtp b =>
      by_cases hb : b = j
      · subst hb
        simp [Dram.counter, Timer.Loads, MemoryConfig.period]
      · simp [Dram.counter, Timer.Loads, hb]
    | _ => simp [Dram.counter, Timer.Loads, MemoryConfig.period]
  · rw [openRow, hb]
    by_cases hbj : b = j
    · subst hbj
      simp [Dram.currRow]
    · simp [Dram.currRow, hbj, Ne.symm hbj]
  · rcases hc with hc | hc <;> cases hc

theorem precharge_issues {j : Nat} (hready : (d.bk j).RASc = 0 ∧ (d.bk j).WTPc = 0) :
    Issues cfg d (d.precharge cfg j) (.pre j) := by
  refine ⟨fun τ hτ => ?_, fun τ => ?_, fun l t b hb => ?_, fun b row hc => ?_, rfl, rfl⟩
  · cases τ <;> simp_all [Timer.Blocks, Dram.counter]
  · cases τ with
    | rcd b | rcdwr b | ras b | rc b | rp b | wtp b =>
      by_cases hb : b = j
      · subst hb
        simp [Dram.counter, Timer.Loads, MemoryConfig.period]
      · simp [Dram.counter, Timer.Loads, hb]
    | _ => simp [Dram.counter, Timer.Loads]
  · rw [openRow, hb]
    by_cases hbj : b = j
    · subst hbj
      simp [Dram.currRow]
    · simp [Dram.currRow, hbj, Ne.symm hbj]
  · rcases hc with hc | hc <;> cases hc

/-! ## The bank loop -/

section Guards

variable (cfg : MemoryConfig) (d : Dram) (j : Nat) (mrq : DramReq)

/-! When the bank `j` is served, by the open row and the counters of the bank and of its group. -/

def CanRead : Prop :=
  d.CCDc = 0 ∧ (d.bk j).RCDc = 0 ∧ (d.bkgrp (j >>> cfg.bkTagLength)).CCDLc = 0 ∧
    (d.bk j).currRow = mrq.row ∧ mrq.isWrite = false ∧ d.WTRc = 0 ∧ (d.bk j).state = .active ∧
    d.rwq.full = false

def CanWrite : Prop :=
  d.CCDc = 0 ∧ (d.bk j).RCDWRc = 0 ∧ (d.bkgrp (j >>> cfg.bkTagLength)).CCDLc = 0 ∧
    (d.bk j).currRow = mrq.row ∧ mrq.isWrite = true ∧ d.RTWc = 0 ∧ (d.bk j).state = .active ∧
    d.rwq.full = false

def CanActivate : Prop :=
  d.RRDc = 0 ∧ (d.bk j).state = .idle ∧ (d.bk j).RPc = 0 ∧ (d.bk j).RCc = 0

def CanPrecharge : Prop :=
  (d.bk j).currRow ≠ mrq.row ∧ (d.bk j).state = .active ∧ (d.bk j).RASc = 0 ∧ (d.bk j).WTPc = 0 ∧
    (d.bk j).RTPc = 0 ∧ (d.bkgrp (j >>> cfg.bkTagLength)).RTPLc = 0

end Guards

/-- What the loop does for the bank `j`, which has the request `mrq`, as long as no command was
issued. -/
inductive Served (cfg : MemoryConfig) (d : Dram) (j : Nat) (mrq : DramReq) : Dram × Option Command → Prop
  | read {d₂} : CanRead cfg d j mrq → d.read cfg j (j >>> cfg.bkTagLength) mrq = .ok d₂ →
      Served cfg d j mrq (d₂, some (.rd j mrq.row))
  | write {d₂} : CanWrite cfg d j mrq → d.write cfg j (j >>> cfg.bkTagLength) mrq = .ok d₂ →
      Served cfg d j mrq (d₂, some (.wr j mrq.row))
  | activate : CanActivate d j → Served cfg d j mrq (d.activate cfg j mrq, some (.act j mrq.row))
  | precharge : CanPrecharge cfg d j mrq → Served cfg d j mrq (d.precharge cfg j, some (.pre j))
  | nothing : ¬ CanRead cfg d j mrq → ¬ CanWrite cfg d j mrq → ¬ CanActivate d j →
      ¬ CanPrecharge cfg d j mrq → Served cfg d j mrq (d, none)

variable {c : Command} {js : List Nat}

theorem issueBank_issued {i : Nat} (h : issueBank cfg (d, some c) i = .ok y) : y = (d, some c) := by
  unfold issueBank at h
  dsimp only at h
  split at h
  · next hnone =>
    cases hnone
  · cases h
    rfl

theorem issueBank_served {i : Nat} (h : issueBank cfg (d, none) i = .ok y) :
    ((d.bk ((i + d.prio) % cfg.nbk)).mrq = none ∧ y = (d, none)) ∨
      ∃ mrq, (d.bk ((i + d.prio) % cfg.nbk)).mrq = some mrq ∧
        Served cfg d ((i + d.prio) % cfg.nbk) mrq y := by
  unfold issueBank at h
  dsimp only at h
  cases hmrq : (d.bk ((i + d.prio) % cfg.nbk)).mrq with
  | none =>
    rw [hmrq] at h
    cases h
    exact .inl ⟨rfl, rfl⟩
  | some mrq =>
    rw [hmrq] at h
    dsimp only at h
    refine .inr ⟨mrq, rfl, ?_⟩
    split at h
    case isTrue hrd =>
      obtain ⟨d₂, hd₂, h⟩ := bind_eq_ok.mp h
      cases h
      exact .read hrd hd₂
    case isFalse hrd =>
    split at h
    case isTrue hwr =>
      obtain ⟨d₂, hd₂, h⟩ := bind_eq_ok.mp h
      cases h
      exact .write hwr hd₂
    case isFalse hwr =>
    split at h
    case isTrue hact =>
      cases h
      exact .activate hact
    case isFalse hact =>
    split at h
    case isTrue hpre =>
      cases h
      exact .precharge hpre
    case isFalse hpre =>
      cases h
      exact .nothing hrd hwr hact hpre

/-- What the bank loop leaves, with the command that it has issued. -/
def Progress (cfg : MemoryConfig) (d : Dram) (x : Dram × Option Command) : Prop :=
  match x.2 with
  | none => x.1 = d
  | some c => Issues cfg d x.1 c

theorem Served.progress {j : Nat} {mrq : DramReq} (h : Served cfg d j mrq y) : Progress cfg d y := by
  cases h with
  | read hrd hd =>
    obtain ⟨hccd, hrcd, -, hrow, -, hwtr, hactive, -⟩ := hrd
    have hopen : d.currRow j = some mrq.row := by
      unfold Dram.currRow
      rw [hactive, hrow]
    exact read_ok hd ⟨hccd, hrcd, hwtr⟩ hopen
  | write hwr hd =>
    obtain ⟨hccd, hrcd, -, hrow, -, hrtw, hactive, -⟩ := hwr
    have hopen : d.currRow j = some mrq.row := by
      unfold Dram.currRow
      rw [hactive, hrow]
    exact write_ok hd ⟨hccd, hrcd, hrtw⟩ hopen
  | activate hact => exact activate_issues ⟨hact.1, hact.2.2.1, hact.2.2.2⟩
  | precharge hpre => exact precharge_issues ⟨hpre.2.2.1, hpre.2.2.2.1⟩
  | nothing => rfl

theorem bankLoop_issued (h : js.foldlM (issueBank cfg) (d, some c) = .ok y) : y = (d, some c) := by
  induction js with
  | nil =>
    cases h
    rfl
  | cons j js ih =>
    rw [List.foldlM_cons] at h
    obtain ⟨z, hz, h⟩ := bind_eq_ok.mp h
    rw [issueBank_issued hz] at h
    exact ih h

/-- The bank loop finds no bank that can be served, or it serves one. -/
inductive Serves (cfg : MemoryConfig) (d : Dram) (js : List Nat) : Dram × Option Command → Prop
  | nothing : (∀ i ∈ js, ∀ mrq, (d.bk ((i + d.prio) % cfg.nbk)).mrq = some mrq →
        Served cfg d ((i + d.prio) % cfg.nbk) mrq (d, none)) →
      Serves cfg d js (d, none)
  | one {i mrq d₂ c} : i ∈ js → (d.bk ((i + d.prio) % cfg.nbk)).mrq = some mrq →
      Served cfg d ((i + d.prio) % cfg.nbk) mrq (d₂, some c) → Serves cfg d js (d₂, some c)

theorem Serves.cons {j : Nat} (h : Serves cfg d js y)
    (hfirst : ∀ mrq, (d.bk ((j + d.prio) % cfg.nbk)).mrq = some mrq →
      Served cfg d ((j + d.prio) % cfg.nbk) mrq (d, none)) : Serves cfg d (j :: js) y := by
  cases h with
  | nothing hrest => exact .nothing (List.forall_mem_cons.mpr ⟨hfirst, hrest⟩)
  | one hi hmrq hserved => exact .one (List.mem_cons_of_mem _ hi) hmrq hserved

theorem bankLoop_serves (h : js.foldlM (issueBank cfg) (d, none) = .ok y) : Serves cfg d js y := by
  induction js with
  | nil =>
    cases h
    exact .nothing fun _ hi => absurd hi List.not_mem_nil
  | cons j js ih =>
    rw [List.foldlM_cons] at h
    obtain ⟨⟨d₁, issued⟩, hz, hjs⟩ := bind_eq_ok.mp h
    rcases issueBank_served hz with ⟨hnone, hd₁⟩ | ⟨mrq, hmrq, hserved⟩
    · cases hd₁
      apply (ih hjs).cons
      intro mrq hmrq
      rw [hnone] at hmrq
      cases hmrq
    · cases issued with
      | some c =>
        rw [bankLoop_issued hjs]
        exact .one List.mem_cons_self hmrq hserved
      | none =>
        obtain rfl : d₁ = d := hserved.progress
        apply (ih hjs).cons
        intro mrq' hmrq'
        obtain rfl := Option.some.inj (hmrq.symm.trans hmrq')
        exact hserved

theorem bankLoop_ok (h : js.foldlM (issueBank cfg) (d, none) = .ok y) : Progress cfg d y := by
  cases bankLoop_serves h with
  | nothing => rfl
  | one _ _ hserved => exact hserved.progress

theorem tick_counter (d : Dram) (τ : Timer) : d.counter τ - 1 ≤ (d.tick cfg).counter τ := by
  cases τ with
  | rcd b | rcdwr b | ras b | rc b | rp b | wtp b =>
    by_cases hb : b < cfg.nbk <;> simp [Dram.counter, tick, Bank.tick, hb]
  | _ => exact Nat.le_refl _

theorem tick_currRow (d : Dram) (b : Nat) : (d.tick cfg).currRow b = d.currRow b := by
  by_cases hb : b < cfg.nbk <;> simp [Dram.currRow, tick, Bank.tick, hb]

/-! ## The invariant -/

/-- The log of the commands is in order and legal, every counter guards its period, and the banks
have the rows open that the log says. -/
structure TimingInv (cfg : MemoryConfig) (d : Dram) : Prop where
  before : ∀ e ∈ d.commands, e.1 < d.now
  sorted : d.commands.Pairwise fun e e' => e'.1 < e.1
  guards : ∀ τ : Timer, Guards τ.Loads (cfg.period τ) d.commands d.now (d.counter τ)
  legal : ∀ τ : Timer, d.commands.Pairwise fun e e' =>
    τ.Loads e'.2 → τ.Blocks e.2 → e'.1 + cfg.period τ ≤ e.1
  currRow : ∀ b, openRow d.commands b = d.currRow b
  columns : ∀ l e rest b row, d.commands = l ++ e :: rest → e.2.Column b row → openRow rest b = some row

theorem TimingInv.init : TimingInv cfg (.init cfg) where
  before _ h := absurd h List.not_mem_nil
  sorted := .nil
  guards _ := .nil
  legal _ := .nil
  currRow _ := rfl
  columns l e rest _ _ h := absurd h.symm (by simp [Dram.init])

theorem TimingInv.quiet (hd : TimingInv cfg d) (h : Quiet d d') : TimingInv cfg d' := by
  obtain ⟨hcounter, hrow, hnow, hcommands⟩ := h
  constructor
  case before =>
    rw [hcommands, hnow]
    exact hd.before
  case sorted =>
    rw [hcommands]
    exact hd.sorted
  case guards =>
    intro τ
    rw [hcommands, hnow, hcounter]
    exact hd.guards τ
  case legal =>
    rw [hcommands]
    exact hd.legal
  case currRow =>
    intro b
    rw [hcommands, hrow]
    exact hd.currRow b
  case columns =>
    rw [hcommands]
    exact hd.columns

theorem TimingInv.nop (hd : TimingInv cfg d) : TimingInv cfg ((d.tick cfg).record none) where
  before e he := Nat.lt_succ_of_lt (hd.before e he)
  sorted := hd.sorted
  guards τ := (hd.guards τ).tick.mono (tick_counter d τ)
  legal := hd.legal
  currRow b := (hd.currRow b).trans (tick_currRow d b).symm
  columns := hd.columns

theorem TimingInv.issue (hd : TimingInv cfg d) (h : Issues cfg d d' c) :
    TimingInv cfg ((d'.tick cfg).record (some c)) := by
  have hlog : ((d'.tick cfg).record (some c)).commands = (d.now, c) :: d.commands := by
    show (d'.now, c) :: d'.commands = _
    rw [h.now, h.commands]
  have hnow : ((d'.tick cfg).record (some c)).now = d.now + 1 := by
    show d'.now + 1 = _
    rw [h.now]
  constructor
  case before =>
    rw [hlog, hnow]
    intro e he
    rcases List.mem_cons.mp he with rfl | he
    · exact Nat.lt_succ_self _
    · exact Nat.lt_succ_of_lt (hd.before e he)
  case sorted =>
    rw [hlog]
    exact .cons hd.before hd.sorted
  case guards =>
    intro τ
    rw [hlog, hnow]
    apply Guards.mono ?_ (tick_counter d' τ)
    apply Guards.tick
    rw [h.counter]
    split
    case isTrue => exact .load hd.before
    case isFalse hl => exact (hd.guards τ).skip hl
  case legal =>
    intro τ
    rw [hlog]
    refine .cons (fun e he hl hb => ?_) (hd.legal τ)
    have hguard := hd.guards τ
    rw [h.ready τ hb] at hguard
    exact hguard.ready e he hl
  case currRow =>
    intro b
    rw [hlog]
    exact (h.currRow _ _ b (hd.currRow b)).trans (tick_currRow d' b).symm
  case columns =>
    rw [hlog]
    intro l e rest b row hl hc
    cases l with
    | nil =>
      cases hl
      rw [hd.currRow b]
      exact h.column b row hc
    | cons e' l =>
      rw [List.cons_append, List.cons.injEq] at hl
      exact hd.columns l e rest b row hl.2 hc

theorem cycle_timingInv (hd : TimingInv cfg d) (h : d.cycle cfg = .ok d') : TimingInv cfg d' := by
  obtain ⟨d₁, h₁, h⟩ := bind_eq_ok.mp h
  obtain ⟨⟨d₂, command⟩, h₂, h⟩ := bind_eq_ok.mp h
  cases h
  have hd₁ : TimingInv cfg (d₁.scheduler cfg) :=
    (hd.quiet (dataOut_quiet h₁)).quiet scheduler_quiet
  have hloop := bankLoop_ok h₂
  cases command with
  | none =>
    have hd₂ : d₂ = d₁.scheduler cfg := hloop
    rw [hd₂]
    exact hd₁.nop
  | some c => exact hd₁.issue hloop

theorem timingInv_of_reachable (h : (dram cfg).Reachable d) : TimingInv cfg d := by
  induction h with
  | init => exact .init
  | @step d a d' _ _ hs ih =>
    cases a with
    | push req =>
      simp only [dram, push] at hs
      split at hs
      case isFalse => cases hs
      case isTrue =>
        rw [Option.some.injEq] at hs
        obtain ⟨_, -, hs⟩ := bind_eq_ok.mp hs
        cases hs
        exact ih.quiet (.of_eq rfl)
    | cycle =>
      simp only [dram, Option.some.injEq] at hs
      exact cycle_timingInv ih hs
    | pop =>
      simp only [dram, Option.some.injEq, Except.ok.injEq] at hs
      rw [← hs]
      exact ih.quiet (.of_eq rfl)

end Dram

/-! ## Legal command sequences -/

/-- The separations between a command and a later one. -/
inductive Separation (cfg : MemoryConfig) : Command → Command → Nat → Prop
  | tRCD {b r r'} : Separation cfg (.act b r) (.rd b r') cfg.tRCD.toNat
  | tRCDWR {b r r'} : Separation cfg (.act b r) (.wr b r') cfg.tRCDWR.toNat
  | tRP {b r} : Separation cfg (.pre b) (.act b r) cfg.tRP.toNat
  | tRC {b r r'} : Separation cfg (.act b r) (.act b r') cfg.tRC.toNat
  | tRRD {b r b' r'} : Separation cfg (.act b r) (.act b' r') cfg.tRRD.toNat
  | tRAS {b r} : Separation cfg (.act b r) (.pre b) cfg.tRAS.toNat
  | tCCD {c b r c' b' r'} (h : c.Column b r) (h' : c'.Column b' r') : Separation cfg c c' cfg.tCCD.toNat
  | tWTR {b r b' r'} : Separation cfg (.wr b r) (.rd b' r') cfg.tWTR.toNat
  | tRTW {b r b' r'} : Separation cfg (.rd b r) (.wr b' r') cfg.tRTW.toNat
  | tWTP {b r} : Separation cfg (.wr b r) (.pre b) cfg.tWTP.toNat

theorem Separation.exists_timer {cfg : MemoryConfig} {c c' : Command} {n : Nat} (h : Separation cfg c c' n) :
    ∃ τ : Timer, τ.Loads c ∧ τ.Blocks c' ∧ cfg.period τ = n := by
  cases h with
  | @tRCD b => exact ⟨.rcd b, rfl, rfl, rfl⟩
  | @tRCDWR b => exact ⟨.rcdwr b, rfl, rfl, rfl⟩
  | @tRP b => exact ⟨.rp b, rfl, rfl, rfl⟩
  | @tRC b => exact ⟨.rc b, rfl, rfl, rfl⟩
  | tRRD => exact ⟨.rrd, trivial, trivial, rfl⟩
  | @tRAS b => exact ⟨.ras b, rfl, rfl, rfl⟩
  | tCCD h h' =>
    refine ⟨.ccd, ?_, ?_, rfl⟩
    · rcases h with rfl | rfl <;> trivial
    · rcases h' with rfl | rfl <;> trivial
  | tWTR => exact ⟨.wtr, trivial, trivial, rfl⟩
  | tRTW => exact ⟨.rtw, trivial, trivial, rfl⟩
  | @tWTP b => exact ⟨.wtp b, rfl, rfl, rfl⟩

/-- **DRAM timing legality.** In every run at most one command is issued in a cycle, every command keeps
its separations from those before it, and column commands are for the row that is open. -/
theorem dram_timing_legal (cfg : MemoryConfig) {d : Dram} (h : (dram cfg).Reachable d) :
    (d.commands.Pairwise fun e e' => e'.1 < e.1) ∧
      (∀ t c t' c' n, (t, c) ∈ d.commands → (t', c') ∈ d.commands → t < t' → Separation cfg c c' n →
        t + n ≤ t') ∧
      ∀ l t c rest b row, d.commands = l ++ (t, c) :: rest → c.Column b row → openRow rest b = some row := by
  have hd := Dram.timingInv_of_reachable h
  refine ⟨hd.sorted, ?_, fun l t c rest b row hl => hd.columns l (t, c) rest b row hl⟩
  intro t c t' c' n hc hc' hlt hsep
  obtain ⟨τ, hloads, hblocks, rfl⟩ := hsep.exists_timer
  exact rel_of_lt hd.sorted (hd.legal τ) hc' hc hlt hloads hblocks

section Runs

/-- Two banks, first come first served. -/
def twoBanks : MemoryConfig where
  schedulerType := .fifo
  schedQueueSize := 4
  nbk := 2
  nbkgrp := 1
  tCCD := 2
  tRRD := 2
  tRCD := 3
  tRAS := 5
  tRP := 3
  tRC := 8
  CL := 2
  WL := 1
  tCDLR := 2
  tWR := 2
  tCCDL := 0
  tRTPL := 0
  BL := 4
  dataCommandFreqRatio := 2
  dramAtomSize := 32

/-- The row is opened in the first cycle and read three cycles later. -/
theorem dram_timing_legal_read : ∃ d, (dram twoBanks).Reachable d ∧
    d.commands = [(3, .rd 0 7), (0, .act 0 7)] ∧ 0 + twoBanks.tRCD.toNat ≤ 3 := by
  obtain ⟨d, -, hd, hcommands⟩ := (dram twoBanks).exists_reachable_of_run
    [.push ⟨1, 0, 7, 32, 0, false, false⟩, .cycle, .cycle, .cycle, .cycle] (·.commands)
    (y := [(3, .rd 0 7), (0, .act 0 7)]) (by rfl)
  have hlegal := (dram_timing_legal twoBanks hd).2.1
  rw [hcommands] at hlegal
  exact ⟨d, hd, hcommands, hlegal 0 (.act 0 7) 3 (.rd 0 7) _ (by decide) (by decide) (by decide) .tRCD⟩

end Runs

end GpgpuSimRuby.Memory
