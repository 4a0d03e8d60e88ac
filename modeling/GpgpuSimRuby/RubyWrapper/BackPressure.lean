import GpgpuSimRuby.RubyWrapper.Delivery

/-!
# Back pressure of the sequencer

The sequencer refuses requests once as many are outstanding as it has entries, but the wrapper asks
it on an MSHR miss only. On a hit `send_request` may go to Ruby all the same: with a write that skips
the MSHRs, or with a read of a block whose entry holds writes only.
-/

namespace GpgpuSimRuby.RubyWrapper

open Ruby Library

namespace World

variable (cfg : Config) (w : World)

/-- An access that hits in the MSHR table and goes to Ruby nevertheless. -/
def HitForwarded (mf : MemFetch) : Prop :=
  mf.isMembar = false ∧ ¬ mf.Bypasses cfg ∧ mf.blockAddr ∈ w.core.mshr.data ∧
    cfg.writesStallAtMshr = false ∧
    (mf.modifies = true ∨ (w.core.mshr.entry mf.blockAddr).list = [])

instance (mf : MemFetch) : Decidable (w.HitForwarded cfg mf) := inferInstanceAs (Decidable (_ ∧ _))

/-- An access that is forwarded on a hit, and that the entry takes, finds an entry of the sequencer
free. -/
def Backed : Act → Prop
  | .issue access => w.HitForwarded cfg (w.alloc access) → w.Admitted cfg (w.alloc access) →
    w.core.sequencer.outstandingCount < cfg.numSeqEntries
  | _ => True

instance : ∀ act, Decidable (w.Backed cfg act)
  | .issue _ => inferInstanceAs (Decidable (_ → _ → _))
  | .readCallback _ | .writeCallback _ | .skipL1Callback _ | .memfenceCallback _ | .advanceTime
  | .writebackMshr | .writebackSkipL1 | .writebackMemfence => .isTrue trivial

variable {cfg w} {t : World} {access : Access}

theorem admitted_of_allowed (hroom : (w.core.mshr.entry (w.alloc access).blockAddr).list.length <
      cfg.mshrSize) (hallowed : MshrTable.Allowed cfg (w.core.mshr.entry (w.alloc access).blockAddr)
      (w.alloc access).modifies (w.alloc access).wid) (hmode : cfg.writesStallAtMshr = false) :
    w.Admitted cfg (w.alloc access) := by
  refine ⟨hroom, fun h => hallowed.2.2 h.1 h.2, ?_⟩
  rintro ⟨hread, hwarp, hflag⟩
  have hno := hallowed.2.1 hmode hread hwarp
  rw [hflag] at hno
  cases hno

theorem outstandingCount_lt (hinv : w.Inv cfg) (hready : w.core.Ready cfg (w.alloc access))
    (hb : w.Backed cfg (.issue access)) (hm : (w.alloc access).isMembar = false)
    (hforward : (w.alloc access).Bypasses cfg ∨
      (w.alloc access).modifies = true ∧ cfg.writesStallAtMshr = false ∨
      (w.core.mshr.entry (w.alloc access).blockAddr).list = []) :
    w.core.sequencer.outstandingCount < cfg.numSeqEntries := by
  by_cases hbypass : (w.alloc access).Bypasses cfg
  · exact hready.unknown (.inr (.inl hbypass))
  by_cases hmem : (w.alloc access).blockAddr ∈ w.core.mshr.data
  swap
  · exact hready.unknown (.inr (.inr hmem))
  have hmode : cfg.writesStallAtMshr = false := by
    rcases hforward with h | h | hlist
    · exact absurd h hbypass
    · exact h.2
    · by_contra hs
      -- an entry without a queue holds skipped writes, of which there are none
      have hskips : w.skips cfg (w.alloc access).blockAddr = 0 :=
        (hinv.block _).skips_stall (by simpa using hs)
      rcases (hinv.held_skips _).mp hmem with h | h
      · exact h hlist
      · exact h hskips
  apply hb
  · refine ⟨hm, hbypass, hmem, hmode, ?_⟩
    rcases hforward with h | h | hlist
    · exact absurd h hbypass
    · exact .inl h.1
    · exact .inr hlist
  · exact admitted_of_allowed (hready.room hm hbypass hmem) (hready.allowed hm hbypass hmem) hmode

theorem outstandingCount_issued (hinv : w.Inv cfg)
    (hle : w.core.sequencer.outstandingCount ≤ cfg.numSeqEntries) (hi : w.Issued cfg access t)
    (hb : w.Backed cfg (.issue access)) : t.core.sequencer.outstandingCount ≤ cfg.numSeqEntries := by
  cases hi with
  | notReady | fence | merge => exact hle
  | bypass hm hbypass hready =>
    show (w.core.sequencer.put cfg _).outstandingCount ≤ _
    rw [Sequencer.outstandingCount_put]
    exact outstandingCount_lt hinv hready hb hm (.inl hbypass)
  | skipWrite hm hbypass hw hmode hsize hready =>
    show (w.core.sequencer.put cfg _).outstandingCount ≤ _
    rw [Sequencer.outstandingCount_put]
    exact outstandingCount_lt hinv hready hb hm (.inr (.inl ⟨hw, hmode⟩))
  | request hm hbypass hmode hsize hroom hlist hready =>
    show (w.core.sequencer.put cfg _).outstandingCount ≤ _
    rw [Sequencer.outstandingCount_put]
    exact outstandingCount_lt hinv hready hb hm (.inr (.inr hlist))

theorem outstandingCount_forwarded (hinv : w.Inv cfg) (hf : w.HitForwarded cfg (w.alloc access))
    (hadm : w.Admitted cfg (w.alloc access)) (hs : w.issue cfg access = .ok t) :
    t.core.sequencer.outstandingCount = w.core.sequencer.outstandingCount + 1 := by
  obtain ⟨hfence, hb, hmem, hmode, hforward⟩ := hf
  obtain ⟨hi, how, htrace⟩ := accepted_of_ready hinv (isReady_hit hfence hb hmem hmode hadm) hs
  cases hi with
  | notReady => simp at htrace
  | fence hm =>
    rw [hfence] at hm
    cases hm
  | bypass | skipWrite | request => exact Sequencer.outstandingCount_put
  | merge _ _ hwrite _ _ hlist =>
    rcases hforward with hw | hnil
    · rw [hwrite hw] at hmode
      cases hmode
    · exact absurd hnil hlist

theorem outstandingCount_moved {act : Act} (hm : Moved cfg w act t) :
    t.core.sequencer.outstandingCount ≤ w.core.sequencer.outstandingCount := by
  cases hm with
  | @answered act r hact hr =>
    have hseq : (answered cfg w r).core.sequencer = w.core.sequencer.drop cfg r := by
      unfold answered Core.hitCallback
      split <;> rfl
    rw [hseq, Sequencer.outstandingCount_drop]
    exact Nat.sub_le _ _
  | fenceAnswered | idle | ready | fenceDone | returned | skippedDone => exact le_rfl

theorem backed_moved {act : Act} (hm : Moved cfg w act t) : w.Backed cfg act := by
  cases hm with
  | @answered act _ hact =>
    cases act with
    | issue access => exact absurd rfl (hact access)
    | _ => trivial
  | fenceAnswered | idle | ready | fenceDone | returned | skippedDone => trivial

/-- **A step** keeps the bound exactly when it is backed. -/
theorem outstandingCount_step {act : Act} (h : (machine cfg).Reachable w)
    (hle : w.core.sequencer.outstandingCount ≤ cfg.numSeqEntries) (hs : w.step cfg act = some (.ok t)) :
    t.core.sequencer.outstandingCount ≤ cfg.numSeqEntries ↔ w.Backed cfg act := by
  have hinv := Inv.of_reachable h
  rcases step_cases hinv hs with ⟨access, rfl, hi⟩ | hm
  · refine ⟨fun ht hf hadm => ?_, outstandingCount_issued hinv hle hi⟩
    rw [outstandingCount_forwarded hinv hf hadm (Option.some.inj hs)] at ht
    exact ht
  · exact iff_of_true ((outstandingCount_moved hm).trans hle) (backed_moved hm)

end World

/-- **Back pressure.** As long as every step is backed the sequencer has no more requests outstanding
than it has entries, and a step that is not backed exceeds them. -/
theorem outstandingCount_le (cfg : Config) (w : World)
    (h : (machine cfg).ReachableUnder (World.Backed cfg) w) :
    w.core.sequencer.outstandingCount ≤ cfg.numSeqEntries ∧
      ∀ act t, w.step cfg act = some (.ok t) →
        (t.core.sequencer.outstandingCount ≤ cfg.numSeqEntries ↔ w.Backed cfg act) := by
  have hle : w.core.sequencer.outstandingCount ≤ cfg.numSeqEntries := by
    induction h with
    | init => exact Nat.zero_le _
    | step hs hok hstep ih => exact (World.outstandingCount_step hs.reachable ih hstep).mpr hok
  exact ⟨hle, fun act t hs => World.outstandingCount_step h.reachable hle hs⟩

/-- Two entries are enough for a read and a write of one block. -/
theorem outstandingCount_le_two :
    ∃ w, (machine { numSeqEntries := 2 }).Reachable w ∧
      w.core.sequencer.outstandingCount = 2 ∧ w.core.sequencer.outstandingCount ≤ 2 := by
  obtain ⟨w, -, hw, hcount⟩ := (machine { numSeqEntries := 2 }).exists_reachableUnder_of_run
    (World.Backed { numSeqEntries := 2 })
    [.issue localRead, .issue { localRead with isWrite := true }]
    (fun w => w.core.sequencer.outstandingCount) (y := 2) (by decide) (by rfl)
  exact ⟨w, hw.reachable, hcount, (outstandingCount_le { numSeqEntries := 2 } w hw).1⟩

/-- With one entry the write goes to Ruby although the read has taken it. -/
theorem outstandingCount_exceeds :
    ∃ w, (machine { numSeqEntries := 1 }).Reachable w ∧
      ¬ w.core.sequencer.outstandingCount ≤ 1 := by
  obtain ⟨w, -, hw, hcount⟩ := (machine { numSeqEntries := 1 }).exists_reachable_of_run
    [.issue localRead, .issue { localRead with isWrite := true }]
    (fun w => w.core.sequencer.outstandingCount) (y := 2) (by rfl)
  refine ⟨w, hw, ?_⟩
  rw [hcount]
  decide

end GpgpuSimRuby.RubyWrapper
