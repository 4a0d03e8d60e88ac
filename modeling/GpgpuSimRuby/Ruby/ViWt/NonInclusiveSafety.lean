import GpgpuSimRuby.Ruby.ViWt.NonInclusiveSteps

/-!
# VI_wt_ni: what every run guarantees

`directory_safety` — data is only kept for blocks in the directory, the directory knows the holders
of copies, no other L1 has a copy when a write is answered, and no controller faults.
-/

namespace GpgpuSimRuby.Ruby.ViWt.NonInclusive

open Library

variable {ι α : Type} [DecidableEq ι] [Fintype ι] [DecidableEq α]

/-- The L1s, the network and the L2 of VI_wt_ni. -/
def machine (ι : Type) [DecidableEq ι] [Fintype ι] (space : α → MemorySpaceType) :
    Machine (α → Block ι (L2Bank ι)) (FamilyAct α (BlockAct ι)) Fault :=
  system .VI_wt_ni L2.bank space

/-- The L2 waits for acknowledgements. -/
def InRound (b : Block ι (L2Bank ι)) : Prop := (L2.getState b).awaitsAcks

/-- What is guaranteed of the block `a`. -/
structure Safe (space : α → MemorySpaceType) (s : α → Block ι (L2Bank ι)) (a : α) : Prop where
  /-- What is in the cache is in the directory. -/
  covered : (s a).bank.entry.cache.isSome → (s a).bank.entry.dir.isSome
  /-- `S_D` and `SS_D` are the states of a directory entry without data. -/
  nodata : (L2.getState (s a) = .S_D ∨ L2.getState (s a) = .SS_D) ↔
    (s a).bank.entry.dir.isSome ∧ (s a).bank.entry.cache = none
  /-- A holder is on the list, or is being invalidated. -/
  holder : ∀ i, (s a).Holder i →
    i ∈ (s a).bank.sharers ∨ InRound (s a) ∧ (s a).requestToL1 i ≠ []
  /-- When a write is answered no other L1 has a copy. -/
  atomic : ∀ act t, (machine ι space).step s act = some (.ok t) → WriteAtomic (s a) (t a)
  /-- No controller meets an undeclared event or fails an assertion. -/
  faultless : ∀ act e, (machine ι space).step s act ≠ some (.error e)

section Shape

variable {space : MemorySpaceType} {b : Block ι (L2Bank ι)}

omit [Fintype ι] in
theorem Shape.covered (h : Shape space b.bank) : b.bank.entry.cache.isSome → b.bank.entry.dir.isSome := by
  generalize b.bank = k at h
  cases h <;> simp [idleBank, writeBank]

omit [Fintype ι] in
theorem Shape.nodata (h : Shape space b.bank) : (L2.getState b = .S_D ∨ L2.getState b = .SS_D) ↔
      b.bank.entry.dir.isSome ∧ b.bank.entry.cache = none := by
  generalize hk : b.bank = k at h
  cases h with
  | NP => simp [L2.getState, hk]
  | ISS => simp [L2.getState, hk]
  | @idle data sharers =>
    rw [getState_idle hk]
    cases data <;> simp only [idleState, idleBank] <;> split <;> simp
  | @write s sharers g acks hs =>
    simp only [L2.getState, hk, writeBank]
    cases s <;> first | exact absurd rfl hs | simp
  | evicted hs => rcases hs with rfl | rfl <;> simp [L2.getState, hk]

omit [Fintype ι] in
theorem view_sharers_subset (k : L2Bank ι) : k.view.sharers ⊆ k.sharers := by
  simp only [L2Bank.view]
  cases k.tbe with
  | none => exact Finset.Subset.rfl
  | some t =>
    simp only [Option.map_some, Option.getD_some, TBE.keeps]
    split
    · exact Finset.inter_subset_left
    · exact Finset.inter_subset_left
    · exact Finset.empty_subset _
    · exact Finset.empty_subset _
    · exact Finset.Subset.rfl

omit [Fintype ι] in
theorem inRound_of_pending (hp : b.bank.view.pending ≠ none) : InRound b := by
  simp only [L2Bank.view] at hp
  cases ht : b.bank.tbe with
  | none => simp [ht] at hp
  | some t =>
    by_contra hr
    have hs : ¬ t.tbeState.awaitsAcks := by simpa [InRound, L2.getState, ht] using hr
    simp [ht, TBE.pending, hs] at hp

end Shape

/-- **Safety of VI_wt_ni.** -/
theorem directory_safety {space : α → MemorySpaceType} {s : α → Block ι (L2Bank ι)}
    (h : (machine ι space).Reachable s) (a : α) : Safe space s a := by
  have hsound := Refinement.reachable_sound (fun a => refinement (space a)) (reachable_each h) a
  refine ⟨hsound.shape.covered, hsound.shape.nodata, ?_, ?_, ?_⟩
  · intro i hi
    rcases hsound.holder hi with hs | ⟨hp, hne⟩
    · exact .inl (view_sharers_subset _ hs)
    · exact .inr ⟨inRound_of_pending hp, hne⟩
  · intro act t hstep
    exact Refinement.reachable_writeAtomic (fun a => refinement (space a)) (reachable_each h)
      (each_true s act) hstep a
  · intro act e
    exact Refinement.no_fault (fun a => refinement (space a)) (reachable_each h) (each_true s act) e

/-- Two L1s and one block. -/
abbrev twoL1s : Machine (Unit → Block Bool (L2Bank Bool)) (FamilyAct Unit (BlockAct Bool)) Fault :=
  machine Bool fun _ => .GLOBAL

/-- `false` has a copy of a block whose data has been evicted, and `true` writes to it. -/
theorem directory_safety_nodata : ∃ s, twoL1s.Reachable s ∧ L2.getState (s ()) = .SDM ∧
    (s ()).bank.sharers = {false} ∧ Safe (fun _ => .GLOBAL) s () := by
  obtain ⟨s, -, hreach, hf⟩ := twoL1s.exists_reachable_of_run
    [.at () (.core false .LD 0), .at () (.arrive false), .at () (.l2 .request), .at () (.l2 .memory),
     .at () (.l1Response false 0), .at () (.l2 .replace), .at () (.core true .ST 0),
     .at () (.arrive true), .at () (.l2 .request)]
    (fun s => (L2.getState (s ()), (s ()).bank.sharers)) (y := (.SDM, {false})) rfl
  obtain ⟨hstate, hsharers⟩ := Prod.mk.inj hf
  exact ⟨s, hreach, hstate, hsharers, directory_safety hreach ()⟩

end GpgpuSimRuby.Ruby.ViWt.NonInclusive
