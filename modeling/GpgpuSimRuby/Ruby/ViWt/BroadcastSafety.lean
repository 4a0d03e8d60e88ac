import GpgpuSimRuby.Ruby.ViWt.BroadcastSteps

/-!
# VI_wt_b: what every run guarantees

* `broadcast_write_atomic` — when the L2 answers a write, no other L1 has a copy or is about to
  install one; a round waits for the messages under way; no controller faults.
* `response_matching` — every request is answered once, by a response of its kind and with its
  memfetch, a write only after all L1s have acknowledged and its data has come. This takes a
  condition: no atomic gets its data before the last acknowledgement. Otherwise it is answered with
  the `WB_ACK` of a write (`atomic_answered_as_write`).
-/

namespace GpgpuSimRuby.Ruby.ViWt.Broadcast

open Library

variable {ι α : Type} [DecidableEq ι] [Fintype ι] [DecidableEq α]

/-- The L1s, the network and the L2 of VI_wt_b. -/
def machine (ι : Type) [DecidableEq ι] [Fintype ι] (space : α → MemorySpaceType) :
    Machine (α → Block ι (L2Bank ι)) (FamilyAct α (BlockAct ι)) Fault :=
  system .VI_wt_b L2.bank space

/-- The bank in all runs. -/
abbrev anyRun (ι : Type) [DecidableEq ι] [Fintype ι] (space : MemorySpaceType) :
    Refinement .VI_wt_b (L2.bank (ι := ι)) space (fun _ _ => True) True :=
  refinement space _ True fun _ _ _ _ => trivial

/-- The bank in the runs that keep atomics and writes apart. -/
abbrev keptRun (ι : Type) [DecidableEq ι] [Fintype ι] (space : MemorySpaceType) :
    Refinement .VI_wt_b (L2.bank (ι := ι)) space (fun b act => ¬ Forgets b act) False :=
  refinement space _ False fun _ _ hok => hok

/-! ## Write atomicity -/

/-- The L2 waits for acknowledgements. -/
def AwaitsAcks (b : Block ι (L2Bank ι)) : Prop := (L2.getState b).awaitsAcks

/-- What is guaranteed of the block `a`, in every run. -/
structure Guarded (space : α → MemorySpaceType) (s : α → Block ι (L2Bank ι)) (a : α) : Prop where
  atomic : ∀ act t, (machine ι space).step s act = some (.ok t) → WriteAtomic (s a) (t a)
  /-- A round waits for the invalidations and acknowledgements under way. -/
  pendingAcks : AwaitsAcks (s a) →
    ∃ t, (s a).bank.tbe = some t ∧ 0 < t.pendingAcks ∧ t.pendingAcks = (s a).inFlight
  /-- Outside of a round none are under way. -/
  quiet : ¬ AwaitsAcks (s a) → (s a).inFlight = 0
  /-- No controller meets an undeclared event or fails an assertion. -/
  faultless : ∀ act e, (machine ι space).step s act ≠ some (.error e)

omit [DecidableEq ι] in
theorem Shape.round {space : MemorySpaceType} {b : Block ι (L2Bank ι)} (h : Shape space b.bank) :
    AwaitsAcks b ∧ (∃ t, b.bank.tbe = some t ∧ b.bank.view.pending = some t.pendingAcks) ∨
      ¬ AwaitsAcks b ∧ b.bank.view.pending = none := by
  generalize hk : b.bank = k at h
  cases h with
  | NP | S | ISS => exact .inr ⟨by simp [AwaitsAcks, L2.getState, hk, L2State.awaitsAcks], rfl⟩
  | @write s g acks hs =>
    have hstate : L2.getState b = s := by simp [L2.getState, hk, writeBank]
    by_cases hround : s.awaitsAcks
    · exact .inl ⟨by rwa [AwaitsAcks, hstate], _, rfl, if_pos hround⟩
    · exact .inr ⟨by rwa [AwaitsAcks, hstate], if_neg hround⟩

/-- **Write atomicity of VI_wt_b**, without a directory. -/
theorem broadcast_write_atomic {space : α → MemorySpaceType} {s : α → Block ι (L2Bank ι)}
    (h : (machine ι space).Reachable s) (a : α) : Guarded space s a where
  atomic act t hstep := Refinement.reachable_writeAtomic (fun a => anyRun ι (space a))
    (reachable_each h) (each_true s act) hstep a
  pendingAcks hround := by
    have hsound := Refinement.reachable_sound (fun a => anyRun ι (space a)) (reachable_each h) a
    obtain ⟨-, t, ht, hp⟩ | ⟨hnot, -⟩ := Shape.round hsound.shape
    · exact ⟨t, ht, hsound.inFlight_of_pending hp⟩
    · exact absurd hround hnot
  quiet hround := by
    have hsound := Refinement.reachable_sound (fun a => anyRun ι (space a)) (reachable_each h) a
    obtain ⟨hyes, -⟩ | ⟨-, hp⟩ := Shape.round hsound.shape
    · exact absurd hyes hround
    · exact hsound.inFlight_of_none hp
  faultless act e := Refinement.no_fault (fun a => anyRun ι (space a)) (reachable_each h)
    (each_true s act) e

/-- Two L1s and one block. -/
abbrev twoL1s : Machine (Unit → Block Bool (L2Bank Bool)) (FamilyAct Unit (BlockAct Bool)) Fault :=
  machine Bool fun _ => .GLOBAL

/-- `true` accesses a block that nobody has, and the L2 takes the request. -/
def miss (type : CacheRequestType) : List (FamilyAct Unit (BlockAct Bool)) :=
  [.at () (.core true type 0), .at () (.arrive true), .at () (.l2 .request)]

/-- Both L1s acknowledge their invalidation. -/
def acknowledge : List (FamilyAct Unit (BlockAct Bool)) :=
  [.at () (.l1Inv false 0), .at () (.l1Inv true 0), .at () (.l2 (.unblock 0)), .at () (.l2 (.unblock 0))]

/-- In the middle of a round. -/
theorem broadcast_write_atomic_miss : ∃ s, twoL1s.Reachable s ∧ L2.getState (s ()) = .IM_id ∧
    (s ()).inFlight = 2 ∧ Guarded (fun _ => .GLOBAL) s () := by
  obtain ⟨s, -, hreach, hf⟩ := twoL1s.exists_reachable_of_run (miss .ST)
    (fun s => (L2.getState (s ()), (s ()).inFlight)) (y := (.IM_id, 2)) rfl
  obtain ⟨hstate, htwo⟩ := Prod.mk.inj hf
  exact ⟨s, hreach, hstate, htwo, broadcast_write_atomic hreach ()⟩

/-- The counter of the TBE keeps its last one when the round is over and the data still to come:
`Inv_Ack_All` does not count down. -/
theorem pendingAcks_stale : ∃ s t, twoL1s.Reachable s ∧ L2.getState (s ()) = .IM_d ∧
    (s ()).bank.tbe = some t ∧ t.pendingAcks = 1 ∧ (s ()).inFlight = 0 := by
  obtain ⟨s, -, hreach, hf⟩ := twoL1s.exists_reachable_of_run (miss .ST ++ acknowledge)
    (fun s => (L2.getState (s ()), (s ()).bank.tbe.map L2TBE.pendingAcks, (s ()).inFlight))
    (y := (.IM_d, some 1, 0)) rfl
  simp only [Prod.mk.injEq, Option.map_eq_some_iff] at hf
  obtain ⟨hstate, ⟨t, ht, hone⟩, hzero⟩ := hf
  exact ⟨s, t, hreach, hstate, ht, hone, hzero⟩

/-! ## Response matching -/

/-- A step from `b` to `b'` that answers a write does so when every L1 has acknowledged its
invalidation and no fetch is under way. -/
def AfterAcks (b b' : Block ι (L2Bank ι)) : Prop :=
  ∀ sent, b'.answers = b.answers ++ sent → ∀ r ∈ sent, r.type = .WB_ACK ∨ r.type = .DATA_ATOMIC →
    b'.ackedBy = Finset.univ ∧ b'.bank.memReads = 0

theorem afterAcks_step {space : MemorySpaceType} {b b' : Block ι (L2Bank ι)} {act : BlockAct ι}
    (h : (anyRun ι space).Sound b) (hstep : b.step .VI_wt_b L2.bank space act = some (.ok b')) :
    AfterAcks b b' := by
  intro sent hsent r hr htype
  have hdata : r.type ≠ .DATA := by rcases htype with ht | ht <;> simp [ht]
  have hok : BankOk (fun _ _ => True) b act := by cases act <;> trivial
  have h' : (anyRun ι space).Sound b' := (anyRun ι space).sound_step h hok hstep
  obtain ⟨r', hone⟩ : ∃ r', b'.answers = b.answers ++ [r'] := by
    rcases (anyRun ι space).answers_step h hok hstep with hnone | ⟨r', hone, -⟩
    · obtain rfl : sent = [] := by simpa [hnone] using hsent
      cases hr
    · exact ⟨r', hone⟩
  obtain rfl : sent = [r'] := by simpa [hone, eq_comm] using hsent
  obtain rfl := List.mem_singleton.mp hr
  obtain ⟨b'', hb, -, rfl | hmove | ⟨a, rfl, -⟩⟩ := (anyRun ι space).step_spec h hok hstep
  · obtain rfl := Except.ok.inj hb
    simp at hone
  · obtain rfl := Except.ok.inj hb
    have hsame : b'.answers = b.answers := by cases hmove <;> rfl
    simp [hsame] at hone
  · have hspec : Except.ok b' = Except.ok b ∨ RefinesAct True space a b :=
      bank_spec h.shape h.inv (fun _ => trivial) hstep
    rcases hspec with hstall | ⟨b₁, hb₁, -, hasked, hbank⟩
    · obtain rfl := Except.ok.inj hstall
      simp at hone
    · rw [Block.step, hb₁] at hstep
      obtain rfl := Except.ok.inj (Option.some.inj hstep)
      obtain ⟨hstarts, hwriting, hmem, htbe⟩ := hasked r hone hdata
      have hp : b₁.bank.view.pending = none := by simp [L2Bank.view, htbe]
      refine ⟨Finset.eq_univ_of_forall fun i => ?_, hmem⟩
      exact hbank.acked h.inv hstarts h'.inv hp i (by simp [Block.map, L2Bank.view, hwriting])

/-- What is guaranteed of the requests to the block `a`, and of the steps that answer them, in the
runs whose steps meet `ok`. -/
structure Matched (space : α → MemorySpaceType) (ok : Block ι (L2Bank ι) → BankAct → Prop)
    (s : α → Block ι (L2Bank ι)) (a : α) : Prop where
  answers : AnsweredOnce .VI_wt_b L2.bank (space a) ok L2Bank.view (s a)
  acked : ∀ act t, (machine ι space).step s (.at a act) = some (.ok t) → AfterAcks (s a) (t a)

/-- **Response matching of VI_wt_b**, in the runs in which no data comes in `IMA_id`: the data of an
atomic's miss comes after the last acknowledgement. -/
theorem response_matching {space : α → MemorySpaceType} {s : α → Block ι (L2Bank ι)}
    (h : (machine ι space).ReachableUnder (Component.Each (BankOk fun b act => ¬ Forgets b act)) s)
    (a : α) : Matched space (fun b act => ¬ Forgets b act) s a where
  answers := Refinement.reachable_answeredOnce (fun a => keptRun ι (space a))
    (fun a => live (space a) _ False (fun _ _ hok => hok) fun _ _ hnot => hnot) id h a
  acked act t hstep := by
    have hsound := Refinement.reachable_sound (fun a => anyRun ι (space a))
      (reachable_each h.reachable) a
    obtain ⟨b', hb', rfl⟩ := Component.family_step_at hstep
    rw [Function.update_self]
    exact afterAcks_step hsound hb'

/-- An atomic misses, everybody acknowledges, and then the data comes. -/
theorem response_matching_miss : ∃ s,
    twoL1s.ReachableUnder (Component.Each (BankOk fun b act => ¬ Forgets b act)) s ∧
    (s ()).answers.map ResponseMsg.type = [.DATA_ATOMIC] ∧
    Matched (fun _ => .GLOBAL) (fun b act => ¬ Forgets b act) s () := by
  obtain ⟨s, -, hreach, hf⟩ := twoL1s.exists_reachableUnder_of_run
    (Component.Each (BankOk fun b act => ¬ Forgets b act))
    (miss .ATOMIC ++ acknowledge ++ [.at () (.l2 .memory)])
    (fun s => (s ()).answers.map ResponseMsg.type) (y := [.DATA_ATOMIC]) (by decide) rfl
  exact ⟨s, hreach, hf, response_matching hreach ()⟩

/-- **The defect.** An atomic whose data comes before the acknowledgements is answered with the
`WB_ACK` of a write, and never with its data. -/
theorem atomic_answered_as_write : ∃ s, twoL1s.Reachable s ∧
    (s ()).issued.map RequestMsg.type = [.DATA_ATOMIC] ∧
    (s ()).answers.map ResponseMsg.type = [.WB_ACK] ∧
    ¬ Matched (fun _ => .GLOBAL) (fun _ _ => True) s () := by
  obtain ⟨s, -, hreach, hf⟩ := twoL1s.exists_reachable_of_run
    (miss .ATOMIC ++ [.at () (.l2 .memory)] ++ acknowledge)
    (fun s => ((s ()).issued, (s ()).answers))
    (y := ([writeMsg true .GLOBAL { uid := 0, sid := true, wid := 0 }],
      [writeResponse false { uid := 0, sid := true, wid := 0 }])) rfl
  obtain ⟨hissued, hanswers⟩ := Prod.mk.inj hf
  refine ⟨s, hreach, by rw [hissued]; rfl, by rw [hanswers]; rfl, ?_⟩
  intro hmatched
  -- the `WB_ACK` closes the transaction of a write, which nobody has opened
  have hmem : ((.write, { uid := 0, sid := true, wid := 0 }) : Transaction Bool) ∈
      opens (s ()).issued := by
    rw [show opens (s ()).issued = _ from hmatched.answers.ledger, Multiset.mem_add]
    refine .inr ?_
    rw [show closes (Block.map L2Bank.view (s ())).answers = closes (s ()).answers from rfl, hanswers]
    decide
  rw [hissued] at hmem
  revert hmem
  decide

end GpgpuSimRuby.Ruby.ViWt.Broadcast
