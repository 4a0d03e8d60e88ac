import GpgpuSimRuby.Ruby.ViWt.InclusiveSteps

/-!
# VI_wt and VI_wt_ee: what every run guarantees

* `write_atomic` — in VI_wt, when the L2 answers a write, no other L1 has a copy or is about to
  install one.
* `directory_accounting` — in VI_wt, the sharer list covers the copies, the counters count what is
  under way, a round of invalidations ends with its last acknowledgement, every request is answered
  exactly once, and no controller faults.
* `notice_safety` — in VI_wt_ee, a notice never takes the holder of a copy off the list, and one that
  comes late changes nothing.
-/

namespace GpgpuSimRuby.Ruby.ViWt.Inclusive

open Library Function

variable {ι α : Type} [DecidableEq ι] [Fintype ι] [DecidableEq α]

/-- The L1s, the network and the L2 of VI_wt or, if `ee`, of VI_wt_ee. -/
def machine (ι : Type) [DecidableEq ι] [Fintype ι] (ee : Bool) (space : α → MemorySpaceType) :
    Machine (α → Block ι (L2Bank ι)) (FamilyAct α (BlockAct ι)) Fault :=
  system (protocol ee) (L2.bank ee) space

variable {s : α → Block ι (L2Bank ι)}

theorem sound {ee : Bool} {space : α → MemorySpaceType}
    (h : (machine ι ee space).Reachable s) (a : α) : (refinement ee (space a)).Sound (s a) :=
  Refinement.reachable_sound (fun a => refinement ee (space a)) (reachable_each h) a

/-! ## Rounds of invalidations -/

section Round

variable {ee : Bool} {space : MemorySpaceType} {b b' : Block ι (L2Bank ι)} {act : BlockAct ι}

/-- The L2 waits for acknowledgements. -/
def InRound (b : Block ι (L2Bank ι)) : Prop :=
  L2.getState b = .SM ∨ L2.getState b = .SMA ∨ L2.getState b = .MI ∨ L2.getState b = .II

omit [Fintype ι] in
theorem Shape.round (h : Shape space b.bank) :
    InRound b ∧ (∃ t, b.bank.tbe = some t ∧ b.bank.view.pending = some t.pendingAcks) ∨
      ¬ InRound b ∧ b.bank.view.pending = none := by
  generalize hk : b.bank = k at h
  cases h with
  | NP | S | SS | ISS => exact .inr ⟨by simp [InRound, L2.getState, hk], rfl⟩
  | fetch atomic =>
    cases atomic <;> exact .inr ⟨by simp [InRound, L2.getState, hk, fetching], rfl⟩
  | invalidate atomic =>
    cases atomic <;>
      exact .inl ⟨by simp [InRound, L2.getState, hk, invalidatingBank, invalidating], _, rfl, rfl⟩
  | evicted hs =>
    rcases hs with rfl | rfl <;> exact .inl ⟨by simp [InRound, L2.getState, hk], _, rfl, rfl⟩

theorem round_pendingAcks (h : (refinement ee space).Sound b) (hr : InRound b) :
    ∃ t, b.bank.tbe = some t ∧ 0 < t.pendingAcks ∧ t.pendingAcks = b.inFlight ∧
      b.bank.view.pending = some t.pendingAcks := by
  obtain ⟨-, t, ht, hp⟩ | ⟨hn, -⟩ := Shape.round h.shape
  · obtain ⟨hpos, hsum⟩ := h.inFlight_of_pending hp
    exact ⟨t, ht, hpos, hsum, hp⟩
  · exact absurd hr hn

theorem not_round_inFlight (h : (refinement ee space).Sound b) (hr : ¬ InRound b) : b.inFlight = 0 := by
  obtain ⟨hy, -⟩ | ⟨-, hp⟩ := Shape.round h.shape
  · exact absurd hy hr
  · exact h.inFlight_of_none hp

/-- How a round goes on: an acknowledgement is `Inv_Ack_All` if it is the last message of the round,
and then the round is over; otherwise it is `Inv_Ack`, and one message less is under way. Nothing
else has a part in it. -/
def RoundStep (act : BlockAct ι) (b b' : Block ι (L2Bank ι)) : Prop :=
  (∃ k m, act = .l2 (.unblock k) ∧ b.unblockToL2Cache[k]? = some m ∧
    ((b.inFlight = 1 ∧ L2.unblockEvent b m = .ok .invAckAll ∧ ¬ InRound b') ∨
      (b.inFlight ≠ 1 ∧ L2.unblockEvent b m = .ok .invAck ∧ InRound b' ∧
        b.inFlight = b'.inFlight + 1))) ∨
  (∀ k, act ≠ .l2 (.unblock k)) ∧ InRound b' ∧ b'.inFlight = b.inFlight

theorem round_step (h : (refinement ee space).Sound b) (hr : InRound b)
    (hstep : b.step (protocol ee) (L2.bank ee) space act = some (.ok b')) : RoundStep act b b' := by
  obtain ⟨t, ht, hpos, hsum, hp⟩ := round_pendingAcks h hr
  have h' : (refinement ee space).Sound b' := (refinement ee space).sound_step h
    (by cases act <;> trivial) hstep
  -- what is pending afterwards says whether the round goes on, and with how many messages
  have hgoes : ∀ {n : Int}, b'.bank.view.pending = some n → InRound b' ∧ (b'.inFlight : Int) = n := by
    intro n hn
    obtain ⟨hy, t', ht', hp'⟩ | ⟨-, hnone⟩ := Shape.round h'.shape
    · obtain ⟨t'', ht'', -, hsum', hp''⟩ := round_pendingAcks h' hy
      rw [hn] at hp''
      exact ⟨hy, by rw [← hsum', Option.some.inj hp'']⟩
    · rw [hn] at hnone
      cases hnone
  have hsame : b'.bank.view.pending = b.bank.view.pending → InRound b' ∧ b'.inFlight = b.inFlight := by
    intro heq
    obtain ⟨hy, hn⟩ := hgoes (heq.trans hp)
    exact ⟨hy, by omega⟩
  obtain ⟨b'', hb, -, hcase⟩ := (refinement ee space).step_spec h (by cases act <;> trivial) hstep
  obtain rfl := Except.ok.inj hb
  by_cases hact : ∃ k, act = .l2 (.unblock k)
  · obtain ⟨k, rfl⟩ := hact
    refine .inl ?_
    cases hk : b.unblockToL2Cache[k]? with
    | none => simp [Block.step, L2.bank, L2.stepUnblock, hk] at hstep
    | some m =>
      have hm : m.Good := h.inv.ack m (mem_of_getElem?_eq_some hk)
      obtain ⟨b₁, hb₁, -, -, hbank⟩ : RefinesAct ee space (.unblock k) b :=
        stepUnblock_spec h.shape h.inv hk
      obtain rfl : b' = b₁ := by
        rw [Block.step, hb₁] at hstep
        exact (Except.ok.inj (Option.some.inj hstep)).symm
      obtain ⟨-, hp'⟩ | ⟨hne, -⟩ := hbank.pending hp
      · have hev := unblockEvent_eq hm ht
        refine ⟨k, m, rfl, hk, ?_⟩
        by_cases hone : t.pendingAcks = 1
        · refine .inl ⟨by omega, by rw [hev, ackEvent, if_pos hone], ?_⟩
          rw [if_pos hone] at hp'
          intro hy
          obtain ⟨_, -, -, -, hp''⟩ := round_pendingAcks h' hy
          have hnone : b'.bank.view.pending = none := hp'
          rw [hnone] at hp''
          cases hp''
        · rw [if_neg hone] at hp'
          obtain ⟨hy, hn⟩ := hgoes hp'
          exact .inr ⟨by omega, by rw [hev, ackEvent, if_neg hone], hy, by omega⟩
      · exact absurd rfl (hne k)
  · refine .inr ⟨fun k hk => hact ⟨k, hk⟩, hsame ?_⟩
    rcases hcase with rfl | hmove | ⟨a, rfl, hbank⟩
    · rfl
    · have hsame : b'.bank = b.bank := by cases hmove <;> rfl
      rw [hsame]
    · obtain ⟨⟨k, rfl⟩, -⟩ | ⟨-, hp'⟩ := hbank.pending hp
      · exact absurd ⟨k, rfl⟩ hact
      · exact hp'.trans hp.symm

end Round

/-! ## The directory and the counters -/

/-- The books of a block: who has a copy, what the states say of the sharer list, what a round waits
for, and what the L1s wait for. -/
structure Accounting (b : Block ι (L2Bank ι)) : Prop where
  holder : ∀ i, b.Holder i → i ∈ b.bank.sharers ∨ InRound b ∧ b.requestToL1 i ≠ []
  sharers_S : L2.getState b = .S → b.bank.sharers = ∅
  sharers_SS : L2.getState b = .SS → b.bank.sharers.Nonempty
  pendingAcks : InRound b → ∃ t, b.bank.tbe = some t ∧ 0 < t.pendingAcks ∧ t.pendingAcks = b.inFlight
  quiet : ¬ InRound b → b.inFlight = 0
  pendingReads : ∀ i, ∀ t ∈ (b.l1 i).tbe,
    t.pendingReads = (b.map L2Bank.view).outstanding i .read
  pendingWrites : ∀ i, ∀ t ∈ (b.l1 i).tbe, t.pendingWrites =
    (b.map L2Bank.view).outstanding i .write + (b.map L2Bank.view).outstanding i .atomic
  idle : ∀ i, (b.l1 i).tbe = none → ∀ k, (b.map L2Bank.view).outstanding i k = 0

section Accounting

variable {ee : Bool} {space : MemorySpaceType} {b : Block ι (L2Bank ι)}

omit [Fintype ι] in
theorem view_sharers_subset (k : L2Bank ι) : k.view.sharers ⊆ k.sharers := by
  simp only [L2Bank.view]
  cases k.tbe with
  | none => exact Finset.Subset.rfl
  | some t =>
    simp only [Option.map_some, Option.getD_some, TBE.keeps]
    split
    · exact Finset.inter_subset_left
    · exact Finset.empty_subset _
    · exact Finset.Subset.rfl

omit [DecidableEq ι] [Fintype ι] in
theorem Shape.sharers (h : Shape space b.bank) :
    (L2.getState b = .S → b.bank.sharers = ∅) ∧ (L2.getState b = .SS → b.bank.sharers.Nonempty) := by
  generalize hk : b.bank = k at h
  cases h with
  | NP | S | ISS => simp [L2.getState, L2Bank.sharers, hk]
  | SS hne => simpa [L2.getState, L2Bank.sharers, hk] using hne
  | fetch atomic => cases atomic <;> simp [L2.getState, fetching, hk]
  | invalidate atomic hne => cases atomic <;> simp [L2.getState, invalidatingBank, invalidating, hk]
  | evicted hs => rcases hs with rfl | rfl <;> simp [L2.getState, hk]

theorem accounting (h : (refinement ee space).Sound b) : Accounting b where
  holder i hi := by
    rcases h.holder hi with hs | ⟨hp, hne⟩
    · exact .inl (view_sharers_subset _ hs)
    · obtain ⟨hr, -⟩ | ⟨-, hnone⟩ := Shape.round h.shape
      · exact .inr ⟨hr, hne⟩
      · exact absurd hnone hp
  sharers_S := (Shape.sharers h.shape).1
  sharers_SS := (Shape.sharers h.shape).2
  pendingAcks hr := by
    obtain ⟨t, ht, hpos, hsum, -⟩ := round_pendingAcks h hr
    exact ⟨t, ht, hpos, hsum⟩
  quiet := not_round_inFlight h
  pendingReads i t ht := (h.inv.line i).reads t ht
  pendingWrites i t ht := (h.inv.line i).writes t ht
  idle i := (h.inv.line i).tbe_eq_none_iff.mp

end Accounting

/-! ## Notices -/

section Notices

variable {space : MemorySpaceType} {b b' : Block ι (L2Bank ι)} {act : BlockAct ι} {i : ι}
  {rest : List (RequestMsg ι)}

theorem notice_step (h : (refinement true space).Sound b) (hq : b.l1RequestToL2Cache = evicMsg i :: rest)
    (hstep : b.step (protocol true) (L2.bank true) space (.l2 .request) = some (.ok b')) :
    b'.bank = b.bank ∨ L2.getState b = .SS ∧ i ∈ b.bank.sharers ∧
      b'.bank.sharers = b.bank.sharers.erase i := by
  have hstep' : L2.stepRequest true b = some (.ok b') := hstep
  by_cases hss : L2.getState b = .SS
  · have hshape := h.shape
    generalize hk : b.bank = k at hshape
    cases hshape with
    | @SS sharers dirty hne =>
      rw [stepRequest_notice_SS hk hq] at hstep'
      obtain rfl := Except.ok.inj (Option.some.inj hstep')
      by_cases hi : i ∈ sharers
      · exact .inr ⟨hss, hi, rfl⟩
      · have hall : sharers ≠ {i} := by
          rintro rfl
          exact hi (Finset.mem_singleton_self i)
        exact .inl (by simp [Finset.erase_eq_of_notMem hi, hall])
    | NP | S | ISS => simp [L2.getState, hk] at hss
    | fetch atomic => cases atomic <;> simp [L2.getState, fetching, hk] at hss
    | invalidate atomic => cases atomic <;> simp [invalidatingBank, L2.getState, invalidating, hk] at hss
    | evicted hs => rcases hs with rfl | rfl <;> simp [L2.getState, hk] at hss
  · rw [stepRequest_notice h.shape hss hq] at hstep'
    obtain rfl := Except.ok.inj (Option.some.inj hstep')
    exact .inl rfl

theorem not_serves_of_noticed (h : (refinement true space).Sound b) (hn : b.Noticed i) : ¬ Serves b i := by
  have hnoted := h.notices i hn
  rintro (⟨m, rest, hq, hreq, hk⟩ | ⟨x, hx, hxi⟩)
  · obtain ⟨m', rest', hp, hk', -⟩ := hnoted.pipe
    have hhead : (b.map (refinement true space).view).pipe i =
        m :: (rest.filter (fun m => m.requestor = i) ++ b.toL2 i) := by
      simp [Block.pipe, Block.map, hq, hreq]
    rw [hhead] at hp
    exact hk ((List.cons.inj hp).1 ▸ hk')
  · exact hnoted.waiting x hx hxi

theorem late_step (h : (refinement true space).Sound b) (hn : b.Noticed i) (hi : i ∉ b.bank.sharers)
    (hother : ¬ (act = .l2 .request ∧ ∃ rest, b.l1RequestToL2Cache = evicMsg i :: rest))
    (hstep : b.step (protocol true) (L2.bank true) space act = some (.ok b')) :
    b'.Noticed i ∧ i ∉ b'.bank.sharers := by
  obtain ⟨b'', hb, -, rfl | hmove | ⟨a, rfl, hbank⟩⟩ :=
    (refinement true space).step_spec h (by cases act <;> trivial) hstep
  · obtain rfl := Except.ok.inj hb
    exact ⟨hn, hi⟩
  · obtain rfl := Except.ok.inj hb
    have hsame : b'.bank = b.bank := by cases hmove <;> rfl
    exact ⟨(hmove.map L2Bank.view).noticed h.inv hn, by rwa [hsame]⟩
  · obtain rfl := Except.ok.inj hb
    refine ⟨hbank.noticed hn ?_, ?_⟩
    · rintro m rest rfl hq hreq hk
      have hsent : m.Sent (protocol true) space := h.inv.queue m (by rw [hq]; exact List.mem_cons_self)
      cases hsent with
      | gets => cases hk
      | write atomic => cases atomic <;> cases hk
      | notice j =>
        obtain rfl : j = i := hreq
        exact hother ⟨rfl, rest, hq⟩
    · rcases bank_spec h.shape h.inv h.notices hstep with hstall | ⟨b₁, hb₁, -, hgrow, -⟩
      · obtain rfl := Except.ok.inj hstall
        exact hi
      · rw [Block.step, hb₁] at hstep
        obtain rfl := Except.ok.inj (Option.some.inj hstep)
        intro hmem
        exact (hgrow i hmem).elim hi (not_serves_of_noticed h hn)

end Notices

/-! ## Write atomicity -/

/-- **Write atomicity of VI_wt.** In every run, a step that sends the answer of a write does so when
no L1 but the writer has a copy, and no data is on its way to an L1 that is going to install it. -/
theorem write_atomic {space : α → MemorySpaceType} {t : α → Block ι (L2Bank ι)}
    (h : (machine ι false space).Reachable s) {act : FamilyAct α (BlockAct ι)}
    (hstep : (machine ι false space).step s act = some (.ok t)) (a : α) : WriteAtomic (s a) (t a) :=
  Refinement.reachable_writeAtomic (fun a => refinement false (space a)) (reachable_each h)
    (each_true s act) hstep a

/-- Two L1s and one block. -/
abbrev twoL1s (ee : Bool) :
    Machine (Unit → Block Bool (L2Bank Bool)) (FamilyAct Unit (BlockAct Bool)) Fault :=
  machine Bool ee fun _ => .GLOBAL

/-- `false` has a copy and `true` writes; the acknowledgement of `false` is under way. -/
def sharedWrite : List (FamilyAct Unit (BlockAct Bool)) :=
  [.at () (.core false .LD 0), .at () (.arrive false), .at () (.l2 .request), .at () (.l2 .memory),
   .at () (.l1Response false 0), .at () (.core true .ST 0), .at () (.arrive true),
   .at () (.l2 .request), .at () (.l1Inv false 0)]

theorem write_atomic_shared : ∃ s t, (twoL1s false).Reachable s ∧
    (twoL1s false).step s (.at () (.l2 (.unblock 0))) = some (.ok t) ∧
    (t ()).answers.map ResponseMsg.type = [.DATA, .WB_ACK] ∧ WriteAtomic (s ()) (t ()) := by
  obtain ⟨s, hs, hreach, -⟩ := (twoL1s false).exists_reachable_of_run sharedWrite
    (fun s => (s ()).answers.length) (y := 1) rfl
  have hrun : ((twoL1s false).run [.at () (.l2 (.unblock 0))] s).map
      (fun t => (t ()).answers.map ResponseMsg.type) = some [.DATA, .WB_ACK] := by
    obtain rfl := Option.some.inj hs
    rfl
  obtain ⟨t, ht, hans⟩ := Option.map_eq_some_iff.mp hrun
  have hstep := Machine.step_of_run ht
  exact ⟨s, t, hreach, hstep, hans, write_atomic hreach hstep ()⟩

/-! ## The books of VI_wt -/

/-- What the directory guarantees of the block `a`. -/
structure Accounted (ee : Bool) (space : α → MemorySpaceType) (s : α → Block ι (L2Bank ι)) (a : α) :
    Prop where
  accounting : Accounting (s a)
  /-- `Inv_Ack_All` ends a round, with its last message, and nothing else does. -/
  round : ∀ act t, InRound (s a) → (machine ι ee space).step s (.at a act) = some (.ok t) →
    RoundStep act (s a) (t a)
  /-- Every request gets exactly one response. -/
  answers : AnsweredOnce (protocol ee) (L2.bank ee) (space a) (fun _ _ => True) L2Bank.view (s a)
  /-- No controller meets an undeclared event or fails an assertion. -/
  faultless : ∀ act e, (machine ι ee space).step s act ≠ some (.error e)

/-- **Directory and acknowledgement accounting of VI_wt.** -/
theorem directory_accounting {space : α → MemorySpaceType}
    (h : (machine ι false space).Reachable s) (a : α) : Accounted false space s a where
  accounting := Inclusive.accounting (sound h a)
  round act t hr hstep := by
    obtain ⟨b', hb', rfl⟩ := Component.family_step_at hstep
    rw [update_self]
    exact round_step (sound h a) hr hb'
  answers := Refinement.reachable_answeredOnce (fun a => refinement false (space a))
    (fun a => live false (space a)) id (reachable_each h) a
  faultless act e := Refinement.no_fault (fun a => refinement false (space a)) (reachable_each h)
    (each_true s act) e

/-- In the middle of a round. -/
theorem directory_accounting_shared : ∃ s, (twoL1s false).Reachable s ∧ InRound (s ()) ∧
    (s ()).inFlight = 1 ∧ Accounted false (fun _ => .GLOBAL) s () := by
  obtain ⟨s, -, hreach, hf⟩ := (twoL1s false).exists_reachable_of_run sharedWrite
    (fun s => (L2.getState (s ()), (s ()).inFlight)) (y := (.SM, 1)) rfl
  obtain ⟨hstate, hone⟩ := Prod.mk.inj hf
  exact ⟨s, hreach, .inl hstate, hone, directory_accounting hreach ()⟩

/-! ## The notices of VI_wt_ee -/

/-- The step that handles a notice of `i` for the block `a`. -/
def HandlesNotice (a : α) (i : ι) (s : α → Block ι (L2Bank ι)) (act : FamilyAct α (BlockAct ι)) :
    Prop :=
  act = .at a (.l2 .request) ∧ ∃ rest, (s a).l1RequestToL2Cache = evicMsg i :: rest

/-- The runs of VI_wt_ee that go on from `s`. -/
def continuing (space : α → MemorySpaceType) (s : α → Block ι (L2Bank ι)) :
    Machine (α → Block ι (L2Bank ι)) (FamilyAct α (BlockAct ι)) Fault :=
  { machine ι true space with init := s }

/-- What notices do and do not do to the block `a`. -/
structure NoticeSafe (space : α → MemorySpaceType) (s : α → Block ι (L2Bank ι)) (a : α) : Prop where
  /-- The sender of a notice has no copy and no data to install, as long as it is under way. -/
  holder : ∀ i, (s a).Noticed i → ¬ (s a).Holder i
  /-- A notice does nothing or takes its sender off the list, so it takes no holder off. -/
  removes : ∀ i t, HandlesNotice a i s (.at a (.l2 .request)) →
    (machine ι true space).step s (.at a (.l2 .request)) = some (.ok t) →
    ((t a).bank = (s a).bank ∨ L2.getState (s a) = .SS ∧ i ∈ (s a).bank.sharers ∧
      (t a).bank.sharers = (s a).bank.sharers.erase i) ∧
    ∀ j ∈ (s a).bank.sharers, (s a).Holder j → j ∈ (t a).bank.sharers
  /-- Nobody has a copy of a block in `S`. -/
  unshared : L2.getState (s a) = .S → ∀ i, ¬ (s a).Holder i
  /-- When a write is answered no other L1 has a copy. -/
  atomic : ∀ act t, (machine ι true space).step s act = some (.ok t) → WriteAtomic (s a) (t a)
  /-- Once the sender of a notice is off the list, nothing puts it back before the notice is handled,
  which changes nothing then. -/
  late : ∀ i, (s a).Noticed i → i ∉ (s a).bank.sharers →
    ∀ t, (continuing space s).ReachableUnder (fun u act => ¬ HandlesNotice a i u act) t →
      (t a).Noticed i ∧ i ∉ (t a).bank.sharers ∧
      ∀ u, HandlesNotice a i t (.at a (.l2 .request)) →
        (machine ι true space).step t (.at a (.l2 .request)) = some (.ok u) → (u a).bank = (t a).bank

theorem late_run {space : α → MemorySpaceType} {t : α → Block ι (L2Bank ι)} {a : α} {i : ι}
    (h : (machine ι true space).Reachable s) (hn : (s a).Noticed i) (hi : i ∉ (s a).bank.sharers)
    (ht : (continuing space s).ReachableUnder (fun u act => ¬ HandlesNotice a i u act) t) :
    (machine ι true space).Reachable t ∧ (t a).Noticed i ∧ i ∉ (t a).bank.sharers := by
  induction ht with
  | init => exact ⟨h, hn, hi⟩
  | @step u act v _ hnot hstep ih =>
    obtain ⟨hreach, hn, hi⟩ := ih
    have hstep' : (machine ι true space).step u act = some (.ok v) := hstep
    refine ⟨hreach.step trivial hstep', ?_⟩
    cases act with
    | tick =>
      obtain rfl : u = v := by simpa [machine, system, Component.family, blockComponent] using hstep'
      exact ⟨hn, hi⟩
    | «at» k act =>
      obtain ⟨b', hb', rfl⟩ := Component.family_step_at hstep'
      by_cases hak : a = k
      · subst hak
        rw [update_self]
        refine late_step (sound hreach a) hn hi ?_ hb'
        rintro ⟨rfl, hq⟩
        exact hnot ⟨rfl, hq⟩
      · rw [update_of_ne hak]
        exact ⟨hn, hi⟩

/-- **Eviction notices of VI_wt_ee are safe.** -/
theorem notice_safety {space : α → MemorySpaceType}
    (h : (machine ι true space).Reachable s) (a : α) : NoticeSafe space s a where
  holder i hi := ((sound h a).notices i hi).not_holder
  removes i t hhandles hstep := by
    obtain ⟨-, rest, hq⟩ := hhandles
    obtain ⟨b', hb', rfl⟩ := Component.family_step_at hstep
    rw [update_self]
    have heffect := notice_step (sound h a) hq hb'
    refine ⟨heffect, ?_⟩
    intro j hj hold
    rcases heffect with hsame | ⟨-, -, herase⟩
    · rwa [hsame]
    · rw [herase, Finset.mem_erase]
      refine ⟨?_, hj⟩
      rintro rfl
      exact (sound h a).notices.not_holder (m := evicMsg j) hq rfl hold
  unshared hS i hold := by
    have hacc := accounting (sound h a)
    rcases hacc.holder i hold with hi | ⟨hr, -⟩
    · rw [hacc.sharers_S hS] at hi
      cases hi
    · simp [InRound, hS] at hr
  atomic act t hstep :=
    Refinement.reachable_writeAtomic (fun a => refinement true (space a)) (reachable_each h)
      (each_true s act) hstep a
  late i hn hi t ht := by
    obtain ⟨hreach, hn', hi'⟩ := late_run h hn hi ht
    refine ⟨hn', hi', ?_⟩
    rintro u ⟨-, rest, hq⟩ hstep
    obtain ⟨b', hb', rfl⟩ := Component.family_step_at hstep
    rw [update_self]
    rcases notice_step (sound hreach a) hq hb' with hsame | ⟨-, hmem, -⟩
    · exact hsame
    · exact absurd hmem hi'

/-- The notice of `false` is still under way when the block has been recalled from it and is shared
by `true`. -/
theorem notice_safety_late : ∃ s, (twoL1s true).Reachable s ∧ (s ()).bank.sharers = {true} ∧
    (s ()).toL2 false = [evicMsg false] ∧ NoticeSafe (fun _ => .GLOBAL) s () := by
  obtain ⟨s, -, hreach, hf⟩ := (twoL1s true).exists_reachable_of_run
    [.at () (.core false .LD 0), .at () (.arrive false), .at () (.l2 .request), .at () (.l2 .memory),
     .at () (.l1Response false 0), .at () (.l1Replace false), .at () (.l2 .replace),
     .at () (.l1Inv false 0), .at () (.l2 (.unblock 0)), .at () (.core true .LD 0),
     .at () (.arrive true), .at () (.l2 .request), .at () (.l2 .memory)]
    (fun s => ((s ()).bank.sharers, (s ()).toL2 false)) (y := ({true}, [evicMsg false])) rfl
  obtain ⟨hsharers, hto⟩ := Prod.mk.inj hf
  exact ⟨s, hreach, hsharers, hto, notice_safety hreach ()⟩

end GpgpuSimRuby.Ruby.ViWt.Inclusive
