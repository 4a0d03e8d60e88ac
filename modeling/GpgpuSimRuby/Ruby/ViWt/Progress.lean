import GpgpuSimRuby.Ruby.ViWt.Refinement

/-!
# VI_wt: deliveries come to an end, and then everything is answered

What the L1s and the bank have sent can be delivered in many orders. No order goes on for ever, and
none gets stuck before every request is answered:

* `work` — how much there is left to deliver. Every delivery that has an effect lowers it, so a run
  of deliveries is no longer than the work at its start (`Deliveries.le_work`).
* `Live` — a bank without a round or a fetch under way takes the next request; an acknowledgement
  and data from the DRAM are taken when they come.
* `Deliveries.answered` — where no delivery has an effect any more, nothing is left unanswered.

A delivery that stalls has no effect: the message stays where it is.
-/

namespace GpgpuSimRuby.Ruby.ViWt

open Library

variable {ι β : Type} [DecidableEq ι] [Fintype ι]

/-- The steps that handle something that is under way. -/
def BankAct.Delivers : BankAct → Prop
  | .request | .unblock _ | .memory => True
  | .replace | .dirReplace => False

def BlockAct.Delivers : BlockAct ι → Prop
  | .l1Response .. | .l1Inv .. | .arrive _ => True
  | .l2 act => act.Delivers
  | .core .. | .l1Replace _ => False

namespace Block

/-! ## The measure -/

/-- The work left. A request is worth an invalidation of every L1 with its acknowledgement, a fetch,
and its response. -/
def work (b : Block ι (View ι)) : Nat :=
  (2 * Fintype.card ι + 5) * ∑ i, (b.toL2 i).length +
  (2 * Fintype.card ι + 4) * b.l1RequestToL2Cache.length +
  2 * b.bank.waiting.length + b.bank.memReads +
  2 * ∑ i, (b.requestToL1 i).length + b.unblockToL2Cache.length + ∑ i, (b.responseToL1 i).length

variable {p : L1.Protocol} {space : MemorySpaceType} {b b' : Block ι (View ι)} {forgetful : Prop}
variable {act : BankAct}

theorem L1Move.work_lt {act : BlockAct ι} (h : L1Move p space b act b') (hd : act.Delivers) :
    b'.work < b.work := by
  cases h with
  | core => exact hd.elim
  | replace => exact hd.elim
  | response hm =>
    have hsum := sum_length_update hm
    simp only [work]
    omega
  | invalidate hm =>
    have hsum := sum_length_update hm
    simp only [work, List.length_append, List.length_singleton]
    omega
  | @arrive i m rest hq =>
    have hsum := sum_apply_update List.length b.toL2 i rest
    have hone : ∑ j, (b.toL2 j).length = ∑ j, (Function.update b.toL2 i rest j).length + 1 := by
      rw [hq, List.length_cons] at hsum
      omega
    simp only [work, List.length_append, List.length_singleton, hone]
    ring_nf
    omega

theorem sum_length_append {α : Type} (f : ι → List α) (T : Finset ι) (a : α) :
    ∑ i, (if i ∈ T then f i ++ [a] else f i).length = ∑ i, (f i).length + T.card := by
  have hone : ∀ i, (if i ∈ T then f i ++ [a] else f i).length =
      (f i).length + if i ∈ T then 1 else 0 := by
    intro i
    split <;> simp
  simp [hone, Finset.sum_add_distrib]

omit [DecidableEq ι] in
theorem Adjust.work_eq (h : Adjust b b') : b'.work = b.work := by
  obtain ⟨v, rfl, hw, -, hm, -⟩ := h
  simp [work, hw, hm]

theorem Invalidate.work_le (h : Invalidate b b') : b'.work ≤ b.work + 2 * Fintype.card ι := by
  cases h with
  | @mk type T asked htype hpending hT hasked =>
    have hsum := sum_length_append b.requestToL1 T { type := type, destination := T }
    have hcard : T.card ≤ Fintype.card ι := Finset.card_le_univ T
    simp only [work, L2.sendInv, hsum]
    omega

theorem Answer.work_le {r : ResponseMsg ι} (h : Answer b r b') : b'.work ≤ b.work := by
  have hsum := sum_length_append b.responseToL1 r.destination r
  have hcard : r.destination.card ≤ b.bank.waiting.length := by
    cases h with
    | reads _ _ hdest =>
      have himage : r.destination = (b.bank.waiting.map fun x => x.2.sid).toFinset := by
        ext i
        rw [hdest]
        simp
      rw [himage]
      refine (List.toFinset_card_le _).trans ?_
      rw [List.length_map]
    | write _ _ hw hdest =>
      rw [hw, hdest]
      simp
  have hsend : b' = L2.send r { b with bank := { b.bank with waiting := [] } } := by
    cases h <;> rfl
  subst hsend
  simp only [work, L2.send, hsum, List.length_nil]
  omega

theorem Trigger.work_lt (h : Trigger forgetful b act b') (hd : act.Delivers) :
    b'.work < b.work ∧ (act.Starts → b'.work + 2 * Fintype.card ι < b.work) := by
  cases h with
  | take fetches hq hx hf =>
    simp only [work, hq, List.length_cons, List.length_append, List.length_nil, mul_add, mul_one]
    exact ⟨by omega, fun _ => by omega⟩
  | notice hq hk =>
    simp only [work, hq, List.length_cons, mul_add, mul_one]
    exact ⟨by omega, fun _ => by omega⟩
  | ack hk hn =>
    have hlen := length_eraseIdx_getElem? hk
    refine ⟨?_, fun h => h.elim⟩
    simp only [work, hlen]
    omega
  | memory hm =>
    refine ⟨?_, fun h => h.elim⟩
    simp only [work]
    omega
  | forget hf hm hw =>
    refine ⟨?_, fun h => h.elim⟩
    simp only [work, hw, List.length_singleton]
    omega
  | replace => exact hd.elim
  | dirReplace => exact hd.elim

/-- **Every delivery** to the bank that is taken lowers the work. -/
theorem BankStep.work_lt (h : BankStep forgetful act b b') (hd : act.Delivers) : b'.work < b.work := by
  cases h with
  | @handle b₁ b₂ b₃ b₄ before trigger round answer after =>
    have h₁ := before.work_eq
    obtain ⟨h₂, hstart⟩ := trigger.work_lt hd
    have h₃ : b₃.work < b.work := by
      rcases round with rfl | ⟨hs, hr⟩
      · rwa [← h₁]
      · have := hr.work_le
        have := hstart hs
        omega
    have h₄ : b₄.work ≤ b₃.work := by
      rcases answer with rfl | ⟨r, hr⟩
      · exact le_rfl
      · exact hr.work_le
    rw [after.work_eq]
    omega

/-! ## Something can be delivered -/

/-- What a bank is expected to take without a stall. -/
inductive Ready (b : Block ι (View ι)) : BankAct → Prop
  | request (hq : b.l1RequestToL2Cache ≠ []) (hp : b.bank.pending = none)
      (hm : b.bank.memReads = 0) : Ready b .request
  | unblock {k} (hk : k < b.unblockToL2Cache.length) : Ready b (.unblock k)
  | memory (hp : b.bank.pending = none) (hm : 0 < b.bank.memReads) : Ready b .memory

omit [DecidableEq ι] [Fintype ι] in
theorem Ready.delivers (h : Ready b act) : act.Delivers := by
  cases h <;> trivial

theorem Inv.exists_ready (hinv : b.Inv p space) (hopen : b.unanswered ≠ 0)
    (hsettled : b.bank.pending = none → b.bank.memReads = 0 → b.bank.waiting = []) :
    (∃ i, b.toL2 i ≠ []) ∨ (∃ i, b.requestToL1 i ≠ []) ∨ ∃ act, b.Ready act := by
  by_contra hnone
  simp only [not_or, not_exists, not_not] at hnone
  obtain ⟨hto, hinvs, hready⟩ := hnone
  have hpending : b.bank.pending = none := by
    rw [Option.eq_none_iff_forall_ne_some]
    intro n hn
    obtain ⟨hpos, hsum⟩ := hinv.round n hn
    have hlen : 0 < b.unblockToL2Cache.length := by
      simp only [hinvs, List.length_nil, Finset.sum_const_zero] at hsum
      omega
    exact hready _ (.unblock hlen)
  have hmem : b.bank.memReads = 0 := by
    by_contra hne
    exact hready _ (.memory hpending (Nat.pos_of_ne_zero hne))
  have hqueue : b.l1RequestToL2Cache = [] := by
    by_contra hne
    exact hready _ (.request hne hpending hmem)
  refine hopen ?_
  simp [unanswered, hto, hqueue, hsettled hpending hmem]

end Block

/-! ## Runs of deliveries -/

/-- A run of `n` deliveries that all have an effect. -/
inductive Deliveries (p : L1.Protocol) (C : BankController ι β) (space : MemorySpaceType)
    (ok : Block ι β → BankAct → Prop) (b : Block ι β) : Nat → Block ι β → Prop
  | refl : Deliveries p C space ok b 0 b
  | step {n b' b'' act} : Deliveries p C space ok b n b' → act.Delivers → BankOk ok b' act →
      b'.step p C space act = some (.ok b'') → b'' ≠ b' → Deliveries p C space ok b (n + 1) b''

namespace Refinement

variable {p : L1.Protocol} {C : BankController ι β} {ok : Block ι β → BankAct → Prop}
  {forgetful : Prop} {space : MemorySpaceType} (R : Refinement p C space ok forgetful)
  {b b' : Block ι β}

/-- The bank does not keep a request for nothing, and takes what is ready. -/
structure Live : Prop where
  settled : ∀ {k : β}, R.Shape k → (R.view k).pending = none → (R.view k).memReads = 0 →
    (R.view k).waiting = []
  ready : ∀ {b : Block ι β} {act : BankAct}, R.Sound b → (b.map R.view).Ready act →
    ok b act ∧ ∃ b', C.step act b = some (.ok b') ∧
      Block.BankStep forgetful act (b.map R.view) (b'.map R.view)

variable {R} {n : Nat}

theorem Sound.deliver_work_lt (h : R.Sound b) {act : BlockAct ι} (hd : act.Delivers)
    (hok : BankOk ok b act) (hstep : b.step p C space act = some (.ok b')) (hne : b' ≠ b) :
    (b'.map R.view).work < (b.map R.view).work := by
  obtain ⟨b'', hb, -, rfl | hmove | ⟨a, rfl, hbank⟩⟩ := R.step_spec h hok hstep
  · obtain rfl := Except.ok.inj hb
    exact absurd rfl hne
  · obtain rfl := Except.ok.inj hb
    exact (hmove.map R.view).work_lt hd
  · obtain rfl := Except.ok.inj hb
    exact hbank.work_lt hd

theorem Sound.deliveries (h : R.Sound b) (hrun : Deliveries p C space ok b n b') :
    R.Sound b' ∧ n + (b'.map R.view).work ≤ (b.map R.view).work := by
  induction hrun with
  | refl => exact ⟨h, by omega⟩
  | step _ hd hok hstep hne ih =>
    have hlt := ih.1.deliver_work_lt hd hok hstep hne
    exact ⟨R.sound_step ih.1 hok hstep, by omega⟩

theorem Sound.deliveries_ledger (h : R.Sound b) (hf : ¬ forgetful)
    (hledger : (b.map R.view).Ledger) (hrun : Deliveries p C space ok b n b') : (b'.map R.view).Ledger := by
  induction hrun with
  | refl => exact hledger
  | step hrun _ hok hstep _ ih => exact R.ledger_step hf (h.deliveries hrun).1 ih hok hstep

/-- **Deliveries come to an end.** -/
theorem Sound.deliveries_le_work (h : R.Sound b)
    (hrun : Deliveries p C space ok b n b') : n ≤ (b.map R.view).work := by
  have := (h.deliveries hrun).2
  omega

/-- A block with something unanswered, or a response under way, has a delivery that has an effect. -/
theorem Live.exists_delivery (hlive : R.Live) (h : R.Sound b)
    (hopen : (b.map R.view).unanswered ≠ 0 ∨ ∃ i, b.responseToL1 i ≠ []) :
    ∃ act b', act.Delivers ∧ BankOk ok b act ∧ b.step p C space act = some (.ok b') ∧ b' ≠ b := by
  -- an effect shows in the work
  have heffect : ∀ {b'}, (b'.map R.view).work < (b.map R.view).work → b' ≠ b := by
    rintro b' hlt rfl
    exact lt_irrefl _ hlt
  -- the L1s and the request network take what they get
  have hmove : ∀ (act : BlockAct ι), act.Delivers → (∀ a, act ≠ .l2 a) →
      (b.step p C space act).isSome → ∃ act b', act.Delivers ∧ BankOk ok b act ∧
        b.step p C space act = some (.ok b') ∧ b' ≠ b := by
    intro act hd hact hsome
    obtain ⟨r, hstep⟩ := Option.isSome_iff_exists.mp hsome
    obtain ⟨b', rfl, hmove⟩ := Block.step_l1Move h.inv hact hstep
    refine ⟨act, b', hd, ?_, hstep, heffect ((hmove.map R.view).work_lt hd)⟩
    cases act <;> trivial
  rcases hopen with hopen | ⟨i, hi⟩
  · rcases h.inv.exists_ready hopen (hlive.settled h.shape) with ⟨i, hi⟩ | ⟨i, hi⟩ | ⟨act, hready⟩
    · obtain ⟨m, rest, hq⟩ := List.exists_cons_of_ne_nil (show b.toL2 i ≠ [] from hi)
      exact hmove (.arrive i) trivial (by simp) (by simp [Block.step, Block.stepArrive, hq])
    · obtain ⟨m, rest, hq⟩ := List.exists_cons_of_ne_nil (show b.requestToL1 i ≠ [] from hi)
      exact hmove (.l1Inv i 0) trivial (by simp) (by simp [Block.step, Block.stepL1Inv, hq])
    · obtain ⟨hok, b', hstep, hbank⟩ := hlive.ready h hready
      exact ⟨.l2 act, b', hready.delivers, hok, hstep, heffect (hbank.work_lt hready.delivers)⟩
  · obtain ⟨m, rest, hq⟩ := List.exists_cons_of_ne_nil hi
    exact hmove (.l1Response i 0) trivial (by simp) (by simp [Block.step, Block.stepL1Response, hq])

/-- **Deliveries do not get stuck**: where none has an effect any more, everything is answered and
every L1 is done. -/
theorem Live.answered (hlive : R.Live) (h : R.Sound b)
    (hrun : Deliveries p C space ok b n b') (hend : ∀ b'', ¬ Deliveries p C space ok b' 1 b'') :
    (b'.map R.view).unanswered = 0 ∧ ∀ i, b'.responseToL1 i = [] := by
  by_contra hopen
  rw [not_and_or, not_forall] at hopen
  obtain ⟨act, b'', hd, hok, hstep, hne⟩ := hlive.exists_delivery (h.deliveries hrun).1 hopen
  exact hend b'' (.step .refl hd hok hstep hne)

end Refinement

/-! ## Exactly one answer -/

/-- Every request of the block is answered exactly once: the requests differ; each of them is
answered or not yet, but not both, by a response of its kind to its L1; and however the messages are
delivered, that comes to an end and then all requests are answered. -/
structure AnsweredOnce (p : L1.Protocol) (C : BankController ι β) (space : MemorySpaceType)
    (ok : Block ι β → BankAct → Prop) (view : β → View ι) (b : Block ι β) : Prop where
  nodup : (opens b.issued).Nodup
  ledger : (b.map view).Ledger
  addressed : ∀ r ∈ b.answers, ∀ x ∈ r.transactions, x.2.sid ∈ r.destination
  ends : ∃ bound, ∀ n b', Deliveries p C space ok b n b' → n ≤ bound
  answered : ∀ n b', Deliveries p C space ok b n b' → (∀ b'', ¬ Deliveries p C space ok b' 1 b'') →
    closes b'.answers = opens b'.issued ∧ ∀ i, b'.responseToL1 i = []

theorem Refinement.reachable_answeredOnce {α : Type} [DecidableEq α] {p : L1.Protocol}
    {C : BankController ι β} {ok : Block ι β → BankAct → Prop} {forgetful : Prop}
    {space : α → MemorySpaceType} {s : α → Block ι β}
    (R : ∀ a, Refinement p C (space a) ok forgetful) (hlive : ∀ a, (R a).Live) (hf : ¬ forgetful)
    (h : (system p C space).ReachableUnder (Component.Each (BankOk ok)) s) (a : α) :
    AnsweredOnce p C (space a) ok (R a).view (s a) := by
  have hsound := reachable_sound R h a
  have hledger := reachable_ledger R hf h a
  refine ⟨hsound.fresh.nodup, hledger, hsound.fresh.addressed,
    ⟨((s a).map (R a).view).work, ?_⟩, ?_⟩
  · intro n b' hrun
    exact hsound.deliveries_le_work hrun
  · intro n b' hrun hend
    obtain ⟨hzero, hnil⟩ := (hlive a).answered hsound hrun hend
    have hledger' : (b'.map (R a).view).Ledger := hsound.deliveries_ledger hf hledger hrun
    refine ⟨?_, hnil⟩
    rw [Block.Ledger, hzero, zero_add] at hledger'
    exact hledger'.symm

end GpgpuSimRuby.Ruby.ViWt
