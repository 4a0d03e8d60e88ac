import GpgpuSimRuby.Ruby.ViWt.Invariant

/-!
# VI_wt: where the transactions are

Every request an L1 has sent is on the request network, at the bank, or answered: `Ledger` says so as
an equality of multisets, with the kind of each request, so nothing is lost, answered twice, or
answered as something else. It holds of every bank that does not forget what it has taken.

`Fresh` adds that no two requests are the same, since every access has an identifier of its own.
-/

namespace GpgpuSimRuby.Ruby.ViWt

open Library

variable {ι : Type}

/-- The transactions that a list of requests opens. -/
def opens (l : List (RequestMsg ι)) : Multiset (Transaction ι) :=
  l.filterMap RequestMsg.transaction

@[simp] theorem opens_nil : opens ([] : List (RequestMsg ι)) = 0 := rfl

@[simp] theorem opens_append (l l' : List (RequestMsg ι)) : opens (l ++ l') = opens l + opens l' := by
  simp [opens]

theorem opens_cons (m : RequestMsg ι) (l : List (RequestMsg ι)) :
    opens (m :: l) = m.transaction.toList + opens l := by
  cases h : m.transaction <;> simp [opens, h]

/-- The transactions that a list of responses closes. -/
def closes (l : List (ResponseMsg ι)) : Multiset (Transaction ι) := l.flatMap ResponseMsg.transactions

@[simp] theorem closes_append (l l' : List (ResponseMsg ι)) : closes (l ++ l') = closes l + closes l' := by
  simp [closes]

@[simp] theorem closes_singleton (r : ResponseMsg ι) : closes [r] = r.transactions := by
  simp [closes]

namespace Block

variable [DecidableEq ι] [Fintype ι] {p : L1.Protocol} {space : MemorySpaceType}
  {b b' : Block ι (View ι)} {forgetful : Prop}

/-- The transactions that are not answered. -/
def unanswered (b : Block ι (View ι)) : Multiset (Transaction ι) :=
  ∑ i, opens (b.toL2 i) + opens b.l1RequestToL2Cache + b.bank.waiting

/-- Every request that was sent is under way, at the bank or answered. -/
def Ledger (b : Block ι (View ι)) : Prop := opens b.issued = b.unanswered + closes b.answers

theorem Ledger.core {i : ι} {type : CacheRequestType} {wid : Nat} (h : b.Ledger)
    (hmove : L1Move p space b (.core i type wid) b') : b'.Ledger := by
  cases hmove with
  | @core _ _ _ sent ℓ hstep =>
    have hsum := sum_apply_update opens b.toL2 i (b.toL2 i ++ sent.toList)
    rw [opens_append, ← add_assoc] at hsum
    have hsum' : ∑ j, opens (Function.update b.toL2 i (b.toL2 i ++ sent.toList) j) =
        ∑ j, opens (b.toL2 j) + opens sent.toList := by
      refine add_right_cancel (b := opens (b.toL2 i)) ?_
      rw [hsum]
      abel
    simp only [Ledger, unanswered, opens_append, hsum'] at h ⊢
    rw [h]
    abel

theorem L1Move.ledger {act : BlockAct ι} (hmove : L1Move p space b act b') (h : b.Ledger) : b'.Ledger := by
  cases act with
  | core i type wid => exact h.core hmove
  | l1Replace i =>
    cases hmove with
    | @replace _ sent ℓ hstep =>
      have hnone : opens sent.toList = 0 := by
        cases sent with
        | none => rfl
        | some m =>
          obtain ⟨-, rfl, -⟩ := hstep.notice rfl
          rfl
      have hsum := sum_apply_update opens b.toL2 i (b.toL2 i ++ sent.toList)
      rw [opens_append, hnone, add_zero] at hsum
      simp only [Ledger, unanswered, add_right_cancel hsum] at h ⊢
      exact h
  | l1Response i k =>
    cases hmove
    exact h
  | l1Inv i k =>
    cases hmove
    exact h
  | arrive i =>
    cases hmove with
    | @arrive _ m rest hq =>
      have hsum := sum_apply_update opens b.toL2 i rest
      rw [hq, opens_cons] at hsum
      have hsum' : ∑ j, opens (b.toL2 j) =
          ∑ j, opens (Function.update b.toL2 i rest j) + m.transaction.toList := by
        refine add_right_cancel (b := opens rest) ?_
        rw [← hsum]
        abel
      simp only [Ledger, unanswered, opens_append, opens_cons, opens_nil, hsum'] at h ⊢
      rw [h]
      abel
  | l2 act => cases hmove

theorem Trigger.ledger {act : BankAct} (htrig : Trigger forgetful b act b') (hf : ¬ forgetful)
    (h : b.Ledger) : b'.Ledger := by
  cases htrig with
  | @take m rest x fetches hq hx hfetch =>
    simp only [Ledger, unanswered, hq, opens_cons, hx, Option.toList_some] at h ⊢
    rw [h, ← Multiset.coe_add]
    abel
  | @notice m rest hq hk =>
    have hx : m.transaction = none := by simp [RequestMsg.transaction, hk]
    simpa [Ledger, unanswered, hq, opens_cons, hx] using h
  | ack hk hn => exact h
  | memory hm => exact h
  | forget hforget => exact absurd hforget hf
  | replace => exact h
  | dirReplace => exact h

omit [DecidableEq ι] in
theorem Adjust.ledger (hadj : Adjust b b') (h : b.Ledger) : b'.Ledger := by
  obtain ⟨v, rfl, hw, -⟩ := hadj
  simpa only [Ledger, unanswered, hw] using h

theorem Answer.ledger {r : ResponseMsg ι} (hans : Answer b r b') (h : b.Ledger) : b'.Ledger := by
  have hclose : r.transactions = b.bank.waiting ∧
      b' = L2.send r { b with bank := { b.bank with waiting := [] } } := by
    cases hans with
    | reads _ hr => exact ⟨hr, rfl⟩
    | write _ hr hw => exact ⟨hr.trans hw.symm, rfl⟩
  obtain ⟨hr, rfl⟩ := hclose
  simp only [Ledger, unanswered, L2.send, closes_append, closes_singleton, hr] at h ⊢
  rw [h, Multiset.coe_nil]
  abel

/-- **The bank** loses no transaction. -/
theorem BankStep.ledger {act : BankAct} (hstep : BankStep forgetful act b b') (hf : ¬ forgetful)
    (h : b.Ledger) : b'.Ledger := by
  cases hstep with
  | @handle b₁ b₂ b₃ b₄ before trigger round answer after =>
    have h₂ := trigger.ledger hf (before.ledger h)
    have h₃ : b₃.Ledger := by
      rcases round with rfl | ⟨-, hr⟩
      · exact h₂
      · cases hr
        exact h₂
    have h₄ : b₄.Ledger := by
      rcases answer with rfl | ⟨r, hr⟩
      · exact h₃
      · exact hr.ledger h₃
    exact after.ledger h₄

/-! ## No two transactions are the same -/

/-- Every request has a transaction of its own, and its answer is addressed to it. -/
structure Fresh (b : Block ι (View ι)) : Prop where
  nodup : (opens b.issued).Nodup
  lt : ∀ x ∈ opens b.issued, x.2.uid < b.nextUid
  addressed : ∀ r ∈ b.answers, ∀ x ∈ r.transactions, x.2.sid ∈ r.destination

omit [DecidableEq ι] [Fintype ι] in
theorem CoreStep.opens_sent {g : MemFetch ι} {ℓ ℓ' : L1Line} {sent : Option (RequestMsg ι)}
    (h : CoreStep space g ℓ sent ℓ') : opens sent.toList = 0 ∨ ∃ k, opens sent.toList = {(k, g)} := by
  cases h with
  | hit => exact .inl rfl
  | loadMiss | loadMore => exact .inr ⟨.read, rfl⟩
  | writeHit | writeHitMore => exact .inr ⟨.write, rfl⟩
  | write _ htype | writeMore _ htype =>
    rcases htype with rfl | rfl
    · exact .inr ⟨.write, rfl⟩
    · exact .inr ⟨.atomic, rfl⟩

omit [Fintype ι] in
theorem L1Move.fresh {act : BlockAct ι} (hmove : L1Move p space b act b') (h : b.Fresh) : b'.Fresh := by
  cases hmove with
  | @core i type wid sent ℓ hstep =>
    refine ⟨?_, ?_, h.addressed⟩
    · rw [opens_append]
      rcases CoreStep.opens_sent hstep with h0 | ⟨k, hk⟩
      · rw [h0, add_zero]
        exact h.nodup
      · rw [hk, Multiset.add_comm, Multiset.singleton_add, Multiset.nodup_cons]
        refine ⟨fun hmem => ?_, h.nodup⟩
        exact Nat.lt_irrefl _ (h.lt _ hmem)
    · intro x hx
      rw [opens_append, Multiset.mem_add] at hx
      rcases hx with hx | hx
      · exact Nat.lt_succ_of_lt (h.lt x hx)
      · rcases CoreStep.opens_sent hstep with h0 | ⟨k, hk⟩
        · rw [h0] at hx
          cases hx
        · rw [hk, Multiset.mem_singleton] at hx
          rw [hx]
          exact Nat.lt_succ_self _
  | replace => exact ⟨h.nodup, h.lt, h.addressed⟩
  | response => exact ⟨h.nodup, h.lt, h.addressed⟩
  | invalidate => exact ⟨h.nodup, h.lt, h.addressed⟩
  | arrive => exact ⟨h.nodup, h.lt, h.addressed⟩

omit [Fintype ι] in
theorem Answer.fresh {r : ResponseMsg ι} (hans : Answer b r b') (h : b.Fresh) : b'.Fresh := by
  have haddr : ∀ x ∈ r.transactions, x.2.sid ∈ r.destination := by
    cases hans with
    | reads _ hr hdest _ => exact fun x hx => (hdest _).mpr ⟨x, hr ▸ hx, rfl⟩
    | @write x _ hr _ hdest =>
      intro y hy
      rw [hr, List.mem_singleton] at hy
      rw [hdest, hy, Finset.mem_singleton]
  have hsend : b' = L2.send r { b with bank := { b.bank with waiting := [] } } := by
    cases hans <;> rfl
  subst hsend
  refine ⟨h.nodup, h.lt, ?_⟩
  intro r' hr'
  rcases List.mem_append.mp hr' with hr' | hr'
  · exact h.addressed r' hr'
  · rwa [List.mem_singleton.mp hr']

omit [Fintype ι] in
theorem BankStep.fresh {act : BankAct} (hstep : BankStep forgetful act b b') (h : b.Fresh) : b'.Fresh := by
  cases hstep with
  | @handle b₁ b₂ b₃ b₄ before trigger round answer after =>
    have h₁ : b₁.Fresh := by
      obtain ⟨v, rfl, -⟩ := before
      exact ⟨h.nodup, h.lt, h.addressed⟩
    have h₂ : b₂.Fresh := by cases trigger <;> exact ⟨h₁.nodup, h₁.lt, h₁.addressed⟩
    have h₃ : b₃.Fresh := by
      rcases round with rfl | ⟨-, hr⟩
      · exact h₂
      · cases hr
        exact ⟨h₂.nodup, h₂.lt, h₂.addressed⟩
    have h₄ : b₄.Fresh := by
      rcases answer with rfl | ⟨r, hr⟩
      · exact h₃
      · exact hr.fresh h₃
    obtain ⟨v, rfl, -⟩ := after
    exact ⟨h₄.nodup, h₄.lt, h₄.addressed⟩

end Block

end GpgpuSimRuby.Ruby.ViWt
