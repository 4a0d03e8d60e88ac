import GpgpuSimRuby.Ruby.ViWt.Notices
import GpgpuSimRuby.Ruby.ViWt.Ledger

/-!
# VI_wt: from a bank to the whole system

A `Refinement` shows the bank of a protocol to be an abstract one: it says how to look at the bank,
which shapes the bank can be in, and that every step its controller takes from such a shape is a
stall or a `BankStep` and leads to such a shape again. Then everything that is known of the abstract
bank holds in every reachable state of the system of that protocol.

`ok` is a condition on the steps of the bank, for the results that hold in some runs only.
-/

namespace GpgpuSimRuby.Ruby.ViWt

open Library

variable {ι β α : Type} [DecidableEq ι] [Fintype ι] [DecidableEq α]

open Block in
/-- The bank with the controller `C` behaves like an abstract one, in the steps that meet `ok`. -/
structure Refinement (p : L1.Protocol) (C : BankController ι β) (space : MemorySpaceType)
    (ok : Block ι β → BankAct → Prop) (forgetful : Prop) where
  view : β → View ι
  Shape : β → Prop
  shape_init : Shape C.init
  waiting_init : (view C.init).waiting = []
  pending_init : (view C.init).pending = none
  asked_init : (view C.init).asked = ∅
  step : ∀ {b : Block ι β} {act : BankAct} {r : Except Fault (Block ι β)}, Shape b.bank →
    (b.map view).Inv p space → (b.map view).Notices → ok b act → C.step act b = some r →
    ∃ b', r = .ok b' ∧ Shape b'.bank ∧
      (b' = b ∨ BankStep forgetful act (b.map view) (b'.map view))

/-- A condition on the steps of the bank, as one on the steps of the block. -/
def BankOk (ok : Block ι β → BankAct → Prop) (b : Block ι β) : BlockAct ι → Prop
  | .l2 act => ok b act
  | _ => True

omit [DecidableEq ι] [Fintype ι] [DecidableEq α] in
theorem each_true (s : α → Block ι β) (act : FamilyAct α (BlockAct ι)) :
    Component.Each (BankOk fun _ _ => True) s act := by
  cases act with
  | tick => trivial
  | «at» k act => cases act <;> trivial

theorem reachable_each {p : L1.Protocol} {C : BankController ι β} {space : α → MemorySpaceType}
    {s : α → Block ι β} (h : (system p C space).Reachable s) :
    (system p C space).ReachableUnder (Component.Each (BankOk fun _ _ => True)) s :=
  h.mono fun s act _ => each_true s act

/-- The invalidations and recalls of the block under way, and the acknowledgements. -/
def Block.inFlight (b : Block ι β) : Nat :=
  ∑ i, (b.requestToL1 i).length + b.unblockToL2Cache.length

/-- A step from `b` to `b'` that answers a write does so when no other L1 has a copy, and no data is on
its way to an L1 that is going to install it. -/
def WriteAtomic (b b' : Block ι β) : Prop :=
  ∀ sent, b'.answers = b.answers ++ sent → ∀ r ∈ sent, r.type = .WB_ACK ∨ r.type = .DATA_ATOMIC →
    ∃ g, r.memfetch = some g ∧ r.destination = {g.sid} ∧
      (∀ j, j ≠ g.sid → (b'.l1 j).state ≠ .S ∧ (b'.l1 j).state ≠ .S_M) ∧
      ∀ j, (b'.l1 j).state = .I_S → ∀ m ∈ b'.responseToL1 j, m.type ≠ .DATA

omit [DecidableEq ι] [Fintype ι] in
theorem WriteAtomic.refl (b : Block ι β) : WriteAtomic b b := by
  intro sent hsent r hr
  obtain rfl : sent = [] := by simpa using hsent
  cases hr

instance decidableBankOk (ok : Block ι β → BankAct → Prop) [∀ b act, Decidable (ok b act)]
    (b : Block ι β) : ∀ act, Decidable (BankOk ok b act)
  | .l2 act => inferInstanceAs (Decidable (ok b act))
  | .core .. | .l1Replace _ | .l1Response .. | .l1Inv .. | .arrive _ => .isTrue trivial

namespace Refinement

variable {p : L1.Protocol} {C : BankController ι β} {ok : Block ι β → BankAct → Prop}
  {forgetful : Prop}

/-- What holds of a block in every reachable state. -/
structure Sound {space : MemorySpaceType} (R : Refinement p C space ok forgetful) (b : Block ι β) :
    Prop where
  shape : R.Shape b.bank
  inv : (b.map R.view).Inv p space
  notices : (b.map R.view).Notices
  fresh : (b.map R.view).Fresh

section Block

variable {space : MemorySpaceType} (R : Refinement p C space ok forgetful) {b b' : Block ι β}
  {act : BlockAct ι} {r : Except Fault (Block ι β)}

theorem sound_init : R.Sound { bank := C.init } := by
  have hout : ∀ i k, (Block.map R.view { bank := C.init : Block ι β }).outstanding i k = 0 := by
    intro i k
    simp [Block.outstanding, Block.map, R.waiting_init]
  refine ⟨R.shape_init, ?_, ?_, ?_⟩
  · refine ⟨?_, by simp [Block.map], by simp [Block.map], by simp [Block.map], by simp [Block.map],
      by simp [Block.map], by simp [Block.map], ?_, ?_, ?_⟩
    · intro i
      have hzero : (Block.map R.view { bank := C.init : Block ι β }).outstanding i = fun _ => 0 :=
        funext (hout i)
      rw [hzero]
      constructor <;> simp [Block.map]
    · intro n hn
      simp [Block.map, R.pending_init] at hn
    · intro i hi
      simp [Block.Holder, Block.map, L1Line.Valid, L1Line.state] at hi
    · intro i hi
      simp [Block.map, R.asked_init] at hi
  · rintro i ⟨m, hm, -⟩
    simp [Block.pipe, Block.map] at hm
  · constructor <;> simp [Block.map]

theorem ledger_init : (Block.map R.view { bank := C.init : Block ι β }).Ledger := by
  simp [Block.Ledger, Block.unanswered, Block.map, R.waiting_init, closes]

/-- **A step of the model** does not fault, and is one that the abstract model can take. -/
theorem step_spec (h : R.Sound b) (hok : BankOk ok b act) (hstep : b.step p C space act = some r) :
    ∃ b', r = .ok b' ∧ R.Shape b'.bank ∧ (b' = b ∨ Block.L1Move p space b act b' ∨
        ∃ a, act = .l2 a ∧ Block.BankStep forgetful a (b.map R.view) (b'.map R.view)) := by
  by_cases hact : ∃ a, act = .l2 a
  · obtain ⟨a, rfl⟩ := hact
    obtain ⟨b', rfl, hshape, hbank⟩ := R.step h.shape h.inv h.notices hok hstep
    exact ⟨b', rfl, hshape, hbank.imp id fun h => .inr ⟨a, rfl, h⟩⟩
  · obtain ⟨b', rfl, hmove⟩ := Block.step_l1Move h.inv (fun a ha => hact ⟨a, ha⟩) hstep
    have hbank : b'.bank = b.bank := by cases hmove <;> rfl
    exact ⟨b', rfl, hbank ▸ h.shape, .inr (.inl hmove)⟩

theorem sound_step (h : R.Sound b) (hok : BankOk ok b act)
    (hstep : b.step p C space act = some (.ok b')) : R.Sound b' := by
  obtain ⟨b'', hb, hshape, rfl | hmove | ⟨a, -, hbank⟩⟩ := R.step_spec h hok hstep
  · obtain rfl := Except.ok.inj hb
    exact h
  · obtain rfl := Except.ok.inj hb
    have hmap := hmove.map R.view
    exact ⟨hshape, hmap.inv h.inv, hmap.notices h.inv h.notices, hmap.fresh h.fresh⟩
  · obtain rfl := Except.ok.inj hb
    exact ⟨hshape, hbank.inv h.inv, hbank.notices h.inv h.notices, hbank.fresh h.fresh⟩

theorem ledger_step (hf : ¬ forgetful) (h : R.Sound b) (hledger : (b.map R.view).Ledger)
    (hok : BankOk ok b act) (hstep : b.step p C space act = some (.ok b')) : (b'.map R.view).Ledger := by
  obtain ⟨b'', hb, -, rfl | hmove | ⟨a, -, hbank⟩⟩ := R.step_spec h hok hstep
  · obtain rfl := Except.ok.inj hb
    exact hledger
  · obtain rfl := Except.ok.inj hb
    exact (hmove.map R.view).ledger hledger
  · obtain rfl := Except.ok.inj hb
    exact hbank.ledger hf hledger

/-- A step of the block sends at most one response, and nobody else holds a copy when it answers a
write. -/
theorem answers_step (h : R.Sound b) (hok : BankOk ok b act) (hstep : b.step p C space act = some (.ok b')) :
    b'.answers = b.answers ∨ ∃ r, b'.answers = b.answers ++ [r] ∧
      (∀ i ∈ r.destination, r ∈ b'.responseToL1 i) ∧
      (r.type ≠ .DATA → ∃ x, r.transactions = [x] ∧ r.destination = {x.2.sid} ∧
        ∀ j ≠ x.2.sid, ¬ b'.Holder j) := by
  obtain ⟨b'', hb, -, rfl | hmove | ⟨a, -, hbank⟩⟩ := R.step_spec h hok hstep
  · obtain rfl := Except.ok.inj hb
    exact .inl rfl
  · obtain rfl := Except.ok.inj hb
    exact .inl (by cases hmove <;> rfl)
  · obtain rfl := Except.ok.inj hb
    exact hbank.answers h.inv

theorem Sound.inFlight_of_pending {R : Refinement p C space ok forgetful} (h : R.Sound b) {n : Int}
    (hp : (R.view b.bank).pending = some n) : 0 < n ∧ n = b.inFlight := by
  obtain ⟨hpos, hsum⟩ := h.inv.round n hp
  refine ⟨hpos, ?_⟩
  rw [hsum, Block.inFlight]
  norm_cast

theorem Sound.inFlight_of_none {R : Refinement p C space ok forgetful} (h : R.Sound b)
    (hp : (R.view b.bank).pending = none) : b.inFlight = 0 := by
  obtain ⟨hinv, hack⟩ := h.inv.quiet hp
  have hinv' : ∀ i, b.requestToL1 i = [] := hinv
  have hack' : b.unblockToL2Cache = [] := hack
  simp [Block.inFlight, hinv', hack']

theorem Sound.holder {R : Refinement p C space ok forgetful} (h : R.Sound b) {i : ι} (hi : b.Holder i) :
    i ∈ (R.view b.bank).sharers ∨ (R.view b.bank).pending ≠ none ∧ b.requestToL1 i ≠ [] := by
  rcases h.inv.cover i hi with hs | hne
  · exact .inl hs
  · exact .inr ⟨fun hp => hne ((h.inv.quiet hp).1 i), hne⟩

theorem Sound.not_I_S {R : Refinement p C space ok forgetful} (h : R.Sound b) {i : ι}
    {m : ResponseMsg ι} (hm : m ∈ b.responseToL1 i)
    (hkind : m.kind = .write ∨ m.kind = .atomic) : (b.l1 i).state ≠ .I_S := by
  refine (h.inv.line i).state_ne_I_S ?_
  have hpos : 0 < (b.responseToL1 i).countP (fun m' => m'.kind = m.kind) :=
    List.countP_pos_iff.mpr ⟨m, hm, by simp⟩
  have hle : (b.responseToL1 i).countP (fun m' => m'.kind = m.kind) ≤
      (b.map R.view).outstanding i m.kind := by
    simp only [Block.outstanding, Block.map]
    omega
  rcases hkind with hk | hk <;> rw [hk] at hpos hle <;> omega

/-- **Write atomicity.** -/
theorem writeAtomic_step (h : R.Sound b) (hok : BankOk ok b act)
    (hstep : b.step p C space act = some (.ok b')) : WriteAtomic b b' := by
  intro sent hsent r hr htype
  rcases R.answers_step h hok hstep with hnone | ⟨r', hone, hat, halone⟩
  · obtain rfl : sent = [] := by simpa [hnone] using hsent
    cases hr
  · obtain rfl : sent = [r'] := by simpa [hone, eq_comm] using hsent
    obtain rfl := List.mem_singleton.mp hr
    have hkind : r.kind = .write ∨ r.kind = .atomic := by
      rcases htype with ht | ht <;> simp [ResponseMsg.kind, ht]
    obtain ⟨x, hx, hdest, hnot⟩ := halone (by rcases htype with ht | ht <;> simp [ht])
    have hg : r.memfetch = some x.2 := ResponseMsg.memfetch_of_transactions htype hx
    refine ⟨x.2, hg, hdest, ?_, ?_⟩
    · intro j hj
      exact ⟨fun hs => hnot j hj (.inl (.inl hs)), fun hs => hnot j hj (.inl (.inr hs))⟩
    · intro j hs m hm hdata
      by_cases hj : j = x.2.sid
      · subst hj
        exact (R.sound_step h hok hstep).not_I_S (hat _ (by simp [hdest])) hkind hs
      · exact hnot j hj (.inr ⟨hs, m, hm, hdata⟩)

end Block

/-! ## All blocks -/

section System

variable {space : α → MemorySpaceType} (R : ∀ a, Refinement p C (space a) ok forgetful)
  {s t : α → Block ι β}

theorem reachable_sound (h : (system p C space).ReachableUnder (Component.Each (BankOk ok)) s)
    (a : α) : (R a).Sound (s a) :=
  Component.family_invariant (fun a b => (R a).Sound b) (fun a => (R a).sound_init)
    (fun _ _ hb => hb) (fun a _ _ _ hb hok hstep => (R a).sound_step hb hok hstep) h a

theorem reachable_ledger (hf : ¬ forgetful)
    (h : (system p C space).ReachableUnder (Component.Each (BankOk ok)) s) (a : α) :
    ((s a).map (R a).view).Ledger := by
  have hboth := Component.family_invariant
    (fun a b => (R a).Sound b ∧ (b.map (R a).view).Ledger)
    (fun a => ⟨(R a).sound_init, (R a).ledger_init⟩)
    (fun _ _ hb => hb)
    (fun a _ _ _ hb hok hstep =>
      ⟨(R a).sound_step hb.1 hok hstep, (R a).ledger_step hf hb.1 hb.2 hok hstep⟩) h a
  exact hboth.2

/-- **Write atomicity** in every run. -/
theorem reachable_writeAtomic (R : ∀ a, Refinement p C (space a) ok forgetful)
    (h : (system p C space).ReachableUnder (Component.Each (BankOk ok)) s)
    {act : FamilyAct α (BlockAct ι)} (hok : Component.Each (BankOk ok) s act)
    (hstep : (system p C space).step s act = some (.ok t)) (a : α) : WriteAtomic (s a) (t a) := by
  cases act with
  | tick =>
    obtain rfl : s = t := by simpa [system, Component.family, blockComponent] using hstep
    exact .refl _
  | «at» k act =>
    obtain ⟨b', hb', rfl⟩ := Component.family_step_at hstep
    by_cases hak : a = k
    · subst hak
      rw [Function.update_self]
      exact (R a).writeAtomic_step (reachable_sound R h a) hok hb'
    · rw [Function.update_of_ne hak]
      exact .refl _

/-- **No fault**: no controller meets an undeclared event or fails an assertion. -/
theorem no_fault (R : ∀ a, Refinement p C (space a) ok forgetful)
    (h : (system p C space).ReachableUnder (Component.Each (BankOk ok)) s)
    {act : FamilyAct α (BlockAct ι)} (hok : Component.Each (BankOk ok) s act) (e : Fault) :
    (system p C space).step s act ≠ some (.error e) := by
  intro hstep
  obtain ⟨a, act', rfl, hstep'⟩ := Component.family_fault hstep
  obtain ⟨b', hb, -⟩ := (R a).step_spec (reachable_sound R h a) hok hstep'
  cases hb

end System

end Refinement

end GpgpuSimRuby.Ruby.ViWt
