import GpgpuSimRuby.Ruby.Cachelease3.L2Steps

/-!
# cachelease3: the invariant of a block

Every transaction an L1 opens is somewhere: its request is on the way to the L2, or the L2 has noted
it in its TBE, or its answer is on the way back. `Block.outstanding` counts them, the L2 only moves
them (`BankStep.outstanding_eq`), and the counters of the L1's TBE agree with the count
(`Block.Inv.line`).

`Block.Step` puts the steps of the L1s, of the L2 and of the network together, and `Block.Step.inv`
is the step lemma of the invariant. At the end the blocks are put under one clock:
`system_reachable_inv` is the invariant of the whole system.
-/

namespace GpgpuSimRuby.Ruby.Cachelease3

open Library Function

variable {ι : Type} [DecidableEq ι]

omit [DecidableEq ι] in
variable {now : Nat} {m : RequestMsg ι}

theorem CoreStep.sent {delta : Nat} {space : MemorySpaceType} {g : MemFetch ι}
    {ℓ ℓ' : L1Line ι} {sent : Option (RequestMsg ι)} (h : CoreStep now space g delta ℓ sent ℓ')
    (hm : m ∈ sent) : m.requestor = g.sid ∧ m.memfetch = g ∧ m.WellFormed space := by
  cases h with
  | hit => cases hm
  | hitSM => cases hm
  | loadMiss | loadMore => cases hm; exact ⟨rfl, rfl, .inl rfl, rfl, fun h => absurd rfl h, rfl⟩
  | upgrade | upgradeMore =>
    cases hm
    exact ⟨rfl, rfl, .inr (.inr (.inl rfl)), rfl, fun _ => ⟨rfl, rfl⟩, rfl⟩
  | write _ htype | writeMore _ htype =>
    cases hm
    refine ⟨rfl, rfl, ?_, rfl, fun _ => ⟨rfl, rfl⟩, rfl⟩
    rcases htype with rfl | rfl
    · exact .inr (.inl rfl)
    · exact .inr (.inr (.inr rfl))

/-! ## Outstanding transactions -/

omit [DecidableEq ι] in
theorem RequestMsg.kind_write (m : RequestMsg ι) (hm : m.type ≠ .GETS) (ha : m.type ≠ .DATA_ATOMIC) :
    m.kind = .write := by
  unfold RequestMsg.kind
  split <;> simp_all

/-- A response as the L2 sends it to `i`. -/
def ResponseMsg.WellFormed (i : ι) (m : ResponseMsg ι) : Prop :=
  i ∈ m.destination ∧ (m.type = .DATA ∨ m.type = .ACK ∨ m.type = .ACK_GLOBAL ∨
    m.type = .DATA_GLOBAL ∨ m.type = .DATA_ATOMIC)

/-- Is the L1 of `i` noted in the TBE for a transaction of kind `k`? -/
def L2TBE.waiting (t : L2TBE ι) (i : ι) : Kind → Nat
  | .read => if i ∈ t.l1GetSIDs then 1 else 0
  | .write => if t.tbeState = .IM ∧ t.l1WBAckID = some i then 1 else 0
  | .atomic => if t.tbeState = .IMA ∧ t.l1WBAckID = some i then 1 else 0

namespace Block

/-- Requests of `i` that the L2 has not taken from its queue. -/
def inNetwork (b : Block ι) (i : ι) (k : Kind) : Nat :=
  (b.toL2 i).countP (fun m => m.kind = k) +
    b.l1RequestToL2Cache.countP (fun m => m.requestor = i ∧ m.kind = k)

/-- Requests of `i` that wait in the L2's TBE. -/
def waiting (b : Block ι) (i : ι) (k : Kind) : Nat :=
  match b.tbe with
  | none => 0
  | some t => t.waiting i k

/-- Responses in flight to `i`. -/
def inFlight (b : Block ι) (i : ι) (k : Kind) : Nat :=
  (b.responseToL1 i).countP fun m => m.kind = k

/-- The transactions of kind `k` the L1 of `i` has open: outstanding requests and responses in
flight. -/
def outstanding (b : Block ι) (i : ι) (k : Kind) : Nat :=
  b.inNetwork i k + b.waiting i k + b.inFlight i k

/-- A request that is on its way to the L2. -/
def InTransit (b : Block ι) (m : RequestMsg ι) : Prop :=
  m ∈ b.toL2 m.requestor ∨ m ∈ b.l1RequestToL2Cache

/-! ## The invariant -/

/-- The invariant of a block: the counters balance, the L2's share has one of its shapes, and the
messages are those the controllers send. -/
structure Inv (mode : L2.Mode) (space : MemorySpaceType) (b : Block ι) : Prop where
  now_pos : 0 < b.now
  shape : b.Shape space
  line : ∀ i, (b.l1 i).Balanced (b.outstanding i)
  requestor : ∀ i, ∀ m ∈ b.toL2 i, m.requestor = i
  request : ∀ m, b.InTransit m → m.WellFormed space
  response : ∀ i, ∀ m ∈ b.responseToL1 i, m.WellFormed i
  ideal : mode.predOracle = false → ∀ i, b.idealInvQueue i = 0

theorem inv_init (mode : L2.Mode) (space : MemorySpaceType) : ({} : Block ι).Inv mode space where
  now_pos := Nat.one_pos
  shape := .absent rfl rfl rfl
  line _ := L1Line.balanced_idle nofun rfl rfl rfl rfl
  requestor _ _ := nofun
  request _ := by rintro (h | h) <;> cases h
  response _ _ := nofun
  ideal _ _ := rfl

/-! ## The steps of a block -/

/-- Store the line of `i` and send its request. -/
def setLine (b : Block ι) (i : ι) (ℓ : L1Line ι) (sent : Option (RequestMsg ι)) : Block ι :=
  { b with
    l1 := update b.l1 i ℓ
    toL2 := update b.toL2 i (b.toL2 i ++ sent.toList) }

/-- What can happen to a block, by what happens. -/
inductive Step (mode : L2.Mode) (space : MemorySpaceType) (b : Block ι) :
    BlockAct ι → Block ι → Prop
  | core {i type wid delta sent ℓ} (hmshr : type = .LD → (b.l1 i).readPending = false)
      (hstep : CoreStep b.now space ⟨b.nextUid, i, wid⟩ delta (b.l1 i) sent ℓ) :
      Step mode space b (.core i type wid delta)
        { b.setLine i ℓ sent with nextUid := b.nextUid + 1 }
  | l1Replace {i ℓ} (hstep : ReplaceStep b.now (b.l1 i) ℓ) :
      Step mode space b (.l1Replace i) { b with l1 := update b.l1 i ℓ }
  | l1Response {i k m ℓ} (hm : (b.responseToL1 i)[k]? = some m)
      (hstep : ResponseStep b.now m (b.l1 i) ℓ) :
      Step mode space b (.l1Response i k)
        { b with l1 := update b.l1 i ℓ
                 responseToL1 := update b.responseToL1 i
                   ((b.responseToL1 i).eraseIdx k)
                 acked := b.acked ++ m.completes }
  | l1Reset {i ℓ} (hq : b.idealInvQueue i ≠ 0) (hstep : ResetStep b.now (b.l1 i) ℓ) :
      Step mode space b (.l1Reset i)
        { b with l1 := update b.l1 i ℓ
                 idealInvQueue := update b.idealInvQueue i (b.idealInvQueue i - 1) }
  | arrive {i m rest} (hm : b.toL2 i = m :: rest) :
      Step mode space b (.arrive i)
        { b with toL2 := update b.toL2 i rest
                 l1RequestToL2Cache := b.l1RequestToL2Cache ++ [m] }
  | bank {a b'} (hstep : BankStep mode b a b') : Step mode space b a b'

/-- The completion times after a step: those of the L1 that takes in a response change. -/
def noted (b : Block ι) (gw : GlobalWrites ι) : BlockAct ι → GlobalWrites ι
  | .l1Response i k =>
    match (b.responseToL1 i)[k]? with
    | some m => update gw i (m.note (b.l1 i) (gw i))
    | none => gw
  | _ => gw

variable {mode : L2.Mode} {space : MemorySpaceType} {b b' : Block ι} {gw : GlobalWrites ι}
variable {r : Except Fault (Block ι × GlobalWrites ι)}

theorem outstanding_pos {i : ι} {m : ResponseMsg ι} (hm : m ∈ b.responseToL1 i) :
    0 < b.outstanding i m.kind := by
  have : 0 < b.inFlight i m.kind := List.countP_pos_iff.mpr ⟨m, hm, by simp⟩
  unfold outstanding
  omega

theorem stepCore_spec (hinv : b.Inv mode space) {i : ι} {type : CacheRequestType} {wid delta : Nat}
    (h : b.stepCore space gw i type wid delta = some r) :
    ∃ b', r = .ok (b', gw) ∧ b.Step mode space (.core i type wid delta) b' := by
  unfold stepCore at h
  split at h
  · cases h
  · next hen =>
    rw [not_or] at hen
    have hmshr : type = .LD → (b.l1 i).readPending = false := by
      intro hld
      by_contra hr
      exact hen.2 ⟨hld, by simpa using hr⟩
    obtain ⟨sent, ℓ, hreq, hstep⟩ :=
      L1.request_spec b.now space ⟨b.nextUid, i, wid⟩ delta (gw i) (hinv.line i) hmshr hen.1
    refine ⟨_, ?_, .core hmshr hstep⟩
    rw [Option.some.injEq] at h
    rw [← h, show L1.request delta _ (b.l1Ctx gw i) = _ from hreq]
    simp [putL1, setLine, L1Line.ctx, Except.map]

theorem stepL1Replace_spec (hinv : b.Inv mode space) {i : ι} (h : b.stepL1Replace gw i = some r) :
    ∃ b', r = .ok (b', gw) ∧ b.Step mode space (.l1Replace i) b' := by
  unfold stepL1Replace at h
  split at h
  · cases h
  · next e he =>
    obtain ⟨ℓ, hrep, hstep⟩ := L1.replacement_spec b.now i (gw i) (hinv.line i) (by simp [he])
    refine ⟨_, ?_, .l1Replace hstep⟩
    rw [Option.some.injEq] at h
    rw [← h, show (L1.controller 0).doTransition .l1Replacement (b.l1Ctx gw i) = _ from hrep]
    simp [putL1, L1Line.ctx, Except.map]

theorem stepL1Response_spec (hinv : b.Inv mode space) {i : ι} {k : Nat}
    (h : b.stepL1Response gw i k = some r) : ∃ b', r = .ok (b', b.noted gw (.l1Response i k)) ∧
      b.Step mode space (.l1Response i k) b' := by
  unfold stepL1Response at h
  split at h
  · cases h
  · next m hm =>
    have hmem := mem_of_getElem?_eq_some hm
    obtain ⟨hdest, htype⟩ := hinv.response i m hmem
    obtain ⟨ℓ, hrec, hstep⟩ :=
      L1.receive_spec b.now (gw i) (hinv.line i) hdest htype (outstanding_pos hmem)
    refine ⟨_, ?_, .l1Response hm hstep⟩
    rw [Option.some.injEq] at h
    rw [← h, show L1.receive m (b.l1Ctx gw i) = _ from hrec]
    simp [putL1, noted, hm, L1Line.ctx, Except.map]

theorem stepL1Reset_spec (hinv : b.Inv mode space) {i : ι} (h : b.stepL1Reset gw i = some r) :
    ∃ b', r = .ok (b', gw) ∧ b.Step mode space (.l1Reset i) b' := by
  unfold stepL1Reset at h
  split at h
  · cases h
  · next hq =>
    obtain ⟨ℓ, hreset, hstep⟩ :=
      L1.idealInvalidate_spec i (gw i) hinv.now_pos (hinv.line i)
    refine ⟨_, ?_, .l1Reset hq hstep⟩
    rw [Option.some.injEq] at h
    rw [← h, show L1.idealInvalidate (b.l1Ctx gw i) = _ from hreset]
    simp [putL1, L1Line.ctx, Except.map]

omit [DecidableEq ι] in
theorem withGlobalWrites_eq_some {r : Option (Except Fault (Block ι))}
    {x : Except Fault (Block ι × GlobalWrites ι)} (h : withGlobalWrites gw r = some x)
    {P : Block ι → Prop} (hspec : ∀ y, r = some y → ∃ b', y = .ok b' ∧ P b') :
    ∃ b', x = .ok (b', gw) ∧ P b' := by
  obtain ⟨y, hy, rfl⟩ := Option.map_eq_some_iff.mp h
  obtain ⟨b', rfl, hb'⟩ := hspec y hy
  exact ⟨b', rfl, hb'⟩

/-- **The controllers do not fault.** A step from a state with the invariant is a `Step`. -/
theorem step_spec (hinv : b.Inv mode space) {a : BlockAct ι} (h : b.step mode space gw a = some r) :
    ∃ b', r = .ok (b', b.noted gw a) ∧ b.Step mode space a b' := by
  cases a with
  | core i type wid delta => exact stepCore_spec hinv h
  | l1Replace i => exact stepL1Replace_spec hinv h
  | l1Response i k => exact stepL1Response_spec hinv h
  | l1Reset i => exact stepL1Reset_spec hinv h
  | arrive i =>
    refine withGlobalWrites_eq_some h fun y hy => ?_
    unfold stepArrive at hy
    split at hy
    · cases hy
    · next m rest hm =>
      cases hy
      exact ⟨_, rfl, .arrive hm⟩
  | l2Request =>
    refine withGlobalWrites_eq_some h fun y hy => ?_
    cases hq : b.l1RequestToL2Cache with
    | nil => simp [stepL2Request, hq] at hy
    | cons m rest =>
      obtain ⟨b', hb', hstep⟩ := stepL2Request_spec mode hinv.shape hinv.now_pos hq
        (hinv.request m (.inr (by simp [hq])))
      exact ⟨b', Option.some.inj (hy.symm.trans hb'), .bank hstep⟩
  | l2Replace =>
    refine withGlobalWrites_eq_some h fun y hy => ?_
    by_cases he : b.entry = none
    · simp [stepL2Replace, he] at hy
    · obtain ⟨b', hb', hstep⟩ := stepL2Replace_spec mode hinv.shape he
      exact ⟨b', Option.some.inj (hy.symm.trans hb'), .bank hstep⟩
  | l2Expire k =>
    refine withGlobalWrites_eq_some h fun y hy => ?_
    obtain ⟨b', hb', hstep⟩ := stepL2Expire_spec hinv.shape hy
    exact ⟨b', hb', .bank hstep⟩
  | l2Memory =>
    refine withGlobalWrites_eq_some h fun y hy => ?_
    obtain ⟨b', hb', hstep⟩ := stepL2Memory_spec hinv.shape hy
    exact ⟨b', hb', .bank hstep⟩

/-! ## The L2 only moves transactions -/

theorem inFlight_send (m : ResponseMsg ι) (i : ι) (k : Kind) :
    (L2.send m b).inFlight i k =
      b.inFlight i k + if i ∈ m.destination ∧ m.kind = k then 1 else 0 := by
  by_cases hi : i ∈ m.destination <;> by_cases hk : m.kind = k <;>
    simp [inFlight, L2.send, hi, hk]

theorem inNetwork_pop {rest : List (RequestMsg ι)}
    (hq : b.l1RequestToL2Cache = m :: rest) (i : ι) (k : Kind) :
    b.inNetwork i k = { b with l1RequestToL2Cache := rest }.inNetwork i k +
      if m.requestor = i ∧ m.kind = k then 1 else 0 := by
  simp only [inNetwork, hq, List.countP_cons, decide_eq_true_eq]
  omega

omit [DecidableEq ι] in
theorem Vacant.waiting_eq_zero [DecidableEq ι] {τ : Nat} (hvac : b.Vacant τ)
    (hshape : b.Shape space) (i : ι) (k : Kind) : b.waiting i k = 0 := by
  cases hvac with
  | absent ht => simp [waiting, ht]
  | @evicted t ht he hs =>
    have hnone : t.l1WBAckID = none ∧ t.l1GetSIDs = ∅ := by
      cases hshape <;> simp_all
    cases k <;> simp [waiting, ht, L2TBE.waiting, hnone.1, hnone.2]

end Block

omit [DecidableEq ι] in
theorem L2Entry.answerType_cases (e : L2Entry ι) (now : Nat) (m : RequestMsg ι) :
    e.answerType now m = .ACK ∨ e.answerType now m = .ACK_GLOBAL ∨
      e.answerType now m = .DATA_GLOBAL ∨ e.answerType now m = .DATA_ATOMIC := by
  unfold L2Entry.answerType
  repeat' split
  all_goals simp

omit [DecidableEq ι] in
theorem L2Entry.answerType_eq_atomic {e : L2Entry ι} :
    e.answerType now m = .DATA_ATOMIC ↔ m.type = .DATA_ATOMIC := by
  unfold L2Entry.answerType
  repeat' split
  all_goals simp_all

omit [DecidableEq ι] in
theorem writeResponse_kind {e : L2Entry ι} {τ : Nat} {dataBlk : DataBlock ι}
    (hm : m.type ≠ .GETS) : (writeResponse (e.answerType now m) m dataBlk now τ).kind = m.kind := by
  by_cases ha : m.type = .DATA_ATOMIC
  · simp [ResponseMsg.kind, RequestMsg.kind, writeResponse, L2Entry.answerType_eq_atomic.mpr ha, ha]
  · have hne : e.answerType now m ≠ .DATA_ATOMIC := fun h => ha (L2Entry.answerType_eq_atomic.mp h)
    rw [m.kind_write hm ha]
    rcases e.answerType_cases now m with h | h | h | h
    · simp [ResponseMsg.kind, writeResponse, h]
    · simp [ResponseMsg.kind, writeResponse, h]
    · simp [ResponseMsg.kind, writeResponse, h]
    · exact absurd h hne

open Block in
/-- **The L2 conserves transactions.** A step moves them from the queue to the TBE, and from either
to a response. A second read of an L1 would be lost in the set of readers; the premise excludes it. -/
theorem BankStep.outstanding_eq {mode : L2.Mode} {space : MemorySpaceType} {b b' : Block ι}
    {a : BlockAct ι} (h : BankStep mode b a b') (hshape : b.Shape space)
    (hone : ∀ i, b.outstanding i .read ≤ 1) (i : ι) (k : Kind) : b'.outstanding i k = b.outstanding i k := by
  have hpop := @inNetwork_pop _ _ b
  cases h with
  | stall => rfl
  | @fetchRead _ m rest τ hq hvac hm =>
    have h1 := hpop hq i k
    have h0 := hvac.waiting_eq_zero hshape i k
    have hk : m.kind = .read := by simp [RequestMsg.kind, hm]
    simp only [outstanding, h0]
    simp only [inNetwork, waiting, inFlight, hk] at h1 ⊢
    cases k <;> simp [L2TBE.waiting, eq_comm] at h1 ⊢ <;> omega
  | @mergeRead _ m rest t hq ht hs hm =>
    have h1 := hpop hq i k
    have hk : m.kind = .read := by simp [RequestMsg.kind, hm]
    -- the reader is not in the set yet: its one read is this request
    have hnew : m.requestor ∉ t.l1GetSIDs := by
      intro hmem
      have h2 := hpop hq m.requestor .read
      have h3 := hone m.requestor
      simp only [outstanding, waiting, ht, L2TBE.waiting, hmem, if_true] at h3
      simp only [hk, and_self, if_true] at h2
      omega
    simp only [outstanding, inNetwork, waiting, inFlight, ht, hk] at h1 ⊢
    cases k with
    | read =>
      by_cases hi : m.requestor = i
      · subst hi
        simp [L2TBE.waiting, hnew] at h1 ⊢
        omega
      · simp [L2TBE.waiting, hi, Ne.symm hi] at h1 ⊢
        omega
    | write => simp [L2TBE.waiting] at h1 ⊢; omega
    | atomic => simp [L2TBE.waiting] at h1 ⊢; omega
  | @fetchWrite m rest s τ hq hvac hm hs =>
    have h1 := hpop hq i k
    have h0 := hvac.waiting_eq_zero hshape i k
    simp only [outstanding, h0]
    simp only [inNetwork, waiting, inFlight] at h1 ⊢
    by_cases ha : m.type = .DATA_ATOMIC
    · have hk : m.kind = .atomic := by simp [RequestMsg.kind, ha]
      cases k <;> simp [L2TBE.waiting, hs, ha, hk] at h1 ⊢ <;> omega
    · have hk : m.kind = .write := m.kind_write hm ha
      cases k <;> simp [L2TBE.waiting, hs, ha, hk] at h1 ⊢ <;> omega
  | @read _ m rest e time hq ht he hm =>
    have h1 := hpop hq i k
    have hk : m.kind = .read := by simp [RequestMsg.kind, hm]
    rw [outstanding, inFlight_send]
    simp only [outstanding, inNetwork, waiting, inFlight, ht, hk, L2.send,
      ResponseMsg.kind, Finset.mem_singleton, eq_comm (a := i)] at h1 ⊢
    omega
  | @write τ _ q m rest e hq ht he hm =>
    have h1 := hpop hq i k
    rw [outstanding, inFlight_send, writeResponse_kind hm]
    simp only [outstanding, inNetwork, waiting, inFlight, ht, L2.send,
      writeResponse, Finset.mem_singleton, eq_comm (a := i)] at h1 ⊢
    omega
  | @fillRead _ t time ht hts =>
    have hwriter : t.l1WBAckID = none := by
      cases hshape <;> simp_all
    rw [outstanding, inFlight_send]
    simp only [outstanding, inNetwork, waiting, inFlight, ht, L2.send,
      ResponseMsg.kind]
    cases k <;> simp [L2TBE.waiting, hwriter]
    omega
  | @fillWrite _ t r g time ht hts hr hg =>
    have hreaders : t.l1GetSIDs = ∅ := by
      cases hshape <;> simp_all
    rw [outstanding, inFlight_send]
    simp only [outstanding, inNetwork, waiting, inFlight, ht, L2.send]
    rcases hts with hts | hts <;> cases k <;>
      simp [L2TBE.waiting, hts, hr, hreaders, fillResponse, ResponseMsg.kind, eq_comm (a := i)] <;>
      omega
  | evict τ q ht he =>
    simp only [outstanding, inNetwork, waiting, inFlight, ht]
    cases k <;> simp [L2TBE.waiting]
  | drop ht he hs => simp only [outstanding, inNetwork, waiting, inFlight]
  | @expire t _ ht he hs hdue =>
    have h0 := (Block.Vacant.evicted ht he hs rfl).waiting_eq_zero hshape i k
    rw [outstanding, outstanding, h0]
    simp only [inNetwork, waiting, inFlight]
  | popExpire => simp only [outstanding, inNetwork, waiting, inFlight]

/-! ## The step lemma -/

section BankStep

variable {mode : L2.Mode} {space : MemorySpaceType} {b b' : Block ι} {a : BlockAct ι}

theorem BankStep.frame (h : BankStep mode b a b') :
    b'.now = b.now ∧ b'.l1 = b.l1 ∧ b'.toL2 = b.toL2 ∧ b'.acked = b.acked ∧ b'.nextUid = b.nextUid := by
  cases h <;> exact ⟨rfl, rfl, rfl, rfl, rfl⟩

theorem BankStep.mem_queue (h : BankStep mode b a b')
    (hm : m ∈ b'.l1RequestToL2Cache) : m ∈ b.l1RequestToL2Cache := by
  cases h with
  | fetchRead _ hq | mergeRead _ hq | fetchWrite hq | read _ hq | write _ _ _ hq =>
    rw [hq]
    exact List.mem_cons_of_mem _ hm
  | stall | fillRead | fillWrite | evict | drop | expire | popExpire => exact hm

theorem BankStep.inTransit (h : BankStep mode b a b') (hm : b'.InTransit m) : b.InTransit m := by
  refine hm.imp ?_ h.mem_queue
  rw [h.frame.2.2.1]
  exact id

theorem L2.mem_send {m₀ m : ResponseMsg ι} {i : ι} :
    m ∈ (L2.send m₀ b).responseToL1 i ↔ m ∈ b.responseToL1 i ∨ m = m₀ ∧ i ∈ m₀.destination := by
  by_cases hi : i ∈ m₀.destination <;> simp [L2.send, hi]

theorem BankStep.response (h : BankStep mode b a b') {i : ι} {m : ResponseMsg ι}
    (hm : m ∈ b'.responseToL1 i) : m ∈ b.responseToL1 i ∨ m.WellFormed i := by
  cases h with
  | read =>
    rcases L2.mem_send.mp hm with hm | ⟨rfl, hi⟩
    · exact .inl hm
    · exact .inr ⟨hi, .inl rfl⟩
  | write =>
    rcases L2.mem_send.mp hm with hm | ⟨rfl, hi⟩
    · exact .inl hm
    · exact .inr ⟨hi, .inr (L2Entry.answerType_cases _ _ _)⟩
  | fillRead =>
    rcases L2.mem_send.mp hm with hm | ⟨rfl, hi⟩
    · exact .inl hm
    · exact .inr ⟨hi, .inl rfl⟩
  | fillWrite =>
    rcases L2.mem_send.mp hm with hm | ⟨rfl, hi⟩
    · exact .inl hm
    · refine .inr ⟨hi, ?_⟩
      unfold fillResponse
      split <;> simp
  | stall | fetchRead | mergeRead | fetchWrite | evict | drop | expire | popExpire => exact .inl hm

omit [DecidableEq ι] in
theorem Block.Shape.congr (hshape : b.Shape space) (ht : b'.tbe = b.tbe)
    (he : b'.entry = b.entry) (hm : b'.memReads = b.memReads) : b'.Shape space := by
  cases hshape with
  | absent h1 h2 h3 => exact .absent (ht ▸ h1) (he ▸ h2) (hm ▸ h3)
  | held h1 h2 h3 h4 => exact .held (ht ▸ h1) (he ▸ h2) (hm ▸ h3) h4
  | reading h1 h2 h3 h4 h5 h6 h7 => exact .reading (ht ▸ h1) (he ▸ h2) (hm ▸ h3) h4 h5 h6 h7
  | writing h1 h2 h3 h4 h5 h6 h7 h8 h9 =>
    exact .writing (ht ▸ h1) (he ▸ h2) (hm ▸ h3) h4 h5 h6 h7 h8 h9
  | evicted h1 h2 h3 h4 h5 h6 h7 => exact .evicted (ht ▸ h1) (he ▸ h2) (hm ▸ h3) h4 h5 h6 h7

omit [DecidableEq ι] in
theorem Block.Shape.quiet (hshape : b.Shape space) (h : b.tbe = none ∨ b.entry = none) : b.memReads = 0 := by
  cases hshape with
  | absent _ _ hm | held _ _ hm | evicted _ _ hm => exact hm
  | reading ht he | writing ht he => simp [ht, he] at h

omit [DecidableEq ι] in
theorem Block.Vacant.entry_eq_none {τ : Nat} (hvac : b.Vacant τ) : b.entry = none := by
  cases hvac <;> assumption

theorem BankStep.shape (h : BankStep mode b a b') (hshape : b.Shape space)
    (hreq : ∀ m ∈ b.l1RequestToL2Cache, m.WellFormed space) : b'.Shape space := by
  cases h with
  | stall => exact hshape
  | @fetchRead _ m rest τ hq hvac hm =>
    have h0 := hshape.quiet (.inr hvac.entry_eq_none)
    exact .reading rfl rfl (by simp [h0]) rfl (hreq m (by simp [hq])).space (by simp) rfl
  | @mergeRead _ m rest t hq ht hs hm =>
    cases hshape with
    | reading ht' he hm _ hspace hreaders hwriter =>
      obtain rfl : t = _ := Option.some.inj (ht.symm.trans ht')
      exact .reading rfl rfl hm hs hspace (by simp) hwriter
    | _ => simp_all
  | @fetchWrite m rest s τ hq hvac hm hs =>
    have h0 := hshape.quiet (.inr hvac.entry_eq_none)
    refine .writing rfl rfl (by simp [h0]) ?_ rfl rfl rfl rfl (hreq m (by simp [hq])).sid
    rw [hs]
    split <;> simp
  | @read _ m rest e time hq ht he hm =>
    refine .held ht rfl (hshape.quiet (.inl ht)) ?_
    unfold L2State.afterRead
    split <;> simp
  | write τ sh q hq ht => exact .held ht rfl (hshape.quiet (.inl ht)) (.inl rfl)
  | @fillRead _ t time ht hts =>
    cases hshape with
    | reading _ _ hm =>
      refine .held rfl rfl (by simp [L2.send, hm]) ?_
      split
      · exact .inr rfl
      · exact .inl rfl
    | _ => simp_all
  | fillWrite _ ht hts hr hg =>
    cases hshape with
    | writing _ _ hm => exact .held rfl rfl (by simp [L2.send, hm]) (.inl rfl)
    | _ => simp_all
  | evict τ q ht => exact .evicted rfl rfl (hshape.quiet (.inl ht)) rfl rfl rfl rfl
  | drop ht => exact .absent ht rfl (hshape.quiet (.inl ht))
  | expire ht he => exact .absent rfl he (hshape.quiet (.inr he))
  | popExpire => exact hshape.congr rfl rfl rfl

theorem BankStep.idealInvQueue (h : BankStep mode b a b') (hno : mode.predOracle = false) :
    b'.idealInvQueue = b.idealInvQueue := by
  cases h with
  | write _ _ _ _ _ _ _ hτ => exact (hτ hno).2
  | evict _ _ _ _ _ _ hτ => exact (hτ hno).2
  | stall | fetchRead | mergeRead | fetchWrite | read | fillRead | fillWrite | drop | expire
  | popExpire => rfl

theorem BankStep.inv (h : BankStep mode b a b') (hinv : b.Inv mode space) : b'.Inv mode space := by
  obtain ⟨hnow, hl1, htoL2, -, -⟩ := h.frame
  refine ⟨hnow ▸ hinv.now_pos, ?_, ?_, ?_, ?_, ?_, ?_⟩
  · exact h.shape hinv.shape fun m hm => hinv.request m (.inr hm)
  · intro i
    have heq : b'.outstanding i = b.outstanding i :=
      funext (h.outstanding_eq hinv.shape (fun j => (hinv.line j).reads_le_one) i)
    rw [hl1, heq]
    exact hinv.line i
  · rw [htoL2]
    exact hinv.requestor
  · exact fun m hm => hinv.request m (h.inTransit hm)
  · intro i m hm
    rcases h.response hm with h | h
    · exact hinv.response i m h
    · exact h
  · intro hno
    rw [h.idealInvQueue hno]
    exact hinv.ideal hno

end BankStep

namespace Block

variable {mode : L2.Mode} {space : MemorySpaceType} {b b' : Block ι} {a : BlockAct ι} {ℓ : L1Line ι}

variable {i : ι}

theorem outstanding_setLine {sent : Option (RequestMsg ι)} {uid : Nat} (j : ι) (k : Kind) :
    { b.setLine i ℓ sent with nextUid := uid }.outstanding j k =
      b.outstanding j k + if j = i then sent.toList.countP (fun m => m.kind = k) else 0 := by
  by_cases hj : j = i
  · subst hj
    simp only [outstanding, inNetwork, waiting, inFlight, setLine, update_self,
      List.countP_append, if_true]
    omega
  · simp [outstanding, inNetwork, waiting, inFlight, setLine, hj]

theorem outstanding_eraseIdx {n : Nat} {m : ResponseMsg ι}
    (acked : List (MemFetch ι)) (hm : (b.responseToL1 i)[n]? = some m) (j : ι) (k : Kind) :
    b.outstanding j k =
      { b with l1 := update b.l1 i ℓ
               responseToL1 := update b.responseToL1 i
                 ((b.responseToL1 i).eraseIdx n)
               acked := acked }.outstanding j k +
        if j = i ∧ m.kind = k then 1 else 0 := by
  by_cases hj : j = i
  · subst hj
    have hcount := countP_eraseIdx (fun m => m.kind = k) hm
    simp only [decide_eq_true_eq] at hcount
    simp only [outstanding, inNetwork, waiting, inFlight, update_self, hcount, true_and]
    omega
  · simp [outstanding, inNetwork, waiting, inFlight, hj]

theorem outstanding_arrive {rest : List (RequestMsg ι)}
    (hm : b.toL2 i = m :: rest) (hreq : m.requestor = i) (j : ι) (k : Kind) :
    { b with toL2 := update b.toL2 i rest
             l1RequestToL2Cache := b.l1RequestToL2Cache ++ [m] }.outstanding j k =
      b.outstanding j k := by
  by_cases hj : j = i
  · subst hj
    simp only [outstanding, inNetwork, waiting, inFlight, update_self, hm,
      List.countP_append, List.countP_cons, List.countP_nil, hreq, true_and]
    omega
  · have hne : m.requestor ≠ j := fun h => hj (h.symm.trans hreq)
    simp [outstanding, inNetwork, waiting, inFlight, hj, hne]

theorem inTransit_setLine {sent : Option (RequestMsg ι)} {uid : Nat}
    (h : { b.setLine i ℓ sent with nextUid := uid }.InTransit m) :
    b.InTransit m ∨ m.requestor = i ∧ m ∈ sent := by
  rcases h with h | h
  · by_cases hj : m.requestor = i
    · simp only [setLine, hj, update_self, List.mem_append] at h
      rcases h with h | h
      · exact .inl (.inl (hj ▸ h))
      · exact .inr ⟨hj, by simpa using h⟩
    · simp only [setLine, update_of_ne hj] at h
      exact .inl (.inl h)
  · exact .inl (.inr h)

theorem inTransit_arrive (hinv : b.Inv mode space) {m' : RequestMsg ι}
    {rest : List (RequestMsg ι)} (hm : b.toL2 i = m :: rest)
    (h : { b with toL2 := update b.toL2 i rest
                  l1RequestToL2Cache := b.l1RequestToL2Cache ++ [m] }.InTransit m') :
    b.InTransit m' := by
  rcases h with h | h
  · by_cases hj : m'.requestor = i
    · simp only [hj, update_self] at h
      exact .inl (by simp [hj, hm, h])
    · exact .inl (by simpa only [update_of_ne hj] using h)
  · rcases List.mem_append.mp h with h | h
    · exact .inr h
    · obtain rfl : m' = m := by simpa using h
      exact .inl (by simp [hinv.requestor i m' (by simp [hm]), hm])

theorem balanced_update (hinv : b.Inv mode space) (hℓ : ℓ.Balanced (b.outstanding i)) (j : ι) :
    (update b.l1 i ℓ j).Balanced (b.outstanding j) := by
  by_cases hj : j = i
  · subst hj
    rw [update_self]
    exact hℓ
  · rw [update_of_ne hj]
    exact hinv.line j

/-- **The step lemma of the invariant.** -/
theorem Step.inv (h : b.Step mode space a b') (hinv : b.Inv mode space) : b'.Inv mode space := by
  cases h with
  | bank h => exact h.inv hinv
  | @core i type wid delta sent ℓ hmshr hstep =>
    have hsent := fun m hm => hstep.sent (m := m) hm
    refine ⟨hinv.now_pos, hinv.shape.congr rfl rfl rfl, ?_, ?_, ?_, hinv.response, hinv.ideal⟩
    · intro j
      by_cases hj : j = i
      · subst hj
        simp only [setLine, update_self]
        refine hstep.balanced (hinv.line j) fun k => ?_
        exact (outstanding_setLine j k).trans (by rw [if_pos rfl])
      · have heq : { b.setLine i ℓ sent with nextUid := b.nextUid + 1 }.outstanding j =
            b.outstanding j := funext fun k => by simp [outstanding_setLine, hj]
        rw [heq]
        simp only [setLine, update_of_ne hj]
        exact hinv.line j
    · intro j m hm
      by_cases hj : j = i
      · subst hj
        simp only [setLine, update_self, List.mem_append] at hm
        rcases hm with hm | hm
        · exact hinv.requestor j m hm
        · exact (hsent m (by simpa using hm)).1
      · simp only [setLine, update_of_ne hj] at hm
        exact hinv.requestor j m hm
    · intro m hm
      rcases inTransit_setLine hm with hm | ⟨-, hm⟩
      · exact hinv.request m hm
      · exact (hsent m hm).2.2
  | @l1Replace i ℓ hstep =>
    exact ⟨hinv.now_pos, hinv.shape.congr rfl rfl rfl,
      balanced_update hinv (hstep.balanced (hinv.line i)), hinv.requestor, hinv.request,
      hinv.response, hinv.ideal⟩
  | @l1Reset i ℓ hq hstep =>
    refine ⟨hinv.now_pos, hinv.shape.congr rfl rfl rfl,
      balanced_update hinv (hstep.balanced (hinv.line i)), hinv.requestor, hinv.request,
      hinv.response, ?_⟩
    intro hno
    exact absurd (hinv.ideal hno i) hq
  | @l1Response i n m ℓ hm hstep =>
    refine ⟨hinv.now_pos, hinv.shape.congr rfl rfl rfl, ?_, hinv.requestor, hinv.request, ?_,
      hinv.ideal⟩
    · intro j
      have hout := outstanding_eraseIdx (ℓ := ℓ) (b.acked ++ m.completes) hm j
      by_cases hj : j = i
      · subst hj
        simp only [update_self]
        exact hstep.balanced (hinv.line j) fun k => by simpa using hout k
      · have heq := funext fun k => (hout k).trans (by rw [if_neg fun h => hj h.1, Nat.add_zero])
        rw [← heq]
        simp only [update_of_ne hj]
        exact hinv.line j
    · intro j m' hm'
      by_cases hj : j = i
      · subst hj
        simp only [update_self] at hm'
        exact hinv.response j m' (List.mem_of_mem_eraseIdx hm')
      · simp only [update_of_ne hj] at hm'
        exact hinv.response j m' hm'
  | @arrive i m rest hm =>
    have hreq : m.requestor = i := hinv.requestor i m (by simp [hm])
    refine ⟨hinv.now_pos, hinv.shape.congr rfl rfl rfl, ?_, ?_, ?_, hinv.response, hinv.ideal⟩
    · intro j
      rw [funext (outstanding_arrive hm hreq j)]
      exact hinv.line j
    · intro j m' hm'
      by_cases hj : j = i
      · subst hj
        simp only [update_self] at hm'
        exact hinv.requestor j m' (by simp [hm, hm'])
      · simp only [update_of_ne hj] at hm'
        exact hinv.requestor j m' hm'
    · exact fun m' hm' => hinv.request m' (inTransit_arrive hinv hm hm')

theorem Step.now_eq (h : b.Step mode space a b') : b'.now = b.now := by
  cases h with
  | bank h => exact h.frame.1
  | core | l1Replace | l1Response | l1Reset | arrive => rfl

theorem Inv.tick (hinv : b.Inv mode space) : b.tick.Inv mode space :=
  ⟨Nat.succ_pos _, hinv.shape.congr rfl rfl rfl, hinv.line, hinv.requestor, hinv.request,
    hinv.response, hinv.ideal⟩

end Block

/-! ## The system -/

section System

variable {α : Type} [DecidableEq α]

namespace Sys

/-- The invariant of the system: that of every block, under one clock. -/
structure Inv (mode : L2.Mode) (space : α → MemorySpaceType) (s : Sys α ι) : Prop where
  block : ∀ a, (s.block a).Inv mode (space a)
  now : ∀ a, (s.block a).now = s.now

/-- The completion time of a fence of the warp `wid` of `i`. -/
def completeTime (s : Sys α ι) (i : ι) (wid : Nat) : Nat := max (s.globalWrites i wid) (s.now + 1)

/-- What can happen to the system, by what happens. -/
inductive Step (mode : L2.Mode) (space : α → MemorySpaceType) (s : Sys α ι) :
    SysAct α ι → Sys α ι → Prop
  | tick : Step mode space s .tick { s with now := s.now + 1, block := fun a => (s.block a).tick }
  | block {a act b} (hstep : (s.block a).Step mode (space a) act b) :
      Step mode space s (.block a act)
        { s with block := update s.block a b
                 globalWrites := (s.block a).noted s.globalWrites act }
  | fence {i wid} :
      Step mode space s (.fence i wid)
        { s with fenceTriggerQueue := update s.fenceTriggerQueue i
                   (s.fenceTriggerQueue i ++ [⟨.FENCE, wid, s.completeTime i wid⟩])
                 fences := s.fences ++ [⟨i, wid, s.completeTime i wid, s.ackedBy i wid⟩] }
  | fenceAck {i k m} (hm : (s.fenceTriggerQueue i)[k]? = some m)
      (hdue : m.fenceCompleteTime ≤ s.now) :
      Step mode space s (.fenceAck i k)
        { s with fenceTriggerQueue := update s.fenceTriggerQueue i
                   ((s.fenceTriggerQueue i).eraseIdx k) }

variable {mode : L2.Mode} {space : α → MemorySpaceType} {s s' : Sys α ι} {act : SysAct α ι}

omit [DecidableEq α] in
theorem stepFence_spec (i : ι) (wid : Nat) : s.stepFence i wid = some (.ok
    { s with fenceTriggerQueue := update s.fenceTriggerQueue i
               (s.fenceTriggerQueue i ++ [⟨.FENCE, wid, s.completeTime i wid⟩])
             fences := s.fences ++ [⟨i, wid, s.completeTime i wid, s.ackedBy i wid⟩] }) := by
  have hreq : L1.request 0
      { type := .MEM_FENCE, space := .NULL, threadID := wid, memfetch := ⟨0, i, wid⟩ }
      (s.dummyCtx i) =
      .ok { s.dummyCtx i with fenceTriggerOut := [⟨.FENCE, wid, s.completeTime i wid⟩] } := by
    rw [L1.request_go rfl rfl]
    simp [runActions, L1.itInsertFenceTriggerQueue, L1.kPopMandatoryQueue, L1.peekMandatory,
      L1.setState, dummyCtx, completeTime, Except.map]
  rw [stepFence, hreq]
  rfl

omit [DecidableEq α] in
theorem stepFenceAck_spec {i : ι} {k : Nat} {r : Except Fault (Sys α ι)}
    (h : s.stepFenceAck i k = some r) :
    ∃ m, (s.fenceTriggerQueue i)[k]? = some m ∧ m.fenceCompleteTime ≤ s.now ∧
      r = .ok { s with fenceTriggerQueue := update s.fenceTriggerQueue i
                         ((s.fenceTriggerQueue i).eraseIdx k) } := by
  unfold stepFenceAck at h
  split at h
  · cases h
  · next m hm =>
    split at h
    · next hdue =>
      refine ⟨m, hm, hdue, ?_⟩
      have hack : L1.fenceTrigger m (s.dummyCtx i) =
          .ok { s.dummyCtx i with memfenceCallback := [m.threadID] } := by
        have hgo : (L1.controller 0).doTransition .fenceAck
            { s.dummyCtx i with fenceTrigger := some m } = _ := Controller.doTransition_go _ rfl rfl
        rw [L1.fenceTrigger, if_pos (show m.fenceCompleteTime ≤ (s.dummyCtx i).now from hdue), hgo]
        rfl
      rw [Option.some.injEq] at h
      rw [← h, hack]
      rfl
    · cases h

/-- **No controller faults.** A step of the system with the invariant is a `Step`. -/
theorem step_spec (hinv : s.Inv mode space) {r : Except Fault (Sys α ι)}
    (h : s.step mode space act = some r) : ∃ s', r = .ok s' ∧ s.Step mode space act s' := by
  cases act with
  | tick =>
    cases h
    exact ⟨_, rfl, .tick⟩
  | block a act =>
    simp only [step, Option.map_eq_some_iff] at h
    obtain ⟨x, hx, rfl⟩ := h
    obtain ⟨b, rfl, hb⟩ := Block.step_spec (hinv.block a) hx
    exact ⟨_, rfl, .block hb⟩
  | fence i wid =>
    have : r = _ := Option.some.inj (h.symm.trans (stepFence_spec i wid))
    exact ⟨_, this, .fence⟩
  | fenceAck i k =>
    obtain ⟨m, hm, hdue, hr⟩ := stepFenceAck_spec h
    exact ⟨_, hr, .fenceAck hm hdue⟩

omit [DecidableEq α] in
theorem inv_init (mode : L2.Mode) (space : α → MemorySpaceType) :
    ({} : Sys α ι).Inv mode space where
  block a := Block.inv_init mode (space a)
  now _ := rfl

/-- **The step lemma of the system.** -/
theorem Step.inv (h : s.Step mode space act s') (hinv : s.Inv mode space) : s'.Inv mode space := by
  cases h with
  | tick => exact ⟨fun a => (hinv.block a).tick, fun a => congrArg (· + 1) (hinv.now a)⟩
  | fence => exact ⟨hinv.block, hinv.now⟩
  | fenceAck => exact ⟨hinv.block, hinv.now⟩
  | @block a act b hstep =>
    refine ⟨fun a' => ?_, fun a' => ?_⟩
    · by_cases ha : a' = a
      · subst ha
        simp only [update_self]
        exact hstep.inv (hinv.block a')
      · simp only [update_of_ne ha]
        exact hinv.block a'
    · by_cases ha : a' = a
      · subst ha
        simp only [update_self]
        exact hstep.now_eq.trans (hinv.now a')
      · simp only [update_of_ne ha]
        exact hinv.now a'

end Sys

variable {mode : L2.Mode} {space : α → MemorySpaceType} {s : Sys α ι} {ok : Sys α ι → SysAct α ι → Prop}

/-- **The invariant of the system** holds in every reachable state, whatever is assumed about the
steps. -/
theorem system_reachable_inv (h : (system ι mode space).ReachableUnder ok s) : s.Inv mode space := by
  refine h.invariant (Sys.inv_init mode space) fun s act t hinv _ ht => ?_
  obtain ⟨s', hs', hstep⟩ := Sys.step_spec hinv ht
  cases hs'
  exact hstep.inv hinv

/-- **The invariant rule of the system.** What holds initially and is kept by the steps that meet
the assumption holds in every state reached under it; the steps may be taken to be `Sys.Step`s from
reached states. -/
theorem system_invariant {P : Sys α ι → Prop} (hinit : P {})
    (hstep : ∀ s act s', (system ι mode space).ReachableUnder ok s → ok s act →
      s.Step mode space act s' → P s → P s') (h : (system ι mode space).ReachableUnder ok s) : P s := by
  induction h with
  | init => exact hinit
  | @step s act t hs hok ht ih =>
    obtain ⟨s', hs', hstep'⟩ := Sys.step_spec (system_reachable_inv hs) ht
    cases hs'
    exact hstep s act _ hs hok hstep' ih

/-- A condition on the steps of the blocks; everything else is free. -/
def Sys.EachBlock (ok : Block ι → BlockAct ι → Prop) (s : Sys α ι) : SysAct α ι → Prop
  | .block a act => ok (s.block a) act
  | _ => True

instance Sys.decidableEachBlock (ok : Block ι → BlockAct ι → Prop) [∀ b act, Decidable (ok b act)]
    (s : Sys α ι) : ∀ act, Decidable (s.EachBlock ok act)
  | .block a act => inferInstanceAs (Decidable (ok (s.block a) act))
  | .tick => .isTrue trivial
  | .fence _ _ => .isTrue trivial
  | .fenceAck _ _ => .isTrue trivial

/-- **The invariant rule for blocks.** What a block has initially and its own steps and the clock
keep holds of every block in every reached state. -/
theorem system_block_invariant (P : α → Block ι → Prop)
    (hinit : ∀ a, P a {}) (htick : ∀ a b, P a b → P a b.tick)
    (hstep : ∀ s a act b', (system ι mode space).ReachableUnder ok s → ok s (.block a act) →
      (s.block a).Step mode (space a) act b' → P a (s.block a) → P a b')
    (h : (system ι mode space).ReachableUnder ok s) (a : α) : P a (s.block a) := by
  refine system_invariant (P := fun s => ∀ a, P a (s.block a)) hinit ?_ h a
  intro s act s' hreach hok hs hP a'
  cases hs with
  | tick => exact htick a' _ (hP a')
  | fence => exact hP a'
  | fenceAck => exact hP a'
  | @block a act b hs =>
    by_cases ha : a' = a
    · subst ha
      simp only [update_self]
      exact hstep s a' act b hreach hok hs (hP a')
    · simp only [update_of_ne ha]
      exact hP a'

/-! ## Counters -/

/-- **The counters balance, and no controller faults.** In every reachable state the pending reads
and writes of a TBE are the transactions of its L1 that are outstanding, the TBE exists exactly
while there are any, no assertion fails and no event lacks a transition. -/
theorem pending_counters_balance (hs : (system ι mode space).Reachable s) :
    (∀ a i t, ((s.block a).l1 i).tbe = some t →
      t.pendingReads = (s.block a).outstanding i .read ∧
      t.pendingWrites = (s.block a).outstanding i .write + (s.block a).outstanding i .atomic) ∧
    (∀ a i, ((s.block a).l1 i).tbe = none ↔ ∀ k, (s.block a).outstanding i k = 0) ∧
    ∀ act e, (system ι mode space).step s act ≠ some (.error e) := by
  have hinv := system_reachable_inv hs
  refine ⟨fun a i t ht => ?_, fun a i => ?_, fun act e he => ?_⟩
  · have hbal := (hinv.block a).line i
    exact ⟨hbal.reads t ht, hbal.writes t ht⟩
  · exact ((hinv.block a).line i).tbe_eq_none_iff
  · obtain ⟨s', hs', -⟩ := Sys.step_spec hinv he
    cases hs'

end System

/-- Two L1s over one block, with a predictor that is not the oracle. -/
abbrev twoL1s : Machine (Sys Unit Bool) (SysAct Unit Bool) Fault :=
  system Bool {} fun _ => .GLOBAL

/-- A store and a load of one L1 and a fence under way: one write and one read are outstanding. -/
theorem pending_counters_balance_store_load :
    ∃ s, twoL1s.run [.block () (.core true .ST 0 0), .fence true 0, .block () (.core true .LD 1 5)]
        twoL1s.init = some s ∧
      (s.block ()).outstanding true .read = 1 ∧ (s.block ()).outstanding true .write = 1 ∧
      ∃ t, ((s.block ()).l1 true).tbe = some t ∧ t.pendingReads = 1 ∧ t.pendingWrites = 1 := by
  refine twoL1s.exists_run_of _ (fun s => (((s.block ()).l1 true).tbe.isSome, (s.block ()).outstanding true))
    (twoL1s.runMeets_true ..) rfl fun s hs hf => ?_
  have hread : (s.block ()).outstanding true .read = 1 := congrFun (congrArg Prod.snd hf) .read
  have hwrite : (s.block ()).outstanding true .write = 1 := congrFun (congrArg Prod.snd hf) .write
  have hatomic : (s.block ()).outstanding true .atomic = 0 :=
    congrFun (congrArg Prod.snd hf) .atomic
  obtain ⟨t, ht⟩ := Option.isSome_iff_exists.mp (congrArg Prod.fst hf)
  obtain ⟨hr, hw⟩ := (pending_counters_balance hs).1 () true t ht
  exact ⟨hread, hwrite, t, ht, by omega, by omega⟩

end GpgpuSimRuby.Ruby.Cachelease3
