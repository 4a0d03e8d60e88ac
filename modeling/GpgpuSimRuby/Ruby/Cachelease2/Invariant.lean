import GpgpuSimRuby.Ruby.Cachelease2.L2Steps

/-!
# cachelease2: the invariant of a block

Every transaction an L1 opens is somewhere: its request is on the way to the L2, or the L2 has noted
it in its TBE, or its answer is on the way back. `Block.outstanding` counts them, the L2 only moves
them (`BankStep.outstanding_eq`), and the counters of the L1's TBE agree with the count
(`Block.Inv.line`).

`Block.Step` puts the steps of the L1s, of the L2 and of the networks together, and `Block.Step.inv`
is the step lemma of the invariant.
-/

namespace GpgpuSimRuby.Ruby.Cachelease2

open Library Function

variable {ι : Type} [DecidableEq ι]

omit [DecidableEq ι] in
theorem CoreStep.sent {cfg : Config} {now : Nat} {space : MemorySpaceType} {g : MemFetch ι}
    {ℓ ℓ' : L1Line ι} {sent : Option (RequestMsg ι)} (h : CoreStep cfg now space g ℓ sent ℓ')
    {m : RequestMsg ι} (hm : m ∈ sent) : m.requestor = g.sid ∧ m.WellFormed space := by
  cases h with
  | hit => cases hm
  | loadMiss | loadMore => cases hm; exact ⟨rfl, .inl rfl, rfl, fun h => absurd rfl h⟩
  | upgrade | upgradeMore => cases hm; exact ⟨rfl, .inr (.inr (.inl rfl)), rfl, fun _ => rfl⟩
  | write _ htype | writeMore _ htype =>
    cases hm
    refine ⟨rfl, ?_, rfl, fun _ => rfl⟩
    rcases htype with rfl | rfl
    · exact .inr (.inl rfl)
    · exact .inr (.inr (.inr rfl))

/-! ## Outstanding transactions -/

omit [DecidableEq ι] in
theorem RequestMsg.kind_write (m : RequestMsg ι) (hm : m.type ≠ .GETS) (ha : m.type ≠ .DATA_ATOMIC) :
    m.kind = .write := by
  unfold RequestMsg.kind
  split <;> simp_all

/-- Is the L1 of `i` noted in the TBE for a transaction of kind `k`? -/
def L2TBE.waiting (t : L2TBE ι) (i : ι) : Kind → Nat
  | .read => if i ∈ t.l1GetSIDs then 1 else 0
  | .write => if t.tbeState = .IM ∧ t.l1WBAckID = some i then 1 else 0
  | .atomic => if t.tbeState = .IMA ∧ t.l1WBAckID = some i then 1 else 0

namespace Block

/-- Requests of `i` that the L2 has not taken from its queue. -/
def inNetwork (b : Block ι) (i : ι) (k : Kind) : Nat :=
  (b.toL2 i).countP (fun m => m.kind = k) +
    b.l1RequestToL2Cache.countP (fun m => m.requestor = i ∧ m.kind = k) +
    b.recycled.countP (fun p => p.2.requestor = i ∧ p.2.kind = k)

/-- Requests of `i` that wait in the L2's TBE. -/
def waiting (b : Block ι) (i : ι) (k : Kind) : Nat :=
  match b.tbe with
  | none => 0
  | some t => t.waiting i k

/-- Responses in flight to `i`. -/
def inFlight (b : Block ι) (i : ι) (k : Kind) : Nat :=
  (b.responseToL1 i).countP fun m => m.kind = k

/-- The transactions of kind `k` the L1 of `i` has open: outstanding requests and responses in
flight. -/
def outstanding (b : Block ι) (i : ι) (k : Kind) : Nat :=
  b.inNetwork i k + b.waiting i k + b.inFlight i k

/-- A request that is on its way to the L2. -/
def InTransit (b : Block ι) (m : RequestMsg ι) : Prop :=
  m ∈ b.toL2 m.requestor ∨ m ∈ b.l1RequestToL2Cache ∨ ∃ due, (due, m) ∈ b.recycled

/-! ## The invariant -/

/-- The invariant of a block: the counters balance, the L2's share has one of its shapes, and the
messages are those the controllers send. -/
structure Inv (cfg : Config) (space : MemorySpaceType) (b : Block ι) : Prop where
  now_pos : 0 < b.now
  shape : b.Shape cfg space
  line : ∀ i, (b.l1 i).Balanced (b.outstanding i)
  requestor : ∀ i, ∀ m ∈ b.toL2 i, m.requestor = i
  request : ∀ m, b.InTransit m → m.WellFormed space
  response : ∀ i, ∀ m ∈ b.responseToL1 i,
    i ∈ m.destination ∧ (m.type = .DATA ∨ m.type = .ACK ∨ m.type = .DATA_ATOMIC)

theorem inv_init (cfg : Config) (space : MemorySpaceType) : ({} : Block ι).Inv cfg space where
  now_pos := Nat.one_pos
  shape := .absent rfl rfl rfl rfl
  line _ := L1Line.balanced_idle nofun rfl rfl rfl
  requestor _ _ := nofun
  request _ := by rintro (h | h | ⟨_, h⟩) <;> cases h
  response _ _ := nofun

/-! ## The steps of a block -/

/-- Store the line of `i` and send its request. -/
def setLine (b : Block ι) (i : ι) (ℓ : L1Line ι) (sent : Option (RequestMsg ι)) : Block ι :=
  { b with
    l1 := update b.l1 i ℓ
    toL2 := update b.toL2 i (b.toL2 i ++ sent.toList)
    sentWrites := update b.sentWrites i
      (b.sentWrites i ++ (sent.toList.filter isWrite).map (·.memfetch)) }

/-- What can happen to a block, by what happens. -/
inductive Step (cfg : Config) (space : MemorySpaceType) (b : Block ι) :
    BlockAct ι → Block ι → Prop
  | core {i type wid sent ℓ} (hmshr : type = .LD → (b.l1 i).readPending = false)
      (hstep : CoreStep cfg b.now space ⟨b.nextUid, i, wid⟩ (b.l1 i) sent ℓ) :
      Step cfg space b (.core i type wid)
        { b.setLine i ℓ sent with nextUid := b.nextUid + 1 }
  | l1Replace {i} (ht : (b.l1 i).tbe = none) :
      Step cfg space b (.l1Replace i)
        { b with l1 := update b.l1 i { b.l1 i with entry := none } }
  | l1Stall {i} : Step cfg space b (.l1Replace i) b
  | l1Response {i k m ℓ} (hm : (b.responseToL1 i)[k]? = some m)
      (hstep : ResponseStep b.now i m (b.l1 i) ℓ) :
      Step cfg space b (.l1Response i k)
        { b with l1 := update b.l1 i ℓ
                 responseToL1 := update b.responseToL1 i
                   ((b.responseToL1 i).eraseIdx k) }
  | arrive {i m rest} (hm : b.toL2 i = m :: rest) :
      Step cfg space b (.arrive i)
        { b with toL2 := update b.toL2 i rest
                 l1RequestToL2Cache := b.l1RequestToL2Cache ++ [m] }
  | requeue {k due m} (hm : b.recycled[k]? = some (due, m)) (hdue : due ≤ b.now) :
      Step cfg space b (.requeue k)
        { b with recycled := b.recycled.eraseIdx k
                 l1RequestToL2Cache := b.l1RequestToL2Cache ++ [m] }
  | bank {a b'} (hstep : BankStep cfg b a b') : Step cfg space b a b'

/-- No upgrade in transit carries the time of an entry stored in `E`: it would be an event for which
`E` declares no transition. -/
def NoMatchInE (b : Block ι) : Prop :=
  ∀ m, b.InTransit m → m.type = .DATA_UPGRADE →
    ∀ e ∈ b.entry, e.cacheState = .E → e.liveUntilTime ≠ m.liveUntilTime

variable {cfg : Config} {space : MemorySpaceType} {b b' : Block ι} {r : Except Fault (Block ι)}

variable {i : ι}

theorem outstanding_pos {m : ResponseMsg ι} (hm : m ∈ b.responseToL1 i) :
    0 < b.outstanding i m.kind := by
  have : 0 < b.inFlight i m.kind := List.countP_pos_iff.mpr ⟨m, hm, by simp⟩
  unfold outstanding
  omega

theorem stepCore_spec (hinv : b.Inv cfg space) {type : CacheRequestType} {wid : Nat}
    (hfence : type ≠ .MEM_FENCE) (h : b.stepCore cfg space i type wid = some r) :
    ∃ b', r = .ok b' ∧ b.Step cfg space (.core i type wid) b' := by
  unfold stepCore at h
  split at h
  · cases h
  · next hmshr =>
    have hmshr' : type = .LD → (b.l1 i).readPending = false := by
      intro hld
      by_contra hr
      exact hmshr ⟨hld, by simpa using hr⟩
    obtain ⟨sent, ℓ, hreq, hstep⟩ :=
      L1.request_spec cfg b.now space ⟨b.nextUid, i, wid⟩ (hinv.line i) hmshr' hfence
    refine ⟨_, ?_, .core hmshr' hstep⟩
    rw [Option.some.injEq] at h
    rw [← h]
    exact congrArg (Except.map _) hreq

theorem stepL1Replace_spec (hinv : b.Inv cfg space) (h : b.stepL1Replace cfg i = some r) :
    ∃ b', r = .ok b' ∧ b.Step cfg space (.l1Replace i) b' := by
  unfold stepL1Replace at h
  split at h
  · cases h
  · next e he =>
    have hspec : cfg.l1Controller.doTransition .l1Replacement (b.l1Ctx i) = _ :=
      L1.replacement_spec cfg b.now i (hinv.line i) (by simp [he])
    rw [Option.some.injEq, hspec] at h
    by_cases ht : (b.l1 i).tbe = none
    · refine ⟨_, ?_, .l1Replace ht⟩
      rw [← h, if_pos ht]
      simp [putL1, L1Line.ctx, Except.map]
    · refine ⟨_, ?_, .l1Stall⟩
      rw [← h, if_neg ht]
      simp [putL1, L1Line.ctx, Except.map]

theorem stepL1Response_spec (hinv : b.Inv cfg space) {k : Nat}
    (h : b.stepL1Response cfg i k = some r) : ∃ b', r = .ok b' ∧ b.Step cfg space (.l1Response i k) b' := by
  unfold stepL1Response at h
  split at h
  · cases h
  · next m hm =>
    have hmem := mem_of_getElem?_eq_some hm
    obtain ⟨hdest, htype⟩ := hinv.response i m hmem
    obtain ⟨ℓ, hrec, hstep⟩ :=
      L1.receive_spec cfg b.now (hinv.line i) hdest htype (outstanding_pos hmem)
    refine ⟨_, ?_, .l1Response hm hstep⟩
    rw [Option.some.injEq] at h
    rw [← h, show L1.receive cfg.l1Controller m (b.l1Ctx i) = _ from hrec]
    simp [putL1, L1Line.ctx, Except.map]

/-- **The controllers do not fault.** A step from a state with the invariant is a `Step`. The one
exception is a fence: cachelease2 has no event for it. -/
theorem step_spec (hinv : b.Inv cfg space) (hE : b.NoMatchInE) {a : BlockAct ι}
    (h : b.step cfg space a = some r) : (∃ b', r = .ok b' ∧ b.Step cfg space a b') ∨
    ∃ i wid, a = .core i .MEM_FENCE wid ∧ r = .error (.error "Invalid CacheRequestType") := by
  cases a with
  | core i type wid =>
    by_cases hfence : type = .MEM_FENCE
    · subst hfence
      cases h
      exact .inr ⟨i, wid, rfl, rfl⟩
    · exact .inl (stepCore_spec hinv hfence h)
  | l1Replace i => exact .inl (stepL1Replace_spec hinv h)
  | l1Response i k => exact .inl (stepL1Response_spec hinv h)
  | arrive i =>
    simp only [step, stepArrive] at h
    split at h
    · cases h
    · next m rest hm =>
      cases h
      exact .inl ⟨_, rfl, .arrive hm⟩
  | l2Request =>
    cases hq : b.l1RequestToL2Cache with
    | nil => simp [step, stepL2Request, hq] at h
    | cons m rest =>
      have hm : b.InTransit m := .inr (.inl (by simp [hq]))
      obtain ⟨b', hb', hstep⟩ := stepL2Request_spec hinv.shape hinv.now_pos hq (hinv.request m hm)
        (hE m hm)
      have : r = .ok b' := Option.some.inj (h.symm.trans hb')
      exact .inl ⟨b', this, .bank hstep⟩
  | l2Replace =>
    by_cases he : b.entry = none
    · simp [step, stepL2Replace, he] at h
    · obtain ⟨b', hb', hstep⟩ := stepL2Replace_spec hinv.shape he
      have : r = .ok b' := Option.some.inj (h.symm.trans hb')
      exact .inl ⟨b', this, .bank hstep⟩
  | l2Expire =>
    obtain ⟨b', hb', hstep⟩ := stepL2Expire_spec hinv.shape h
    exact .inl ⟨b', hb', .bank hstep⟩
  | l2Memory =>
    obtain ⟨b', hb', hstep⟩ := stepL2Memory_spec hinv.shape h
    exact .inl ⟨b', hb', .bank hstep⟩
  | requeue k =>
    simp only [step, stepRequeue] at h
    split at h
    · cases h
    · next due m hm =>
      split at h
      · next hdue =>
        cases h
        exact .inl ⟨_, rfl, .requeue hm hdue⟩
      · cases h

/-! ## The L2 only moves transactions -/

theorem inFlight_send (m : ResponseMsg ι) (i : ι) (k : Kind) :
    (L2.send m b).inFlight i k =
      b.inFlight i k + if i ∈ m.destination ∧ m.kind = k then 1 else 0 := by
  by_cases hi : i ∈ m.destination <;> by_cases hk : m.kind = k <;>
    simp [inFlight, L2.send, hi, hk]

theorem inNetwork_pop {m : RequestMsg ι} {rest : List (RequestMsg ι)}
    (hq : b.l1RequestToL2Cache = m :: rest) (i : ι) (k : Kind) :
    b.inNetwork i k = { b with l1RequestToL2Cache := rest }.inNetwork i k +
      if m.requestor = i ∧ m.kind = k then 1 else 0 := by
  simp only [inNetwork, hq, List.countP_cons, decide_eq_true_eq]
  omega

end Block

open Block in
/-- **The L2 conserves transactions.** A step moves them from the queue to the TBE, and from either
to a response. A second read of an L1 would be lost in the set of readers; the premise excludes it. -/
theorem BankStep.outstanding_eq {cfg : Config} {space : MemorySpaceType} {b b' : Block ι} {a : BlockAct ι}
    (h : BankStep cfg b a b') (hshape : b.Shape cfg space)
    (hone : ∀ i, b.outstanding i .read ≤ 1) (i : ι) (k : Kind) : b'.outstanding i k = b.outstanding i k := by
  have hpop := @inNetwork_pop _ _ b
  cases h with
  | stall => rfl
  | recycle hv hq hw _ =>
    have h1 := hpop hq i k
    simp only [outstanding, inNetwork, waiting, inFlight,
      List.countP_append, List.countP_singleton, decide_eq_true_eq] at h1 ⊢
    omega
  | @fetchRead m rest hq ht he hm =>
    have h1 := hpop hq i k
    have hk : m.kind = .read := by simp [RequestMsg.kind, hm]
    simp only [outstanding, inNetwork, waiting, inFlight, ht, hk] at h1 ⊢
    cases k <;> simp [L2TBE.waiting, eq_comm] at h1 ⊢ <;> omega
  | @mergeRead m rest t hq ht hs hm =>
    have h1 := hpop hq i k
    have hk : m.kind = .read := by simp [RequestMsg.kind, hm]
    -- the reader is not in the set yet: its one read is this request
    have hnew : m.requestor ∉ t.l1GetSIDs := by
      intro hmem
      have h2 := hpop hq m.requestor .read
      have h3 := hone m.requestor
      simp only [outstanding, waiting, ht, L2TBE.waiting, hmem, if_true] at h3
      simp only [hk, and_self, if_true] at h2
      omega
    simp only [outstanding, inNetwork, waiting, inFlight, ht, hk] at h1 ⊢
    cases k with
    | read =>
      by_cases hi : m.requestor = i
      · subst hi
        simp [L2TBE.waiting, hnew] at h1 ⊢
        omega
      · simp [L2TBE.waiting, hi, Ne.symm hi] at h1 ⊢
        omega
    | write => simp [L2TBE.waiting] at h1 ⊢; omega
    | atomic => simp [L2TBE.waiting] at h1 ⊢; omega
  | @fetchWrite m rest s hq ht he hm hs =>
    have h1 := hpop hq i k
    simp only [outstanding, inNetwork, waiting, inFlight, ht] at h1 ⊢
    by_cases ha : m.type = .DATA_ATOMIC
    · have hk : m.kind = .atomic := by simp [RequestMsg.kind, ha]
      cases k <;> simp [L2TBE.waiting, hs, ha, hk] at h1 ⊢ <;> omega
    · have hk : m.kind = .write := m.kind_write hm ha
      cases k <;> simp [L2TBE.waiting, hs, ha, hk] at h1 ⊢ <;> omega
  | @read m rest e hq ht he hm =>
    have h1 := hpop hq i k
    have hk : m.kind = .read := by simp [RequestMsg.kind, hm]
    rw [outstanding, inFlight_send]
    simp only [outstanding, inNetwork, waiting, inFlight, ht, hk, L2.send,
      ResponseMsg.kind, Finset.mem_singleton, eq_comm (a := i)] at h1 ⊢
    omega
  | @write m rest e hq ht he hm hs =>
    have h1 := hpop hq i k
    have hk : (writeResponse m e.dataBlk (e.liveUntilTime + 1)).kind = m.kind ∧
        (writeResponse m e.dataBlk (e.liveUntilTime + 1)).destination = {m.requestor} := by
      unfold writeResponse
      split
      · next ha => simp [ResponseMsg.kind, RequestMsg.kind, ha]
      · next ha => simp [ResponseMsg.kind, m.kind_write hm ha]
    rw [outstanding, inFlight_send, hk.1, hk.2]
    simp only [outstanding, inNetwork, waiting, inFlight, ht, L2.send,
      Finset.mem_singleton, eq_comm (a := i)] at h1 ⊢
    omega
  | @fillRead t s ht hts hs =>
    have hwriter : t.l1WBAckID = none := by
      cases hshape <;> simp_all
    rw [outstanding, inFlight_send]
    simp only [outstanding, inNetwork, waiting, inFlight, ht, L2.send,
      ResponseMsg.kind]
    cases k <;> simp [L2TBE.waiting, hwriter]
    omega
  | @fillWrite t r g ht hts hr hg =>
    have hreaders : t.l1GetSIDs = ∅ := by
      cases hshape <;> simp_all
    rw [outstanding, inFlight_send]
    simp only [outstanding, inNetwork, waiting, inFlight, ht, L2.send]
    rcases hts with hts | hts <;> cases k <;>
      simp [L2TBE.waiting, fillResponse, ResponseMsg.kind, hreaders, hr, hts, eq_comm (a := i)] <;>
      omega
  | evict ht he hlive hs hv =>
    simp only [outstanding, inNetwork, waiting, inFlight, ht]
    cases k <;> simp [L2TBE.waiting]
  | drop ht he hs => simp only [outstanding, inNetwork, waiting, inFlight]
  | @expire t ht hs hdue =>
    have hnone : t.l1WBAckID = none ∧ t.l1GetSIDs = ∅ := by
      cases hshape <;> simp_all
    simp only [outstanding, inNetwork, waiting, inFlight, ht]
    cases k <;> simp [L2TBE.waiting, hnone.1, hnone.2]

/-! ## The step lemma -/

section BankStep

variable {cfg : Config} {space : MemorySpaceType} {b b' : Block ι} {a : BlockAct ι}

theorem BankStep.frame (h : BankStep cfg b a b') :
    b'.now = b.now ∧ b'.l1 = b.l1 ∧ b'.toL2 = b.toL2 ∧ b'.sentWrites = b.sentWrites ∧
      b'.nextUid = b.nextUid := by
  cases h <;> exact ⟨rfl, rfl, rfl, rfl, rfl⟩

theorem BankStep.inTransit (h : BankStep cfg b a b') {m : RequestMsg ι} (hm : b'.InTransit m) :
    b.InTransit m := by
  have hpop : ∀ {m₀ rest}, b.l1RequestToL2Cache = m₀ :: rest →
      m ∈ b.toL2 m.requestor ∨ m ∈ rest ∨ (∃ due, (due, m) ∈ b.recycled) → b.InTransit m := by
    intro m₀ rest hq hm
    exact hm.imp id (Or.imp (fun h => by simp [hq, h]) id)
  cases h with
  | stall => exact hm
  | @recycle m₀ rest hv hq hw _ =>
    rcases hm with hm | hm | ⟨due, hm⟩
    · exact .inl hm
    · exact hpop hq (.inr (.inl hm))
    · rcases List.mem_append.mp hm with hm | hm
      · exact .inr (.inr ⟨due, hm⟩)
      · obtain ⟨-, rfl⟩ : due = _ ∧ m = m₀ := by simpa using hm
        exact .inr (.inl (by simp [hq]))
  | fetchRead hq => exact hpop hq hm
  | mergeRead hq => exact hpop hq hm
  | fetchWrite hq => exact hpop hq hm
  | read hq => exact hpop hq hm
  | write hq => exact hpop hq hm
  | fillRead => exact hm
  | fillWrite => exact hm
  | evict => exact hm
  | drop => exact hm
  | expire => exact hm

theorem L2.mem_send {m₀ m : ResponseMsg ι} {i : ι} :
    m ∈ (L2.send m₀ b).responseToL1 i ↔ m ∈ b.responseToL1 i ∨ m = m₀ ∧ i ∈ m₀.destination := by
  by_cases hi : i ∈ m₀.destination <;> simp [L2.send, hi]

theorem BankStep.response (h : BankStep cfg b a b') {i : ι} {m : ResponseMsg ι}
    (hm : m ∈ b'.responseToL1 i) : m ∈ b.responseToL1 i ∨
      i ∈ m.destination ∧ (m.type = .DATA ∨ m.type = .ACK ∨ m.type = .DATA_ATOMIC) := by
  have hsend : ∀ {m₀ : ResponseMsg ι} {c : Block ι}, c.responseToL1 = b.responseToL1 →
      (m₀.type = .DATA ∨ m₀.type = .ACK ∨ m₀.type = .DATA_ATOMIC) →
      m ∈ (L2.send m₀ c).responseToL1 i → m ∈ b.responseToL1 i ∨
        i ∈ m.destination ∧ (m.type = .DATA ∨ m.type = .ACK ∨ m.type = .DATA_ATOMIC) := by
    intro m₀ c hc htype hm
    rcases L2.mem_send.mp hm with hm | ⟨rfl, hi⟩
    · exact .inl (hc ▸ hm)
    · exact .inr ⟨hi, htype⟩
  cases h with
  | stall => exact .inl hm
  | recycle => exact .inl hm
  | fetchRead => exact .inl hm
  | mergeRead => exact .inl hm
  | fetchWrite => exact .inl hm
  | read => exact hsend rfl (.inl rfl) hm
  | write => exact hsend rfl (by unfold writeResponse; split <;> simp) hm
  | fillRead => exact hsend rfl (.inl rfl) hm
  | fillWrite => exact hsend rfl (by unfold fillResponse; split <;> simp) hm
  | evict => exact .inl hm
  | drop => exact .inl hm
  | expire => exact .inl hm

omit [DecidableEq ι] in
theorem Block.Shape.congr (hshape : b.Shape cfg space) (ht : b'.tbe = b.tbe)
    (he : b'.entry = b.entry) (hm : b'.memReads = b.memReads)
    (hx : b'.l2ExpireTriggerQueue = b.l2ExpireTriggerQueue) : b'.Shape cfg space := by
  cases hshape with
  | absent h1 h2 h3 h4 => exact .absent (ht ▸ h1) (he ▸ h2) (hm ▸ h3) (hx ▸ h4)
  | held h1 h2 h3 h4 h5 => exact .held (ht ▸ h1) (he ▸ h2) (hm ▸ h3) (hx ▸ h4) h5
  | reading h1 h2 h3 h4 h5 h6 h7 h8 =>
    exact .reading (ht ▸ h1) (he ▸ h2) (hm ▸ h3) (hx ▸ h4) h5 h6 h7 h8
  | writing h1 h2 h3 h4 h5 h6 h7 h8 h9 =>
    exact .writing (ht ▸ h1) (he ▸ h2) (hm ▸ h3) (hx ▸ h4) h5 h6 h7 h8 h9
  | evicted h1 h2 h3 h4 h5 h6 h7 h8 =>
    exact .evicted (ht ▸ h1) (he ▸ h2) (hm ▸ h3) (hx ▸ h4) h5 h6 h7 h8

omit [DecidableEq ι] in
theorem Block.Shape.quiet (hshape : b.Shape cfg space) (ht : b.tbe = none) :
    b.memReads = 0 ∧ b.l2ExpireTriggerQueue = [] := by
  cases hshape <;> simp_all

theorem BankStep.shape (h : BankStep cfg b a b') (hshape : b.Shape cfg space)
    (hreq : ∀ m ∈ b.l1RequestToL2Cache, m.WellFormed space) : b'.Shape cfg space := by
  cases h with
  | stall => exact hshape
  | recycle => exact hshape.congr rfl rfl rfl rfl
  | @fetchRead m rest hq ht he hm =>
    obtain ⟨h0, hx⟩ := hshape.quiet ht
    have hwf := hreq m (by simp [hq])
    exact .reading rfl rfl (by simp [h0]) hx rfl hwf.space (by simp) rfl
  | @mergeRead m rest t hq ht hs hm =>
    cases hshape with
    | reading ht' he hm hx _ hspace hreaders hwriter =>
      obtain rfl : t = _ := Option.some.inj (ht.symm.trans ht')
      exact .reading rfl he hm hx hs hspace (by simp) hwriter
    | _ => simp_all
  | @fetchWrite m rest s hq ht he hm hs =>
    obtain ⟨h0, hx⟩ := hshape.quiet ht
    refine .writing rfl rfl (by simp [h0]) hx ?_ rfl rfl rfl rfl
    rw [hs]
    split <;> simp
  | @read m rest e hq ht he hm =>
    obtain ⟨h0, hx⟩ := hshape.quiet ht
    refine .held ht rfl h0 hx ?_
    unfold L2Entry.afterRead Config.readNext
    split
    · simp
    · next h => simp_all
  | write hq ht he hm hs =>
    obtain ⟨h0, hx⟩ := hshape.quiet ht
    exact .held ht rfl h0 hx (.inr (.inl rfl))
  | @fillRead t s ht hts hs =>
    cases hshape with
    | reading _ _ hm hx =>
      refine .held rfl rfl (by simp [L2.send, hm]) hx ?_
      rw [hs]
      split
      · next h => exact .inr (.inr ⟨rfl, h.2⟩)
      · exact .inr (.inl rfl)
    | _ => simp_all
  | fillWrite ht hts hr hg =>
    cases hshape with
    | writing _ _ hm hx => exact .held rfl rfl (by simp [L2.send, hm]) hx (.inl rfl)
    | _ => simp_all
  | evict ht he hlive hs hv =>
    obtain ⟨h0, hx⟩ := hshape.quiet ht
    exact .evicted rfl rfl h0 (by simp [hx]) rfl rfl rfl hv
  | drop ht he hs =>
    obtain ⟨h0, hx⟩ := hshape.quiet ht
    exact .absent ht rfl h0 hx
  | expire ht hs hdue =>
    cases hshape with
    | evicted _ he hm hx => exact .absent rfl he hm (by simp [hx])
    | _ => simp_all

end BankStep

namespace Block

variable {cfg : Config} {space : MemorySpaceType} {b b' : Block ι} {a : BlockAct ι}

theorem BankStep.inv (h : BankStep cfg b a b') (hinv : b.Inv cfg space) : b'.Inv cfg space := by
  obtain ⟨hnow, hl1, htoL2, -, -⟩ := h.frame
  refine ⟨hnow ▸ hinv.now_pos, ?_, ?_, ?_, ?_, ?_⟩
  · exact h.shape hinv.shape fun m hm => hinv.request m (.inr (.inl hm))
  · intro i
    have heq : b'.outstanding i = b.outstanding i :=
      funext (h.outstanding_eq hinv.shape (fun j => (hinv.line j).reads_le_one) i)
    rw [hl1, heq]
    exact hinv.line i
  · rw [htoL2]
    exact hinv.requestor
  · exact fun m hm => hinv.request m (h.inTransit hm)
  · intro i m hm
    rcases h.response hm with h | h
    · exact hinv.response i m h
    · exact h

variable {ℓ : L1Line ι} {n due : Nat} {m m' : RequestMsg ι} {rest : List (RequestMsg ι)}

theorem outstanding_setLine {i : ι} {sent : Option (RequestMsg ι)} {uid : Nat}
    (j : ι) (k : Kind) :
    { b.setLine i ℓ sent with nextUid := uid }.outstanding j k =
      b.outstanding j k + if j = i then sent.toList.countP (fun m => m.kind = k) else 0 := by
  by_cases hj : j = i
  · subst hj
    simp only [outstanding, inNetwork, waiting, inFlight, setLine, update_self,
      List.countP_append, if_true]
    omega
  · simp [outstanding, inNetwork, waiting, inFlight, setLine, hj]

theorem outstanding_eraseIdx {i : ι} {m : ResponseMsg ι}
    (hm : (b.responseToL1 i)[n]? = some m) (j : ι) (k : Kind) :
    b.outstanding j k =
      { b with l1 := update b.l1 i ℓ
               responseToL1 := update b.responseToL1 i
                 ((b.responseToL1 i).eraseIdx n) }.outstanding j k +
        if j = i ∧ m.kind = k then 1 else 0 := by
  by_cases hj : j = i
  · subst hj
    have hcount := countP_eraseIdx (fun m => m.kind = k) hm
    simp only [decide_eq_true_eq] at hcount
    simp only [outstanding, inNetwork, waiting, inFlight, update_self, hcount, true_and]
    omega
  · simp [outstanding, inNetwork, waiting, inFlight, hj]

theorem outstanding_arrive {i : ι}
    (hm : b.toL2 i = m :: rest) (hreq : m.requestor = i) (j : ι) (k : Kind) :
    { b with toL2 := update b.toL2 i rest
             l1RequestToL2Cache := b.l1RequestToL2Cache ++ [m] }.outstanding j k =
      b.outstanding j k := by
  by_cases hj : j = i
  · subst hj
    simp only [outstanding, inNetwork, waiting, inFlight, update_self, hm,
      List.countP_append, List.countP_cons, List.countP_nil, hreq, true_and]
    omega
  · have hne : m.requestor ≠ j := fun h => hj (h.symm.trans hreq)
    simp [outstanding, inNetwork, waiting, inFlight, hj, hne]

theorem outstanding_requeue
    (hm : b.recycled[n]? = some (due, m)) (j : ι) (k : Kind) :
    { b with recycled := b.recycled.eraseIdx n
             l1RequestToL2Cache := b.l1RequestToL2Cache ++ [m] }.outstanding j k =
      b.outstanding j k := by
  have hcount := countP_eraseIdx (fun p => p.2.requestor = j ∧ p.2.kind = k) hm
  simp only [decide_eq_true_eq] at hcount
  simp only [outstanding, inNetwork, waiting, inFlight, hcount, List.countP_append,
    List.countP_cons, List.countP_nil, decide_eq_true_eq]
  omega

theorem inTransit_arrive (hinv : b.Inv cfg space) {i : ι}
    (hm : b.toL2 i = m :: rest)
    (h : { b with toL2 := update b.toL2 i rest
                  l1RequestToL2Cache := b.l1RequestToL2Cache ++ [m] }.InTransit m') :
    b.InTransit m' := by
  rcases h with h | h | h
  · by_cases hj : m'.requestor = i
    · simp only [hj, update_self] at h
      exact .inl (by simp [hj, hm, h])
    · exact .inl (by simpa only [update_of_ne hj] using h)
  · rcases List.mem_append.mp h with h | h
    · exact .inr (.inl h)
    · obtain rfl : m' = m := by simpa using h
      exact .inl (by simp [hinv.requestor i m' (by simp [hm]), hm])
  · exact .inr (.inr h)

omit [DecidableEq ι] in
theorem inTransit_requeue
    (hm : b.recycled[n]? = some (due, m))
    (h : { b with recycled := b.recycled.eraseIdx n
                  l1RequestToL2Cache := b.l1RequestToL2Cache ++ [m] }.InTransit m') :
    b.InTransit m' := by
  rcases h with h | h | ⟨due', h⟩
  · exact .inl h
  · rcases List.mem_append.mp h with h | h
    · exact .inr (.inl h)
    · obtain rfl : m' = m := by simpa using h
      exact .inr (.inr ⟨due, mem_of_getElem?_eq_some hm⟩)
  · exact .inr (.inr ⟨due', List.mem_of_mem_eraseIdx h⟩)

/-- **The step lemma of the invariant.** -/
theorem Step.inv (h : b.Step cfg space a b') (hinv : b.Inv cfg space) : b'.Inv cfg space := by
  cases h with
  | bank h => exact BankStep.inv h hinv
  | l1Stall => exact hinv
  | @core i type wid sent ℓ hmshr hstep =>
    have hsent := fun m hm => hstep.sent (m := m) hm
    refine ⟨hinv.now_pos, hinv.shape.congr rfl rfl rfl rfl, ?_, ?_, ?_, hinv.response⟩
    · intro j
      by_cases hj : j = i
      · subst hj
        simp only [setLine, update_self]
        refine hstep.balanced (hinv.line j) fun k => ?_
        exact (outstanding_setLine j k).trans (by rw [if_pos rfl])
      · have heq : { b.setLine i ℓ sent with nextUid := b.nextUid + 1 }.outstanding j =
            b.outstanding j := funext fun k => by simp [outstanding_setLine, hj]
        rw [heq]
        simp only [setLine, update_of_ne hj]
        exact hinv.line j
    · intro j m hm
      by_cases hj : j = i
      · subst hj
        simp only [setLine, update_self, List.mem_append] at hm
        rcases hm with hm | hm
        · exact hinv.requestor j m hm
        · exact (hsent m (by simpa using hm)).1
      · simp only [setLine, update_of_ne hj] at hm
        exact hinv.requestor j m hm
    · rintro m (hm | hm)
      · by_cases hj : m.requestor = i
        · simp only [setLine, hj, update_self, List.mem_append] at hm
          rcases hm with hm | hm
          · exact hinv.request m (.inl (hj ▸ hm))
          · exact (hsent m (by simpa using hm)).2
        · simp only [setLine, update_of_ne hj] at hm
          exact hinv.request m (.inl hm)
      · exact hinv.request m (.inr hm)
  | @l1Replace i ht =>
    refine ⟨hinv.now_pos, hinv.shape.congr rfl rfl rfl rfl, ?_, hinv.requestor, hinv.request,
      hinv.response⟩
    intro j
    show L1Line.Balanced _ (b.outstanding j)
    by_cases hj : j = i
    · subst hj
      simp only [update_self]
      exact (hinv.line j).replace ht
    · simp only [update_of_ne hj]
      exact hinv.line j
  | @l1Response i n m ℓ hm hstep =>
    refine ⟨hinv.now_pos, hinv.shape.congr rfl rfl rfl rfl, ?_, hinv.requestor, hinv.request, ?_⟩
    · intro j
      have hout := outstanding_eraseIdx (ℓ := ℓ) hm j
      by_cases hj : j = i
      · subst hj
        simp only [update_self]
        exact hstep.balanced (hinv.line j) fun k => by simpa using hout k
      · have heq := funext fun k => (hout k).trans (by rw [if_neg fun h => hj h.1, Nat.add_zero])
        rw [← heq]
        simp only [update_of_ne hj]
        exact hinv.line j
    · intro j m' hm'
      by_cases hj : j = i
      · subst hj
        simp only [update_self] at hm'
        exact hinv.response j m' (List.mem_of_mem_eraseIdx hm')
      · simp only [update_of_ne hj] at hm'
        exact hinv.response j m' hm'
  | @arrive i m rest hm =>
    have hreq : m.requestor = i := hinv.requestor i m (by simp [hm])
    refine ⟨hinv.now_pos, hinv.shape.congr rfl rfl rfl rfl, ?_, ?_, ?_, hinv.response⟩
    · intro j
      rw [funext (outstanding_arrive hm hreq j)]
      exact hinv.line j
    · intro j m' hm'
      by_cases hj : j = i
      · subst hj
        simp only [update_self] at hm'
        exact hinv.requestor j m' (by simp [hm, hm'])
      · simp only [update_of_ne hj] at hm'
        exact hinv.requestor j m' hm'
    · exact fun m' hm' => hinv.request m' (inTransit_arrive hinv hm hm')
  | @requeue n due m hm hdue =>
    refine ⟨hinv.now_pos, hinv.shape.congr rfl rfl rfl rfl, ?_, hinv.requestor, ?_, hinv.response⟩
    · intro j
      rw [funext (outstanding_requeue hm j)]
      exact hinv.line j
    · exact fun m' hm' => hinv.request m' (inTransit_requeue hm hm')

theorem Inv.tick (hinv : b.Inv cfg space) : b.tick.Inv cfg space :=
  ⟨Nat.succ_pos _, hinv.shape.congr rfl rfl rfl rfl, hinv.line, hinv.requestor, hinv.request,
    hinv.response⟩

end Block

end GpgpuSimRuby.Ruby.Cachelease2
