import GpgpuSimRuby.Ruby.Cachelease3.L1Steps

/-!
# cachelease3: what the L2 can do in one step

`Block.Shape` lists the shapes the L2's share of a block can have, and `BankStep` the steps of the
L2 on it. `stepL2Request_spec`, `stepL2Replace_spec`, `stepL2Expire_spec` and `stepL2Memory_spec` say
that the controller takes one of them and does not fault. As with the L1, everything else is proved
by cases on `BankStep`.
-/

namespace GpgpuSimRuby.Ruby.Cachelease3

open Library

variable {ι : Type} [DecidableEq ι]

attribute [local simp] runActions L2.withEntry L2.setState Except.map L2.jjPopL1RequestQueue
  L2.peekRequest L2.send L2.withTBE L2.dMarkBlockDirty L2.pcCPcClearAll L2.performActions
  L2.tiUpdateL2TimeWrite L2.mrWriteDataToCacheFromRequest Except.bind L2.qqAllocateL2CacheBlock
  L2.pcAPcAdd L2.aIssueFetchToMemory L2.sendAck L2.isLive L2.ssRecordGetSL1ID L2.pcXPcExclusive
  L2.rrDeallocateL2CacheBlock L2.sDeallocateTBE L2.xxRecordGetXL1ID L2.aIssueFetchToMemoryForStore
  L2.globalTimeAfterRead L2.waSendAckToRequestor L2.dsSendAtomicDataGlobalToRequestor
  L2.waGSendAckGlobalToRequestor L2.cExclusiveReplacement L2.mWriteDataToCache
  L2.oPopIncomingResponseQueue

/-! ## Shapes -/

/-- The state of an entry, once an expired `S` or `SS` counts as `E`. -/
def L2Entry.stateAt (now : Nat) (e : L2Entry ι) : L2State :=
  if e.liveUntilTime < now ∧ (e.cacheState = .SS ∨ e.cacheState = .S) then .E else e.cacheState

/-- A request as the L1s send it. -/
structure RequestMsg.WellFormed (space : MemorySpaceType) (m : RequestMsg ι) : Prop where
  type : m.type = .GETS ∨ m.type = .DATA ∨ m.type = .DATA_UPGRADE ∨ m.type = .DATA_ATOMIC
  space : m.space = space
  write : m.type ≠ .GETS → m.dirty = true ∧ m.deltaRequested = 0
  sid : m.memfetch.sid = m.requestor

/-- The shapes of the L2's share of a block. -/
inductive Block.Shape (space : MemorySpaceType) (b : Block ι) : Prop
  /-- `NP`: no record of the block. -/
  | absent (ht : b.tbe = none) (he : b.entry = none) (hm : b.memReads = 0)
  /-- `E`, `S` or `SS`: the block is in the cache. -/
  | held {e} (ht : b.tbe = none) (he : b.entry = some e) (hm : b.memReads = 0)
      (hs : e.cacheState = .S ∨ e.cacheState = .SS)
  /-- `IS`: the block is being fetched for the readers of the TBE. -/
  | reading {t sh} (ht : b.tbe = some t) (he : b.entry = some { cacheState := .IS, sharers := sh })
      (hm : b.memReads = 1) (hs : t.tbeState = .IS) (hspace : t.space = space)
      (hreaders : t.l1GetSIDs.Nonempty) (hwriter : t.l1WBAckID = none)
  /-- `IM` or `IMA`: the block is being fetched for the write in the TBE. -/
  | writing {t r g sh} (ht : b.tbe = some t)
      (he : b.entry = some { cacheState := t.tbeState, dirty := true, sharers := sh })
      (hm : b.memReads = 1) (hs : t.tbeState = .IM ∨ t.tbeState = .IMA) (hdirty : t.dirty = true)
      (hreaders : t.l1GetSIDs = ∅) (hwriter : t.l1WBAckID = some r) (hg : t.memfetch = some g)
      (hsid : g.sid = r)
  /-- `MI`: the block is evicted with a live lease. -/
  | evicted {t} (ht : b.tbe = some t) (he : b.entry = none) (hm : b.memReads = 0)
      (hs : t.tbeState = .MI) (hreaders : t.l1GetSIDs = ∅) (hwriter : t.l1WBAckID = none)
      (hmf : t.mfset = [])

/-- The block is not in the cache; `τ` is the time a TBE in `MI` has kept for it, if there is one. -/
inductive Block.Vacant (b : Block ι) (τ : Nat) : Prop
  | absent (ht : b.tbe = none) (he : b.entry = none) (hτ : τ = 0)
  | evicted {t} (ht : b.tbe = some t) (he : b.entry = none) (hs : t.tbeState = .MI)
      (hτ : τ = t.liveUntilTime)

/-! ## The steps -/

/-- The state after a read of the block in the cache: the first reader after an expiry is alone. -/
def L2State.afterRead (s : L2State) : L2State := if s = .E then .S else .SS

/-- How a write of the block in the cache is answered. -/
def L2Entry.answerType (e : L2Entry ι) (now : Nat) (m : RequestMsg ι) : CoherenceResponseType :=
  match m.type with
  | .DATA_ATOMIC => .DATA_ATOMIC
  | .DATA_UPGRADE =>
    if e.stateAt now = .E then .ACK
    else if e.liveUntilTime ≠ m.liveUntilTime then .DATA_GLOBAL
    else if e.stateAt now = .S then .ACK
    else .ACK_GLOBAL
  | _ => if e.stateAt now = .E then .ACK else .ACK_GLOBAL

/-- The answer to the write `m` of a block that contains `dataBlk` and whose time is `τ`. -/
def writeResponse (type : CoherenceResponseType) (m : RequestMsg ι) (dataBlk : DataBlock ι)
    (now τ : Nat) : ResponseMsg ι where
  type := type
  destination := {m.requestor}
  dataBlk := if type = .DATA_GLOBAL ∨ type = .DATA_ATOMIC then dataBlk else []
  liveUntilTime := if type = .DATA_ATOMIC then τ else L2.globalTimeAfterWrite now 0 τ
  gwct := τ
  memfetch := some m.memfetch
  performed := m.memfetch :: dataBlk

/-- The answer to the write `g` that waited in the TBE in the state `s`, at the block's new time. -/
def fillResponse (s : L2State) (r : ι) (g : MemFetch ι) (dataBlk : DataBlock ι) (time : Nat) :
    ResponseMsg ι where
  type := if s = .IMA then .DATA_ATOMIC else .ACK_GLOBAL
  destination := {r}
  dataBlk := if s = .IMA then dataBlk else []
  liveUntilTime := time
  gwct := time
  memfetch := some g
  performed := dataBlk

/-- The memory after the entry is evicted. -/
def L2Entry.writeBack (e : L2Entry ι) (memory : DataBlock ι) : DataBlock ι :=
  if e.dirty then e.dataBlk else memory

/-- The steps of the L2 on a block. `sh` stands for the sharers the oracle predictor notes; with it,
the time `τ` that a write or an eviction goes by and the ideal invalidations `q` differ from those
of the block. -/
inductive BankStep (mode : L2.Mode) (b : Block ι) : BlockAct ι → Block ι → Prop
  /-- The message at the head of its queue stalls. -/
  | stall {a} : BankStep mode b a b
  /-- A read misses: fetch the block. -/
  | fetchRead (sh) {m rest τ} (hq : b.l1RequestToL2Cache = m :: rest) (hvac : b.Vacant τ)
      (hm : m.type = .GETS) :
      BankStep mode b .l2Request
        { b with l1RequestToL2Cache := rest, memReads := b.memReads + 1
                 entry := some { cacheState := .IS, sharers := sh }
                 tbe := some { tbeState := .IS, space := m.space, l1GetSIDs := {m.requestor}
                               deltaRequested := m.deltaRequested, liveUntilTime := τ
                               memfetch := some m.memfetch
                               mfset := [(m.requestor, m.memfetch)] } }
  /-- A read joins the readers the fetch is for. -/
  | mergeRead (sh) {m rest t} (hq : b.l1RequestToL2Cache = m :: rest) (ht : b.tbe = some t)
      (hs : t.tbeState = .IS) (hm : m.type = .GETS) :
      BankStep mode b .l2Request
        { b with l1RequestToL2Cache := rest
                 entry := some { cacheState := .IS, sharers := sh }
                 tbe := some { t with l1GetSIDs := insert m.requestor t.l1GetSIDs
                                      mfset := t.mfset ++ [(m.requestor, m.memfetch)] } }
  /-- A write misses: fetch the block, the write waits in the TBE. -/
  | fetchWrite {m rest s τ} (hq : b.l1RequestToL2Cache = m :: rest) (hvac : b.Vacant τ)
      (hm : m.type ≠ .GETS) (hs : s = if m.type = .DATA_ATOMIC then .IMA else .IM) :
      BankStep mode b .l2Request
        { b with l1RequestToL2Cache := rest, memReads := b.memReads + 1
                 entry := some { cacheState := s, dirty := true }
                 tbe := some { tbeState := s, dirty := true, space := m.space
                               l1WBAckID := some m.requestor, liveUntilTime := τ
                               memfetch := some m.memfetch } }
  /-- A read hits. -/
  | read (sh) {m rest e time} (hq : b.l1RequestToL2Cache = m :: rest) (ht : b.tbe = none)
      (he : b.entry = some e) (hm : m.type = .GETS)
      (htime : time = L2.globalTimeAfterRead b.now m.deltaRequested e.liveUntilTime) :
      BankStep mode b .l2Request <| L2.send
        { type := .DATA, destination := {m.requestor}, dataBlk := e.dataBlk, liveUntilTime := time
          mfset := [(m.requestor, m.memfetch)], performed := e.dataBlk }
        { b with l1RequestToL2Cache := rest
                 entry := some { e with cacheState := (e.stateAt b.now).afterRead
                                        liveUntilTime := time, sharers := sh } }
  /-- A write hits, and is performed at once. -/
  | write (τ sh q) {m rest e} (hq : b.l1RequestToL2Cache = m :: rest) (ht : b.tbe = none)
      (he : b.entry = some e) (hm : m.type ≠ .GETS)
      (hτ : mode.predOracle = false → τ = e.liveUntilTime ∧ q = b.idealInvQueue) :
      BankStep mode b .l2Request <|
        L2.send (writeResponse (e.answerType b.now m) m e.dataBlk b.now τ)
        { b with l1RequestToL2Cache := rest, idealInvQueue := q
                 entry := some { cacheState := .S, dataBlk := m.memfetch :: e.dataBlk, dirty := true
                                 liveUntilTime := L2.globalTimeAfterWrite b.now 0 τ
                                 sharers := sh } }
  /-- The fetch for the readers is back. -/
  | fillRead (sh) {t time} (ht : b.tbe = some t) (hts : t.tbeState = .IS)
      (htime : time = L2.globalTimeAfterRead b.now t.deltaRequested t.liveUntilTime) :
      BankStep mode b .l2Memory <| L2.send
        { type := .DATA, destination := t.l1GetSIDs, dataBlk := b.memory, liveUntilTime := time
          gwct := time, mfset := t.mfset, performed := b.memory }
        { b with tbe := none, memReads := b.memReads - 1
                 entry := some { cacheState := if 1 < t.l1GetSIDs.card then .SS else .S
                                 dataBlk := b.memory, liveUntilTime := time, sharers := sh } }
  /-- The fetch for a write is back, and the write is performed. -/
  | fillWrite (sh) {t r g time} (ht : b.tbe = some t) (hts : t.tbeState = .IM ∨ t.tbeState = .IMA)
      (hr : t.l1WBAckID = some r) (hg : t.memfetch = some g)
      (htime : time = L2.globalTimeAfterWrite b.now 0 t.liveUntilTime) :
      BankStep mode b .l2Memory <| L2.send (fillResponse t.tbeState r g (g :: b.memory) time)
        { b with tbe := none, memReads := b.memReads - 1
                 entry := some { cacheState := .S, dataBlk := g :: b.memory, dirty := true
                                 liveUntilTime := time, sharers := sh } }
  /-- The block is evicted with a lease that is not over. -/
  | evict (τ q) {e} (ht : b.tbe = none) (he : b.entry = some e)
      (hs : e.stateAt b.now = .S ∨ e.stateAt b.now = .SS) (hlive : b.now ≤ τ)
      (hτ : mode.predOracle = false → τ = e.liveUntilTime ∧ q = b.idealInvQueue) :
      BankStep mode b .l2Replace
        { b with entry := none, memory := e.writeBack b.memory, idealInvQueue := q
                 tbe := some { tbeState := .MI, dataBlk := e.dataBlk, dirty := e.dirty
                               liveUntilTime := τ }
                 l2ExpireTriggerQueue := b.l2ExpireTriggerQueue ++ [τ + 1] }
  /-- The block is evicted, every lease is over. -/
  | drop {e} (ht : b.tbe = none) (he : b.entry = some e) (hs : e.stateAt b.now = .E) :
      BankStep mode b .l2Replace { b with entry := none, memory := e.writeBack b.memory }
  /-- The last lease of an evicted block is over. -/
  | expire {t k} (ht : b.tbe = some t) (he : b.entry = none) (hs : t.tbeState = .MI)
      (hdue : t.liveUntilTime < b.now) :
      BankStep mode b (.l2Expire k)
        { b with tbe := none, l2ExpireTriggerQueue := b.l2ExpireTriggerQueue.eraseIdx k }
  /-- An expire message is out of date. -/
  | popExpire {k} :
      BankStep mode b (.l2Expire k)
        { b with l2ExpireTriggerQueue := b.l2ExpireTriggerQueue.eraseIdx k }

/-! ## The controller takes one of them -/

section Accessors

variable {space : MemorySpaceType} {b : Block ι} {m : RequestMsg ι} {e : L2Entry ι} {t : L2TBE ι}

omit [DecidableEq ι]

theorem L2.getState_tbe (ht : b.tbe = some t) : L2.getState b = t.tbeState := by
  simp [L2.getState, ht]

theorem L2.getState_entry (ht : b.tbe = none) (he : b.entry = some e) : L2.getState b = e.stateAt b.now := by
  simp [L2.getState, L2Entry.stateAt, ht, he]

theorem L2.getState_absent (ht : b.tbe = none) (he : b.entry = none) : L2.getState b = .NP := by
  simp [L2.getState, ht, he]

theorem L2Entry.stateAt_cases (now : Nat) (hs : e.cacheState = .S ∨ e.cacheState = .SS) :
    e.stateAt now = .E ∧ e.liveUntilTime < now ∨ e.stateAt now = e.cacheState ∧ now ≤ e.liveUntilTime := by
  unfold L2Entry.stateAt
  by_cases hlt : e.liveUntilTime < now
  · exact .inl ⟨if_pos ⟨hlt, hs.symm⟩, hlt⟩
  · exact .inr ⟨if_neg fun h => hlt h.1, by omega⟩

theorem L2Entry.stateAt_live {now : Nat} (hs : e.stateAt now = .S ∨ e.stateAt now = .SS) :
    e.cacheState = e.stateAt now ∧ now ≤ e.liveUntilTime := by
  unfold L2Entry.stateAt at hs ⊢
  split at hs
  · simp at hs
  · next h =>
    rw [if_neg h]
    refine ⟨rfl, ?_⟩
    by_contra hlt
    exact h ⟨by omega, hs.symm⟩

theorem L2.event_eq (hwf : m.WellFormed space) :
    L2.l1CacheRequestTypeToEvent b m = .ok (match m.type with
      | .GETS => .l1GETS
      | .DATA => .l1Write
      | .DATA_ATOMIC => .l2Atomic
      | _ => if ∃ e ∈ b.entry, b.now ≤ e.liveUntilTime ∧ e.liveUntilTime = m.liveUntilTime
          then .l1UpgradeT else .l1UpgradeNT) := by
  rcases hwf.type with h | h | h | h <;> simp only [L2.l1CacheRequestTypeToEvent, h]
  cases he : b.entry with
  | none => simp
  | some e =>
    by_cases hmatch : b.now ≤ e.liveUntilTime ∧ e.liveUntilTime = m.liveUntilTime
    · obtain ⟨hlive, heq⟩ := hmatch
      rw [heq] at hlive
      simp [heq, hlive]
    · simp [hmatch]

theorem L2.event_of_no_match (hwf : m.WellFormed space)
    (hno : ∀ e ∈ b.entry, b.now ≤ e.liveUntilTime → e.liveUntilTime ≠ m.liveUntilTime) :
    L2.l1CacheRequestTypeToEvent b m = .ok (match m.type with
      | .GETS => .l1GETS
      | .DATA => .l1Write
      | .DATA_ATOMIC => .l2Atomic
      | _ => .l1UpgradeNT) := by
  rw [L2.event_eq hwf, if_neg]
  rintro ⟨e, he, hlive, heq⟩
  exact hno e he hlive heq

end Accessors

namespace Block

variable {mode : L2.Mode} {k : Nat} {space : MemorySpaceType} {b : Block ι} {m : RequestMsg ι}
  {rest : List (RequestMsg ι)} {e : L2Entry ι} {t : L2TBE ι} {event : L2Event}
variable {actions : List (Action (Block ι))}

variable {s next : L2State} {sh : Finset ι} {r : Except Fault (Block ι)}

theorem doTransition_go
    (hs : L2.getState b = s) (ht : L2.transitions mode k s event = some (.go next actions)) :
    (L2.controller mode k).doTransition event b = (runActions actions b).map (L2.setState next) :=
  Controller.doTransition_go event hs ht

theorem stepL2Request_go
    (hq : b.l1RequestToL2Cache = m :: rest) (hev : L2.l1CacheRequestTypeToEvent b m = .ok event)
    (hs : L2.getState b = s) (ht : L2.transitions mode 0 s event = some (.go next actions)) :
    b.stepL2Request mode = some ((runActions actions b).map (L2.setState next)) := by
  simp only [stepL2Request, hq, hev]
  exact congrArg some (doTransition_go hs ht)

theorem stepL2Request_stall
    (hq : b.l1RequestToL2Cache = m :: rest) (hev : L2.l1CacheRequestTypeToEvent b m = .ok event)
    (hs : L2.getState b = s) (ht : L2.transitions (ι := ι) mode 0 s event = some .stall) :
    b.stepL2Request mode = some (.ok b) := by
  simp only [stepL2Request, hq, hev]
  exact congrArg some (Controller.doTransition_stall event hs ht)

theorem stepL2Request_fetchRead (hshape : b.Shape space) (he : b.entry = none)
    (hq : b.l1RequestToL2Cache = m :: rest) (hwf : m.WellFormed space) (hm : m.type = .GETS) :
    ∃ b', b.stepL2Request mode = some (.ok b') ∧ BankStep mode b .l2Request b' := by
  have hev : L2.l1CacheRequestTypeToEvent b m = _ := L2.event_of_no_match hwf (by simp [he])
  simp only [hm] at hev
  cases hshape with
  | absent ht _ _ =>
    refine ⟨_, ?_, .fetchRead {m.requestor} hq (.absent ht he rfl) hm⟩
    rw [stepL2Request_go hq hev (L2.getState_absent ht he) rfl]
    simp [L2.iAllocateTBE, hq, ht, he, hm]
  | @evicted t ht _ _ hs hreaders hwriter hmf =>
    refine ⟨_, ?_, .fetchRead {m.requestor} hq (.evicted ht he hs rfl) hm⟩
    rw [stepL2Request_go hq hev ((L2.getState_tbe ht).trans hs) rfl]
    simp [L2.isSetTBE, hq, ht, he, hm, hmf, hwriter]
  | held _ he' => cases he.symm.trans he'
  | reading _ he' => cases he.symm.trans he'
  | writing _ he' => cases he.symm.trans he'

theorem stepL2Request_fetchWrite (hshape : b.Shape space) (he : b.entry = none)
    (hq : b.l1RequestToL2Cache = m :: rest) (hwf : m.WellFormed space) (hm : m.type ≠ .GETS) :
    ∃ b', b.stepL2Request mode = some (.ok b') ∧ BankStep mode b .l2Request b' := by
  have hev : L2.l1CacheRequestTypeToEvent b m = _ := L2.event_of_no_match hwf (by simp [he])
  cases hshape with
  | absent ht _ _ =>
    have hs := L2.getState_absent ht he
    refine ⟨_, ?_, .fetchWrite hq (.absent ht he rfl) hm rfl⟩
    rcases hwf.type with h | h | h | h
    · exact absurd h hm
    all_goals
      simp only [h] at hev
      rw [stepL2Request_go hq hev hs rfl]
      simp [L2.ilAllocateTBE, hq, ht, he, h]
  | @evicted t ht _ _ hs hreaders hwriter hmf =>
    have hs' := (L2.getState_tbe ht).trans hs
    refine ⟨_, ?_, .fetchWrite hq (.evicted ht he hs rfl) hm rfl⟩
    rcases hwf.type with h | h | h | h
    · exact absurd h hm
    all_goals
      simp only [h] at hev
      rw [stepL2Request_go hq hev hs' rfl]
      simp [L2.ilsSetTBE, hq, ht, he, h, hmf]
  | held _ he' => cases he.symm.trans he'
  | reading _ he' => cases he.symm.trans he'
  | writing _ he' => cases he.symm.trans he'

theorem stepL2Request_reading (hnow : 0 < b.now) (ht : b.tbe = some t)
    (he : b.entry = some { cacheState := .IS, sharers := sh }) (hs : t.tbeState = .IS)
    (hspace : t.space = space) (hq : b.l1RequestToL2Cache = m :: rest) (hwf : m.WellFormed space) :
    ∃ b', b.stepL2Request mode = some (.ok b') ∧ BankStep mode b .l2Request b' := by
  have hstate : L2.getState b = .IS := (L2.getState_tbe ht).trans hs
  have hev : L2.l1CacheRequestTypeToEvent b m = _ :=
    L2.event_of_no_match hwf (by simp [he]; omega)
  rcases hwf.type with h | h | h | h <;> simp only [h] at hev
  · refine ⟨_, ?_, .mergeRead (insert m.requestor sh) hq ht hs h⟩
    rw [stepL2Request_go hq hev hstate rfl]
    simp [hq, ht, he, h, hs, hspace, hwf.space]
  all_goals exact ⟨_, stepL2Request_stall hq hev hstate rfl, .stall⟩

theorem stepL2Request_writing (hnow : 0 < b.now) (ht : b.tbe = some t)
    (he : b.entry = some { cacheState := t.tbeState, dirty := true, sharers := sh })
    (hs : t.tbeState = .IM ∨ t.tbeState = .IMA)
    (hq : b.l1RequestToL2Cache = m :: rest) (hwf : m.WellFormed space) :
    b.stepL2Request mode = some (.ok b) := by
  have hev : L2.l1CacheRequestTypeToEvent b m = _ :=
    L2.event_of_no_match hwf (by simp [he]; omega)
  rcases hs with hs | hs <;> rcases hwf.type with h | h | h | h <;> simp only [h] at hev <;>
    exact stepL2Request_stall hq hev ((L2.getState_tbe ht).trans hs) rfl

theorem stepL2Request_read (ht : b.tbe = none) (he : b.entry = some e)
    (hs : e.cacheState = .S ∨ e.cacheState = .SS)
    (hq : b.l1RequestToL2Cache = m :: rest) (hwf : m.WellFormed space) (hm : m.type = .GETS) :
    ∃ b', b.stepL2Request mode = some (.ok b') ∧ BankStep mode b .l2Request b' := by
  have hev := L2.event_eq (b := b) hwf
  simp only [hm] at hev
  have hgo : (L2.transitions mode 0 (e.stateAt b.now) .l1GETS : Option (Transition L2State (Block ι))) =
      some (.go (e.stateAt b.now).afterRead L2.readActions) := by
    rcases L2Entry.stateAt_cases b.now hs with ⟨h, -⟩ | ⟨h, -⟩
    · rw [h]
      rfl
    · rw [h]
      rcases hs with hs | hs <;> rw [hs] <;> rfl
  refine ⟨_, ?_, .read (insert m.requestor e.sharers) hq ht he hm rfl⟩
  rw [stepL2Request_go hq hev (L2.getState_entry ht he) hgo]
  simp [L2.readActions, L2.tUpdateL2TimeRead, L2.dsSendDataToRequestor, hq, ht, he, hm]

theorem predictor_spec (mode : L2.Mode) {p : Prop} [Decidable p] (hp : p → mode.predOracle = true)
    (he : b.entry = some e) (hlive : b.now ≤ e.liveUntilTime) :
    ∃ τ q, (mode.predOracle = false → τ = e.liveUntilTime ∧ q = b.idealInvQueue) ∧ b.now ≤ τ ∧
      (if p then L2.oracleReset b else .ok b) =
        .ok { b with entry := some { e with liveUntilTime := τ }, idealInvQueue := q } := by
  by_cases h : p
  · refine ⟨b.now, (L2.idealInvSharerL1s e.sharers b).idealInvQueue, ?_, le_rfl, ?_⟩
    · intro hno
      rw [hp h] at hno
      cases hno
    · simp [h, L2.oracleReset, L2.idealInvSharerL1s, he]
  · refine ⟨e.liveUntilTime, b.idealInvQueue, fun _ => ⟨rfl, rfl⟩, hlive, ?_⟩
    rw [if_neg h, ← he]

theorem stepL2Request_writeExpired (ht : b.tbe = none) (he : b.entry = some e)
    (hs : e.stateAt b.now = .E) (hexp : e.liveUntilTime < b.now)
    (hq : b.l1RequestToL2Cache = m :: rest) (hwf : m.WellFormed space) (hm : m.type ≠ .GETS) :
    ∃ b', b.stepL2Request mode = some (.ok b') ∧ BankStep mode b .l2Request b' := by
  have hev : L2.l1CacheRequestTypeToEvent b m = _ := L2.event_of_no_match hwf (by
    intro e' he' hlive
    rw [he] at he'
    cases he'
    omega)
  have hstate := (L2.getState_entry ht he).trans hs
  obtain ⟨hdirty, hdelta⟩ := hwf.write hm
  refine ⟨_, ?_, .write e.liveUntilTime ∅ b.idealInvQueue hq ht he hm fun _ => ⟨rfl, rfl⟩⟩
  rcases hwf.type with h | h | h | h
  · exact absurd h hm
  all_goals
    simp only [h] at hev
    rw [stepL2Request_go hq hev hstate rfl]
    simp [writeResponse, L2Entry.answerType, hq, ht, he, h, hs, hdirty, hdelta]

theorem stepL2Request_writeLive (ht : b.tbe = none) (he : b.entry = some e)
    (hs : e.cacheState = .S ∨ e.cacheState = .SS) (hlive : b.now ≤ e.liveUntilTime)
    (hstate : e.stateAt b.now = e.cacheState)
    (hq : b.l1RequestToL2Cache = m :: rest) (hwf : m.WellFormed space) (hm : m.type ≠ .GETS) :
    ∃ b', b.stepL2Request mode = some (.ok b') ∧ BankStep mode b .l2Request b' := by
  have hev := L2.event_eq (b := b) hwf
  have hget := (L2.getState_entry ht he).trans hstate
  obtain ⟨hdirty, hdelta⟩ := hwf.write hm
  obtain ⟨τ, q, hτ, hle, hpd⟩ := predictor_spec mode
    (p := mode.predOracle ∧ mode.containsMembar) (fun h => h.1) he hlive
  rcases hwf.type with h | h | h | h
  · exact absurd h hm
  · -- `L1_Write`
    simp only [h] at hev
    refine ⟨_, ?_, .write τ (e.sharers.erase m.requestor) q hq ht he hm hτ⟩
    rcases hs with hs | hs
    all_goals
      rw [stepL2Request_go hq hev (hget.trans hs) rfl, List.cons_append, runActions_cons,
        L2.pdWUnexpiredWrite, hpd]
      simp [writeResponse, L2Entry.answerType, hq, ht, h, hstate, hs, hdirty, hdelta]
  · -- an upgrade, which matches or not
    simp only [h] at hev
    by_cases hmatch : e.liveUntilTime = m.liveUntilTime
    · rw [if_pos ⟨e, he, hlive, hmatch⟩] at hev
      rcases hs with hs | hs
      · refine ⟨_, ?_, .write e.liveUntilTime e.sharers b.idealInvQueue hq ht he hm
          fun _ => ⟨rfl, rfl⟩⟩
        rw [stepL2Request_go hq hev (hget.trans hs) rfl]
        simp [writeResponse, L2Entry.answerType, hq, ht, he, h, hstate, hs, hmatch, hdirty, hdelta]
      · refine ⟨_, ?_, .write τ (e.sharers.erase m.requestor) q hq ht he hm hτ⟩
        rw [stepL2Request_go hq hev (hget.trans hs) rfl, List.cons_append, runActions_cons,
          L2.pdWUnexpiredWrite, hpd]
        simp [writeResponse, L2Entry.answerType, hq, ht, h, hstate, hs, hmatch, hdirty, hdelta]
    · rw [if_neg] at hev
      · refine ⟨_, ?_, .write τ (e.sharers.erase m.requestor) q hq ht he hm hτ⟩
        rcases hs with hs | hs
        all_goals
          rw [stepL2Request_go hq hev (hget.trans hs) rfl, List.cons_append, runActions_cons,
            L2.pdWUnexpiredWrite, hpd]
          simp [L2.dsGSendDataGlobalToRequestor, writeResponse, L2Entry.answerType, hq, ht, h,
            hstate, hs, hmatch, hdirty, hdelta, hle]
      · rintro ⟨e', he', -, heq⟩
        rw [he] at he'
        cases he'
        exact hmatch heq
  · -- `L2_Atomic`
    simp only [h] at hev
    refine ⟨_, ?_, .write τ ∅ q hq ht he hm hτ⟩
    rcases hs with hs | hs
    all_goals
      rw [stepL2Request_go hq hev (hget.trans hs) rfl, List.cons_append, runActions_cons,
        L2.pdAUnexpiredatomic, hpd]
      simp [writeResponse, L2Entry.answerType, hq, ht, h, hdirty, hdelta]

/-- **Handling a request.** The L2 takes a `BankStep` on the request at the head of its queue. -/
theorem stepL2Request_spec (mode : L2.Mode) (hshape : b.Shape space) (hnow : 0 < b.now)
    (hq : b.l1RequestToL2Cache = m :: rest) (hwf : m.WellFormed space) :
    ∃ b', b.stepL2Request mode = some (.ok b') ∧ BankStep mode b .l2Request b' := by
  by_cases he : b.entry = none
  · by_cases hm : m.type = .GETS
    · exact stepL2Request_fetchRead hshape he hq hwf hm
    · exact stepL2Request_fetchWrite hshape he hq hwf hm
  · cases hshape with
    | absent _ hnone => exact absurd hnone he
    | evicted _ hnone => exact absurd hnone he
    | reading ht he _ hs hspace => exact stepL2Request_reading hnow ht he hs hspace hq hwf
    | writing ht he _ hs => exact ⟨b, stepL2Request_writing hnow ht he hs hq hwf, .stall⟩
    | @held e ht he _ hs =>
      by_cases hm : m.type = .GETS
      · exact stepL2Request_read ht he hs hq hwf hm
      · rcases L2Entry.stateAt_cases b.now hs with ⟨h, hexp⟩ | ⟨h, hlive⟩
        · exact stepL2Request_writeExpired ht he h hexp hq hwf hm
        · exact stepL2Request_writeLive ht he hs hlive h hq hwf hm

theorem stepL2Replace_go (he : b.entry = some e) (hs : L2.getState b = s)
    (hgo : L2.transitions mode 0 s (if e.dirty then .l2Replacement else .l2ReplacementClean) =
      some (.go next actions)) :
    b.stepL2Replace mode = some ((runActions actions b).map (L2.setState next)) := by
  simp only [stepL2Replace, he]
  exact congrArg some (doTransition_go hs hgo)

theorem stepL2Replace_stall (he : b.entry = some e) (hs : L2.getState b = s)
    (hgo : L2.transitions (ι := ι) mode 0 s
      (if e.dirty then .l2Replacement else .l2ReplacementClean) = some .stall) :
    b.stepL2Replace mode = some (.ok b) := by
  simp only [stepL2Replace, he]
  exact congrArg some (Controller.doTransition_stall _ hs hgo)

theorem stepL2Replace_expired (ht : b.tbe = none) (he : b.entry = some e) (hs : e.stateAt b.now = .E) :
    ∃ b', b.stepL2Replace mode = some (.ok b') ∧ BankStep mode b .l2Replace b' := by
  have hstate := (L2.getState_entry ht he).trans hs
  refine ⟨_, ?_, .drop ht he hs⟩
  cases hd : e.dirty with
  | false =>
    rw [stepL2Replace_go he hstate (by rw [hd]; rfl)]
    simp [L2Entry.writeBack, ht, he, hd]
  | true =>
    rw [stepL2Replace_go he hstate (by rw [hd]; rfl)]
    simp [L2Entry.writeBack, ht, he, hd]

theorem stepL2Replace_live (ht : b.tbe = none) (he : b.entry = some e)
    (hs : e.stateAt b.now = .S ∨ e.stateAt b.now = .SS) :
    ∃ b', b.stepL2Replace mode = some (.ok b') ∧ BankStep mode b .l2Replace b' := by
  have hstate := L2.getState_entry ht he
  have hlive := (L2Entry.stateAt_live hs).2
  obtain ⟨τ, q, hτ, hle, hpd⟩ := predictor_spec mode (p := mode.predOracle = true)
    id he hlive
  have hgo : (L2.transitions mode 0 (e.stateAt b.now)
        (if e.dirty then .l2Replacement else .l2ReplacementClean) :
          Option (Transition L2State (Block ι))) =
      some (.go .MI ([L2.pdVL2evict mode, L2.irAllocateTBE, L2.itInsertL2ExpireTriggerQueue] ++
        (if e.dirty then [L2.cExclusiveReplacement] else []) ++ [L2.rrDeallocateL2CacheBlock])) := by
    rcases hs with hs | hs <;> rw [hs] <;> cases e.dirty <;> rfl
  refine ⟨_, ?_, .evict τ q ht he hs hle hτ⟩
  rw [stepL2Replace_go he hstate hgo]
  simp only [List.cons_append, List.nil_append, runActions_cons, L2.pdVL2evict, hpd]
  cases hd : e.dirty <;>
    simp [L2.irAllocateTBE, L2.itInsertL2ExpireTriggerQueue, L2Entry.writeBack, hle, ht, hd]

/-- **Making room.** The L2 drops an expired block, keeps a TBE for an unexpired one, and stalls
while the block is being fetched. -/
theorem stepL2Replace_spec (mode : L2.Mode) (hshape : b.Shape space) (he : b.entry ≠ none) :
    ∃ b', b.stepL2Replace mode = some (.ok b') ∧ BankStep mode b .l2Replace b' := by
  cases hshape with
  | absent _ hnone => exact absurd hnone he
  | evicted _ hnone => exact absurd hnone he
  | reading ht he _ hs =>
    exact ⟨b, stepL2Replace_stall he ((L2.getState_tbe ht).trans hs) rfl, .stall⟩
  | writing ht he _ hs =>
    refine ⟨b, ?_, .stall⟩
    rcases hs with hs | hs <;> exact stepL2Replace_stall he ((L2.getState_tbe ht).trans hs) rfl
  | @held e ht he _ hs =>
    rcases L2Entry.stateAt_cases b.now hs with ⟨h, -⟩ | ⟨h, -⟩
    · exact stepL2Replace_expired ht he h
    · exact stepL2Replace_live ht he (h ▸ hs)

/-- **Expire messages.** One that fits the TBE ends `MI`, the others are dropped. -/
theorem stepL2Expire_spec {k : Nat} (hshape : b.Shape space)
    (h : b.stepL2Expire mode k = some r) : ∃ b', r = .ok b' ∧ BankStep mode b (.l2Expire k) b' := by
  unfold stepL2Expire at h
  split at h
  · cases h
  · next expireTime _ =>
    split at h
    · next hdue =>
      rw [Option.some.injEq] at h
      split at h
      · next hmi =>
        cases hshape with
        | @evicted t ht he _ hs =>
          have htime := hmi.2 t ht
          refine ⟨_, ?_, .expire ht he hs (by omega)⟩
          rw [← h, doTransition_go hmi.1 rfl]
          simp [L2.otPopL2ExpireTriggerQueue, ht, he]
        | absent ht he => simp [L2.getState_absent ht he] at hmi
        | @held e ht he _ hs =>
          rw [L2.getState_entry ht he] at hmi
          rcases L2Entry.stateAt_cases b.now hs with ⟨h', -⟩ | ⟨h', -⟩
          · simp [h'] at hmi
          · rcases hs with hs | hs <;> simp [h', hs] at hmi
        | reading ht _ _ hs => simp [L2.getState_tbe ht, hs] at hmi
        | writing ht _ _ hs =>
          rcases hs with hs | hs <;> simp [L2.getState_tbe ht, hs] at hmi
      · exact ⟨_, h.symm, .popExpire⟩
    · cases h

/-- **The data of a fetch** answers the readers, or performs the write in the TBE. -/
theorem stepL2Memory_spec (hshape : b.Shape space)
    (h : b.stepL2Memory mode = some r) : ∃ b', r = .ok b' ∧ BankStep mode b .l2Memory b' := by
  cases hshape with
  | absent _ _ hm => simp [stepL2Memory, hm] at h
  | held _ _ hm => simp [stepL2Memory, hm] at h
  | evicted _ _ hm => simp [stepL2Memory, hm] at h
  | @reading t sh ht he hm hs _ hreaders =>
    refine ⟨_, ?_, .fillRead sh ht hs rfl⟩
    have hgo : (L2.transitions mode 0 .IS (L2.memoryEvent t) :
          Option (Transition L2State (Block ι))) = some (.go
        (if 1 < t.l1GetSIDs.card then .SS else .S)
        [L2.mWriteDataToCache, L2.ttUpdateL2TimeReadFromTBE, L2.dstSendDataToGetSRequestors,
          L2.sDeallocateTBE, L2.oPopIncomingResponseQueue]) := by
      unfold L2.memoryEvent
      by_cases hc : 1 < t.l1GetSIDs.card <;> simp only [hc, if_true, if_false] <;> rfl
    simp only [stepL2Memory, hm, ht, one_ne_zero, if_false, Option.some.injEq] at h
    rw [← h, doTransition_go ((L2.getState_tbe ht).trans hs) hgo]
    simp [L2.ttUpdateL2TimeReadFromTBE, L2.dstSendDataToGetSRequestors, ht, he, hm,
      hreaders.card_pos]
  | @writing t r g sh ht he hm hs hdirty hreaders hwriter hg =>
    refine ⟨_, ?_, .fillWrite sh ht hs hwriter hg rfl⟩
    have hev : L2.memoryEvent t = .memData := by simp [L2.memoryEvent, hreaders]
    simp only [stepL2Memory, hm, ht, one_ne_zero, if_false, Option.some.injEq, hev] at h
    rcases hs with hs | hs
    all_goals
      rw [← h, doTransition_go ((L2.getState_tbe ht).trans hs) rfl]
      simp [L2.tnExpireL2BlockTime, L2.mtWriteDataToCacheFromTBE,
        L2.wagtSendAckGlobalToRequestorFromTBE, L2.dstSendAtomicDataToGetSRequestors, fillResponse,
        ht, he, hm, hs, hdirty, hwriter, hg]

end Block

end GpgpuSimRuby.Ruby.Cachelease3
