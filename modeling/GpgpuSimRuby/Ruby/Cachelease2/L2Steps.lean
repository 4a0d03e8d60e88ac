import GpgpuSimRuby.Ruby.Cachelease2.L1Steps

/-!
# cachelease2: what the L2 can do in one step

`Block.Shape` lists the shapes the L2's share of a block can have, and `BankStep` the steps of the
L2 on it, for all three protocols. `stepL2Request_spec`, `stepL2Replace_spec`, `stepL2Expire_spec`
and `stepL2Memory_spec` say that the controller takes one of them and does not fault. As with the
L1, everything else is proved by cases on `BankStep`.
-/

namespace GpgpuSimRuby.Ruby.Cachelease2

open Library

variable {ι : Type} [DecidableEq ι]

attribute [local simp] runActions L2.setState Except.map L2.withEntry L2.peekRequest
  L2.jjPopL1RequestQueue L2.withTBE L2.send L2.dMarkBlockDirty L2.rrDeallocateL2CacheBlock
  L2.sDeallocateTBE L2.isLive L2.qqAllocateL2CacheBlock L2.ssRecordGetSL1ID L2.aIssueFetchToMemory
  L2.tiIncrementL2BlockTime L2.mrWriteDataToCacheFromRequest L2.cExclusiveReplacement
  L2.mWriteDataToCache L2.oPopIncomingResponseQueue

/-! ## Shapes -/

/-- The state of an entry, once an expired `S` or `SS` counts as `E`. -/
def L2Entry.stateAt (now : Nat) (e : L2Entry ι) : L2State :=
  if e.liveUntilTime < now ∧ (e.cacheState = .SS ∨ e.cacheState = .S) then .E else e.cacheState

/-- A request as the L1s send it. -/
structure RequestMsg.WellFormed (space : MemorySpaceType) (m : RequestMsg ι) : Prop where
  type : m.type = .GETS ∨ m.type = .DATA ∨ m.type = .DATA_UPGRADE ∨ m.type = .DATA_ATOMIC
  space : m.space = space
  dirty : m.type ≠ .GETS → m.dirty = true

/-- The shapes of the L2's share of a block. -/
inductive Block.Shape (cfg : Config) (space : MemorySpaceType) (b : Block ι) : Prop
  /-- `NP`: no record of the block. -/
  | absent (ht : b.tbe = none) (he : b.entry = none) (hm : b.memReads = 0)
      (hx : b.l2ExpireTriggerQueue = [])
  /-- `E`, `S` or `SS`: the block is in the cache. -/
  | held {e} (ht : b.tbe = none) (he : b.entry = some e) (hm : b.memReads = 0)
      (hx : b.l2ExpireTriggerQueue = [])
      (hs : e.cacheState = .E ∨ e.cacheState = .S ∨
        e.cacheState = .SS ∧ cfg.variant ≠ .cachelease2uo)
  /-- `IS`: the block is being fetched for the readers of the TBE. -/
  | reading {t} (ht : b.tbe = some t) (he : b.entry = some { cacheState := .IS })
      (hm : b.memReads = 1) (hx : b.l2ExpireTriggerQueue = []) (hs : t.tbeState = .IS)
      (hspace : t.space = space) (hreaders : t.l1GetSIDs.Nonempty) (hwriter : t.l1WBAckID = none)
  /-- `IM` or `IMA`: the block is being fetched for the write in the TBE. -/
  | writing {t r g} (ht : b.tbe = some t)
      (he : b.entry = some { cacheState := t.tbeState, dirty := true })
      (hm : b.memReads = 1) (hx : b.l2ExpireTriggerQueue = [])
      (hs : t.tbeState = .IM ∨ t.tbeState = .IMA) (hdirty : t.dirty = true)
      (hreaders : t.l1GetSIDs = ∅) (hwriter : t.l1WBAckID = some r) (hg : t.memfetch = some g)
  /-- `MI`: the block is evicted, its lease is not over. -/
  | evicted {t} (ht : b.tbe = some t) (he : b.entry = none) (hm : b.memReads = 0)
      (hx : b.l2ExpireTriggerQueue = [t.liveUntilTime + 1]) (hs : t.tbeState = .MI)
      (hreaders : t.l1GetSIDs = ∅) (hwriter : t.l1WBAckID = none)
      (hv : cfg.variant ≠ .cachelease2uo)

/-! ## The steps -/

/-- The state after a read of the block in the cache: the first reader after an expiry is alone. -/
def Config.readNext (cfg : Config) (s : L2State) : L2State :=
  if s = .E ∨ cfg.variant = .cachelease2uo then .S else .SS

/-- The entry after a read that asks for `delta` cycles. -/
def L2Entry.afterRead (e : L2Entry ι) (cfg : Config) (now delta : Nat) : L2Entry ι :=
  { e with cacheState := cfg.readNext (e.stateAt now)
           liveUntilTime := max (now + delta) e.liveUntilTime }

/-- The entry after the store `g`. -/
def L2Entry.afterWrite (e : L2Entry ι) (g : MemFetch ι) : L2Entry ι :=
  { cacheState := .S, dataBlk := g :: e.dataBlk, dirty := true,
    liveUntilTime := e.liveUntilTime + 1 }

/-- The memory after the entry is evicted. -/
def L2Entry.writeBack (e : L2Entry ι) (memory : DataBlock ι) : DataBlock ι :=
  if e.dirty then e.dataBlk else memory

/-- The answer to the write `m`, with the data of the block for an atomic. -/
def writeResponse (m : RequestMsg ι) (dataBlk : DataBlock ι) (time : Nat) : ResponseMsg ι :=
  if m.type = .DATA_ATOMIC then
    { type := .DATA_ATOMIC, destination := {m.requestor}, dataBlk := dataBlk,
      liveUntilTime := time, memfetch := some m.memfetch }
  else
    { type := .ACK, destination := {m.requestor}, liveUntilTime := time,
      memfetch := some m.memfetch }

/-- The answer to the write that waited in the TBE in the state `s`. -/
def fillResponse (s : L2State) (r : ι) (g : MemFetch ι) (dataBlk : DataBlock ι) (time : Nat) :
    ResponseMsg ι :=
  if s = .IMA then
    { type := .DATA_ATOMIC, destination := {r}, dataBlk := dataBlk, liveUntilTime := time,
      memfetch := some g }
  else
    { type := .ACK, destination := {r}, liveUntilTime := time, memfetch := some g }

/-- The steps of the L2 on a block. -/
inductive BankStep (cfg : Config) (b : Block ι) : BlockAct ι → Block ι → Prop
  /-- The message at the head of its queue stalls. -/
  | stall {a} : BankStep cfg b a b
  /-- A write to an unexpired block is recycled, unless its upgrade matches in `S`. -/
  | recycle {m rest} (hv : cfg.variant = .cachelease2oo) (hq : b.l1RequestToL2Cache = m :: rest)
      (hw : m.type ≠ .GETS) (hs : L2.getState b = .SS ∨
        L2.getState b = .S ∧ cfg.requestEvent b m ≠ .ok .l1UpgradeT) :
      BankStep cfg b .l2Request
        { b with l1RequestToL2Cache := rest
                 recycled := b.recycled ++ [(b.now + cfg.recycleLatency, m)] }
  /-- A read misses: fetch the block. -/
  | fetchRead {m rest} (hq : b.l1RequestToL2Cache = m :: rest) (ht : b.tbe = none)
      (he : b.entry = none) (hm : m.type = .GETS) :
      BankStep cfg b .l2Request
        { b with l1RequestToL2Cache := rest, memReads := b.memReads + 1
                 entry := some { cacheState := .IS }
                 tbe := some { tbeState := .IS, space := m.space, l1GetSIDs := {m.requestor}
                               deltaRequested := m.deltaRequested, memfetch := some m.memfetch
                               mfset := [(m.requestor, m.memfetch)] } }
  /-- A read joins the readers the fetch is for. -/
  | mergeRead {m rest t} (hq : b.l1RequestToL2Cache = m :: rest) (ht : b.tbe = some t)
      (hs : t.tbeState = .IS) (hm : m.type = .GETS) :
      BankStep cfg b .l2Request
        { b with l1RequestToL2Cache := rest
                 tbe := some { t with l1GetSIDs := insert m.requestor t.l1GetSIDs
                                      mfset := t.mfset ++ [(m.requestor, m.memfetch)] } }
  /-- A write misses: fetch the block, the write waits in the TBE. -/
  | fetchWrite {m rest s} (hq : b.l1RequestToL2Cache = m :: rest) (ht : b.tbe = none)
      (he : b.entry = none) (hm : m.type ≠ .GETS)
      (hs : s = if m.type = .DATA_ATOMIC then .IMA else .IM) :
      BankStep cfg b .l2Request
        { b with l1RequestToL2Cache := rest, memReads := b.memReads + 1
                 entry := some { cacheState := s, dirty := true }
                 tbe := some { tbeState := s, dirty := true, space := m.space
                               l1WBAckID := some m.requestor, memfetch := some m.memfetch } }
  /-- A read hits. -/
  | read {m rest e} (hq : b.l1RequestToL2Cache = m :: rest) (ht : b.tbe = none)
      (he : b.entry = some e) (hm : m.type = .GETS) :
      BankStep cfg b .l2Request <| L2.send
        { type := .DATA, destination := {m.requestor}, dataBlk := e.dataBlk
          liveUntilTime := max (b.now + m.deltaRequested) e.liveUntilTime
          mfset := [(m.requestor, m.memfetch)] }
        { b with l1RequestToL2Cache := rest
                 entry := some (e.afterRead cfg b.now m.deltaRequested) }
  /-- A write hits: every lease is over, or the writer is the only reader. -/
  | write {m rest e} (hq : b.l1RequestToL2Cache = m :: rest) (ht : b.tbe = none)
      (he : b.entry = some e) (hm : m.type ≠ .GETS)
      (hs : e.stateAt b.now = .E ∨
        e.stateAt b.now = .S ∧ m.type = .DATA_UPGRADE ∧ b.now ≤ e.liveUntilTime ∧
          e.liveUntilTime = m.liveUntilTime ∧ cfg.variant ≠ .cachelease2uo) :
      BankStep cfg b .l2Request <| L2.send (writeResponse m e.dataBlk (e.liveUntilTime + 1))
        { b with l1RequestToL2Cache := rest, entry := some (e.afterWrite m.memfetch) }
  /-- The fetch for the readers is back. -/
  | fillRead {t s} (ht : b.tbe = some t) (hts : t.tbeState = .IS)
      (hs : s = if 1 < t.l1GetSIDs.card ∧ cfg.variant ≠ .cachelease2uo then .SS else .S) :
      BankStep cfg b .l2Memory <| L2.send
        { type := .DATA, destination := t.l1GetSIDs, dataBlk := b.memory
          liveUntilTime := b.now + t.deltaRequested, mfset := t.mfset }
        { b with tbe := none, memReads := b.memReads - 1
                 entry := some { cacheState := s, dataBlk := b.memory
                                 liveUntilTime := b.now + t.deltaRequested } }
  /-- The fetch for a write is back, and the write is performed. -/
  | fillWrite {t r g} (ht : b.tbe = some t) (hts : t.tbeState = .IM ∨ t.tbeState = .IMA)
      (hr : t.l1WBAckID = some r) (hg : t.memfetch = some g) :
      BankStep cfg b .l2Memory <| L2.send (fillResponse t.tbeState r g (g :: b.memory) b.now)
        { b with tbe := none, memReads := b.memReads - 1
                 entry := some { cacheState := .E, dataBlk := g :: b.memory, dirty := true
                                 liveUntilTime := b.now } }
  /-- The block is evicted with a lease that is not over. -/
  | evict {e} (ht : b.tbe = none) (he : b.entry = some e) (hlive : b.now ≤ e.liveUntilTime)
      (hs : e.stateAt b.now = .S ∨ e.stateAt b.now = .SS) (hv : cfg.variant ≠ .cachelease2uo) :
      BankStep cfg b .l2Replace
        { b with entry := none, memory := e.writeBack b.memory
                 tbe := some { tbeState := .MI, dataBlk := e.dataBlk, dirty := e.dirty
                               liveUntilTime := e.liveUntilTime }
                 l2ExpireTriggerQueue := b.l2ExpireTriggerQueue ++ [e.liveUntilTime + 1] }
  /-- The block is evicted, every lease is over. -/
  | drop {e} (ht : b.tbe = none) (he : b.entry = some e) (hs : e.stateAt b.now = .E) :
      BankStep cfg b .l2Replace { b with entry := none, memory := e.writeBack b.memory }
  /-- The last lease of an evicted block is over. -/
  | expire {t} (ht : b.tbe = some t) (hs : t.tbeState = .MI) (hdue : t.liveUntilTime < b.now) :
      BankStep cfg b .l2Expire
        { b with tbe := none, l2ExpireTriggerQueue := b.l2ExpireTriggerQueue.tail }

/-! ## The controller takes one of them -/

section Accessors

variable {cfg : Config} {space : MemorySpaceType} {b : Block ι} {m : RequestMsg ι}
  {e : L2Entry ι} {t : L2TBE ι}

omit [DecidableEq ι]

theorem L2.getState_tbe (ht : b.tbe = some t) : L2.getState b = t.tbeState := by
  simp [L2.getState, ht]

theorem L2.getState_entry (ht : b.tbe = none) (he : b.entry = some e) : L2.getState b = e.stateAt b.now := by
  simp [L2.getState, L2Entry.stateAt, ht, he]

theorem L2.getState_absent (ht : b.tbe = none) (he : b.entry = none) : L2.getState b = .NP := by
  simp [L2.getState, ht, he]

theorem L2Entry.stateAt_live {now : Nat} (hs : e.stateAt now = .S ∨ e.stateAt now = .SS) :
    e.cacheState = e.stateAt now ∧ now ≤ e.liveUntilTime := by
  unfold L2Entry.stateAt at hs ⊢
  split at hs
  · simp at hs
  · next h =>
    rw [if_neg h]
    refine ⟨rfl, ?_⟩
    by_contra hlt
    exact h ⟨by omega, hs.symm⟩

theorem L2Entry.stateAt_cases (now : Nat) (hs : e.cacheState = .E ∨ e.cacheState = .S ∨
      e.cacheState = .SS ∧ cfg.variant ≠ .cachelease2uo) : e.stateAt now = .E ∨ e.stateAt now = .S ∨
      e.stateAt now = .SS ∧ cfg.variant ≠ .cachelease2uo := by
  unfold L2Entry.stateAt
  split
  · exact .inl rfl
  · exact hs

theorem Config.requestEvent_of_not_match (hwf : m.WellFormed space)
    (hno : m.type = .DATA_UPGRADE → cfg.variant ≠ .cachelease2uo →
      ∀ e ∈ b.entry, b.now ≤ e.liveUntilTime → e.liveUntilTime ≠ m.liveUntilTime) :
    cfg.requestEvent b m = .ok (match m.type with
      | .GETS => .l1GETS
      | .DATA => .l1Write
      | .DATA_ATOMIC => .l2Atomic
      | _ => .l1UpgradeNT) := by
  by_cases hv : cfg.variant = .cachelease2uo
  · rcases hwf.type with h | h | h | h <;>
      simp [Config.requestEvent, hv, L2.l1CacheRequestTypeToEventUo, h]
  · have hbase : cfg.requestEvent b m = L2.l1CacheRequestTypeToEvent b m := by
      unfold Config.requestEvent
      cases h : cfg.variant <;> simp_all
    rw [hbase]
    rcases hwf.type with h | h | h | h <;> simp only [L2.l1CacheRequestTypeToEvent, h]
    cases he : b.entry with
    | none => rfl
    | some e =>
      have hne := hno h hv e he
      simp only [L2.isLive, decide_eq_true_eq]
      split
      · next hmatch => exact absurd hmatch.2 (hne hmatch.1)
      · rfl

theorem Config.requestEvent_of_match (hv : cfg.variant ≠ .cachelease2uo)
    (hm : m.type = .DATA_UPGRADE) (he : b.entry = some e) (hlive : b.now ≤ e.liveUntilTime)
    (htime : e.liveUntilTime = m.liveUntilTime) : cfg.requestEvent b m = .ok .l1UpgradeT := by
  have hbase : cfg.requestEvent b m = L2.l1CacheRequestTypeToEvent b m := by
    unfold Config.requestEvent
    cases h : cfg.variant <;> simp_all
  have : b.now ≤ m.liveUntilTime := htime ▸ hlive
  rw [hbase]
  simp [L2.l1CacheRequestTypeToEvent, hm, he, htime, this]

theorem Config.match_of_requestEvent (h : cfg.requestEvent b m = .ok .l1UpgradeT) :
    cfg.variant ≠ .cachelease2uo ∧ m.type = .DATA_UPGRADE ∧
      ∃ e, b.entry = some e ∧ b.now ≤ e.liveUntilTime ∧ e.liveUntilTime = m.liveUntilTime := by
  have huo : L2.l1CacheRequestTypeToEventUo b m ≠ .ok .l1UpgradeT := by
    unfold L2.l1CacheRequestTypeToEventUo
    split <;> nofun
  have hbase : cfg.variant ≠ .cachelease2uo ∧ L2.l1CacheRequestTypeToEvent b m = .ok .l1UpgradeT := by
    unfold Config.requestEvent at h
    cases hc : cfg.variant <;> simp only [hc] at h
    · exact ⟨nofun, h⟩
    · exact ⟨nofun, h⟩
    · exact absurd h huo
  refine ⟨hbase.1, ?_⟩
  have h' := hbase.2
  unfold L2.l1CacheRequestTypeToEvent at h'
  split at h'
  · cases h'
  · cases h'
  · cases h'
  · next htype =>
    split at h'
    · next e he =>
      split at h'
      · next hmatch => exact ⟨htype, e, he, of_decide_eq_true hmatch.1, hmatch.2⟩
      · cases h'
    · cases h'
  · cases h'

end Accessors

omit [DecidableEq ι] in
theorem Block.Shape.held_of_getState {cfg : Config} {space : MemorySpaceType} {b : Block ι}
    (hshape : b.Shape cfg space) (h : L2.getState b = .E ∨ L2.getState b = .S ∨ L2.getState b = .SS) :
    b.tbe = none ∧ ∃ e, b.entry = some e ∧ e.stateAt b.now = L2.getState b := by
  cases hshape with
  | absent ht he => simp [L2.getState_absent ht he] at h
  | held ht he => exact ⟨ht, _, he, (L2.getState_entry ht he).symm⟩
  | reading ht _ _ _ hs => simp [L2.getState_tbe ht, hs] at h
  | writing ht _ _ _ hs => rcases hs with hs | hs <;> simp [L2.getState_tbe ht, hs] at h
  | evicted ht _ _ _ hs => simp [L2.getState_tbe ht, hs] at h

namespace Block

variable {cfg : Config} {space : MemorySpaceType} {b : Block ι} {m : RequestMsg ι}
  {rest : List (RequestMsg ι)} {e : L2Entry ι} {t : L2TBE ι} {event : L2Event}
variable {actions : List (Action (Block ι))}

variable {s next : L2State} {r : Except Fault (Block ι)}

theorem doTransition_go
    (hs : L2.getState b = s) (ht : cfg.l2Transitions s event = some (.go next actions)) :
    cfg.l2Controller.doTransition event b = (runActions actions b).map (L2.setState next) :=
  Controller.doTransition_go event hs ht

theorem stepL2Request_go
    (hq : b.l1RequestToL2Cache = m :: rest) (hev : cfg.requestEvent b m = .ok event)
    (hs : L2.getState b = s) (ht : cfg.l2Transitions s event = some (.go next actions)) :
    b.stepL2Request cfg = some ((runActions actions b).map (L2.setState next)) := by
  simp only [stepL2Request, hq, hev]
  exact congrArg some (doTransition_go hs ht)

theorem stepL2Request_stall
    (hq : b.l1RequestToL2Cache = m :: rest) (hev : cfg.requestEvent b m = .ok event)
    (hs : L2.getState b = s) (ht : cfg.l2Transitions (ι := ι) s event = some .stall) :
    b.stepL2Request cfg = some (.ok b) := by
  simp only [stepL2Request, hq, hev]
  exact congrArg some (Controller.doTransition_stall event hs ht)

theorem stepL2Request_absent (ht : b.tbe = none) (he : b.entry = none)
    (hq : b.l1RequestToL2Cache = m :: rest) (hwf : m.WellFormed space) :
    ∃ b', b.stepL2Request cfg = some (.ok b') ∧ BankStep cfg b .l2Request b' := by
  have hs := L2.getState_absent ht he
  have hev : cfg.requestEvent b m = _ :=
    Config.requestEvent_of_not_match hwf (by simp [he])
  by_cases hm : m.type = .GETS
  · refine ⟨_, ?_, .fetchRead hq ht he hm⟩
    simp only [hm] at hev
    rw [stepL2Request_go hq hev hs (by unfold Config.l2Transitions; cases cfg.variant <;> rfl)]
    simp [L2.iAllocateTBE, hq, ht, he, hm]
  · refine ⟨_, ?_, .fetchWrite hq ht he hm rfl⟩
    have hrun : ∀ s, (runActions [L2.qqAllocateL2CacheBlock, L2.dMarkBlockDirty, L2.ilAllocateTBE,
        L2.xxRecordGetXL1ID, L2.aIssueFetchToMemoryForStore, L2.jjPopL1RequestQueue] b).map
        (L2.setState s) = .ok
        { b with
          l1RequestToL2Cache := rest, memReads := b.memReads + 1
          entry := some { cacheState := s, dirty := true }
          tbe := some { tbeState := s, dirty := true, space := m.space
                        l1WBAckID := some m.requestor, memfetch := some m.memfetch } } := by
      intro s
      rcases hwf.type with h | h | h | h
      · exact absurd h hm
      all_goals
        simp [L2.ilAllocateTBE, L2.xxRecordGetXL1ID, L2.aIssueFetchToMemoryForStore, hq, ht, he, h]
    rcases hwf.type with h | h | h | h
    · exact absurd h hm
    all_goals
      simp only [h] at hev
      rw [stepL2Request_go hq hev hs (by unfold Config.l2Transitions; cases cfg.variant <;> rfl),
        hrun]
      simp [h]

theorem stepL2Request_reading (hnow : 0 < b.now) (ht : b.tbe = some t)
    (he : b.entry = some { cacheState := .IS }) (hs : t.tbeState = .IS) (hspace : t.space = space)
    (hq : b.l1RequestToL2Cache = m :: rest) (hwf : m.WellFormed space) :
    ∃ b', b.stepL2Request cfg = some (.ok b') ∧ BankStep cfg b .l2Request b' := by
  have hstate : L2.getState b = .IS := (L2.getState_tbe ht).trans hs
  have hev : cfg.requestEvent b m = _ :=
    Config.requestEvent_of_not_match hwf (by simp [he]; omega)
  rcases hwf.type with h | h | h | h <;> simp only [h] at hev
  · refine ⟨_, ?_, .mergeRead hq ht hs h⟩
    rw [stepL2Request_go hq hev hstate (by unfold Config.l2Transitions; cases cfg.variant <;> rfl)]
    simp [hq, ht, he, h, hs, hspace, hwf.space]
  all_goals
    refine ⟨_, stepL2Request_stall hq hev hstate ?_, .stall⟩
    unfold Config.l2Transitions
    cases cfg.variant <;> rfl

theorem stepL2Request_writing (hnow : 0 < b.now) (ht : b.tbe = some t)
    (he : b.entry = some { cacheState := t.tbeState, dirty := true })
    (hs : t.tbeState = .IM ∨ t.tbeState = .IMA)
    (hq : b.l1RequestToL2Cache = m :: rest) (hwf : m.WellFormed space) :
    b.stepL2Request cfg = some (.ok b) := by
  have hev : cfg.requestEvent b m = _ :=
    Config.requestEvent_of_not_match hwf (by simp [he]; omega)
  rcases hs with hs | hs <;> rcases hwf.type with h | h | h | h <;> simp only [h] at hev <;>
    refine stepL2Request_stall hq hev ((L2.getState_tbe ht).trans hs) ?_ <;>
    unfold Config.l2Transitions <;> cases cfg.variant <;> rfl

theorem stepL2Request_evicted (ht : b.tbe = some t) (he : b.entry = none) (hs : t.tbeState = .MI)
    (hv : cfg.variant ≠ .cachelease2uo) (hq : b.l1RequestToL2Cache = m :: rest) (hwf : m.WellFormed space) :
    b.stepL2Request cfg = some (.ok b) := by
  have hev : cfg.requestEvent b m = _ :=
    Config.requestEvent_of_not_match hwf (by simp [he])
  rcases hwf.type with h | h | h | h <;> simp only [h] at hev <;>
    refine stepL2Request_stall hq hev ((L2.getState_tbe ht).trans hs) ?_ <;>
    unfold Config.l2Transitions <;> cases hc : cfg.variant <;> first | rfl | exact absurd hc hv

theorem stepL2Request_read (ht : b.tbe = none) (he : b.entry = some e)
    (hs : e.stateAt b.now = .E ∨ e.stateAt b.now = .S ∨ e.stateAt b.now = .SS ∧ cfg.variant ≠ .cachelease2uo)
    (hq : b.l1RequestToL2Cache = m :: rest) (hwf : m.WellFormed space) (hm : m.type = .GETS) :
    ∃ b', b.stepL2Request cfg = some (.ok b') ∧ BankStep cfg b .l2Request b' := by
  have hev : cfg.requestEvent b m = _ :=
    Config.requestEvent_of_not_match hwf (by simp [hm])
  simp only [hm] at hev
  have hgo : (cfg.l2Transitions (e.stateAt b.now) .l1GETS : Option (Transition L2State (Block ι))) =
      some (.go (cfg.readNext (e.stateAt b.now)) L2.readActions) := by
    unfold Config.l2Transitions Config.readNext
    rcases hs with hs | hs | ⟨hs, hv⟩ <;> rw [hs] <;> cases hc : cfg.variant <;>
      first | rfl | exact absurd hc hv
  refine ⟨_, ?_, .read hq ht he hm⟩
  rw [stepL2Request_go hq hev (L2.getState_entry ht he) hgo]
  simp [L2.readActions, L2.tUpdateL2BlockTime, L2.dsSendDataToRequestor, L2Entry.afterRead, hq, ht,
    he, hm]

theorem stepL2Request_write (ht : b.tbe = none) (he : b.entry = some e)
    (hs : e.stateAt b.now = .E ∧ (m.type = .DATA_UPGRADE → cfg.variant ≠ .cachelease2uo →
        b.now ≤ e.liveUntilTime → e.liveUntilTime ≠ m.liveUntilTime) ∨
      e.stateAt b.now = .S ∧ m.type = .DATA_UPGRADE ∧ b.now ≤ e.liveUntilTime ∧
        e.liveUntilTime = m.liveUntilTime ∧ cfg.variant ≠ .cachelease2uo)
    (hq : b.l1RequestToL2Cache = m :: rest) (hwf : m.WellFormed space) (hm : m.type ≠ .GETS) :
    ∃ b', b.stepL2Request cfg = some (.ok b') ∧ BankStep cfg b .l2Request b' := by
  have hdirty := hwf.dirty hm
  have hrun : m.type = .DATA ∨ m.type = .DATA_UPGRADE → (runActions L2.writeActions b).map (L2.setState .S) =
      .ok (L2.send (writeResponse m e.dataBlk (e.liveUntilTime + 1))
        { b with l1RequestToL2Cache := rest, entry := some (e.afterWrite m.memfetch) }) := by
    rintro (h | h) <;>
    simp [L2.writeActions, L2.waSendAckToRequestor, L2Entry.afterWrite, writeResponse, hq, ht, he,
      h, hdirty]
  rcases hs with ⟨hs, hno⟩ | ⟨hs, hup, hlive, htime, hv⟩
  · have hev : cfg.requestEvent b m = _ := Config.requestEvent_of_not_match hwf (by
      intro hup hv e' he'
      rw [he] at he'
      cases he'
      exact hno hup hv)
    have hstate : L2.getState b = .E := (L2.getState_entry ht he).trans hs
    refine ⟨_, ?_, .write hq ht he hm (.inl hs)⟩
    rcases hwf.type with h | h | h | h
    · exact absurd h hm
    · simp only [h] at hev
      rw [stepL2Request_go hq hev hstate
        (by unfold Config.l2Transitions; cases cfg.variant <;> rfl), hrun (.inl h)]
    · simp only [h] at hev
      rw [stepL2Request_go hq hev hstate
        (by unfold Config.l2Transitions; cases cfg.variant <;> rfl), hrun (.inr h)]
    · simp only [h] at hev
      rw [stepL2Request_go hq hev hstate
        (by unfold Config.l2Transitions; cases cfg.variant <;> rfl)]
      simp [L2.dsSendAtomicDataGlobalToRequestor, L2Entry.afterWrite, writeResponse, hq, ht, he, h,
        hdirty]
  · have hev := Config.requestEvent_of_match hv hup he hlive htime
    refine ⟨_, ?_, .write hq ht he hm (.inr ⟨hs, hup, hlive, htime, hv⟩)⟩
    rw [stepL2Request_go hq hev ((L2.getState_entry ht he).trans hs)
      (by unfold Config.l2Transitions; cases hc : cfg.variant <;> first | rfl | exact absurd hc hv),
      hrun (.inr hup)]

theorem stepL2Request_blocked (ht : b.tbe = none) (he : b.entry = some e)
    (hq : b.l1RequestToL2Cache = m :: rest) (hm : m.type ≠ .GETS) (hev : cfg.requestEvent b m = .ok event)
    (hs : e.stateAt b.now = .S ∧ (event = .l1Write ∨ event = .l1UpgradeNT ∨ event = .l2Atomic) ∨
      e.stateAt b.now = .SS ∧ cfg.variant ≠ .cachelease2uo ∧
        (event = .l1Write ∨ event = .l1UpgradeNT ∨ event = .l2Atomic ∨ event = .l1UpgradeT)) :
    ∃ b', b.stepL2Request cfg = some (.ok b') ∧ BankStep cfg b .l2Request b' := by
  have hstate := L2.getState_entry ht he
  by_cases hv : cfg.variant = .cachelease2oo
  · have hgo : (cfg.l2Transitions (e.stateAt b.now) event : Option (Transition L2State (Block ι))) =
        some (.go (e.stateAt b.now) [L2.zzRecycleL1RequestQueue cfg.recycleLatency]) := by
      unfold Config.l2Transitions
      rw [hv]
      rcases hs with ⟨hs, rfl | rfl | rfl⟩ | ⟨hs, -, rfl | rfl | rfl | rfl⟩ <;> rw [hs] <;> rfl
    have hsame := (L2Entry.stateAt_live (hs.imp And.left And.left)).1
    have hblocked : L2.getState b = .SS ∨ L2.getState b = .S ∧ cfg.requestEvent b m ≠ .ok .l1UpgradeT := by
      rw [hstate, hev]
      rcases hs with ⟨hs, rfl | rfl | rfl⟩ | ⟨hs, -⟩ <;> simp [hs]
    refine ⟨_, ?_, .recycle hv hq hm hblocked⟩
    rw [stepL2Request_go hq hev hstate hgo]
    simp [L2.zzRecycleL1RequestQueue, hq, ht, he, ← hsame]
  · refine ⟨b, stepL2Request_stall hq hev hstate ?_, .stall⟩
    unfold Config.l2Transitions
    rcases hs with ⟨hs, rfl | rfl | rfl⟩ | ⟨hs, hv', rfl | rfl | rfl | rfl⟩ <;> rw [hs] <;>
      cases hc : cfg.variant <;> first | rfl | exact absurd hc hv | exact absurd hc hv'

/-- **Handling a request.** The L2 takes a `BankStep` on the request at the head of its queue, as
long as no upgrade carries the time of an entry stored in `E`. -/
theorem stepL2Request_spec (hshape : b.Shape cfg space) (hnow : 0 < b.now)
    (hq : b.l1RequestToL2Cache = m :: rest) (hwf : m.WellFormed space) (hE : m.type = .DATA_UPGRADE →
      ∀ e ∈ b.entry, e.cacheState = .E → e.liveUntilTime ≠ m.liveUntilTime) :
    ∃ b', b.stepL2Request cfg = some (.ok b') ∧ BankStep cfg b .l2Request b' := by
  cases hshape with
  | absent ht he _ _ => exact stepL2Request_absent ht he hq hwf
  | reading ht he _ _ hs hspace _ _ => exact stepL2Request_reading hnow ht he hs hspace hq hwf
  | writing ht he _ _ hs _ _ _ _ =>
    exact ⟨b, stepL2Request_writing hnow ht he hs hq hwf, .stall⟩
  | evicted ht he _ _ hs _ _ hv => exact ⟨b, stepL2Request_evicted ht he hs hv hq hwf, .stall⟩
  | @held e ht he _ _ hs =>
    have hstates := L2Entry.stateAt_cases b.now hs
    by_cases hm : m.type = .GETS
    · exact stepL2Request_read ht he hstates hq hwf hm
    · by_cases hmatch : m.type = .DATA_UPGRADE ∧ cfg.variant ≠ .cachelease2uo ∧
          b.now ≤ e.liveUntilTime ∧ e.liveUntilTime = m.liveUntilTime
      · obtain ⟨hup, hv, hlive, htime⟩ := hmatch
        rcases hstates with h | h | ⟨h, -⟩
        · -- unexpired and in `E`: the entry stores `E`, and then the times differ
          have hstored : e.cacheState = .E := by
            unfold L2Entry.stateAt at h
            rwa [if_neg (by omega)] at h
          exact absurd htime (hE hup e he hstored)
        · exact stepL2Request_write ht he (.inr ⟨h, hup, hlive, htime, hv⟩) hq hwf hm
        · exact stepL2Request_blocked ht he hq hm
            (Config.requestEvent_of_match hv hup he hlive htime) (.inr ⟨h, hv, by simp⟩)
      · have hno : m.type = .DATA_UPGRADE → cfg.variant ≠ .cachelease2uo →
            b.now ≤ e.liveUntilTime → e.liveUntilTime ≠ m.liveUntilTime :=
          fun hup hv hlive htime => hmatch ⟨hup, hv, hlive, htime⟩
        have hev : cfg.requestEvent b m = _ := Config.requestEvent_of_not_match hwf (by
          intro hup hv e' he'
          rw [he] at he'
          cases he'
          exact hno hup hv)
        rcases hstates with h | h | ⟨h, hv⟩
        · exact stepL2Request_write ht he (.inl ⟨h, hno⟩) hq hwf hm
        · refine stepL2Request_blocked ht he hq hm hev (.inl ⟨h, ?_⟩)
          rcases hwf.type with h' | h' | h' | h' <;> simp_all
        · refine stepL2Request_blocked ht he hq hm hev (.inr ⟨h, hv, ?_⟩)
          rcases hwf.type with h' | h' | h' | h' <;> simp_all

theorem stepL2Replace_go (he : b.entry = some e) (hs : L2.getState b = s)
    (hgo : cfg.l2Transitions s (if e.dirty then .l2Replacement else .l2ReplacementClean) =
      some (.go next actions)) :
    b.stepL2Replace cfg = some ((runActions actions b).map (L2.setState next)) := by
  simp only [stepL2Replace, he]
  exact congrArg some (doTransition_go hs hgo)

theorem stepL2Replace_stall (he : b.entry = some e) (hs : L2.getState b = s)
    (hgo : cfg.l2Transitions (ι := ι) s
      (if e.dirty then .l2Replacement else .l2ReplacementClean) = some .stall) :
    b.stepL2Replace cfg = some (.ok b) := by
  simp only [stepL2Replace, he]
  exact congrArg some (Controller.doTransition_stall _ hs hgo)

theorem stepL2Replace_expired (ht : b.tbe = none) (he : b.entry = some e)
    (hs : e.stateAt b.now = .E) :
    ∃ b', b.stepL2Replace cfg = some (.ok b') ∧ BankStep cfg b .l2Replace b' := by
  have hstate := (L2.getState_entry ht he).trans hs
  refine ⟨_, ?_, .drop ht he hs⟩
  cases hd : e.dirty with
  | false =>
    rw [stepL2Replace_go he hstate
      (by simp only [hd]; unfold Config.l2Transitions; cases cfg.variant <;> rfl)]
    simp [L2Entry.writeBack, ht, he, hd]
  | true =>
    rw [stepL2Replace_go he hstate
      (by simp only [hd]; unfold Config.l2Transitions; cases cfg.variant <;> rfl)]
    simp [L2Entry.writeBack, ht, he, hd]

theorem stepL2Replace_live (ht : b.tbe = none) (he : b.entry = some e)
    (hs : e.stateAt b.now = .S ∨ e.stateAt b.now = .SS ∧ cfg.variant ≠ .cachelease2uo) :
    ∃ b', b.stepL2Replace cfg = some (.ok b') ∧ BankStep cfg b .l2Replace b' := by
  have hstate := L2.getState_entry ht he
  have hlive := (L2Entry.stateAt_live (hs.imp id And.left)).2
  by_cases hv : cfg.variant = .cachelease2uo
  · refine ⟨b, stepL2Replace_stall he hstate ?_, .stall⟩
    rcases hs with hs | ⟨-, h⟩
    · unfold Config.l2Transitions
      rw [hs, hv]
      cases e.dirty <;> rfl
    · exact absurd hv h
  · have hs' := hs.imp id And.left
    refine ⟨_, ?_, .evict ht he hlive hs' hv⟩
    have hgo : (cfg.l2Transitions (e.stateAt b.now)
        (if e.dirty then .l2Replacement else .l2ReplacementClean) :
          Option (Transition L2State (Block ι))) = some (.go .MI <|
        [L2.irAllocateTBE, L2.itInsertL2ExpireTriggerQueue] ++
          (if e.dirty then [L2.cExclusiveReplacement] else []) ++ [L2.rrDeallocateL2CacheBlock]) := by
      unfold Config.l2Transitions
      rcases hs' with hs | hs <;> rw [hs] <;> cases hc : cfg.variant <;> cases e.dirty <;>
        first | rfl | exact absurd hc hv
    rw [stepL2Replace_go he hstate hgo]
    cases hd : e.dirty <;>
      simp [L2.irAllocateTBE, L2.itInsertL2ExpireTriggerQueue, L2Entry.writeBack, hlive, ht, he, hd]

/-- **Making room.** The L2 drops an expired block, keeps a TBE for an unexpired one, and stalls
while the block is being fetched. -/
theorem stepL2Replace_spec (hshape : b.Shape cfg space) (he : b.entry ≠ none) :
    ∃ b', b.stepL2Replace cfg = some (.ok b') ∧ BankStep cfg b .l2Replace b' := by
  cases hshape with
  | absent _ hnone _ _ => exact absurd hnone he
  | evicted _ hnone _ _ _ _ _ _ => exact absurd hnone he
  | reading ht he _ _ hs _ _ _ =>
    refine ⟨b, stepL2Replace_stall he ((L2.getState_tbe ht).trans hs) ?_, .stall⟩
    unfold Config.l2Transitions
    cases cfg.variant <;> rfl
  | writing ht he _ _ hs _ _ _ _ =>
    refine ⟨b, ?_, .stall⟩
    rcases hs with hs | hs
    all_goals
      refine stepL2Replace_stall he ((L2.getState_tbe ht).trans hs) ?_
      unfold Config.l2Transitions
      cases cfg.variant <;> rfl
  | @held e ht he _ _ hs =>
    rcases L2Entry.stateAt_cases b.now hs with h | h | h
    · exact stepL2Replace_expired ht he h
    · exact stepL2Replace_live ht he (.inl h)
    · exact stepL2Replace_live ht he (.inr h)

theorem stepL2Expire_spec (hshape : b.Shape cfg space)
    (h : b.stepL2Expire cfg = some r) : ∃ b', r = .ok b' ∧ BankStep cfg b .l2Expire b' := by
  cases hshape with
  | absent _ _ _ hx => simp [stepL2Expire, hx] at h
  | held _ _ _ hx _ => simp [stepL2Expire, hx] at h
  | reading _ _ _ hx _ _ _ _ => simp [stepL2Expire, hx] at h
  | writing _ _ _ hx _ _ _ _ _ => simp [stepL2Expire, hx] at h
  | @evicted t ht he _ hx hs _ _ hv =>
    simp only [stepL2Expire, hx] at h
    split at h
    · next hdue =>
      refine ⟨_, ?_, .expire ht hs (by omega)⟩
      have hgo : b.tbe ≠ none := by simp [ht]
      rw [if_neg hgo, Option.some.injEq] at h
      rw [← h, doTransition_go ((L2.getState_tbe ht).trans hs)
        (by unfold Config.l2Transitions
            cases hc : cfg.variant <;> first | rfl | exact absurd hc hv)]
      simp [L2.oPopL2ExpireTriggerQueue, ht, he]
    · cases h

theorem stepL2Memory_spec (hshape : b.Shape cfg space)
    (h : b.stepL2Memory cfg = some r) : ∃ b', r = .ok b' ∧ BankStep cfg b .l2Memory b' := by
  cases hshape with
  | absent _ _ hm _ => simp [stepL2Memory, hm] at h
  | held _ _ hm _ _ => simp [stepL2Memory, hm] at h
  | evicted _ _ hm _ _ _ _ _ => simp [stepL2Memory, hm] at h
  | @reading t ht he hm _ hs _ hreaders _ =>
    refine ⟨_, ?_, .fillRead ht hs rfl⟩
    have hgo : (cfg.l2Transitions .IS (cfg.memoryEvent t) :
          Option (Transition L2State (Block ι))) = some (.go
        (if 1 < t.l1GetSIDs.card ∧ cfg.variant ≠ .cachelease2uo then .SS else .S)
        [L2.mWriteDataToCache, L2.ttUpdateL2BlockTimeFromTBE, L2.dstSendDataToGetSRequestors,
          L2.sDeallocateTBE, L2.oPopIncomingResponseQueue]) := by
      unfold Config.l2Transitions Config.memoryEvent
      cases cfg.variant <;> by_cases hc : 1 < t.l1GetSIDs.card <;> simp [hc] <;> rfl
    simp only [stepL2Memory, hm, ht, one_ne_zero, if_false, Option.some.injEq] at h
    rw [← h, doTransition_go ((L2.getState_tbe ht).trans hs) hgo]
    simp [L2.ttUpdateL2BlockTimeFromTBE, L2.dstSendDataToGetSRequestors, ht, he, hm,
      hreaders.card_pos]
  | @writing t r g ht he hm _ hs hdirty hreaders hwriter hg =>
    refine ⟨_, ?_, .fillWrite ht hs hwriter hg⟩
    have hev : cfg.memoryEvent t = .memData := by
      unfold Config.memoryEvent
      cases cfg.variant <;> simp [hreaders]
    simp only [stepL2Memory, hm, ht, one_ne_zero, if_false, Option.some.injEq, hev] at h
    rcases hs with hs | hs
    all_goals
      rw [← h, doTransition_go ((L2.getState_tbe ht).trans hs)
        (by unfold Config.l2Transitions; cases cfg.variant <;> rfl)]
      simp [L2.tnExpireL2BlockTime, L2.mtWriteDataToCacheFromTBE, L2.watSendAckToRequestorFromTBE,
        L2.dstSendAtomicDataToGetSRequestors, fillResponse, ht, he, hm, hs, hdirty, hwriter, hg]

end Block

end GpgpuSimRuby.Ruby.Cachelease2
