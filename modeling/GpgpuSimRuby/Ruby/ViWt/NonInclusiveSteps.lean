import GpgpuSimRuby.Ruby.ViWt.NonInclusive
import GpgpuSimRuby.Ruby.ViWt.Progress

/-!
# VI_wt_ni: the bank is an abstract one

The shapes a bank can be in come from four constructors: a block nothing is going on with, with or
without data and sharers; a fetch for loads; a write that waits; and a recall. The lemmas go through
what a request, an acknowledgement, data and the two replacements do to each.
-/

namespace GpgpuSimRuby.Ruby.ViWt.NonInclusive

open Library

variable {ι : Type} [DecidableEq ι]

attribute [local simp] Block.map runActions L2.setState Except.map L2.getState ViWt.L2.send
  ViWt.L2.jjPopL1RequestQueue ViWt.L2.sendInv writeMsg dataMsg L2.setSetMRU L2.iAllocateTBE
  L2.dMarkBlockDirty L2.qlAllocateL2CacheBlock ViWt.L2.aIssueFetchToMemory
  ViWt.L2.xxRecordGetXL1ID L2.llClearSharers ViWt.L2.ouPopUnblockQueue L2.bank L2.nnAddSharer
  getsMsg ViWt.L2.aIssueFetchToMemoryForStore writeResponse ViWt.L2.sDeallocateTBE
  ViWt.L2.ssRecordGetSL1ID L2.fetchForStoreActions L2.mtWriteDataToCacheFromTBE
  L2.rlDeallocateL2CacheBlock L2.mWriteDataToCache ViWt.L2.oPopIncomingResponseQueue
  L2.qqAllocateDirectoryCacheBlock L2.hitActions ViWt.L2.deSendAckToRequestor
  ViWt.L2.dsSendAtomicDataToRequestor L2.mrWriteDataToCacheFromRequest
  L2.fSendInvToSharersMinusRequestor ViWt.L2.qUpdateAck L2.nxAddGetXSharer
  ViWt.L2.eeSendAckToGetXRequestor ViWt.L2.eSendAtomicDataToGetXRequestor L2.cExclusiveReplacement
  L2.rrDeallocateDirectoryCacheBlock

/-! ## How to look at the bank -/

/-- The states in which a write waits; `true` for an atomic. -/
def L2State.writes : L2State → Option Bool
  | .IM | .IDM | .SM | .SDM => some false
  | .IMA | .SMA | .SDMA => some true
  | .NP | .S | .SS | .S_D | .SS_D | .ISS | .MI | .II => none

/-- The states that wait for acknowledgements. -/
def L2State.awaitsAcks : L2State → Bool
  | .SM | .SMA | .SDM | .SDMA | .MI | .II => true
  | .NP | .S | .SS | .S_D | .SS_D | .ISS | .IM | .IDM | .IMA => false

/-- The states of a write that wait for data. -/
def L2State.awaitsData : L2State → Bool
  | .IM | .IDM | .IMA | .SDM | .SDMA => true
  | .NP | .S | .SS | .S_D | .SS_D | .ISS | .SM | .SMA | .MI | .II => false

/-- The requests that wait in a TBE. -/
def TBE.waiting (t : L2TBE L2State ι) : List (Transaction ι) :=
  match t.tbeState.writes with
  | some atomic => t.memfetch.toList.map fun g => (writeKind atomic, g)
  | none => t.mfset.map fun x => (.read, x.2)

/-- The acknowledgements a TBE waits for. -/
def TBE.pending (t : L2TBE L2State ι) : Option Int :=
  if t.tbeState.awaitsAcks then some t.pendingAcks else none

/-- While a write waits for acknowledgements, of the sharers on the list only the writer is not being
invalidated, and the one of an atomic has no copy either. -/
def TBE.keeps (t : L2TBE L2State ι) (sharers : Finset ι) : Finset ι :=
  match t.tbeState with
  | .SM | .SDM => sharers ∩ t.l1WBAckID.toFinset
  | .SMA | .SDMA => ∅
  | _ => sharers

def L2Bank.sharers (k : L2Bank ι) : Finset ι := (k.entry.dir.map Entry.sharers).getD ∅

def L2Bank.view (k : L2Bank ι) : View ι where
  waiting := (k.tbe.map TBE.waiting).getD []
  pending := (k.tbe.map TBE.pending).getD none
  sharers := (k.tbe.map fun t => TBE.keeps t k.sharers).getD k.sharers
  memReads := k.memReads

/-! ## The shapes of the bank -/

/-- The state of a directory entry nothing is going on with. -/
def idleState (data : Option CacheEntry) (sharers : Finset ι) : L2State :=
  match data with
  | some _ => if sharers = ∅ then .S else .SS
  | none => if sharers = ∅ then .S_D else .SS_D

/-- The bank when nothing is going on with a block in the directory. -/
def idleBank (data : Option CacheEntry) (sharers : Finset ι) : L2Bank ι where
  entry := { dir := some { cacheState := idleState data sharers, sharers := sharers }, cache := data }

/-- The bank while the write `g` waits in the state `s`. -/
def writeBank (s : L2State) (space : MemorySpaceType) (sharers : Finset ι) (g : MemFetch ι)
    (acks : Int) : L2Bank ι where
  entry := { dir := some { cacheState := s, sharers := sharers }, cache := some { dirty := true } }
  tbe := some { tbeState := s, dirty := true, l1WBAckID := some g.sid, space := space
                memfetch := some g, pendingAcks := acks }
  memReads := if s.awaitsData then 1 else 0

/-- The sharers a write that only waits for data leaves on the list: itself in `IDM`. -/
def settledSharers (s : L2State) (g : MemFetch ι) : Finset ι := if s = .IDM then {g.sid} else ∅

/-- The shapes a bank can be in. -/
inductive Shape (space : MemorySpaceType) : L2Bank ι → Prop
  | NP : Shape space { entry := {} }
  | idle {data sharers} : Shape space (idleBank data sharers)
  /-- A fetch for the loads `mfset`. -/
  | ISS {sharers dirty ids mfset memfetch acks} (hne : ids.Nonempty) (hsub : ids ⊆ sharers)
      (hids : ∀ i, i ∈ ids ↔ ∃ x ∈ mfset, x.2.sid = i) :
      Shape space
        { entry := { dir := some { cacheState := .ISS, sharers := sharers }
                     cache := some { dirty := dirty } }
          tbe := some { tbeState := .ISS, dirty := dirty, l1GetSIDs := ids, space := space
                        mfset := mfset, memfetch := memfetch, pendingAcks := acks }
          memReads := 1 }
  /-- The write `g`. -/
  | write {s sharers g acks} (hs : s.writes ≠ none)
      (hsharers : s.awaitsAcks = false → sharers = settledSharers s g) :
      Shape space (writeBank s space sharers g acks)
  /-- A round of invalidations for an evicted block. -/
  | evicted {s dirty acks} (hs : s = .MI ∨ s = .II) :
      Shape space { entry := {}, tbe := some { tbeState := s, dirty := dirty, pendingAcks := acks } }

/-- A step of the bank, in terms of the abstract bank. -/
abbrev RefinesAct (space : MemorySpaceType) (act : BankAct) (b : Block ι (L2Bank ι)) : Prop :=
  ∃ b', L2.bank.step act b = some (.ok b') ∧ Shape space b'.bank ∧
    Block.BankStep False act (b.map L2Bank.view) (b'.map L2Bank.view)

variable {space : MemorySpaceType} {b : Block ι (L2Bank ι)} {m : RequestMsg ι}
  {rest : List (RequestMsg ι)} {g : MemFetch ι} {dirty : Bool} {c : CacheEntry} {event : L2Event}
variable {data : Option CacheEntry} {actions : List (L2Action ι)}

theorem Shape.asserts (h : Shape space b.bank) : L2.getStateAsserts b := by
  generalize hk : b.bank = k at h
  cases h <;> simp [L2.getStateAsserts, hk, idleBank, writeBank]

theorem trigger_go {n : Nat} {s next : L2State} (h : Shape space b.bank) (hs : L2.getState b = s)
    (ht : L2.transitions n s event = some (.go next actions)) :
    L2.trigger n event b = (runActions actions b).map (L2.setState next) := by
  rw [L2.trigger, if_pos h.asserts]
  exact Controller.doTransition_go event hs ht

theorem trigger_stall {n : Nat} {s : L2State} (h : Shape space b.bank)
    (hs : L2.getState b = s) (ht : L2.transitions (ι := ι) n s event = some .stall) :
    L2.trigger n event b = .ok b := by
  rw [L2.trigger, if_pos h.asserts]
  exact Controller.doTransition_stall event hs ht

attribute [local simp] L2Bank.view writeBank L2Bank.sharers idleBank TBE.waiting TBE.pending

/-! ## Requests -/

section Request

theorem stepRequest_go {s next : L2State} (h : Shape space b.bank)
    (hq : b.l1RequestToL2Cache = m :: rest) (hev : L2.l1CacheRequestTypeToEvent b m = .ok event)
    (hs : L2.getState b = s) (ht : L2.transitions 0 s event = some (.go next actions)) :
    L2.bank.step .request b = some ((runActions actions b).map (L2.setState next)) := by
  simp only [L2.bank, L2.stepRequest, hq, hev, trigger_go h hs ht]

theorem stepRequest_stall {s : L2State} (h : Shape space b.bank)
    (hq : b.l1RequestToL2Cache = m :: rest) (hev : L2.l1CacheRequestTypeToEvent b m = .ok event)
    (hs : L2.getState b = s) (ht : L2.transitions (ι := ι) 0 s event = some .stall) :
    L2.bank.step .request b = some (.ok b) := by
  simp only [L2.bank, L2.stepRequest, hq, hev, trigger_stall h hs ht]

theorem event_gets : L2.l1CacheRequestTypeToEvent b (getsMsg space g) = .ok .l1GETS := rfl

/-- The event of a write, which is private if its requestor is the only sharer. -/
def writeEvent (atomic priv : Bool) : L2Event :=
  match atomic, priv with
  | false, false => .wbData
  | false, true => .wbDataPriv
  | true, false => .l2Atomic
  | true, true => .l2AtomicPriv

theorem event_write (b : Block ι (L2Bank ι)) (space : MemorySpaceType) (g : MemFetch ι)
    (atomic : Bool) : L2.l1CacheRequestTypeToEvent b (writeMsg atomic space g) =
    .ok (writeEvent atomic (L2.isPrivate b g.sid)) := by
  cases atomic <;> cases h : L2.isPrivate b g.sid <;>
    simp [L2.l1CacheRequestTypeToEvent, writeEvent, h]

theorem isPrivate_eq {e : Entry ι} {i : ι} (hdir : b.bank.entry.dir = some e) :
    L2.isPrivate b i = decide (e.sharers = {i}) := by
  simp only [L2.isPrivate, hdir, decide_eq_decide]
  rw [Finset.card_eq_one]
  constructor
  · rintro ⟨hi, j, hj⟩
    rw [hj] at hi ⊢
    rw [Finset.mem_singleton.mp hi]
  · intro h
    rw [h]
    exact ⟨Finset.mem_singleton_self i, i, rfl⟩

theorem getState_idle {sharers : Finset ι}
    (hbank : b.bank = idleBank data sharers) : L2.getState b = idleState data sharers := by
  simp [hbank]

theorem refines_gets_fetch {sharers : Finset ι} (hshape : Shape space b.bank)
    (hbank : b.bank = { entry := {} } ∧ sharers = ∅ ∨ b.bank = idleBank none sharers)
    (hq : b.l1RequestToL2Cache = getsMsg space g :: rest) : RefinesAct space .request b := by
  refine ⟨{ b with
    l1RequestToL2Cache := rest
    bank :=
      { entry := { dir := some { cacheState := .ISS, sharers := insert g.sid sharers }
                   cache := some {} }
        tbe := some { tbeState := .ISS, l1GetSIDs := {g.sid}, space := space, mfset := [(g.sid, g)]
                      memfetch := some g
                      pendingAcks := if g.sid ∈ sharers then (sharers.card : Int) - 1
                        else sharers.card }
        memReads := 1 } }, ?_, ?_, ?_⟩
  · rcases hbank with ⟨hbank, rfl⟩ | hbank
    · have hs : L2.getState b = .NP := by simp [hbank]
      rw [stepRequest_go hshape hq event_gets hs rfl]
      simp [hq, hbank]
    · have hrow : L2.transitions (ι := ι) 0 (idleState none sharers) .l1GETS =
          some (.go .ISS [L2.qlAllocateL2CacheBlock, L2.iAllocateTBE, ViWt.L2.ssRecordGetSL1ID,
            L2.setSetMRU, L2.nnAddSharer, ViWt.L2.aIssueFetchToMemory,
            ViWt.L2.jjPopL1RequestQueue]) := by
        simp only [idleState]
        split <;> rfl
      rw [stepRequest_go hshape hq event_gets (getState_idle hbank) hrow]
      simp [hq, hbank]
  · exact .ISS (by simp) (by simp) (by simp [eq_comm])
  · have hidle : b.bank.view.waiting = [] ∧ b.bank.view.pending = none ∧ b.bank.memReads = 0 ∧
        b.bank.view.sharers = sharers := by
      rcases hbank with ⟨hbank, rfl⟩ | hbank <;>
        simp [hbank]
    obtain ⟨hwaiting, hpending, hmem, hsharers⟩ := hidle
    refine .take 1 hq rfl (by simp) rfl ?_ ?_ ?_ ⟨?_, ?_⟩
    · simp [-L2Bank.view, hwaiting]
      simp [L2State.writes]
    · simp [-L2Bank.view, hpending]
      simp [L2State.awaitsAcks]
    · simp [hmem]
    · intro i hi _
      have hi : i ∈ sharers := hsharers ▸ hi
      simp [TBE.keeps, hi]
    · simp

theorem refines_gets_ISS {sharers ids : Finset ι} {mfset : List (ι × MemFetch ι)}
    {memfetch : Option (MemFetch ι)} {acks : Int} (hshape : Shape space b.bank)
    (hbank : b.bank =
      { entry := { dir := some { cacheState := .ISS, sharers := sharers }
                   cache := some { dirty := dirty } }
        tbe := some { tbeState := .ISS, dirty := dirty, l1GetSIDs := ids, space := space
                      mfset := mfset, memfetch := memfetch, pendingAcks := acks }
        memReads := 1 })
    (hsub : ids ⊆ sharers) (hids : ∀ i, i ∈ ids ↔ ∃ x ∈ mfset, x.2.sid = i)
    (hq : b.l1RequestToL2Cache = getsMsg space g :: rest) : RefinesAct space .request b := by
  have hs : L2.getState b = .ISS := by simp [hbank]
  refine ⟨{ b with
    l1RequestToL2Cache := rest
    bank :=
      { entry := { dir := some { cacheState := .ISS, sharers := insert g.sid sharers }
                   cache := some { dirty := dirty } }
        tbe := some { tbeState := .ISS, dirty := dirty, l1GetSIDs := insert g.sid ids, space := space
                      mfset := mfset ++ [(g.sid, g)], memfetch := memfetch, pendingAcks := acks }
        memReads := 1 } }, ?_, ?_, ?_⟩
  · rw [stepRequest_go hshape hq event_gets hs rfl]
    simp [hq, hbank]
  · refine .ISS (Finset.insert_nonempty ..) (Finset.insert_subset_insert _ hsub) ?_
    exact mem_insert_sid hids g
  · refine .take 0 hq rfl (by simp) rfl ?_ ?_ ?_ ⟨?_, ?_⟩ <;>
      simp +contextual [hbank, TBE.keeps, L2State.writes, L2State.awaitsAcks]

theorem refines_gets_hit {sharers : Finset ι} (hshape : Shape space b.bank)
    (hbank : b.bank = idleBank (some c) sharers)
    (hq : b.l1RequestToL2Cache = getsMsg space g :: rest) : RefinesAct space .request b := by
  refine ⟨ViWt.L2.send { type := .DATA, destination := {g.sid}, mfset := [(g.sid, g)] } { b with
    l1RequestToL2Cache := rest, bank := idleBank (some c) (insert g.sid sharers) }, ?_, .idle, ?_⟩
  · have hrow : L2.transitions (ι := ι) 0 (idleState (some c) sharers) .l1GETS =
        some (.go .SS [L2.dsSendDataToRequestor, L2.setSetMRU, L2.nnAddSharer,
          ViWt.L2.jjPopL1RequestQueue]) := by
      simp only [idleState]
      split <;> rfl
    rw [stepRequest_go hshape hq event_gets (getState_idle hbank) hrow]
    simp [L2.dsSendDataToRequestor, hq, hbank, idleState]
  · refine .answerRead (r := { type := .DATA, destination := {g.sid}, mfset := [(g.sid, g)] }) hq rfl
      rfl rfl rfl rfl ?_ ?_ ?_ ?_ ?_ ⟨?_, ?_⟩ <;>
      simp +contextual [hbank]

/-- The state a write without other sharers waits for its data in. -/
def fetching (atomic : Bool) (sharers : Finset ι) : L2State :=
  if atomic then .IMA else if sharers = ∅ then .IM else .IDM

theorem refines_write_fetch (atomic : Bool) {sharers : Finset ι} (hshape : Shape space b.bank)
    (hbank : b.bank = { entry := {} } ∧ sharers = ∅ ∨ b.bank = idleBank none sharers)
    (hsharers : sharers = ∅ ∨ sharers = {g.sid})
    (hq : b.l1RequestToL2Cache = writeMsg atomic space g :: rest)
    (hatomic : atomic = true → ¬ b.Holder g.sid) : RefinesAct space .request b := by
  have hev := event_write b space g atomic
  have hidle : b.bank.view.waiting = [] ∧ b.bank.view.pending = none ∧ b.bank.memReads = 0 ∧
      b.bank.view.sharers = sharers := by
    rcases hbank with ⟨hbank, rfl⟩ | hbank <;>
      simp [hbank]
  obtain ⟨hwaiting, hpending, hmem, hview⟩ := hidle
  have hstate : (fetching atomic sharers).writes = some atomic ∧
      (fetching atomic sharers).awaitsAcks = false ∧ (fetching atomic sharers).awaitsData := by
    rcases hsharers with rfl | rfl <;> cases atomic <;>
      simp [fetching, L2State.writes, L2State.awaitsAcks, L2State.awaitsData]
  obtain ⟨hwrites, hacks, hdata⟩ := hstate
  have hsettled : settledSharers (fetching atomic sharers) g = if atomic then ∅ else sharers := by
    rcases hsharers with rfl | rfl <;> cases atomic <;> simp [settledSharers, fetching]
  refine ⟨{ b with
    l1RequestToL2Cache := rest
    bank := writeBank (fetching atomic sharers) space (settledSharers (fetching atomic sharers) g) g 0 },
    ?_, .write (by simp [hwrites]) fun _ => rfl, ?_⟩
  · rw [hsettled]
    rcases hbank with ⟨hbank, rfl⟩ | hbank
    · have hs : L2.getState b = .NP := by simp [hbank]
      rw [show L2.isPrivate b g.sid = false by simp [L2.isPrivate, hbank]] at hev
      cases atomic <;> rw [stepRequest_go hshape hq hev hs rfl] <;>
        simp [hq, hbank, fetching, L2State.awaitsData]
    · have hs := getState_idle hbank
      rw [isPrivate_eq (show b.bank.entry.dir = some _ by rw [hbank]; rfl)] at hev
      rcases hsharers with rfl | rfl
      · simp only [(Finset.singleton_ne_empty g.sid).symm, decide_false] at hev
        cases atomic <;> rw [stepRequest_go hshape hq hev hs rfl] <;>
          simp [hq, hbank, fetching, L2State.awaitsData]
      · simp only [decide_true] at hev
        simp only [idleState, Finset.singleton_ne_empty, if_false] at hs
        cases atomic <;> rw [stepRequest_go hshape hq hev hs rfl] <;>
          simp [hq, hbank, fetching, L2State.awaitsData]
  · refine .take 1 hq (writeMsg_transaction ..) (by simp) rfl ?_ ?_ ?_ ⟨?_, ?_⟩
    · simp only [Block.map, hwaiting]
      simp [hwrites]
    · simp only [Block.map, hpending]
      simp [hacks]
    · simp [hmem, hdata]
    · intro i hi hold
      have hi : i ∈ sharers := hview ▸ hi
      cases atomic with
      | false =>
        rw [hsettled]
        rcases hsharers with rfl | rfl <;>
          simp_all [TBE.keeps, fetching]
      | true =>
        rcases hsharers with rfl | rfl
        · cases hi
        · obtain rfl := Finset.mem_singleton.mp hi
          exact absurd hold (hatomic rfl)
    · simp

/-- A write to a block with data and without other sharers is answered; an atomic gives its copy up. -/
theorem refines_write_hit (atomic : Bool) {sharers : Finset ι}
    (hshape : Shape space b.bank) (hbank : b.bank = idleBank (some c) sharers)
    (hsharers : sharers = ∅ ∨ sharers = {g.sid}) (hq : b.l1RequestToL2Cache = writeMsg atomic space g :: rest)
    (hatomic : atomic = true → ¬ b.Holder g.sid) : RefinesAct space .request b := by
  have hev := event_write b space g atomic
  rw [isPrivate_eq (show b.bank.entry.dir = some _ by rw [hbank]; rfl)] at hev
  have hs := getState_idle hbank
  refine ⟨ViWt.L2.send (writeResponse atomic g) { b with
    l1RequestToL2Cache := rest
    bank := idleBank (some { dirty := true }) (if atomic then ∅ else sharers) }, ?_, .idle, ?_⟩
  · rcases hsharers with rfl | rfl
    · simp only [(Finset.singleton_ne_empty g.sid).symm, decide_false] at hev
      cases atomic <;> rw [stepRequest_go hshape hq hev hs rfl] <;>
        simp [hq, hbank, idleState]
    · simp only [decide_true] at hev
      simp only [idleState, Finset.singleton_ne_empty, if_false] at hs
      cases atomic <;> rw [stepRequest_go hshape hq hev hs rfl] <;>
        simp [hq, hbank, idleState]
  · refine .answerWrite hq (writeMsg_transaction ..) rfl (writeResponse_type ..)
      (writeResponse_transactions ..) rfl ?_ ?_ ?_ ?_ ?_ ?_ ⟨?_, ?_⟩
    case refine_6 =>
      rcases hsharers with rfl | rfl <;> simp [hbank]
    case refine_7 =>
      intro i hi hold
      have hi : i ∈ sharers := by
        simpa [hbank] using hi
      cases atomic with
      | false => simpa using hi
      | true =>
        rcases hsharers with rfl | rfl
        · cases hi
        · obtain rfl := Finset.mem_singleton.mp hi
          exact absurd hold (hatomic rfl)
    all_goals simp [hbank]

/-- The state a write waits for acknowledgements in. -/
def invalidating (atomic : Bool) (data : Option CacheEntry) : L2State :=
  match atomic, data with
  | false, some _ => .SM
  | true, some _ => .SMA
  | false, none => .SDM
  | true, none => .SDMA

/-- A write to a block with other sharers starts a round of invalidations, and a fetch if there is no
data. -/
theorem refines_write_shared (atomic : Bool) {sharers : Finset ι}
    (hshape : Shape space b.bank) (hbank : b.bank = idleBank data sharers) (hne : sharers ≠ ∅)
    (hpriv : sharers ≠ {g.sid}) (hq : b.l1RequestToL2Cache = writeMsg atomic space g :: rest)
    (hatomic : atomic = true → ¬ b.Holder g.sid) : RefinesAct space .request b := by
  have hev := event_write b space g atomic
  rw [isPrivate_eq (show b.bank.entry.dir = some _ by rw [hbank]; rfl)] at hev
  simp only [hpriv, decide_false] at hev
  have hs := getState_idle hbank
  have hpos : 0 < sharers.card := Finset.card_pos.mpr (Finset.nonempty_iff_ne_empty.mpr hne)
  have hothers : (sharers.erase g.sid).Nonempty := by
    rw [Finset.nonempty_iff_ne_empty]
    intro hempty
    rw [Finset.erase_eq_empty_iff] at hempty
    exact hempty.elim hne hpriv
  have hcard : (if g.sid ∈ sharers then (sharers.card : Int) - 1 else sharers.card) =
      (sharers.erase g.sid).card := by
    split
    · next h =>
      rw [Finset.card_erase_of_mem h, Nat.cast_sub hpos]
      rfl
    · next h => rw [Finset.erase_eq_of_notMem h]
  have hwrites : (invalidating atomic data).writes = some atomic := by
    cases atomic <;> cases data <;> rfl
  refine ⟨ViWt.L2.sendInv { type := .INV, destination := sharers.erase g.sid } { b with
    l1RequestToL2Cache := rest
    bank := writeBank (invalidating atomic data) space sharers g (sharers.erase g.sid).card },
    ?_, .write (by simp [hwrites])
      (by cases atomic <;> cases data <;> simp [invalidating, L2State.awaitsAcks]), ?_⟩
  · rw [← hcard]
    cases data with
    | none =>
      simp only [idleState, hne, if_false] at hs
      cases atomic <;> rw [stepRequest_go hshape hq hev hs rfl] <;>
        simp [hq, hbank, invalidating, L2State.awaitsData, hpos]
    | some c =>
      simp only [idleState, hne, if_false] at hs
      cases atomic <;> rw [stepRequest_go hshape hq hev hs rfl] <;>
        simp [L2.invalidateActions, hq, hbank, invalidating, L2State.awaitsData, hpos]
  · refine .takeInv (if (invalidating atomic data).awaitsData then 1 else 0) hq
      (writeMsg_transaction ..) (by split <;> simp) rfl (.inl rfl) hothers ?_ ?_ ?_ ?_ ?_ ?_
    · simp [hbank]
    · simp [hbank, hwrites]
    · cases atomic <;> cases data <;>
        simp [invalidating, L2State.awaitsAcks]
    · simp [hbank]
    · intro i hi hold
      have hi : i ∈ sharers := by
        simpa [hbank] using hi
      by_cases hig : i = g.sid
      · subst hig
        cases atomic with
        | false =>
          refine .inr ?_
          cases data <;>
            simp [TBE.keeps, invalidating, hi]
        | true => exact absurd hold (hatomic rfl)
      · exact .inl (Finset.mem_erase.mpr ⟨hig, hi⟩)
    · simp

theorem stepRequest_stall_write {s : L2State} {sharers : Finset ι} {g' : MemFetch ι} {acks : Int}
    (hshape : Shape space b.bank) (hbank : b.bank = writeBank s space sharers g' acks)
    (hs : s.writes ≠ none) (hsharers : s.awaitsAcks = false → sharers = settledSharers s g')
    (hq : b.l1RequestToL2Cache = m :: rest) (hev : L2.l1CacheRequestTypeToEvent b m = .ok event)
    (hevent : event = .l1GETS ∨ ∃ atomic i, event = writeEvent atomic (L2.isPrivate b i)) :
    L2.bank.step .request b = some (.ok b) := by
  have hstate : L2.getState b = s := by simp [hbank]
  refine stepRequest_stall hshape hq hev hstate ?_
  rcases hevent with rfl | ⟨atomic, i, rfl⟩
  · cases s <;> first | exact absurd rfl hs | rfl
  · -- nobody is on the list in `IM` and `IMA`
    have hnone : s = .IM ∨ s = .IMA → L2.isPrivate b i = false := by
      intro hs
      have hempty : sharers = ∅ := by
        rcases hs with rfl | rfl <;> exact hsharers rfl
      simp [L2.isPrivate, hbank, hempty]
    cases s with
    | IM => rw [hnone (.inl rfl)]; cases atomic <;> rfl
    | IMA => rw [hnone (.inr rfl)]; cases atomic <;> rfl
    | IDM | SM | SMA | SDM | SDMA => cases atomic <;> cases L2.isPrivate b i <;> rfl
    | NP | S | SS | S_D | SS_D | ISS | MI | II => exact absurd rfl hs

/-- **Requests.** -/
theorem stepRequest_spec [Fintype ι] (hshape : Shape space b.bank)
    (hinv : (b.map L2Bank.view).Inv .VI_wt_ni space) (hq : b.l1RequestToL2Cache = m :: rest) :
    b.bank.tbe ≠ none ∧ L2.bank.step .request b = some (.ok b) ∨ RefinesAct space .request b := by
  -- the requestor of an atomic at the head of the queue has given its copy up
  have hatomic : ∀ {atomic : Bool} {g : MemFetch ι}, m = writeMsg atomic space g → atomic = true →
      ¬ b.Holder g.sid := by
    rintro atomic g rfl rfl
    exact hinv.not_holder_of_atomic hq
  have hsent : m.Sent .VI_wt_ni space := hinv.queue m (by simp [hq])
  have hshape' := hshape
  generalize hk : b.bank = k at hshape'
  cases hsent with
  | gets g =>
    cases hshape' with
    | NP => exact .inr (refines_gets_fetch hshape (.inl ⟨hk, rfl⟩) hq)
    | @idle data sharers =>
      cases data with
      | none => exact .inr (refines_gets_fetch hshape (.inr hk) hq)
      | some c => exact .inr (refines_gets_hit hshape hk hq)
    | ISS hne hsub hids => exact .inr (refines_gets_ISS hshape hk hsub hids hq)
    | @write s sharers g' acks hs hsharers =>
      exact .inl ⟨by simp,
        stepRequest_stall_write hshape hk hs hsharers hq event_gets (.inl rfl)⟩
    | evicted hs =>
      refine .inl ⟨by simp, stepRequest_stall hshape hq event_gets rfl ?_⟩
      rcases hs with rfl | rfl <;> simp [hk] <;> rfl
  | write atomic g =>
    have hev := event_write b space g atomic
    cases hshape' with
    | NP => exact .inr (refines_write_fetch atomic hshape (.inl ⟨hk, rfl⟩) (.inl rfl) hq (hatomic rfl))
    | @idle data sharers =>
      by_cases halone : sharers = ∅ ∨ sharers = {g.sid}
      · cases data with
        | none => exact .inr (refines_write_fetch atomic hshape (.inr hk) halone hq (hatomic rfl))
        | some c => exact .inr (refines_write_hit atomic hshape hk halone hq (hatomic rfl))
      · rw [not_or] at halone
        exact .inr (refines_write_shared atomic hshape hk halone.1 halone.2 hq (hatomic rfl))
    | ISS hne hsub hids =>
      refine .inl ⟨by simp, stepRequest_stall hshape hq hev rfl ?_⟩
      cases atomic <;> cases L2.isPrivate b g.sid <;> simp [hk] <;> rfl
    | @write s sharers g' acks hs hsharers =>
      exact .inl ⟨by simp,
        stepRequest_stall_write hshape hk hs hsharers hq hev (.inr ⟨atomic, g.sid, rfl⟩)⟩
    | evicted hs =>
      rw [show L2.isPrivate b g.sid = false by simp [L2.isPrivate, hk]] at hev
      refine .inl ⟨by simp, stepRequest_stall hshape hq hev rfl ?_⟩
      rcases hs with rfl | rfl <;> cases atomic <;> simp [hk] <;> rfl
  | notice i hp => cases hp

end Request

/-! ## Acknowledgements -/

section Unblock

variable {k : Nat} {a : AckMsg ι} {s : L2State} {sharers : Finset ι} {acks : Int}

/-- The event of an acknowledgement. -/
def ackEvent (n : Int) : L2Event := if n = 1 then .invAckAll else .invAck

theorem stepUnblock_go {t : L2TBE L2State ι} {next : L2State} (h : Shape space b.bank)
    (hk : b.unblockToL2Cache[k]? = some a) (ha : a.Good) (ht : b.bank.tbe = some t)
    (hrow : L2.transitions k t.tbeState (ackEvent t.pendingAcks) = some (.go next actions)) :
    L2.bank.step (.unblock k) b = some ((runActions actions b).map (L2.setState next)) := by
  have hev : L2.unblockEvent b a = .ok (ackEvent t.pendingAcks) := by
    simp only [L2.unblockEvent, ha.type, ht, ha.ackCount, ackEvent, sub_eq_zero, if_true]
    split <;> rfl
  have hstate : L2.getState b = t.tbeState := by simp [ht]
  simp only [L2.bank, L2.stepUnblock, hk, hev, trigger_go h hstate hrow]

theorem refines_ack (hshape : Shape space b.bank) (hbank : b.bank = writeBank s space sharers g acks)
    (hwrites : s.writes ≠ none) (hs : s.awaitsAcks) (hk : b.unblockToL2Cache[k]? = some a)
    (ha : a.Good) (hacks : acks ≠ 1) : RefinesAct space (.unblock k) b := by
  have hrow : L2.transitions (ι := ι) k s (ackEvent acks) =
      some (.go s [ViWt.L2.qUpdateAck k, ViWt.L2.ouPopUnblockQueue k]) := by
    rw [ackEvent, if_neg hacks]
    cases s <;> first | rfl | cases hs
  refine ⟨b.acked k a (writeBank s space sharers g (acks - 1)), ?_, .write hwrites (by simp [hs]), ?_⟩
  · rw [stepUnblock_go hshape hk ha (by rw [hbank]; rfl) hrow]
    rcases ha.type with h | h <;>
      simp [hk, hbank, ha.ackCount, h]
  · have hkeep : (Block.map L2Bank.view b).bank.sharers =
        (writeBank s space sharers g (acks - 1)).view.sharers := by
      simp [hbank, TBE.keeps]
    refine .ack (n := acks) hk ?_ rfl ?_ ?_ ?_ ⟨fun i hi _ => hkeep ▸ hi, ?_⟩ <;>
      simp [hbank, hs, hacks]

/-- The state a write waits for its data in, once it has all acknowledgements. -/
def acknowledged (atomic : Bool) : L2State := if atomic then .IMA else .IDM

theorem refines_ackAll_data (atomic : Bool) (hshape : Shape space b.bank)
    (hbank : b.bank = writeBank (invalidating atomic none) space sharers g 1)
    (hk : b.unblockToL2Cache[k]? = some a) (ha : a.Good) : RefinesAct space (.unblock k) b := by
  refine ⟨b.acked k a
      (writeBank (acknowledged atomic) space (settledSharers (acknowledged atomic) g) g 1),
    ?_, .write (by cases atomic <;> decide) fun _ => rfl, ?_⟩
  · cases atomic <;> rw [stepUnblock_go hshape hk ha (by rw [hbank]; rfl) rfl] <;>
      rcases ha.type with h | h <;>
      simp [hk, hbank, h, invalidating, acknowledged, settledSharers, L2State.awaitsData]
  · refine .ack (n := 1) hk ?_ rfl ?_ ?_ ?_ ⟨fun i hi _ => ?_, ?_⟩ <;> cases atomic <;>
      simp_all [TBE.keeps, invalidating, acknowledged, settledSharers, L2State.awaitsAcks,
        L2State.awaitsData, L2State.writes]

theorem refines_ackAll (atomic : Bool) (hshape : Shape space b.bank)
    (hbank : b.bank = writeBank (invalidating atomic (some c)) space sharers g 1)
    (hk : b.unblockToL2Cache[k]? = some a) (ha : a.Good) : RefinesAct space (.unblock k) b := by
  refine ⟨ViWt.L2.send (writeResponse atomic g)
    (b.acked k a (idleBank (some { dirty := true }) (if atomic then ∅ else {g.sid}))), ?_, .idle, ?_⟩
  · cases atomic <;> rw [stepUnblock_go hshape hk ha (by rw [hbank]; rfl) rfl] <;>
      rcases ha.type with h | h <;>
      simp [hk, hbank, h, invalidating, idleState, L2State.awaitsData]
  · refine .ackAnswer (x := (writeKind atomic, g)) hk ?_ rfl (writeResponse_type ..)
      (writeResponse_transactions ..) ?_ rfl ?_ ?_ ?_ ?_ ⟨fun i hi _ => ?_, ?_⟩ <;> cases atomic <;>
      simp_all [TBE.keeps, invalidating, L2State.awaitsAcks, L2State.awaitsData, L2State.writes]

theorem refines_ack_evicted (hshape : Shape space b.bank) (hs : s = .MI ∨ s = .II) (hbank : b.bank =
      { entry := {}, tbe := some { tbeState := s, dirty := dirty, pendingAcks := acks } })
    (hk : b.unblockToL2Cache[k]? = some a) (ha : a.Good) : RefinesAct space (.unblock k) b := by
  by_cases hacks : acks = 1
  · subst hacks
    refine ⟨b.acked k a { entry := {} }, ?_, .NP, ?_⟩
    · rcases hs with rfl | rfl <;> rw [stepUnblock_go hshape hk ha (by rw [hbank]) rfl] <;>
        rcases ha.type with h | h <;>
        simp [L2.cExclusiveReplacementTBE, hk, hbank, h]
    · refine .ack (n := 1) hk ?_ rfl ?_ ?_ ?_ ⟨?_, ?_⟩ <;> rcases hs with rfl | rfl <;>
        simp [hbank, TBE.keeps, L2State.awaitsAcks, L2State.writes]
  · have hrow : L2.transitions (ι := ι) k s (ackEvent acks) =
        some (.go s [ViWt.L2.qUpdateAck k, ViWt.L2.ouPopUnblockQueue k]) := by
      rw [ackEvent, if_neg hacks]
      rcases hs with rfl | rfl <;> rfl
    refine ⟨b.acked k a
        { entry := {}, tbe := some { tbeState := s, dirty := dirty, pendingAcks := acks - 1 } },
      ?_, .evicted hs, ?_⟩
    · rw [stepUnblock_go hshape hk ha (by rw [hbank]) hrow]
      rcases ha.type with h | h <;>
        simp [hk, hbank, ha.ackCount, h]
    · refine .ack (n := acks) hk ?_ rfl ?_ ?_ ?_ ⟨?_, ?_⟩ <;> rcases hs with rfl | rfl <;>
        simp [hbank, TBE.keeps, L2State.awaitsAcks, L2State.writes, hacks]

/-- **Acknowledgements.** -/
theorem stepUnblock_spec [Fintype ι] (hshape : Shape space b.bank)
    (hinv : (b.map L2Bank.view).Inv .VI_wt_ni space) (hk : b.unblockToL2Cache[k]? = some a) :
    RefinesAct space (.unblock k) b := by
  have hmem := mem_of_getElem?_eq_some hk
  have ha : a.Good := hinv.ack a hmem
  have hround : b.bank.view.pending ≠ none := hinv.pending_of_ack hmem
  have hshape' := hshape
  generalize hbank : b.bank = bank at hshape' hround
  cases hshape' with
  | @write s sharers g acks hwrites =>
    by_cases hacks : acks = 1
    · subst hacks
      cases s with
      | SM => exact refines_ackAll false (c := {}) hshape hbank hk ha
      | SMA => exact refines_ackAll true (c := {}) hshape hbank hk ha
      | SDM => exact refines_ackAll_data false hshape hbank hk ha
      | SDMA => exact refines_ackAll_data true hshape hbank hk ha
      | IM | IDM | IMA => exact absurd rfl hround
      | NP | S | SS | S_D | SS_D | ISS | MI | II => exact absurd rfl hwrites
    · refine refines_ack hshape hbank hwrites ?_ hk ha hacks
      by_contra hs
      exact hround (if_neg hs)
  | evicted hs => exact refines_ack_evicted hshape hs hbank hk ha
  | NP => exact absurd rfl hround
  | idle => exact absurd rfl hround
  | ISS => exact absurd rfl hround

end Unblock

/-! ## Replacements -/

section Replace

theorem refines_replace {sharers : Finset ι} (hshape : Shape space b.bank)
    (hbank : b.bank = idleBank (some c) sharers) : RefinesAct space .replace b := by
  refine ⟨{ b with bank := idleBank none sharers }, ?_, .idle, ?_⟩
  · obtain ⟨dirty⟩ := c
    have hrow : L2.transitions (ι := ι) 0 (idleState (some { dirty := dirty }) sharers)
        (if dirty then .l2Replacement else .l2ReplacementClean) =
        some (.go (idleState none sharers) (if dirty then
          [L2.cExclusiveReplacement, L2.rlDeallocateL2CacheBlock] else
          [L2.rlDeallocateL2CacheBlock])) := by
      simp only [idleState]
      split <;> cases dirty <;> rfl
    have hgo := trigger_go hshape (getState_idle hbank) hrow
    simp only [hbank, L2.bank, L2.stepReplace, idleBank, Option.isSome_some, if_true, hgo]
    cases dirty <;>
      simp [hbank]
  · refine .quiet (.inl rfl) rfl ?_ ?_ ?_ ⟨?_, ?_⟩ <;>
      simp +contextual [hbank]

/-- **Replacements of data.** -/
theorem stepReplace_spec (hshape : Shape space b.bank) (hc : b.bank.entry.cache ≠ none) :
    L2.bank.step .replace b = some (.ok b) ∨ RefinesAct space .replace b := by
  -- a block in a transient state stays where it is
  have hstall : ∀ {c : CacheEntry}, b.bank.entry.cache = some c → b.bank.entry.dir.isSome →
      (∀ dirty, L2.transitions (ι := ι) 0 (L2.getState b)
        (if dirty = true then .l2Replacement else .l2ReplacementClean) = some .stall) →
      L2.bank.step .replace b = some (.ok b) := by
    intro c hc hdir hrow
    simp only [L2.bank, L2.stepReplace, hc, if_pos hdir, trigger_stall hshape rfl (hrow c.dirty)]
  have hshape' := hshape
  generalize hbank : b.bank = bank at hshape' hc
  cases hshape' with
  | NP => exact absurd rfl hc
  | evicted => exact absurd rfl hc
  | @idle data sharers =>
    cases data with
    | none => exact absurd rfl hc
    | some c => exact .inr (refines_replace hshape hbank)
  | ISS =>
    refine .inl (hstall (by rw [hbank]) (by simp [hbank]) fun dirty => ?_)
    cases dirty <;> simp [hbank] <;> rfl
  | @write s sharers g acks hs =>
    refine .inl (hstall (by rw [hbank]; rfl) (by simp [hbank]) fun dirty => ?_)
    simp only [L2.getState, hbank, writeBank]
    cases s <;> first | exact absurd rfl hs | cases dirty <;> rfl

/-- The event of a replacement in the directory. -/
def dirEvent : Option CacheEntry → L2Event
  | some c => if c.dirty then .dirReplacement else .dirReplacementClean
  | none => .dirReplacementNodata

theorem stepDirReplace_go {sharers : Finset ι} {next : L2State}
    (hshape : Shape space b.bank) (hbank : b.bank = idleBank data sharers)
    (hrow : L2.transitions 0 (idleState data sharers) (dirEvent data) = some (.go next actions)) :
    L2.bank.step .dirReplace b = some ((runActions actions b).map (L2.setState next)) := by
  have hgo := trigger_go hshape (getState_idle hbank) hrow
  cases data <;> simpa only [hbank, L2.bank, L2.stepDirReplace, idleBank, dirEvent] using congrArg some hgo

theorem refines_dirReplace_idle (hshape : Shape space b.bank)
    (hbank : b.bank = idleBank data ∅) : RefinesAct space .dirReplace b := by
  refine ⟨{ b with bank := { entry := {} } }, ?_, .NP, ?_⟩
  · rcases data with _ | ⟨_ | _⟩ <;> rw [stepDirReplace_go hshape hbank rfl] <;>
      simp [hbank]
  · refine .quiet (.inr rfl) rfl ?_ ?_ ?_ ⟨?_, ?_⟩ <;>
      simp [hbank]

theorem refines_dirReplace_shared {sharers : Finset ι}
    (hshape : Shape space b.bank) (hbank : b.bank = idleBank data sharers) (hne : sharers ≠ ∅) :
    RefinesAct space .dirReplace b := by
  have hnonempty : sharers.Nonempty := Finset.nonempty_iff_ne_empty.mpr hne
  have hpos : 0 < sharers.card := Finset.card_pos.mpr hnonempty
  let dirty : Bool := data.any CacheEntry.dirty
  have hs : (if dirty then L2State.MI else .II) = .MI ∨ (if dirty then L2State.MI else .II) = .II := by
    cases dirty <;> simp
  refine ⟨ViWt.L2.sendInv { type := .RECALL, destination := sharers } { b with
    bank :=
      { entry := {}
        tbe := some { tbeState := if dirty then .MI else .II, dirty := dirty
                      pendingAcks := sharers.card } } }, ?_, .evicted hs, ?_⟩
  · have hrow : L2.transitions (ι := ι) 0 (idleState data sharers) (dirEvent data) =
        some (.go (if dirty then .MI else .II) (match data with
          | some _ => L2.recallActions L2.irAllocateTBE ++
              [L2.rlDeallocateL2CacheBlock, L2.rrDeallocateDirectoryCacheBlock]
          | none => L2.recallActions L2.irlAllocateTBE ++ [L2.rrDeallocateDirectoryCacheBlock])) := by
      rcases data with _ | ⟨_ | _⟩ <;> simp only [idleState, hne, if_false] <;> rfl
    rw [stepDirReplace_go hshape hbank hrow]
    rcases data with _ | ⟨_ | _⟩ <;>
      simp [dirty, L2.recallActions, L2.irAllocateTBE, L2.irlAllocateTBE,
        L2.faSendRecallToAllSharers, hbank, hpos]
  · generalize dirty = d
    refine .evict (.inr rfl) rfl (.inr rfl) hnonempty ?_ ?_ ?_ ?_ ?_ ?_ <;> cases d <;>
      simp +contextual [hbank, L2State.awaitsAcks, L2State.writes]

/-- **Replacements in the directory.** -/
theorem stepDirReplace_spec (hshape : Shape space b.bank) (hdir : b.bank.entry.dir ≠ none) :
    L2.bank.step .dirReplace b = some (.ok b) ∨ RefinesAct space .dirReplace b := by
  -- a block in a transient state has data, and stays where it is
  have hstall : ∀ {e : Entry ι} {c : CacheEntry}, b.bank.entry.dir = some e →
      b.bank.entry.cache = some c →
      (∀ dirty, L2.transitions (ι := ι) 0 (L2.getState b)
        (if dirty = true then .dirReplacement else .dirReplacementClean) = some .stall) →
      L2.bank.step .dirReplace b = some (.ok b) := by
    intro e c hdir hc hrow
    simp only [L2.bank, L2.stepDirReplace, hdir, hc, trigger_stall hshape rfl (hrow c.dirty)]
  have hshape' := hshape
  generalize hbank : b.bank = bank at hshape' hdir
  cases hshape' with
  | NP => exact absurd rfl hdir
  | evicted => exact absurd rfl hdir
  | @idle data sharers =>
    by_cases hempty : sharers = ∅
    · subst hempty
      exact .inr (refines_dirReplace_idle hshape hbank)
    · exact .inr (refines_dirReplace_shared hshape hbank hempty)
  | ISS =>
    refine .inl (hstall (by rw [hbank]) (by rw [hbank]) fun dirty => ?_)
    cases dirty <;> simp [hbank] <;> rfl
  | @write s sharers g acks hs =>
    refine .inl (hstall (by rw [hbank]; rfl) (by rw [hbank]; rfl) fun dirty => ?_)
    simp only [L2.getState, hbank, writeBank]
    cases s <;> first | exact absurd rfl hs | cases dirty <;> rfl

end Replace

/-! ## Data from the DRAM -/

section Memory

variable {s next : L2State} {sharers : Finset ι} {acks : Int}

theorem stepMemory_go (hshape : Shape space b.bank) (hm : b.bank.memReads = 1) (hs : L2.getState b = s)
    (hrow : L2.transitions 0 s .memData = some (.go next actions)) :
    L2.bank.step .memory b = some ((runActions actions b).map (L2.setState next)) := by
  simp only [L2.bank, L2.stepMemory, hm, trigger_go hshape hs hrow]
  rfl

theorem refines_memory_ISS {ids : Finset ι} {mfset : List (ι × MemFetch ι)}
    {memfetch : Option (MemFetch ι)} (hshape : Shape space b.bank)
    (hbank : b.bank =
      { entry := { dir := some { cacheState := .ISS, sharers := sharers }
                   cache := some { dirty := dirty } }
        tbe := some { tbeState := .ISS, dirty := dirty, l1GetSIDs := ids, space := space
                      mfset := mfset, memfetch := memfetch, pendingAcks := acks }
        memReads := 1 })
    (hne : ids.Nonempty) (hsub : ids ⊆ sharers)
    (hids : ∀ i, i ∈ ids ↔ ∃ x ∈ mfset, x.2.sid = i) : RefinesAct space .memory b := by
  have hs : L2.getState b = .ISS := by simp [hbank]
  have hsharers : sharers ≠ ∅ := (hne.mono hsub).ne_empty
  refine ⟨ViWt.L2.send { type := .DATA, destination := ids, mfset := mfset } { b with
    bank := idleBank (some { dirty := false }) sharers }, ?_, .idle, ?_⟩
  · rw [stepMemory_go hshape (by rw [hbank]) hs rfl]
    simp [L2.eSendDataToGetSRequestors, hbank, hne, idleState, hsharers]
  · have hwaiting : (b.map L2Bank.view).bank.waiting = mfset.map fun x => (.read, x.2) := by
      simp [hbank, L2State.writes]
    refine .fillReads ?_ rfl rfl hwaiting.symm ?_ ?_ ?_ ?_ ?_ ?_ ?_
    case refine_2 =>
      intro i
      rw [hwaiting, hids]
      simp only [List.mem_map, exists_exists_and_eq_and]
    all_goals
      simp [hbank, TBE.keeps, L2State.awaitsAcks, hsub]

theorem refines_memory_acks (atomic : Bool) (hshape : Shape space b.bank)
    (hbank : b.bank = writeBank (invalidating atomic none) space sharers g acks) :
    RefinesAct space .memory b := by
  have hs : L2.getState b = invalidating atomic none := by simp [hbank]
  have hm : b.bank.memReads = 1 := by
    cases atomic <;> simp [hbank, invalidating, L2State.awaitsData]
  refine ⟨{ b with bank := writeBank (invalidating atomic (some {})) space sharers g acks }, ?_,
    .write (by cases atomic <;> decide)
      (by cases atomic <;> simp [invalidating, L2State.awaitsAcks]), ?_⟩
  · cases atomic <;> rw [stepMemory_go hshape hm hs rfl] <;>
      simp [hbank, invalidating, L2State.awaitsData]
  · have hkeep : (Block.map L2Bank.view b).bank.sharers =
        (writeBank (invalidating atomic (some {})) space sharers g acks).view.sharers := by
      cases atomic <;>
        simp [hbank, invalidating, TBE.keeps]
    refine .memory ?_ rfl ?_ ?_ ?_ ⟨fun i hi _ => hkeep ▸ hi, ?_⟩ <;> cases atomic <;>
      simp [hbank, invalidating, L2State.awaitsAcks, L2State.awaitsData, L2State.writes]

theorem refines_memory_answer (atomic : Bool) (hshape : Shape space b.bank)
    (hbank : b.bank = writeBank s space (settledSharers s g) g acks)
    (hwrites : s.writes = some atomic) (hd : s.awaitsData) (hs : s.awaitsAcks = false) :
    RefinesAct space .memory b := by
  have hstate : L2.getState b = s := by simp [hbank]
  have hm : b.bank.memReads = 1 := by simp [hbank, hd]
  refine ⟨ViWt.L2.send (writeResponse atomic g) { b with
    bank := idleBank (some { dirty := true }) (settledSharers s g) }, ?_, .idle, ?_⟩
  · cases s <;> first
      | cases hs; done
      | cases hd; done
      | obtain rfl := Option.some.inj hwrites
        rw [stepMemory_go hshape hm hstate rfl]
        simp [hbank, idleState, settledSharers, L2State.awaitsData]
  · have hview : b.bank.view.sharers = settledSharers s g := by
      cases s <;> first
        | cases hs; done
        | cases hd; done
        | simp [hbank, TBE.keeps]
    refine .fillWrite (x := (writeKind atomic, g)) ?_ rfl (writeResponse_type ..)
      (writeResponse_transactions ..) ?_ rfl ?_ ?_ ?_ ?_ ?_ ?_ ?_
    case refine_4 =>
      intro i hi
      have hi : i ∈ settledSharers s g := hview ▸ hi
      simp only [settledSharers] at hi
      split at hi
      · exact Finset.mem_singleton.mp hi
      · cases hi
    case refine_8 =>
      rw [show (Block.map L2Bank.view b).bank.sharers = settledSharers s g from hview]
      simp
    all_goals
      simp [hbank, hs, hd, hwrites]

/-- **Data from the DRAM.** -/
theorem stepMemory_spec (hshape : Shape space b.bank) (hm : b.bank.memReads ≠ 0) :
    RefinesAct space .memory b := by
  have hshape' := hshape
  generalize hbank : b.bank = bank at hshape' hm
  cases hshape' with
  | NP => exact absurd rfl hm
  | idle => exact absurd rfl hm
  | evicted => exact absurd rfl hm
  | ISS hne hsub hids => exact refines_memory_ISS hshape hbank hne hsub hids
  | @write s sharers g acks hwrites hsharers =>
    cases s with
    | IM => exact refines_memory_answer false hshape (hsharers rfl ▸ hbank) rfl rfl rfl
    | IDM => exact refines_memory_answer false hshape (hsharers rfl ▸ hbank) rfl rfl rfl
    | IMA => exact refines_memory_answer true hshape (hsharers rfl ▸ hbank) rfl rfl rfl
    | SDM => exact refines_memory_acks false hshape hbank
    | SDMA => exact refines_memory_acks true hshape hbank
    | SM | SMA => exact absurd rfl hm
    | NP | S | SS | S_D | SS_D | ISS | MI | II => exact absurd rfl hwrites

end Memory

/-! ## The bank is an abstract one -/

/-- **Every step of the bank** is a stall, or one of an abstract bank. -/
theorem bank_spec [Fintype ι] {act : BankAct} {r : Except Fault (Block ι (L2Bank ι))}
    (hshape : Shape space b.bank) (hinv : (b.map L2Bank.view).Inv .VI_wt_ni space)
    (hstep : L2.bank.step act b = some r) : r = .ok b ∨ RefinesAct space act b := by
  have hspec : L2.bank.step act b = some (.ok b) ∨ RefinesAct space act b := by
    cases act with
    | request =>
      cases hq : b.l1RequestToL2Cache with
      | nil => simp [L2.stepRequest, hq] at hstep
      | cons m rest => exact (stepRequest_spec hshape hinv hq).imp And.right id
    | unblock k =>
      cases hk : b.unblockToL2Cache[k]? with
      | none => simp [L2.stepUnblock, hk] at hstep
      | some a => exact .inr (stepUnblock_spec hshape hinv hk)
    | replace =>
      refine stepReplace_spec hshape fun hc => ?_
      simp [L2.stepReplace, hc] at hstep
    | dirReplace =>
      refine stepDirReplace_spec hshape fun hdir => ?_
      simp [L2.stepDirReplace, hdir] at hstep
    | memory =>
      refine .inr (stepMemory_spec hshape fun hm => ?_)
      simp [L2.stepMemory, hm] at hstep
  rcases hspec with hstall | hrefines
  · rw [hstall] at hstep
    exact .inl (Option.some.inj hstep).symm
  · exact .inr hrefines

/-- **VI_wt_ni**: the bank refines an abstract one. -/
def refinement [Fintype ι] (space : MemorySpaceType) :
    Refinement .VI_wt_ni (L2.bank (ι := ι)) space (fun _ _ => True) False where
  view := L2Bank.view
  Shape := Shape space
  shape_init := .NP
  waiting_init := rfl
  pending_init := rfl
  asked_init := rfl
  step := by
    intro b act r hshape hinv _ _ hstep
    rcases bank_spec hshape hinv hstep with rfl | ⟨b', hb', hshape', hview⟩
    · exact ⟨b, rfl, hshape, .inl rfl⟩
    · rw [hb'] at hstep
      exact ⟨b', (Option.some.inj hstep).symm, hshape', .inr hview⟩

end GpgpuSimRuby.Ruby.ViWt.NonInclusive
