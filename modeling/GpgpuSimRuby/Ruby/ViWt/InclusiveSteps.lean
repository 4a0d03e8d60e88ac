import GpgpuSimRuby.Ruby.ViWt.Inclusive
import GpgpuSimRuby.Ruby.ViWt.Progress

/-!
# VI_wt and VI_wt_ee: the bank is an abstract one

`Shape` lists the shapes a bank can be in, with the contents of its entry and TBE in each. From every
shape the controller takes a step of the abstract bank and does not fault (`refinement`); the lemmas
go through the shapes one by one.
-/

namespace GpgpuSimRuby.Ruby.ViWt.Inclusive

open Library

variable {ι : Type} [DecidableEq ι] {actions : List (L2Action ι)}

attribute [local simp] Block.map ViWt.L2.send runActions L2.setState Except.map
  ViWt.L2.jjPopL1RequestQueue ViWt.L2.sendInv writeMsg dataMsg L2.dMarkBlockDirty writeResponse
  L2.bank writeKind ViWt.L2.ouPopUnblockQueue ViWt.L2.sDeallocateTBE L2.requestEvent
  L2.iAllocateTBE L2.nnAddSharer L2.mrWriteDataToCacheFromRequest L2.llClearSharers
  L2.l1CacheRequestTypeToEvent L2.qqAllocateL2CacheBlock ViWt.L2.ssRecordGetSL1ID
  ViWt.L2.aIssueFetchToMemory ViWt.L2.xxRecordGetXL1ID ViWt.L2.deSendAckToRequestor
  ViWt.L2.dsSendAtomicDataToRequestor ViWt.L2.qUpdateAck ViWt.L2.eeSendAckToGetXRequestor
  ViWt.L2.eSendAtomicDataToGetXRequestor L2.mtWriteDataToCacheFromTBE L2.rrDeallocateL2CacheBlock
  L2.mWriteDataToCache ViWt.L2.oPopIncomingResponseQueue

/-! ## How to look at the bank -/

/-- The requests that wait in a TBE. -/
def TBE.waiting (t : L2TBE L2State ι) : List (Transaction ι) :=
  match t.tbeState with
  | .ISS => t.mfset.map fun x => (.read, x.2)
  | .IM | .SM => t.memfetch.toList.map fun g => (.write, g)
  | .IMA | .SMA => t.memfetch.toList.map fun g => (.atomic, g)
  | _ => []

/-- The acknowledgements a TBE waits for. -/
def TBE.pending (t : L2TBE L2State ι) : Option Int :=
  match t.tbeState with
  | .SM | .SMA | .MI | .II => some t.pendingAcks
  | _ => none

/-- Of the sharers on the list of a block in `SM`, only the writer is not being invalidated, and in
`SMA` the writer has no copy either. -/
def TBE.keeps (t : L2TBE L2State ι) (sharers : Finset ι) : Finset ι :=
  match t.tbeState with
  | .SM => sharers ∩ t.l1WBAckID.toFinset
  | .SMA => ∅
  | _ => sharers

def L2Bank.sharers (k : L2Bank ι) : Finset ι := (k.entry.map L2Entry.sharers).getD ∅

def L2Bank.view (k : L2Bank ι) : View ι where
  waiting := (k.tbe.map TBE.waiting).getD []
  pending := (k.tbe.map TBE.pending).getD none
  sharers := (k.tbe.map fun t => TBE.keeps t k.sharers).getD k.sharers
  memReads := k.memReads

/-! ## The shapes of the bank -/

/-- The state a write waits for the memory in, and the one it waits for acknowledgements in. -/
def fetching (atomic : Bool) : L2State := if atomic then .IMA else .IM

def invalidating (atomic : Bool) : L2State := if atomic then .SMA else .SM

/-- The bank during a round of invalidations for the write `g`. -/
def invalidatingBank (atomic : Bool) (space : MemorySpaceType) (sharers : Finset ι) (g : MemFetch ι)
    (acks : Int) : L2Bank ι where
  entry := some { cacheState := invalidating atomic, sharers := sharers, dirty := true }
  tbe := some { tbeState := invalidating atomic, dirty := true, l1WBAckID := some g.sid
                space := space, memfetch := some g, pendingAcks := acks }

/-- The shapes a bank can be in. -/
inductive Shape (space : MemorySpaceType) : L2Bank ι → Prop
  | NP : Shape space { entry := none }
  | S {dirty} : Shape space { entry := some { cacheState := .S, dirty := dirty } }
  | SS {sharers dirty} (hne : sharers.Nonempty) :
      Shape space { entry := some { cacheState := .SS, sharers := sharers, dirty := dirty } }
  /-- A fetch for the loads `mfset`. -/
  | ISS {sharers dirty ids mfset memfetch acks} (hne : ids.Nonempty) (hsub : ids ⊆ sharers)
      (hids : ∀ i, i ∈ ids ↔ ∃ x ∈ mfset, x.2.sid = i) :
      Shape space
        { entry := some { cacheState := .ISS, sharers := sharers, dirty := dirty }
          tbe := some { tbeState := .ISS, l1GetSIDs := ids, space := space, mfset := mfset
                        memfetch := memfetch, pendingAcks := acks }
          memReads := 1 }
  /-- A fetch for the write `g`. -/
  | fetch {g acks} (atomic : Bool) :
      Shape space
        { entry := some { cacheState := fetching atomic, dirty := true }
          tbe := some { tbeState := fetching atomic, dirty := true, l1WBAckID := some g.sid
                        space := space, memfetch := some g, pendingAcks := acks }
          memReads := 1 }
  /-- A round of invalidations for the write `g`. -/
  | invalidate {sharers g acks} (atomic : Bool) (hne : sharers.Nonempty) :
      Shape space (invalidatingBank atomic space sharers g acks)
  /-- A round of invalidations for an evicted block. -/
  | evicted {s dirty acks} (hs : s = .MI ∨ s = .II) :
      Shape space
        { entry := none, tbe := some { tbeState := s, dirty := dirty, pendingAcks := acks } }

/-- The bank has a request of `i`, or is about to take one. -/
def Serves (b : Block ι (L2Bank ι)) (i : ι) : Prop :=
  (∃ m rest, b.l1RequestToL2Cache = m :: rest ∧ m.requestor = i ∧ m.kind ≠ none) ∨
    ∃ x ∈ b.bank.view.waiting, x.2.sid = i

/-- Only an L1 the bank serves is put on the list of sharers. -/
def GrowsBy (b b' : Block ι (L2Bank ι)) : Prop :=
  ∀ i ∈ b'.bank.sharers, i ∈ b.bank.sharers ∨ Serves b i

theorem GrowsBy.keep {b b' : Block ι (L2Bank ι)} (h : b'.bank.sharers ⊆ b.bank.sharers) :
    GrowsBy b b' := fun _ hi => .inl (h hi)

theorem GrowsBy.requestor {b b' : Block ι (L2Bank ι)} {m : RequestMsg ι} {rest : List (RequestMsg ι)}
    (hq : b.l1RequestToL2Cache = m :: rest) (hk : m.kind ≠ none)
    (h : b'.bank.sharers ⊆ insert m.requestor b.bank.sharers) : GrowsBy b b' := by
  intro i hi
  rcases Finset.mem_insert.mp (h hi) with rfl | hi
  · exact .inr (.inl ⟨m, rest, hq, rfl, hk⟩)
  · exact .inl hi

/-- The protocol of the L1s. -/
def protocol (ee : Bool) : L1.Protocol := if ee then .VI_wt_ee else .VI_wt

attribute [local simp] L2Bank.sharers L2Bank.view L2.getState TBE.pending TBE.waiting invalidating
  fetching invalidatingBank

/-! ## Requests -/

section Request

variable {ee : Bool} {space : MemorySpaceType} {b : Block ι (L2Bank ι)} {m : RequestMsg ι}
  {rest : List (RequestMsg ι)} {g : MemFetch ι} {i : ι} {event : L2Event}

variable {s : L2State} {sharers : Finset ι} {dirty : Bool}

theorem controller_row {n : Nat}
    {t : Transition L2State (Block ι (L2Bank ι))} (ht : L2.transitions n s event = some t) :
    (L2.controller ee n).transitions s event = some t := by
  cases ee with
  | false => exact ht
  | true => cases s <;> cases event <;> first | exact ht | cases ht

theorem stepRequest_go {next : L2State} (hq : b.l1RequestToL2Cache = m :: rest)
    (hev : L2.requestEvent ee b m = .ok event) (hs : L2.getState b = s)
    (ht : L2.transitions 0 s event = some (.go next actions)) :
    L2.stepRequest ee b = some ((runActions actions b).map (L2.setState next)) := by
  simp only [L2.stepRequest, hq, hev]
  exact congrArg some (Controller.doTransition_go event hs (controller_row ht))

theorem stepRequest_stall (hq : b.l1RequestToL2Cache = m :: rest)
    (hev : L2.requestEvent ee b m = .ok event) (hs : L2.getState b = s)
    (ht : L2.transitions (ι := ι) 0 s event = some .stall) :
    L2.stepRequest ee b = some (.ok b) := by
  simp only [L2.stepRequest, hq, hev]
  exact congrArg some (Controller.doTransition_stall event hs (controller_row ht))

theorem requestEvent_gets : L2.requestEvent ee b (getsMsg space g) = .ok .l1GETS := by
  simp [getsMsg]

/-- The event of a write, which is private if its requestor is the only sharer. -/
def writeEvent (atomic priv : Bool) : L2Event :=
  match atomic, priv with
  | false, false => .wbData
  | false, true => .wbDataPriv
  | true, false => .l2Atomic
  | true, true => .l2AtomicPriv

theorem requestEvent_write (ee : Bool) (b : Block ι (L2Bank ι)) (space : MemorySpaceType)
    (g : MemFetch ι) (atomic : Bool) : L2.requestEvent ee b (writeMsg atomic space g) =
    .ok (writeEvent atomic (L2.isPrivate b g.sid)) := by
  cases atomic <;> cases h : L2.isPrivate b g.sid <;>
    simp [writeEvent, h]

theorem requestEvent_notice : L2.requestEvent true b (evicMsg i) =
    .ok (if L2.isLastSharer b i then .l1EvicInvAll else .l1EvicInv) := by
  cases h : L2.isLastSharer b i <;> simp [evicMsg, h]

/-- A step of the bank on a request, in terms of the abstract bank. -/
abbrev Refines (ee : Bool) (space : MemorySpaceType) (b : Block ι (L2Bank ι)) : Prop :=
  ∃ b', L2.stepRequest ee b = some (.ok b') ∧ Shape space b'.bank ∧ GrowsBy b b' ∧
    Block.BankStep False .request (b.map L2Bank.view) (b'.map L2Bank.view)

theorem refines_gets_NP (hbank : b.bank = { entry := none })
    (hq : b.l1RequestToL2Cache = getsMsg space g :: rest) : Refines ee space b := by
  have hs : L2.getState b = .NP := by simp [hbank]
  refine ⟨{ b with
    l1RequestToL2Cache := rest
    bank :=
      { entry := some { cacheState := .ISS, sharers := {g.sid} }
        tbe := some { tbeState := .ISS, l1GetSIDs := {g.sid}, space := space, mfset := [(g.sid, g)]
                      memfetch := some g }
        memReads := 1 } }, ?_, ?_,
    .requestor hq (by simp) (by simp [hbank, getsMsg]), ?_⟩
  · rw [stepRequest_go hq requestEvent_gets hs rfl]
    simp [getsMsg, hq, hbank]
  · exact .ISS (by simp) (by simp) (by simp [eq_comm])
  · refine .take 1 hq rfl (by simp) rfl ?_ ?_ ?_ ⟨?_, ?_⟩ <;>
      simp [hbank]

theorem refines_write_NP (atomic : Bool) (hbank : b.bank = { entry := none })
    (hq : b.l1RequestToL2Cache = writeMsg atomic space g :: rest) : Refines ee space b := by
  have hs : L2.getState b = .NP := by simp [hbank]
  have hev : L2.requestEvent ee b (writeMsg atomic space g) = .ok (writeEvent atomic false) := by
    rw [requestEvent_write]
    simp [L2.isPrivate, hbank]
  refine ⟨{ b with
    l1RequestToL2Cache := rest
    bank :=
      { entry := some { cacheState := fetching atomic, dirty := true }
        tbe := some { tbeState := fetching atomic, dirty := true, l1WBAckID := some g.sid
                      space := space, memfetch := some g }
        memReads := 1 } }, ?_, .fetch atomic,
    .keep (by simp [hbank]), ?_⟩
  · have hrow : L2.transitions (ι := ι) 0 .NP (writeEvent atomic false) =
        some (.go (fetching atomic) L2.fetchForStoreActions) := by cases atomic <;> rfl
    rw [stepRequest_go hq hev hs hrow]
    cases atomic <;>
    simp [L2.fetchForStoreActions, ViWt.L2.aIssueFetchToMemoryForStore, hq, hbank]
  · refine .take 1 hq (writeMsg_transaction ..) (by simp) rfl ?_ ?_ ?_ ⟨?_, ?_⟩ <;>
      cases atomic <;>
      simp [hbank]

theorem refines_gets {s : L2State} (hs : s = .S ∨ s = .SS)
    (hbank : b.bank = { entry := some { cacheState := s, sharers := sharers, dirty := dirty } })
    (hq : b.l1RequestToL2Cache = getsMsg space g :: rest) : Refines ee space b := by
  have hstate : L2.getState b = s := by simp [hbank]
  refine ⟨ViWt.L2.send { type := .DATA, destination := {g.sid}, mfset := [(g.sid, g)] } { b with
    l1RequestToL2Cache := rest
    bank := { entry := some { cacheState := .SS, sharers := insert g.sid sharers, dirty := dirty } } },
    ?_, .SS (by simp),
    .requestor hq (by simp) (by simp [hbank, getsMsg]), ?_⟩
  · rw [stepRequest_go hq requestEvent_gets hstate (by rcases hs with rfl | rfl <;> rfl)]
    simp [L2.dsSendDataToRequestor, getsMsg, hq, hbank]
  · refine .answerRead (r := { type := .DATA, destination := {g.sid}, mfset := [(g.sid, g)] }) hq rfl
      rfl rfl rfl rfl ?_ ?_ ?_ ?_ ?_ ⟨?_, ?_⟩ <;>
      simp +contextual [hbank]

theorem refines_write_S (atomic : Bool)
    (hbank : b.bank = { entry := some { cacheState := .S, dirty := dirty } })
    (hq : b.l1RequestToL2Cache = writeMsg atomic space g :: rest) : Refines ee space b := by
  have hs : L2.getState b = .S := by simp [hbank]
  have hev : L2.requestEvent ee b (writeMsg atomic space g) = .ok (writeEvent atomic false) := by
    rw [requestEvent_write]
    simp [L2.isPrivate, hbank]
  refine ⟨ViWt.L2.send (writeResponse atomic g) { b with
    l1RequestToL2Cache := rest
    bank := { entry := some { cacheState := .S, dirty := true } } }, ?_, .S,
    .keep (by simp), ?_⟩
  · cases atomic <;> rw [stepRequest_go hq hev hs rfl] <;>
      simp [hq, hbank]
  · refine .answerWrite hq (writeMsg_transaction ..) rfl (writeResponse_type ..)
      (writeResponse_transactions ..) rfl ?_ ?_ ?_ ?_ ?_ ?_ ⟨?_, ?_⟩ <;>
      simp [hbank]

theorem isPrivate_eq
    {k : Option (L2TBE L2State ι)} {n : Nat}
    (hbank : b.bank = { entry := some { cacheState := s, sharers := sharers, dirty := dirty }
                        tbe := k, memReads := n }) :
    L2.isPrivate b i = decide (sharers = {i}) := by
  simp only [L2.isPrivate, hbank, decide_eq_decide]
  rw [Finset.card_eq_one]
  constructor
  · rintro ⟨hi, j, rfl⟩
    rw [Finset.mem_singleton.mp hi]
  · rintro rfl
    exact ⟨Finset.mem_singleton_self i, i, rfl⟩

theorem refines_write_private (atomic : Bool)
    (hbank : b.bank = { entry := some { cacheState := .SS, sharers := {g.sid}, dirty := dirty } })
    (hq : b.l1RequestToL2Cache = writeMsg atomic space g :: rest)
    (hatomic : atomic = true → ¬ b.Holder g.sid) : Refines ee space b := by
  have hs : L2.getState b = .SS := by simp [hbank]
  have hev : L2.requestEvent ee b (writeMsg atomic space g) = .ok (writeEvent atomic true) := by
    rw [requestEvent_write, isPrivate_eq hbank]
    simp
  cases atomic with
  | false =>
    refine ⟨ViWt.L2.send (writeResponse false g) { b with
      l1RequestToL2Cache := rest
      bank := { entry := some { cacheState := .SS, sharers := {g.sid}, dirty := true } } },
      ?_, .SS (by simp), .keep (by simp [hbank]), ?_⟩
    · rw [stepRequest_go hq hev hs rfl]
      simp [hq, hbank]
    · refine .answerWrite hq (writeMsg_transaction ..) rfl (writeResponse_type ..)
        (writeResponse_transactions ..) rfl ?_ ?_ ?_ ?_ ?_ ?_ ⟨?_, ?_⟩ <;>
        simp [hbank]
  | true =>
    refine ⟨ViWt.L2.send (writeResponse true g) { b with
      l1RequestToL2Cache := rest
      bank := { entry := some { cacheState := .S, dirty := true } } }, ?_, .S,
      .keep (by simp), ?_⟩
    · rw [stepRequest_go hq hev hs rfl]
      simp [hq, hbank]
    · refine .answerWrite hq (writeMsg_transaction ..) rfl (writeResponse_type ..)
        (writeResponse_transactions ..) rfl ?_ ?_ ?_ ?_ ?_ ?_ ⟨?_, ?_⟩ <;>
        simp [hbank]
      exact hatomic rfl

theorem refines_write_shared (atomic : Bool)
    (hbank : b.bank = { entry := some { cacheState := .SS, sharers := sharers, dirty := dirty } })
    (hne : sharers.Nonempty) (hpriv : sharers ≠ {g.sid})
    (hq : b.l1RequestToL2Cache = writeMsg atomic space g :: rest)
    (hatomic : atomic = true → ¬ b.Holder g.sid) : Refines ee space b := by
  have hs : L2.getState b = .SS := by simp [hbank]
  have hev : L2.requestEvent ee b (writeMsg atomic space g) = .ok (writeEvent atomic false) := by
    rw [requestEvent_write, isPrivate_eq hbank]
    simp [hpriv]
  have hrow : L2.transitions (ι := ι) 0 .SS (writeEvent atomic false) =
      some (.go (invalidating atomic) L2.invalidateActions) := by cases atomic <;> rfl
  have hothers : (sharers.erase g.sid).Nonempty := by
    rw [Finset.nonempty_iff_ne_empty]
    intro hempty
    rw [Finset.erase_eq_empty_iff] at hempty
    exact hempty.elim hne.ne_empty hpriv
  have hcard : (if g.sid ∈ sharers then (sharers.card : Int) - 1 else sharers.card) =
      (sharers.erase g.sid).card := by
    split
    · next h =>
      rw [Finset.card_erase_of_mem h, Nat.cast_sub hne.card_pos]
      rfl
    · next h => rw [Finset.erase_eq_of_notMem h]
  refine ⟨ViWt.L2.sendInv { type := .INV, destination := sharers.erase g.sid } { b with
    l1RequestToL2Cache := rest
    bank := invalidatingBank atomic space sharers g (sharers.erase g.sid).card },
    ?_, .invalidate atomic hne, .keep (by simp [hbank]), ?_⟩
  · rw [stepRequest_go hq hev hs hrow, ← hcard]
    cases atomic <;>
      simp [L2.invalidateActions, L2.fSendInvToSharersMinusRequestor, hq, hbank, hne]
  · refine .takeInv 0 hq (writeMsg_transaction ..) (by simp) rfl (.inl rfl) hothers ?_ ?_ ?_ ?_ ?_ ?_
    · simp [hbank]
    · cases atomic <;> simp [hbank]
    · cases atomic <;> simp
    · simp [hbank]
    · intro i hi hold
      have hi : i ∈ sharers := by simpa [hbank] using hi
      by_cases hig : i = g.sid
      · subst hig
        cases atomic with
        | false => exact .inr (by
            simp [TBE.keeps, hi])
        | true => exact absurd hold (hatomic rfl)
      · exact .inl (Finset.mem_erase.mpr ⟨hig, hi⟩)
    · simp

theorem refines_gets_ISS {ids : Finset ι} {mfset : List (ι × MemFetch ι)}
    {memfetch : Option (MemFetch ι)} {acks : Int}
    (hbank : b.bank =
      { entry := some { cacheState := .ISS, sharers := sharers, dirty := dirty }
        tbe := some { tbeState := .ISS, l1GetSIDs := ids, space := space, mfset := mfset
                      memfetch := memfetch, pendingAcks := acks }
        memReads := 1 })
    (hsub : ids ⊆ sharers) (hids : ∀ i, i ∈ ids ↔ ∃ x ∈ mfset, x.2.sid = i)
    (hq : b.l1RequestToL2Cache = getsMsg space g :: rest) : Refines ee space b := by
  have hs : L2.getState b = .ISS := by simp [hbank]
  refine ⟨{ b with
    l1RequestToL2Cache := rest
    bank :=
      { entry := some { cacheState := .ISS, sharers := insert g.sid sharers, dirty := dirty }
        tbe := some { tbeState := .ISS, l1GetSIDs := insert g.sid ids, space := space
                      mfset := mfset ++ [(g.sid, g)], memfetch := memfetch, pendingAcks := acks }
        memReads := 1 } }, ?_, ?_,
    .requestor hq (by simp) (by simp [hbank, getsMsg]), ?_⟩
  · rw [stepRequest_go hq requestEvent_gets hs rfl]
    simp [getsMsg, hq, hbank]
  · refine .ISS (Finset.insert_nonempty ..) (Finset.insert_subset_insert _ hsub) ?_
    exact mem_insert_sid hids g
  · refine .take 0 hq rfl (by simp) rfl ?_ ?_ ?_ ⟨?_, ?_⟩ <;>
      simp +contextual [hbank, TBE.keeps]

theorem stepRequest_notice (hshape : Shape space b.bank) (hss : L2.getState b ≠ .SS)
    (hq : b.l1RequestToL2Cache = evicMsg i :: rest) :
    L2.stepRequest true b = some (.ok { b with l1RequestToL2Cache := rest }) := by
  have hrow : ∀ {s : L2State}, s ≠ .SS → L2.getState b = s →
      L2.stepRequest true b = some ((runActions [ViWt.L2.jjPopL1RequestQueue] b).map (L2.setState s)) := by
    intro s hne hs
    have hev := requestEvent_notice (b := b) (i := i)
    simp only [L2.stepRequest, hq, hev]
    refine congrArg some (Controller.doTransition_go _ hs ?_)
    split <;> cases s <;> first | rfl | exact absurd rfl hne
  have hkeep : L2.setState (L2.getState b) { b with l1RequestToL2Cache := rest } =
      { b with l1RequestToL2Cache := rest } := by
    generalize hk : b.bank = k at hshape
    cases hshape <;> simp [hk]
  rw [hrow hss rfl]
  simp [-L2.setState, -L2.getState, hq, evicMsg, hkeep]

theorem refines_notice (hshape : Shape space b.bank) (hss : L2.getState b ≠ .SS)
    (hq : b.l1RequestToL2Cache = evicMsg i :: rest) : Refines true space b :=
  ⟨{ b with l1RequestToL2Cache := rest }, stepRequest_notice hshape hss hq, hshape,
    .keep (Finset.Subset.refl b.bank.sharers),
    .notice hq rfl rfl rfl rfl rfl ⟨fun _ h _ => h, Finset.Subset.rfl⟩⟩

theorem stepRequest_notice_SS
    (hbank : b.bank = { entry := some { cacheState := .SS, sharers := sharers, dirty := dirty } })
    (hq : b.l1RequestToL2Cache = evicMsg i :: rest) :
    L2.stepRequest true b = some (.ok { b with
      l1RequestToL2Cache := rest
      bank :=
        { entry := some { cacheState := if sharers = {i} then .S else .SS
                          sharers := sharers.erase i, dirty := dirty } } }) := by
  have hs : L2.getState b = .SS := by simp [hbank]
  have hlast : L2.isLastSharer b i = decide (sharers = {i}) := by
    rw [← isPrivate_eq hbank]
    simp [L2.isLastSharer, L2.isPrivate, hbank, and_comm]
  have hev := requestEvent_notice (b := b) (i := i)
  rw [hlast] at hev
  have hrow : (L2.controller (ι := ι) true 0).transitions .SS
      (if decide (sharers = {i}) then .l1EvicInvAll else .l1EvicInv) =
      some (.go (if sharers = {i} then .S else .SS) [L2.nrRemoveSharer, ViWt.L2.jjPopL1RequestQueue]) := by
    by_cases hall : sharers = {i} <;> simp only [hall, decide_true, decide_false, if_true, if_false] <;> rfl
  simp only [L2.stepRequest, hq, hev]
  rw [Controller.doTransition_go _ hs hrow]
  simp [L2.nrRemoveSharer, L2.controller, hq, hbank, evicMsg]

theorem refines_notice_SS
    (hbank : b.bank = { entry := some { cacheState := .SS, sharers := sharers, dirty := dirty } })
    (hne : sharers.Nonempty) (hold : ¬ b.Holder i)
    (hq : b.l1RequestToL2Cache = evicMsg i :: rest) : Refines true space b := by
  refine ⟨_, stepRequest_notice_SS hbank hq, ?_,
    .keep (by simp [hbank, Finset.erase_subset]), ?_⟩
  · by_cases hall : sharers = {i}
    · simp only [hall, if_true, Finset.erase_singleton]
      exact .S
    · simp only [hall, if_false]
      refine .SS ?_
      rw [Finset.nonempty_iff_ne_empty]
      intro hempty
      rw [Finset.erase_eq_empty_iff] at hempty
      exact hempty.elim hne.ne_empty hall
  · refine .notice hq rfl rfl ?_ ?_ ?_ ⟨?_, ?_⟩
    · simp [hbank]
    · simp [hbank]
    · simp [hbank]
    · intro j hj hjold
      have hj : j ∈ sharers := by simpa [hbank] using hj
      have hji : j ≠ i := by
        rintro rfl
        exact hold hjold
      simpa using ⟨hji, hj⟩
    · simp

/-- **Requests.** -/
theorem stepRequest_spec [Fintype ι] (hshape : Shape space b.bank)
    (hinv : (b.map L2Bank.view).Inv (protocol ee) space) (hnot : (b.map L2Bank.view).Notices)
    (hq : b.l1RequestToL2Cache = m :: rest) :
    b.bank.tbe ≠ none ∧ L2.stepRequest ee b = some (.ok b) ∨ Refines ee space b := by
  -- the requestor of an atomic at the head of the queue has given its copy up
  have hatomic : ∀ {atomic : Bool} {g : MemFetch ι}, m = writeMsg atomic space g → atomic = true →
      ¬ b.Holder g.sid := by
    rintro atomic g rfl rfl
    exact hinv.not_holder_of_atomic hq
  have hsent : m.Sent (protocol ee) space := hinv.queue m (by simp [hq])
  generalize hk : b.bank = k at hshape
  cases hsent with
  | gets g =>
    cases hshape with
    | NP => exact .inr (refines_gets_NP hk hq)
    | S => exact .inr (refines_gets (.inl rfl) hk hq)
    | SS hne => exact .inr (refines_gets (.inr rfl) hk hq)
    | ISS hne hsub hids => exact .inr (refines_gets_ISS hk hsub hids hq)
    | fetch atomic =>
      refine .inl ⟨by simp, stepRequest_stall hq requestEvent_gets rfl ?_⟩
      cases atomic <;> simp [hk] <;> rfl
    | invalidate atomic hne =>
      refine .inl ⟨by simp, stepRequest_stall hq requestEvent_gets rfl ?_⟩
      cases atomic <;> simp [hk] <;> rfl
    | evicted hs =>
      refine .inl ⟨by simp, stepRequest_stall hq requestEvent_gets rfl ?_⟩
      rcases hs with rfl | rfl <;> simp [hk] <;> rfl
  | write atomic g =>
    have hev := requestEvent_write ee b space g atomic
    cases hshape with
    | NP => exact .inr (refines_write_NP atomic hk hq)
    | S => exact .inr (refines_write_S atomic hk hq)
    | @SS sharers dirty hne =>
      by_cases hpriv : sharers = {g.sid}
      · subst hpriv
        exact .inr (refines_write_private atomic hk hq (hatomic rfl))
      · exact .inr (refines_write_shared atomic hk hne hpriv hq (hatomic rfl))
    | ISS hne hsub hids =>
      refine .inl ⟨by simp, stepRequest_stall hq hev rfl ?_⟩
      cases atomic <;> cases L2.isPrivate b g.sid <;> simp [hk] <;> rfl
    | fetch atomic' =>
      rw [isPrivate_eq hk] at hev
      refine .inl ⟨by simp, stepRequest_stall hq hev rfl ?_⟩
      cases atomic' <;> cases atomic <;> simp [hk] <;> rfl
    | invalidate atomic' hne =>
      refine .inl ⟨by simp, stepRequest_stall hq hev rfl ?_⟩
      cases atomic' <;> cases atomic <;> cases L2.isPrivate b g.sid <;>
        simp [hk] <;> rfl
    | evicted hs =>
      rw [show L2.isPrivate b g.sid = false by simp [L2.isPrivate, hk]] at hev
      refine .inl ⟨by simp, stepRequest_stall hq hev rfl ?_⟩
      rcases hs with rfl | rfl <;> cases atomic <;> simp [hk] <;> rfl
  | notice i hp =>
    cases ee with
    | false => cases hp
    | true =>
      have hold : ¬ b.Holder i := hnot.not_holder hq rfl
      cases hshape with
      | SS hne => exact .inr (refines_notice_SS hk hne hold hq)
      | NP => exact .inr (refines_notice (hk ▸ .NP) (by simp [hk]) hq)
      | S => exact .inr (refines_notice (hk ▸ .S) (by simp [hk]) hq)
      | ISS hne hsub hids =>
        exact .inr (refines_notice (hk ▸ .ISS hne hsub hids) (by simp [hk]) hq)
      | fetch atomic =>
        refine .inr (refines_notice (hk ▸ .fetch atomic) ?_ hq)
        cases atomic <;> simp [hk]
      | invalidate atomic hne =>
        refine .inr (refines_notice (hk ▸ .invalidate atomic hne) ?_ hq)
        cases atomic <;> simp [hk]
      | evicted hs =>
        refine .inr (refines_notice (hk ▸ .evicted hs) ?_ hq)
        rcases hs with rfl | rfl <;> simp [hk]

end Request

/-! ## Acknowledgements -/

section Unblock

variable {ee : Bool} {space : MemorySpaceType} {b : Block ι (L2Bank ι)} {k : Nat} {a : AckMsg ι}
  {g : MemFetch ι}

/-- A step of the bank on another trigger than a request. -/
abbrev RefinesAct (ee : Bool) (space : MemorySpaceType) (act : BankAct) (b : Block ι (L2Bank ι)) :
    Prop :=
  ∃ b', (L2.bank ee).step act b = some (.ok b') ∧ Shape space b'.bank ∧ GrowsBy b b' ∧
    Block.BankStep False act (b.map L2Bank.view) (b'.map L2Bank.view)

/-- The event of an acknowledgement. -/
def ackEvent (n : Int) : L2Event := if n = 1 then .invAckAll else .invAck

omit [DecidableEq ι] in
theorem unblockEvent_eq {t : L2TBE L2State ι} (ha : a.Good) (ht : b.bank.tbe = some t) :
    L2.unblockEvent b a = .ok (ackEvent t.pendingAcks) := by
  simp only [L2.unblockEvent, ha.type, ht, ha.ackCount, ackEvent, sub_eq_zero, if_true]
  split <;> rfl

theorem stepUnblock_go {t : L2TBE L2State ι} {s next : L2State}
    (hk : b.unblockToL2Cache[k]? = some a) (ha : a.Good) (ht : b.bank.tbe = some t) (hs : t.tbeState = s)
    (hrow : L2.transitions k s (ackEvent t.pendingAcks) = some (.go next actions)) :
    (L2.bank ee).step (.unblock k) b = some ((runActions actions b).map (L2.setState next)) := by
  have hstate : L2.getState b = s := by simp [ht, hs]
  simp only [L2.bank, L2.stepUnblock, hk, unblockEvent_eq ha ht]
  exact congrArg some (Controller.doTransition_go _ hstate (controller_row hrow))

theorem refines_ack {sharers : Finset ι} {acks : Int} (atomic : Bool) (hne : sharers.Nonempty)
    (hbank : b.bank = invalidatingBank atomic space sharers g acks)
    (hk : b.unblockToL2Cache[k]? = some a) (ha : a.Good) (hacks : acks ≠ 1) :
    RefinesAct ee space (.unblock k) b := by
  have hrow : L2.transitions (ι := ι) k (invalidating atomic) (ackEvent acks) =
      some (.go (invalidating atomic) [ViWt.L2.qUpdateAck k, ViWt.L2.ouPopUnblockQueue k]) := by
    rw [ackEvent, if_neg hacks]
    cases atomic <;> rfl
  refine ⟨b.acked k a (invalidatingBank atomic space sharers g (acks - 1)),
    ?_, .invalidate atomic hne, .keep (by simp [hbank]), ?_⟩
  · rw [stepUnblock_go hk ha (by rw [hbank]; rfl) rfl hrow]
    rcases ha.type with h | h <;>
      simp [hk, hbank, ha.ackCount, h]
  · have hkeep : ∀ i ∈ (b.map L2Bank.view).bank.sharers, (b.map L2Bank.view).Holder i →
        i ∈ TBE.keeps (ι := ι) { tbeState := invalidating atomic, l1WBAckID := some g.sid } sharers := by
      intro i hi _
      simpa [hbank, TBE.keeps] using hi
    refine .ack (n := acks) hk ?_ rfl ?_ ?_ ?_ ⟨hkeep, ?_⟩ <;> cases atomic <;>
      simp [hbank, hacks]

theorem refines_ackAll {sharers : Finset ι} (atomic : Bool)
    (hbank : b.bank = invalidatingBank atomic space sharers g 1)
    (hk : b.unblockToL2Cache[k]? = some a) (ha : a.Good) : RefinesAct ee space (.unblock k) b := by
  refine ⟨ViWt.L2.send (writeResponse atomic g) (b.acked k a
      { entry := some (if atomic then { cacheState := .S, dirty := true }
          else { cacheState := .SS, sharers := {g.sid}, dirty := true }) }), ?_, ?_, ?_, ?_⟩
  · cases atomic <;> rw [stepUnblock_go hk ha (by rw [hbank]; rfl) rfl rfl] <;>
      rcases ha.type with h | h <;>
      simp [L2.nxAddGetXSharer, hk, hbank, h]
  · cases atomic
    · exact .SS (by simp)
    · exact .S
  · intro i hi
    cases atomic with
    | false =>
      obtain rfl : i = g.sid := by simpa using hi
      exact .inr (.inr ⟨(.write, g), by simp [hbank], rfl⟩)
    | true => simp at hi
  · refine .ackAnswer hk ?_ rfl (writeResponse_type ..) (writeResponse_transactions ..) ?_ rfl ?_ ?_
      ?_ ?_ ⟨fun i hi _ => ?_, ?_⟩ <;> cases atomic <;>
      simp_all [TBE.keeps]

theorem refines_ack_evicted {s : L2State} {dirty : Bool} {acks : Int} (hs : s = .MI ∨ s = .II)
    (hbank : b.bank =
      { entry := none, tbe := some { tbeState := s, dirty := dirty, pendingAcks := acks } })
    (hk : b.unblockToL2Cache[k]? = some a) (ha : a.Good) : RefinesAct ee space (.unblock k) b := by
  by_cases hacks : acks = 1
  · subst hacks
    refine ⟨b.acked k a { entry := none }, ?_, .NP, .keep (by simp), ?_⟩
    · rcases hs with rfl | rfl <;> rw [stepUnblock_go hk ha (by rw [hbank]) rfl rfl] <;>
        rcases ha.type with h | h <;>
        simp [L2.cExclusiveReplacementTBE, hk, hbank, h]
    · refine .ack (n := 1) hk ?_ rfl ?_ ?_ ?_ ⟨?_, ?_⟩ <;> rcases hs with rfl | rfl <;>
        simp [hbank, TBE.keeps]
  · have hrow : L2.transitions (ι := ι) k s (ackEvent acks) =
        some (.go s [ViWt.L2.qUpdateAck k, ViWt.L2.ouPopUnblockQueue k]) := by
      rw [ackEvent, if_neg hacks]
      rcases hs with rfl | rfl <;> rfl
    refine ⟨b.acked k a
        { entry := none, tbe := some { tbeState := s, dirty := dirty, pendingAcks := acks - 1 } },
      ?_, .evicted hs, .keep (by simp), ?_⟩
    · rw [stepUnblock_go hk ha (by rw [hbank]) rfl hrow]
      rcases ha.type with h | h <;>
        simp [hk, hbank, ha.ackCount, h]
    · refine .ack (n := acks) hk ?_ rfl ?_ ?_ ?_ ⟨?_, ?_⟩ <;> rcases hs with rfl | rfl <;>
        simp [hbank, TBE.keeps, hacks]

/-- **Acknowledgements.** -/
theorem stepUnblock_spec [Fintype ι] (hshape : Shape space b.bank)
    (hinv : (b.map L2Bank.view).Inv (protocol ee) space) (hk : b.unblockToL2Cache[k]? = some a) :
    RefinesAct ee space (.unblock k) b := by
  have hmem := mem_of_getElem?_eq_some hk
  have ha : a.Good := hinv.ack a hmem
  have hround : (b.map L2Bank.view).bank.pending ≠ none := hinv.pending_of_ack hmem
  generalize hbank : b.bank = bank at hshape
  cases hshape with
  | @invalidate sharers g acks atomic hne =>
    by_cases hacks : acks = 1
    · subst hacks
      exact refines_ackAll atomic hbank hk ha
    · exact refines_ack atomic hne hbank hk ha hacks
  | evicted hs => exact refines_ack_evicted hs hbank hk ha
  | fetch atomic =>
    cases atomic <;> simp [hbank] at hround
  | NP | S | SS | ISS => simp [hbank] at hround

end Unblock

/-! ## Replacements and data from the DRAM -/

section Other

variable {ee : Bool} {space : MemorySpaceType} {b : Block ι (L2Bank ι)}

theorem stepReplace_go {e : L2Entry ι} {s next : L2State}
    (he : b.bank.entry = some e) (hs : L2.getState b = s)
    (hrow : L2.transitions 0 s (if e.dirty then .l2Replacement else .l2ReplacementClean) =
      some (.go next actions)) :
    (L2.bank ee).step .replace b = some ((runActions actions b).map (L2.setState next)) := by
  simp only [L2.bank, L2.stepReplace, he]
  exact congrArg some (Controller.doTransition_go _ hs (controller_row hrow))

theorem refines_replace_S {dirty : Bool}
    (hbank : b.bank = { entry := some { cacheState := .S, dirty := dirty } }) :
    RefinesAct ee space .replace b := by
  have hs : L2.getState b = .S := by simp [hbank]
  refine ⟨{ b with bank := { entry := none } }, ?_, .NP,
    .keep (by simp), ?_⟩
  · cases dirty <;> rw [stepReplace_go (by rw [hbank]) hs rfl] <;>
      simp [L2.cExclusiveReplacement, hbank]
  · refine .quiet (.inl rfl) rfl ?_ ?_ ?_ ⟨?_, ?_⟩ <;>
      simp [hbank]

theorem refines_replace_SS {sharers : Finset ι} {dirty : Bool} (hne : sharers.Nonempty)
    (hbank : b.bank = { entry := some { cacheState := .SS, sharers := sharers, dirty := dirty } }) :
    RefinesAct ee space .replace b := by
  have hs : L2.getState b = .SS := by simp [hbank]
  refine ⟨ViWt.L2.sendInv { type := .RECALL, destination := sharers } { b with
    bank :=
      { entry := none
        tbe := some { tbeState := if dirty then .MI else .II, dirty := dirty
                      pendingAcks := sharers.card } } }, ?_, .evicted ?_,
    .keep (by simp), ?_⟩
  · cases dirty <;> rw [stepReplace_go (by rw [hbank]) hs rfl] <;>
      simp [L2.irAllocateTBE, L2.faSendRecallToAllSharers, hbank, hne]
  · cases dirty <;> simp
  · refine .evict (.inl rfl) rfl (.inr rfl) hne ?_ ?_ ?_ ?_ ?_ ?_ <;> cases dirty <;>
      simp +contextual [hbank]

/-- **Replacements.** -/
theorem stepReplace_spec (hshape : Shape space b.bank) (he : b.bank.entry ≠ none) :
    (L2.bank ee).step .replace b = some (.ok b) ∨ RefinesAct ee space .replace b := by
  -- a block in a transient state stays where it is
  have hstall : ∀ {e : L2Entry ι}, b.bank.entry = some e →
      (∀ dirty, L2.transitions (ι := ι) 0 (L2.getState b)
        (if dirty = true then .l2Replacement else .l2ReplacementClean) = some .stall) →
      (L2.bank ee).step .replace b = some (.ok b) := by
    intro e he hrow
    simp only [L2.bank, L2.stepReplace, he]
    exact congrArg some (Controller.doTransition_stall _ rfl (controller_row (hrow e.dirty)))
  generalize hbank : b.bank = bank at hshape he
  cases hshape with
  | NP => exact absurd rfl he
  | evicted => exact absurd rfl he
  | S => exact .inr (refines_replace_S hbank)
  | SS hne => exact .inr (refines_replace_SS hne hbank)
  | ISS =>
    refine .inl (hstall (by rw [hbank]) fun dirty => ?_)
    cases dirty <;> simp [hbank] <;> rfl
  | fetch atomic =>
    refine .inl (hstall (by rw [hbank]) fun dirty => ?_)
    cases dirty <;> cases atomic <;> simp [hbank] <;> rfl
  | invalidate atomic =>
    refine .inl (hstall (by rw [hbank]; rfl) fun dirty => ?_)
    cases dirty <;> cases atomic <;> simp [hbank] <;> rfl

theorem stepMemory_go {s next : L2State} (hm : b.bank.memReads = 1) (hs : L2.getState b = s)
    (hrow : L2.transitions 0 s .memData = some (.go next actions)) :
    (L2.bank ee).step .memory b = some ((runActions actions b).map (L2.setState next)) := by
  simp only [L2.bank, L2.stepMemory, hm]
  exact congrArg some (Controller.doTransition_go _ hs (controller_row hrow))

/-- **Data from the DRAM** is for the loads or the write that wait for it. -/
theorem stepMemory_spec (hshape : Shape space b.bank) (hm : b.bank.memReads ≠ 0) :
    RefinesAct ee space .memory b := by
  generalize hbank : b.bank = bank at hshape hm
  cases hshape with
  | @ISS sharers dirty ids mfset memfetch acks hne hsub hids =>
    have hs : L2.getState b = .ISS := by simp [hbank]
    refine ⟨ViWt.L2.send { type := .DATA, destination := ids, mfset := mfset } { b with
      bank := { entry := some { cacheState := .SS, sharers := sharers } } }, ?_,
      .SS (hne.mono hsub), .keep (by simp [hbank]), ?_⟩
    · rw [stepMemory_go (by rw [hbank]) hs rfl]
      simp [L2.eSendDataToGetSRequestors, hbank, hne]
    · have hwaiting : (b.map L2Bank.view).bank.waiting = mfset.map fun x => (.read, x.2) := by
        simp [hbank]
      refine .fillReads ?_ rfl rfl hwaiting.symm ?_ ?_ ?_ ?_ ?_ ?_ ?_
      case refine_2 =>
        intro i
        rw [hwaiting, hids]
        simp only [List.mem_map, exists_exists_and_eq_and]
      all_goals
        simp [hbank, TBE.keeps, hsub]
  | @fetch g acks atomic =>
    have hs : L2.getState b = fetching atomic := by simp [hbank]
    refine ⟨ViWt.L2.send (writeResponse atomic g) { b with
      bank := { entry := some { cacheState := .S, dirty := true } } }, ?_, .S,
      .keep (by simp), ?_⟩
    · cases atomic <;> rw [stepMemory_go (by rw [hbank]) hs rfl] <;>
        simp [hbank]
    · refine .fillWrite ?_ rfl (writeResponse_type ..) (writeResponse_transactions ..) ?_ rfl ?_ ?_
        ?_ ?_ ?_ ?_ ?_ <;> cases atomic <;>
        simp [hbank, TBE.keeps]
  | NP | S | SS | invalidate | evicted => exact absurd rfl hm

end Other

/-! ## The bank is an abstract one -/

/-- **Every step of the bank** is a stall, or one of an abstract bank. -/
theorem bank_spec [Fintype ι] {ee : Bool} {space : MemorySpaceType} {b : Block ι (L2Bank ι)}
    {act : BankAct} {r : Except Fault (Block ι (L2Bank ι))} (hshape : Shape space b.bank)
    (hinv : (b.map L2Bank.view).Inv (protocol ee) space) (hnot : (b.map L2Bank.view).Notices)
    (hstep : (L2.bank ee).step act b = some r) : r = .ok b ∨ RefinesAct ee space act b := by
  have hspec : (L2.bank ee).step act b = some (.ok b) ∨ RefinesAct ee space act b := by
    cases act with
    | request =>
      cases hq : b.l1RequestToL2Cache with
      | nil => simp [L2.stepRequest, hq] at hstep
      | cons m rest => exact (stepRequest_spec hshape hinv hnot hq).imp And.right id
    | unblock k =>
      cases hk : b.unblockToL2Cache[k]? with
      | none => simp [L2.stepUnblock, hk] at hstep
      | some a => exact .inr (stepUnblock_spec hshape hinv hk)
    | replace =>
      refine stepReplace_spec hshape fun he => ?_
      simp [L2.stepReplace, he] at hstep
    | dirReplace => simp at hstep
    | memory =>
      refine .inr (stepMemory_spec hshape fun hm => ?_)
      simp [L2.stepMemory, hm] at hstep
  rcases hspec with hstall | hrefines
  · rw [hstall] at hstep
    exact .inl (Option.some.inj hstep).symm
  · exact .inr hrefines

/-- **VI_wt and VI_wt_ee**: the bank refines an abstract one. -/
def refinement [Fintype ι] (ee : Bool) (space : MemorySpaceType) :
    Refinement (protocol ee) (L2.bank (ι := ι) ee) space (fun _ _ => True) False where
  view := L2Bank.view
  Shape := Shape space
  shape_init := .NP
  waiting_init := rfl
  pending_init := rfl
  asked_init := rfl
  step := by
    intro b act r hshape hinv hnot _ hstep
    rcases bank_spec hshape hinv hnot hstep with rfl | ⟨b', hb', hshape', -, hview⟩
    · exact ⟨b, rfl, hshape, .inl rfl⟩
    · rw [hb'] at hstep
      exact ⟨b', (Option.some.inj hstep).symm, hshape', .inr hview⟩

theorem Shape.settled {space : MemorySpaceType} {k : L2Bank ι} (h : Shape space k)
    (hp : k.view.pending = none) (hm : k.view.memReads = 0) : k.tbe = none ∧ k.view.waiting = [] := by
  cases h with
  | NP | S | SS => exact ⟨rfl, rfl⟩
  | ISS => cases hm
  | fetch => cases hm
  | invalidate atomic => cases atomic <;> cases hp
  | evicted hs => rcases hs with rfl | rfl <;> cases hp

/-- **VI_wt and VI_wt_ee**: the bank takes what is ready. -/
theorem live [Fintype ι] (ee : Bool) (space : MemorySpaceType) :
    (refinement (ι := ι) ee space).Live where
  settled hshape hp hm := (Shape.settled hshape hp hm).2
  ready := by
    intro b act h hready
    refine ⟨trivial, ?_⟩
    cases hready with
    | request hq hp hm =>
      obtain ⟨m, rest, hq⟩ := List.exists_cons_of_ne_nil (show b.l1RequestToL2Cache ≠ [] from hq)
      obtain ⟨htbe, -⟩ | ⟨b', hstep, -, -, hbank⟩ := stepRequest_spec h.shape h.inv h.notices hq
      · exact absurd (Shape.settled h.shape hp hm).1 htbe
      · exact ⟨b', hstep, hbank⟩
    | @unblock k hk =>
      have hget : b.unblockToL2Cache[k]? = some _ := List.getElem?_eq_getElem hk
      obtain ⟨b', hstep, -, -, hbank⟩ : RefinesAct ee space (.unblock k) b :=
        stepUnblock_spec h.shape h.inv hget
      exact ⟨b', hstep, hbank⟩
    | memory hp hm =>
      obtain ⟨b', hstep, -, -, hbank⟩ : RefinesAct ee space .memory b :=
        stepMemory_spec h.shape (Nat.pos_iff_ne_zero.mp hm)
      exact ⟨b', hstep, hbank⟩

end GpgpuSimRuby.Ruby.ViWt.Inclusive
