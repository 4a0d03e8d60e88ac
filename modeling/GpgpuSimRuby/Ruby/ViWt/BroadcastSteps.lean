import GpgpuSimRuby.Ruby.ViWt.Broadcast
import GpgpuSimRuby.Ruby.ViWt.Progress

/-!
# VI_wt_b: the bank is an abstract one

Without a sharer list every L1 may hold a copy, until a write has invalidated them all. The one row
that does not fit is the data of an atomic's miss that comes before the last acknowledgement: the
atomic passes for a write from there on (`IMA_id` goes to `IM_i`). So the bank is a forgetful one
(`refinement`), and one that forgets nothing in the runs without that row.
-/

namespace GpgpuSimRuby.Ruby.ViWt.Broadcast

open Library

variable {ι : Type} [DecidableEq ι]

attribute [local simp] Block.map runActions L2.setState Except.map ViWt.L2.send
  ViWt.L2.jjPopL1RequestQueue ViWt.L2.sendInv L2.bank L2.iAllocateTBE getsMsg
  ViWt.L2.ouPopUnblockQueue L2.mtWriteDataToCacheFromTBE ViWt.L2.sDeallocateTBE
  L2.mWriteDataToCache ViWt.L2.oPopIncomingResponseQueue L2.qqAllocateL2CacheBlock
  ViWt.L2.ssRecordGetSL1ID ViWt.L2.aIssueFetchToMemory L2.dMarkBlockDirty ViWt.L2.xxRecordGetXL1ID
  L2.fbBroadcastInv writeMsg dataMsg ViWt.L2.eeSendAckToGetXRequestor
  ViWt.L2.eSendAtomicDataToGetXRequestor writeResponse

/-! ## How to look at the bank -/

/-- The states in which a write waits; `true` for an atomic. -/
def L2State.writes : L2State → Option Bool
  | .IM_id | .IM_i | .IM_d | .SM => some false
  | .IMA_id | .IMA_i | .IMA_d | .SMA => some true
  | .NP | .S | .ISS => none

/-- The states that wait for acknowledgements. -/
def L2State.awaitsAcks : L2State → Bool
  | .IM_id | .IMA_id | .IM_i | .IMA_i | .SM | .SMA => true
  | .NP | .S | .ISS | .IM_d | .IMA_d => false

/-- The states of a write that wait for data. -/
def L2State.awaitsData : L2State → Bool
  | .IM_id | .IMA_id | .IM_d | .IMA_d => true
  | .NP | .S | .ISS | .IM_i | .IMA_i | .SM | .SMA => false

/-- The requests that wait in a TBE. -/
def TBE.waiting (t : L2TBE L2State ι) : List (Transaction ι) :=
  match t.tbeState.writes with
  | some atomic => t.memfetch.toList.map fun g => (writeKind atomic, g)
  | none => t.mfset.map fun x => (.read, x.2)

/-- The acknowledgements a TBE waits for. -/
def TBE.pending (t : L2TBE L2State ι) : Option Int :=
  if t.tbeState.awaitsAcks then some t.pendingAcks else none

/-- A write waits in the bank. -/
def L2Bank.writing (k : L2Bank ι) : Bool := k.tbe.any fun t => t.tbeState.writes.isSome

/-- Every L1 may hold a copy, unless a write is waiting. -/
def L2Bank.view [Fintype ι] (k : L2Bank ι) : View ι where
  waiting := (k.tbe.map TBE.waiting).getD []
  pending := (k.tbe.map TBE.pending).getD none
  sharers := if k.writing then ∅ else Finset.univ
  memReads := k.memReads
  asked := if k.writing then Finset.univ else ∅

/-! ## The shapes of the bank -/

/-- The bank while the write `g` waits in the state `s`. -/
def writeBank (s : L2State) (space : MemorySpaceType) (g : MemFetch ι) (acks : Int) : L2Bank ι where
  entry := some { cacheState := s, dirty := true }
  tbe := some { tbeState := s, dirty := true, l1WBAckID := some g.sid, space := space
                memfetch := some g, pendingAcks := acks }
  memReads := if s.awaitsData then 1 else 0

/-- The shapes a bank can be in. -/
inductive Shape (space : MemorySpaceType) : L2Bank ι → Prop
  | NP : Shape space { entry := none }
  | S {dirty} : Shape space { entry := some { cacheState := .S, dirty := dirty } }
  /-- A fetch for the loads `mfset`. -/
  | ISS {dirty ids mfset memfetch acks} (hne : ids.Nonempty)
      (hids : ∀ i, i ∈ ids ↔ ∃ x ∈ mfset, x.2.sid = i) :
      Shape space
        { entry := some { cacheState := .ISS, dirty := dirty }
          tbe := some { tbeState := .ISS, l1GetSIDs := ids, space := space, mfset := mfset
                        memfetch := memfetch, pendingAcks := acks }
          memReads := 1 }
  /-- The write `g`. -/
  | write {s g acks} (hs : s.writes ≠ none) : Shape space (writeBank s space g acks)

variable [Fintype ι] {act : BankAct}

/-- A write is answered when every L1 has been asked, and not by the step that asks; no data is to
come then. -/
def AnswersAsked (act : BankAct) (b b' : Block ι (L2Bank ι)) : Prop :=
  ∀ r, b'.answers = b.answers ++ [r] → r.type ≠ .DATA →
    ¬ act.Starts ∧ b.bank.writing ∧ b'.bank.memReads = 0 ∧ b'.bank.tbe = none

omit [Fintype ι] [DecidableEq ι] in
theorem AnswersAsked.none {b b' : Block ι (L2Bank ι)} (h : b'.answers = b.answers) :
    AnswersAsked act b b' := by
  intro r hr
  simp [h] at hr

omit [Fintype ι] [DecidableEq ι] in
theorem AnswersAsked.data {b b' : Block ι (L2Bank ι)} {r : ResponseMsg ι}
    (h : b'.answers = b.answers ++ [r]) (htype : r.type = .DATA) : AnswersAsked act b b' := by
  intro r' hr' htype'
  rw [h] at hr'
  obtain rfl : r = r' := by simpa using hr'
  exact absurd htype htype'

/-- A step of the bank, in terms of the abstract bank. -/
abbrev RefinesAct (forgetful : Prop) (space : MemorySpaceType) (act : BankAct)
    (b : Block ι (L2Bank ι)) : Prop :=
  ∃ b', L2.bank.step act b = some (.ok b') ∧ Shape space b'.bank ∧ AnswersAsked act b b' ∧
    Block.BankStep forgetful act (b.map L2Bank.view) (b'.map L2Bank.view)

variable {forgetful : Prop} {space : MemorySpaceType} {b : Block ι (L2Bank ι)} {m : RequestMsg ι}
  {rest : List (RequestMsg ι)} {g : MemFetch ι} {dirty : Bool} {next : L2State}
variable {actions : List (L2Action ι)}

attribute [local simp] writeBank L2Bank.view L2.getState L2Bank.writing TBE.pending TBE.waiting

/-! ## Requests -/

section Request

theorem stepRequest_go {event : L2Event} {s next : L2State} (hq : b.l1RequestToL2Cache = m :: rest)
    (hev : L2.l1CacheRequestTypeToEvent m = .ok event) (hs : L2.getState b = s)
    (ht : L2.transitions 0 s event = some (.go next actions)) :
    L2.bank.step .request b = some ((runActions actions b).map (L2.setState next)) := by
  simp only [L2.bank, L2.stepRequest, hq, hev]
  exact congrArg some (Controller.doTransition_go event hs ht)

theorem stepRequest_stall {event : L2Event} {s : L2State} (hq : b.l1RequestToL2Cache = m :: rest)
    (hev : L2.l1CacheRequestTypeToEvent m = .ok event) (hs : L2.getState b = s)
    (ht : L2.transitions (ι := ι) 0 s event = some .stall) :
    L2.bank.step .request b = some (.ok b) := by
  simp only [L2.bank, L2.stepRequest, hq, hev]
  exact congrArg some (Controller.doTransition_stall event hs ht)

omit [Fintype ι] [DecidableEq ι] in
theorem event_gets : L2.l1CacheRequestTypeToEvent (getsMsg space g) = .ok .l1GETS := rfl

/-- The event of a write. -/
def writeEvent (atomic : Bool) : L2Event := if atomic then .l2Atomic else .wbData

omit [Fintype ι] [DecidableEq ι] in
theorem event_write (atomic : Bool) :
    L2.l1CacheRequestTypeToEvent (writeMsg atomic space g) = .ok (writeEvent atomic) := by
  cases atomic <;> rfl

theorem refines_gets_NP (hbank : b.bank = { entry := none })
    (hq : b.l1RequestToL2Cache = getsMsg space g :: rest) : RefinesAct forgetful space .request b := by
  have hs : L2.getState b = .NP := by simp [hbank]
  refine ⟨{ b with
    l1RequestToL2Cache := rest
    bank :=
      { entry := some { cacheState := .ISS }
        tbe := some { tbeState := .ISS, l1GetSIDs := {g.sid}, space := space, mfset := [(g.sid, g)]
                      memfetch := some g }
        memReads := 1 } }, ?_, ?_, .none rfl, ?_⟩
  · rw [stepRequest_go hq event_gets hs rfl]
    simp [hq, hbank]
  · exact .ISS (by simp) (by simp [eq_comm])
  · refine .take 1 hq rfl (by simp) rfl ?_ ?_ ?_ ⟨?_, ?_⟩ <;>
      simp [hbank, L2State.awaitsAcks, L2State.writes]

theorem refines_gets_ISS {ids : Finset ι} {mfset : List (ι × MemFetch ι)}
    {memfetch : Option (MemFetch ι)} {acks : Int}
    (hbank : b.bank =
      { entry := some { cacheState := .ISS, dirty := dirty }
        tbe := some { tbeState := .ISS, l1GetSIDs := ids, space := space, mfset := mfset
                      memfetch := memfetch, pendingAcks := acks }
        memReads := 1 })
    (hids : ∀ i, i ∈ ids ↔ ∃ x ∈ mfset, x.2.sid = i)
    (hq : b.l1RequestToL2Cache = getsMsg space g :: rest) : RefinesAct forgetful space .request b := by
  have hs : L2.getState b = .ISS := by simp [hbank]
  refine ⟨{ b with
    l1RequestToL2Cache := rest
    bank :=
      { entry := some { cacheState := .ISS, dirty := dirty }
        tbe := some { tbeState := .ISS, l1GetSIDs := insert g.sid ids, space := space
                      mfset := mfset ++ [(g.sid, g)], memfetch := memfetch, pendingAcks := acks }
        memReads := 1 } }, ?_, ?_, .none rfl, ?_⟩
  · rw [stepRequest_go hq event_gets hs rfl]
    simp [hq, hbank]
  · refine .ISS (Finset.insert_nonempty ..) ?_
    exact mem_insert_sid hids g
  · refine .take 0 hq rfl (by simp) rfl ?_ ?_ ?_ ⟨?_, ?_⟩ <;>
      simp [hbank, L2State.awaitsAcks, L2State.writes]

theorem refines_gets_S (hbank : b.bank = { entry := some { cacheState := .S, dirty := dirty } })
    (hq : b.l1RequestToL2Cache = getsMsg space g :: rest) : RefinesAct forgetful space .request b := by
  have hs : L2.getState b = .S := by simp [hbank]
  refine ⟨ViWt.L2.send { type := .DATA, destination := {g.sid}, mfset := [(g.sid, g)] } { b with
    l1RequestToL2Cache := rest
    bank := { entry := some { cacheState := .S, dirty := dirty } } }, ?_, .S, .data rfl rfl, ?_⟩
  · rw [stepRequest_go hq event_gets hs rfl]
    simp [L2.dsSendDataToRequestor, hq, hbank]
  · refine .answerRead (r := { type := .DATA, destination := {g.sid}, mfset := [(g.sid, g)] }) hq rfl
      rfl rfl rfl rfl ?_ ?_ ?_ ?_ ?_ ⟨?_, ?_⟩ <;>
      simp [hbank]

/-- The state a write to a block in the cache waits in, and the one for a block that is not. -/
def invalidating (atomic : Bool) : L2State := if atomic then .SMA else .SM

def fetching (atomic : Bool) : L2State := if atomic then .IMA_id else .IM_id

theorem refines_write (atomic dirty : Bool)
    (hbank : b.bank = { entry := none } ∨
      b.bank = { entry := some { cacheState := .S, dirty := dirty } })
    (hq : b.l1RequestToL2Cache = writeMsg atomic space g :: rest) :
    RefinesAct forgetful space .request b := by
  have huniv : (Finset.univ : Finset ι).Nonempty := ⟨g.sid, Finset.mem_univ _⟩
  -- the state in which the write waits, and the fetch for it
  obtain ⟨s, fetches, hs, hmem, hone, hstep⟩ : ∃ s fetches, s.writes = some atomic ∧
      fetches = (if s.awaitsData then 1 else 0) ∧ s.awaitsAcks ∧
      L2.bank.step .request b = some (.ok (ViWt.L2.sendInv
        { type := .INV, destination := Finset.univ } { b with
          l1RequestToL2Cache := rest, bank := writeBank s space g (Fintype.card ι) })) := by
    rcases hbank with hbank | hbank
    · have hs : L2.getState b = .NP := by simp [hbank]
      refine ⟨fetching atomic, 1, by cases atomic <;> rfl, by cases atomic <;> rfl,
        by cases atomic <;> rfl, ?_⟩
      have hrow : L2.transitions (ι := ι) 0 .NP (writeEvent atomic) =
          some (.go (fetching atomic) L2.fetchForStoreActions) := by cases atomic <;> rfl
      rw [stepRequest_go hq (event_write atomic) hs hrow]
      cases atomic <;>
        simp [L2.fetchForStoreActions, ViWt.L2.aIssueFetchToMemoryForStore, hq, hbank, fetching,
          L2State.awaitsData]
    · have hs : L2.getState b = .S := by simp [hbank]
      refine ⟨invalidating atomic, 0, by cases atomic <;> rfl, by cases atomic <;> rfl,
        by cases atomic <;> rfl, ?_⟩
      have hrow : L2.transitions (ι := ι) 0 .S (writeEvent atomic) =
          some (.go (invalidating atomic) L2.invalidateActions) := by cases atomic <;> rfl
      rw [stepRequest_go hq (event_write atomic) hs hrow]
      cases atomic <;>
        simp [L2.invalidateActions, hq, hbank, invalidating, L2State.awaitsData]
  refine ⟨_, hstep, .write (by simp [hs]), .none rfl, ?_⟩
  have hidle : (b.map L2Bank.view).bank.waiting = [] ∧ (b.map L2Bank.view).bank.pending = none ∧
      b.bank.memReads = 0 := by
    rcases hbank with hbank | hbank <;> simp [hbank]
  obtain ⟨hwaiting, hpending, hzero⟩ := hidle
  refine .takeInv fetches hq (writeMsg_transaction ..) (by rw [hmem]; split <;> simp) rfl (.inl rfl)
    huniv hpending ?_ ?_ ?_ (fun i _ _ => .inl (Finset.mem_univ i)) (Finset.subset_univ _)
  · rw [hwaiting]
    simp [hs]
  · simp [hone]
  · simp [hmem, hzero]

/-- **Requests.** -/
theorem stepRequest_spec (hshape : Shape space b.bank)
    (hinv : (b.map L2Bank.view).Inv .VI_wt_b space) (hq : b.l1RequestToL2Cache = m :: rest) :
    b.bank.tbe ≠ none ∧ L2.bank.step .request b = some (.ok b) ∨ RefinesAct forgetful space .request b := by
  have hsent : m.Sent .VI_wt_b space := hinv.queue m (by simp [hq])
  generalize hk : b.bank = k at hshape
  cases hsent with
  | gets g =>
    cases hshape with
    | NP => exact .inr (refines_gets_NP hk hq)
    | S => exact .inr (refines_gets_S hk hq)
    | ISS hne hids => exact .inr (refines_gets_ISS hk hids hq)
    | @write s g' acks hs =>
      refine .inl ⟨by simp, stepRequest_stall hq event_gets rfl ?_⟩
      cases s <;> first | exact absurd rfl hs | simp [hk]; rfl
  | write atomic g =>
    cases hshape with
    | NP => exact .inr (refines_write atomic false (.inl hk) hq)
    | S => exact .inr (refines_write atomic _ (.inr hk) hq)
    | ISS hne hids =>
      refine .inl ⟨by simp, stepRequest_stall hq (event_write atomic) rfl ?_⟩
      cases atomic <;> simp [hk, writeEvent] <;> rfl
    | @write s g' acks hs =>
      refine .inl ⟨by simp, stepRequest_stall hq (event_write atomic) rfl ?_⟩
      cases s <;> first
        | exact absurd rfl hs
        | cases atomic <;> simp [hk, writeEvent] <;> rfl
  | notice i hp => cases hp

end Request

/-! ## Acknowledgements -/

section Unblock

variable {k : Nat} {a : AckMsg ι} {s : L2State} {acks : Int}

/-- The event of an acknowledgement. -/
def ackEvent (n : Int) : L2Event := if n = 1 then .invAckAll else .invAck

omit [Fintype ι] [DecidableEq ι] in
theorem unblockEvent_eq {t : L2TBE L2State ι} (ha : a.Good) (ht : b.bank.tbe = some t) :
    L2.unblockEvent b a = .ok (ackEvent t.pendingAcks) := by
  simp only [L2.unblockEvent, ha.type, ht, ha.ackCount, ackEvent, sub_eq_zero, if_true]
  split <;> rfl

theorem stepUnblock_go
    (hk : b.unblockToL2Cache[k]? = some a) (ha : a.Good) (hbank : b.bank = writeBank s space g acks)
    (hrow : L2.transitions k s (ackEvent acks) = some (.go next actions)) :
    L2.bank.step (.unblock k) b = some ((runActions actions b).map (L2.setState next)) := by
  have hev : L2.unblockEvent b a = .ok (ackEvent acks) := unblockEvent_eq ha (by rw [hbank]; rfl)
  have hstate : L2.getState b = s := by simp [hbank]
  simp only [L2.bank, L2.stepUnblock, hk, hev]
  exact congrArg some (Controller.doTransition_go _ hstate hrow)

theorem refines_ack (hbank : b.bank = writeBank s space g acks) (hwrites : s.writes ≠ none)
    (hs : s.awaitsAcks) (hk : b.unblockToL2Cache[k]? = some a) (ha : a.Good) (hacks : acks ≠ 1) :
    RefinesAct forgetful space (.unblock k) b := by
  have hsome : s.writes.isSome := Option.isSome_iff_ne_none.mpr hwrites
  have hrow : L2.transitions (ι := ι) k s (ackEvent acks) =
      some (.go s [ViWt.L2.qUpdateAck k, ViWt.L2.ouPopUnblockQueue k]) := by
    rw [ackEvent, if_neg hacks]
    cases s <;> first | rfl | cases hs
  refine ⟨b.acked k a (writeBank s space g (acks - 1)), ?_, .write hwrites, .none rfl, ?_⟩
  · rw [stepUnblock_go hk ha hbank hrow]
    rcases ha.type with h | h <;>
      simp [ViWt.L2.qUpdateAck, hk, hbank, ha.ackCount, h]
  · refine .ack (n := acks) hk ?_ rfl ?_ ?_ ?_ ⟨?_, ?_⟩ <;>
      simp [hbank, hs, hacks, hsome]

theorem refines_ackAll_data (hbank : b.bank = writeBank s space g 1) (hs : s.awaitsAcks)
    (hd : s.awaitsData) (hk : b.unblockToL2Cache[k]? = some a) (ha : a.Good) :
    RefinesAct forgetful space (.unblock k) b := by
  obtain ⟨next, hrow, hsame⟩ : ∃ next, L2.transitions (ι := ι) k s (ackEvent 1) =
      some (.go next [ViWt.L2.ouPopUnblockQueue k]) ∧ next.writes = s.writes ∧ s.writes.isSome ∧
        next.awaitsAcks = false ∧ next.awaitsData := by
    cases s <;> first | cases hs; done | cases hd; done | exact ⟨_, rfl, by decide⟩
  obtain ⟨hwrites, hsome, hnone, hdata⟩ := hsame
  refine ⟨b.acked k a (writeBank next space g 1), ?_, .write ?_, .none rfl, ?_⟩
  · rw [stepUnblock_go hk ha hbank hrow]
    rcases ha.type with h | h <;>
      simp [hk, hbank, h, hd, hdata]
  · rw [hwrites]
    exact Option.isSome_iff_ne_none.mp hsome
  · refine .ack (n := 1) hk ?_ rfl ?_ ?_ ?_ ⟨?_, ?_⟩ <;>
      simp [hbank, hs, hwrites, hnone, hd, hdata, hsome]

theorem refines_ackAll (atomic : Bool) (hbank : b.bank = writeBank s space g 1)
    (hwrites : s.writes = some atomic) (hs : s.awaitsAcks) (hd : s.awaitsData = false)
    (hk : b.unblockToL2Cache[k]? = some a) (ha : a.Good) : RefinesAct forgetful space (.unblock k) b := by
  refine ⟨ViWt.L2.send (writeResponse atomic g)
    (b.acked k a { entry := some { cacheState := .S, dirty := true } }), ?_, .S, ?_, ?_⟩
  · cases s <;> first
      | cases hs; done
      | cases hd; done
      | obtain rfl := Option.some.inj hwrites
        rw [stepUnblock_go hk ha hbank rfl]
        rcases ha.type with h | h <;>
          simp [hk, hbank, h, L2State.awaitsData]
  · intro r _ _
    refine ⟨id, ?_, rfl, rfl⟩
    simp [hbank, hwrites]
  · refine .ackAnswer (x := (writeKind atomic, g)) hk ?_ rfl (writeResponse_type ..)
      (writeResponse_transactions ..) ?_ rfl ?_ ?_ ?_ ?_ ⟨?_, ?_⟩ <;>
      simp [hbank, hs, hd, hwrites]

/-- **Acknowledgements.** -/
theorem stepUnblock_spec (hshape : Shape space b.bank) (hinv : (b.map L2Bank.view).Inv .VI_wt_b space)
    (hk : b.unblockToL2Cache[k]? = some a) : RefinesAct forgetful space (.unblock k) b := by
  have hmem := mem_of_getElem?_eq_some hk
  have ha : a.Good := hinv.ack a hmem
  have hround : (b.map L2Bank.view).bank.pending ≠ none := hinv.pending_of_ack hmem
  generalize hbank : b.bank = bank at hshape
  cases hshape with
  | @write s g acks hwrites =>
    have hs : s.awaitsAcks := by
      simp [hbank] at hround
      exact hround
    by_cases hacks : acks = 1
    · subst hacks
      by_cases hd : s.awaitsData
      · exact refines_ackAll_data hbank hs hd hk ha
      · obtain ⟨atomic, hatomic⟩ := Option.ne_none_iff_exists'.mp hwrites
        exact refines_ackAll atomic hbank hatomic hs (by simpa using hd) hk ha
    · exact refines_ack hbank hwrites hs hk ha hacks
  | NP | S | ISS => simp [hbank, L2State.awaitsAcks] at hround

end Unblock

/-! ## Replacements and data from the DRAM -/

section Other

variable {s : L2State} {acks : Int}

theorem stepReplace_go {e : L2Entry}
    (he : b.bank.entry = some e) (hs : L2.getState b = s)
    (hrow : L2.transitions 0 s (if e.dirty then .l2Replacement else .l2ReplacementClean) =
      some (.go next actions)) :
    L2.bank.step .replace b = some ((runActions actions b).map (L2.setState next)) := by
  simp only [L2.bank, L2.stepReplace, he]
  exact congrArg some (Controller.doTransition_go _ hs hrow)

theorem refines_replace_S (hbank : b.bank = { entry := some { cacheState := .S, dirty := dirty } }) :
    RefinesAct forgetful space .replace b := by
  have hs : L2.getState b = .S := by simp [hbank]
  refine ⟨{ b with bank := { entry := none } }, ?_, .NP, .none rfl, ?_⟩
  · cases dirty <;> rw [stepReplace_go (by rw [hbank]) hs rfl] <;>
      simp [L2.cExclusiveReplacement, L2.rrDeallocateL2CacheBlock, hbank]
  · refine .quiet (.inl rfl) rfl ?_ ?_ ?_ ⟨?_, ?_⟩ <;>
      simp [hbank]

/-- **Replacements.** -/
theorem stepReplace_spec (hshape : Shape space b.bank) (he : b.bank.entry ≠ none) :
    L2.bank.step .replace b = some (.ok b) ∨ RefinesAct forgetful space .replace b := by
  -- a block in a transient state stays where it is
  have hstall : ∀ {e : L2Entry}, b.bank.entry = some e →
      (∀ dirty, L2.transitions (ι := ι) 0 (L2.getState b)
        (if dirty = true then .l2Replacement else .l2ReplacementClean) = some .stall) →
      L2.bank.step .replace b = some (.ok b) := by
    intro e he hrow
    simp only [L2.bank, L2.stepReplace, he]
    exact congrArg some (Controller.doTransition_stall _ rfl (hrow e.dirty))
  generalize hbank : b.bank = bank at hshape he
  cases hshape with
  | NP => exact absurd rfl he
  | S => exact .inr (refines_replace_S hbank)
  | ISS =>
    refine .inl (hstall (by rw [hbank]) fun dirty => ?_)
    cases dirty <;> simp [hbank] <;> rfl
  | @write s g acks hs =>
    refine .inl (hstall (by rw [hbank]; rfl) fun dirty => ?_)
    simp only [L2.getState, hbank, writeBank]
    cases s <;> first | exact absurd rfl hs | cases dirty <;> rfl

theorem stepMemory_go (hm : b.bank.memReads = 1) (hs : L2.getState b = s)
    (hrow : L2.transitions 0 s .memData = some (.go next actions)) :
    L2.bank.step .memory b = some ((runActions actions b).map (L2.setState next)) := by
  simp only [L2.bank, L2.stepMemory, hm]
  exact congrArg some (Controller.doTransition_go _ hs hrow)

theorem refines_memory_ISS {ids : Finset ι} {mfset : List (ι × MemFetch ι)}
    {memfetch : Option (MemFetch ι)} {acks : Int}
    (hbank : b.bank =
      { entry := some { cacheState := .ISS, dirty := dirty }
        tbe := some { tbeState := .ISS, l1GetSIDs := ids, space := space, mfset := mfset
                      memfetch := memfetch, pendingAcks := acks }
        memReads := 1 })
    (hne : ids.Nonempty) (hids : ∀ i, i ∈ ids ↔ ∃ x ∈ mfset, x.2.sid = i) :
    RefinesAct forgetful space .memory b := by
  have hs : L2.getState b = .ISS := by simp [hbank]
  refine ⟨ViWt.L2.send { type := .DATA, destination := ids, mfset := mfset } { b with
    bank := { entry := some { cacheState := .S } } }, ?_, .S, .data rfl rfl, ?_⟩
  · rw [stepMemory_go (by rw [hbank]) hs rfl]
    simp [L2.eSendDataToGetSRequestors, hbank, hne]
  · have hwaiting : (b.map L2Bank.view).bank.waiting = mfset.map fun x => (.read, x.2) := by
      simp [hbank, L2State.writes]
    refine .fillReads ?_ rfl rfl hwaiting.symm ?_ ?_ ?_ ?_ ?_ ?_ ?_
    case refine_2 =>
      intro i
      rw [hwaiting, hids]
      simp only [List.mem_map, exists_exists_and_eq_and]
    all_goals
      simp [hbank, L2State.awaitsAcks, L2State.writes]

/-- The data of a write's miss, while acknowledgements are still to come. An atomic passes for a write
from here on. -/
theorem refines_memory_acks (atomic : Bool) (hbank : b.bank = writeBank (fetching atomic) space g acks)
    (hforget : atomic = true → forgetful) : RefinesAct forgetful space .memory b := by
  have hs : L2.getState b = fetching atomic := by simp [hbank]
  have hm : b.bank.memReads = 1 := by cases atomic <;> simp [hbank, fetching, L2State.awaitsData]
  refine ⟨{ b with bank := writeBank .IM_i space g acks }, ?_, .write (by decide), .none rfl, ?_⟩
  · cases atomic <;> rw [stepMemory_go hm hs rfl] <;>
      simp [hbank, fetching, L2State.awaitsData]
  · cases atomic with
    | false =>
      refine .memory ?_ rfl ?_ ?_ ?_ ⟨?_, ?_⟩ <;>
        simp [hbank, fetching, L2State.awaitsAcks, L2State.awaitsData, L2State.writes]
    | true =>
      refine .forget (g := g) (hforget rfl) ?_ ?_ rfl ?_ ?_ ?_ ⟨?_, ?_⟩ <;>
        simp [hbank, fetching, L2State.awaitsAcks, L2State.awaitsData, L2State.writes, writeKind]

theorem refines_memory_answer (atomic : Bool) (hbank : b.bank = writeBank s space g acks)
    (hwrites : s.writes = some atomic) (hd : s.awaitsData) (hs : s.awaitsAcks = false) :
    RefinesAct forgetful space .memory b := by
  have hstate : L2.getState b = s := by simp [hbank]
  have hm : b.bank.memReads = 1 := by simp [hbank, hd]
  refine ⟨ViWt.L2.send (writeResponse atomic g) { b with
    bank := { entry := some { cacheState := .S, dirty := true } } }, ?_, .S, ?_, ?_⟩
  · cases s <;> first
      | cases hs; done
      | cases hd; done
      | obtain rfl := Option.some.inj hwrites
        rw [stepMemory_go hm hstate rfl]
        simp [hbank, L2State.awaitsData]
  · intro r _ _
    refine ⟨id, ?_, rfl, rfl⟩
    simp [hbank, hwrites]
  · refine .fillWrite (x := (writeKind atomic, g)) ?_ rfl (writeResponse_type ..)
      (writeResponse_transactions ..) ?_ rfl ?_ ?_ ?_ ?_ ?_ ?_ ?_ <;>
      simp [hbank, hs, hd, hwrites]

/-- **Data from the DRAM.** -/
theorem stepMemory_spec (hshape : Shape space b.bank) (hm : b.bank.memReads ≠ 0)
    (hok : L2.getState b = .IMA_id → forgetful) : RefinesAct forgetful space .memory b := by
  generalize hbank : b.bank = bank at hshape hm
  cases hshape with
  | NP => exact absurd rfl hm
  | S => exact absurd rfl hm
  | ISS hne hids => exact refines_memory_ISS hbank hne hids
  | @write s g acks hwrites =>
    cases s with
    | IM_id => exact refines_memory_acks false hbank (by simp)
    | IMA_id => exact refines_memory_acks true hbank fun _ => hok (by simp [hbank])
    | IM_d => exact refines_memory_answer false hbank rfl rfl rfl
    | IMA_d => exact refines_memory_answer true hbank rfl rfl rfl
    | NP | S | ISS => exact absurd rfl hwrites
    | IM_i | IMA_i | SM | SMA => exact absurd rfl hm

end Other

/-! ## The bank is an abstract one -/

/-- The row that takes an atomic for a write: data that comes in `IMA_id`. -/
def Forgets (b : Block ι (L2Bank ι)) (act : BankAct) : Prop :=
  act = .memory ∧ L2.getState b = .IMA_id

instance (b : Block ι (L2Bank ι)) (act : BankAct) : Decidable (Forgets b act) :=
  inferInstanceAs (Decidable (_ ∧ _))

/-- **Every step of the bank** is a stall, or one of an abstract bank. -/
theorem bank_spec {r : Except Fault (Block ι (L2Bank ι))} (hshape : Shape space b.bank)
    (hinv : (b.map L2Bank.view).Inv .VI_wt_b space) (hok : Forgets b act → forgetful)
    (hstep : L2.bank.step act b = some r) : r = .ok b ∨ RefinesAct forgetful space act b := by
  have hspec : L2.bank.step act b = some (.ok b) ∨ RefinesAct forgetful space act b := by
    cases act with
    | request =>
      cases hq : b.l1RequestToL2Cache with
      | nil => simp [L2.stepRequest, hq] at hstep
      | cons m rest => exact (stepRequest_spec hshape hinv hq).imp And.right id
    | unblock k =>
      cases hk : b.unblockToL2Cache[k]? with
      | none => simp [L2.stepUnblock, hk] at hstep
      | some a => exact .inr (stepUnblock_spec hshape hinv hk)
    | replace =>
      refine stepReplace_spec hshape fun he => ?_
      simp [L2.stepReplace, he] at hstep
    | dirReplace => simp at hstep
    | memory =>
      refine .inr (stepMemory_spec hshape (fun hm => ?_) fun hs => hok ⟨rfl, hs⟩)
      simp [L2.stepMemory, hm] at hstep
  rcases hspec with hstall | hrefines
  · rw [hstall] at hstep
    exact .inl (Option.some.inj hstep).symm
  · exact .inr hrefines

/-- **VI_wt_b**: the bank refines an abstract one, which forgets only in the one row. -/
def refinement (space : MemorySpaceType) (ok : Block ι (L2Bank ι) → BankAct → Prop) (forgetful : Prop)
    (hok : ∀ b act, ok b act → Forgets b act → forgetful) :
    Refinement .VI_wt_b L2.bank space ok forgetful where
  view := L2Bank.view
  Shape := Shape space
  shape_init := .NP
  waiting_init := rfl
  pending_init := rfl
  asked_init := rfl
  step := by
    intro b act r hshape hinv _ hb hstep
    rcases bank_spec hshape hinv (hok b act hb) hstep with rfl | ⟨b', hb', hshape', -, hview⟩
    · exact ⟨b, rfl, hshape, .inl rfl⟩
    · rw [hb'] at hstep
      exact ⟨b', (Option.some.inj hstep).symm, hshape', .inr hview⟩

omit [DecidableEq ι] in
theorem Shape.settled {k : L2Bank ι} (h : Shape space k) (hp : k.view.pending = none)
    (hm : k.view.memReads = 0) : k.tbe = none ∧ k.view.waiting = [] := by
  cases h with
  | NP => exact ⟨rfl, rfl⟩
  | S => exact ⟨rfl, rfl⟩
  | ISS => cases hm
  | @write s g acks hs => cases s <;> first | exact absurd rfl hs | cases hm; done | cases hp

/-- **VI_wt_b**: the bank takes what is ready. -/
theorem live (space : MemorySpaceType) (ok : Block ι (L2Bank ι) → BankAct → Prop) (forgetful : Prop)
    (hok : ∀ b act, ok b act → Forgets b act → forgetful)
    (hall : ∀ b act, ¬ Forgets b act → ok b act) : (refinement space ok forgetful hok).Live where
  settled hshape hp hm := (Shape.settled hshape hp hm).2
  ready := by
    intro b act h hready
    cases hready with
    | request hq hp hm =>
      refine ⟨hall _ _ (by simp [Forgets]), ?_⟩
      obtain ⟨m, rest, hq⟩ := List.exists_cons_of_ne_nil (show b.l1RequestToL2Cache ≠ [] from hq)
      obtain ⟨htbe, -⟩ | ⟨b', hstep, -, -, hbank⟩ := stepRequest_spec h.shape h.inv hq
      · exact absurd (Shape.settled h.shape hp hm).1 htbe
      · exact ⟨b', hstep, hbank⟩
    | @unblock k hk =>
      refine ⟨hall _ _ (by simp [Forgets]), ?_⟩
      have hget : b.unblockToL2Cache[k]? = some _ := List.getElem?_eq_getElem hk
      obtain ⟨b', hstep, -, -, hbank⟩ : RefinesAct forgetful space (.unblock k) b :=
        stepUnblock_spec h.shape h.inv hget
      exact ⟨b', hstep, hbank⟩
    | memory hp hm =>
      -- an atomic whose acknowledgements are still to come waits for them first
      have hnot : L2.getState b ≠ .IMA_id := by
        have hshape := h.shape
        intro hs
        have hp' : (L2Bank.view b.bank).pending = none := hp
        generalize hbank : b.bank = bank at hshape hp'
        cases hshape with
        | NP | S | ISS => simp [hbank] at hs
        | @write s g acks =>
          obtain rfl : s = .IMA_id := by simpa [hbank] using hs
          cases hp'
      refine ⟨hall _ _ (by simp [-L2.getState, Forgets, hnot]), ?_⟩
      obtain ⟨b', hstep, -, -, hbank⟩ : RefinesAct forgetful space .memory b :=
        stepMemory_spec h.shape (Nat.pos_iff_ne_zero.mp hm) fun hs => absurd hs hnot
      exact ⟨b', hstep, hbank⟩

end GpgpuSimRuby.Ruby.ViWt.Broadcast
