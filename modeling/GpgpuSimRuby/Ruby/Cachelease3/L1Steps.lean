import GpgpuSimRuby.Ruby.Cachelease3.System

/-!
# cachelease3: what an L1 can do in one step

`CoreStep` and `ResponseStep` list the steps of one L1 on its line, with the request they send or the
response they take in; `L1.request_spec`, `L1.replacement_spec`, `L1.receive_spec` and
`L1.idealInvalidate_spec` say that the controller takes one of them and does not fault. Whatever
holds of the L1s from here on is proved by cases on the steps, without looking at the transition
table again.

The premise of the four is `L1Line.Balanced`: the counters of the TBE count what is outstanding,
and the state of the TBE fits to it.
-/

namespace GpgpuSimRuby.Ruby.Cachelease3

open Library

variable {ι : Type}

/-! ## The invariant of a line -/

/-- The kind of transaction a request opens. -/
def RequestMsg.kind (m : RequestMsg ι) : Kind :=
  match m.type with
  | .GETS => .read
  | .DATA_ATOMIC => .atomic
  | _ => .write

/-- The kind of transaction a response closes. -/
def ResponseMsg.kind (m : ResponseMsg ι) : Kind :=
  match m.type with
  | .DATA => .read
  | .DATA_ATOMIC => .atomic
  | _ => .write

/-- The state of a TBE, once an expired `SM` counts as `I_I`. -/
def L1TBE.stateAt (now : Nat) (t : L1TBE) : L1State :=
  if t.tbeState = .SM ∧ t.liveUntilTime < now then .I_I else t.tbeState

/-- The line's counters count the `n` outstanding transactions of each kind, and its state fits:
a TBE exists exactly while something is outstanding, `I_S` waits for a read only, and `SM` for
upgrades only. -/
structure L1Line.Balanced (ℓ : L1Line ι) (n : Kind → Nat) : Prop where
  readPending : n .read = if ℓ.readPending then 1 else 0
  idle : ℓ.tbe = none → n .write = 0 ∧ n .atomic = 0 ∧ ℓ.readPending = false
  idleEntry : ℓ.tbe = none → ∀ e ∈ ℓ.entry, e.cacheState = .S ∨ e.cacheState = .I
  reads : ∀ t ∈ ℓ.tbe, t.pendingReads = n .read
  writes : ∀ t ∈ ℓ.tbe, t.pendingWrites = n .write + n .atomic
  busy : ∀ t ∈ ℓ.tbe, 0 < n .read + n .write + n .atomic
  state : ∀ t ∈ ℓ.tbe,
    (t.tbeState = .I_S ∧ ℓ.entry.isSome ∧ n .write = 0 ∧ n .atomic = 0) ∨ t.tbeState = .I_I ∨
    (t.tbeState = .SM ∧ ℓ.entry.isSome ∧ n .read = 0 ∧ n .atomic = 0)

namespace L1TBE

theorem stateAt_SM {now : Nat} {t : L1TBE} (h : t.stateAt now = .SM) :
    t.tbeState = .SM ∧ now ≤ t.liveUntilTime := by
  unfold stateAt at h
  split at h
  · cases h
  · next hn =>
    refine ⟨h, ?_⟩
    by_contra hlt
    exact hn ⟨h, by omega⟩

theorem stateAt_I_S {now : Nat} {t : L1TBE} : t.stateAt now = .I_S ↔ t.tbeState = .I_S := by
  unfold stateAt
  split <;> simp_all

end L1TBE

namespace L1Line.Balanced

variable {ℓ : L1Line ι} {n : Kind → Nat} (hbal : ℓ.Balanced n) {t : L1TBE}
include hbal

section

variable (ht : ℓ.tbe = some t)
include ht

theorem stateAt_cases (now : Nat) :
    t.stateAt now = .I_S ∧ 0 < n .read ∨ t.stateAt now = .I_I ∨ t.stateAt now = .SM := by
  rcases hbal.state t ht with ⟨hs, -, hw, ha⟩ | hs | ⟨hs, -⟩
  · have hbusy := hbal.busy t ht
    exact .inl ⟨L1TBE.stateAt_I_S.mpr hs, by omega⟩
  · exact .inr (.inl (by simp [L1TBE.stateAt, hs]))
  · refine .inr ?_
    unfold L1TBE.stateAt
    split
    · exact .inl rfl
    · exact .inr hs

theorem stateAt_of_write (now : Nat) (hn : 0 < n .write + n .atomic) :
    t.stateAt now = .I_I ∨ t.stateAt now = .SM := by
  rcases hbal.stateAt_cases ht now with ⟨h, -⟩ | h
  · rw [L1TBE.stateAt_I_S] at h
    rcases hbal.state t ht with ⟨-, -, hw, ha⟩ | h' | ⟨h', -⟩
    · omega
    · rw [h] at h'
      cases h'
    · rw [h] at h'
      cases h'
  · exact h

theorem stateAt_of_atomic (now : Nat) (hn : 0 < n .atomic) : t.stateAt now = .I_I := by
  rcases hbal.stateAt_of_write ht now (by omega) with h | h
  · exact h
  · have hs := (L1TBE.stateAt_SM h).1
    rcases hbal.state t ht with ⟨h', -⟩ | h' | ⟨-, -, -, ha⟩
    · rw [hs] at h'
      cases h'
    · rw [hs] at h'
      cases h'
    · omega

theorem stateAt_of_read (now : Nat) (hn : 0 < n .read) :
    t.stateAt now = .I_S ∨ t.stateAt now = .I_I := by
  rcases hbal.stateAt_cases ht now with ⟨h, -⟩ | h | h
  · exact .inl h
  · exact .inr h
  · have hs := (L1TBE.stateAt_SM h).1
    rcases hbal.state t ht with ⟨h', -⟩ | h' | ⟨-, -, h0, -⟩
    · rw [hs] at h'
      cases h'
    · rw [hs] at h'
      cases h'
    · omega

theorem stateAt_of_read_write (now : Nat) (hr : 0 < n .read)
    (hw : 0 < n .write + n .atomic) : t.stateAt now = .I_I := by
  rcases hbal.stateAt_of_read ht now hr with h | h
  · rcases hbal.stateAt_of_write ht now hw with h' | h' <;> simp [h] at h'
  · exact h

end

theorem reads_le_one : n .read ≤ 1 := by
  rw [hbal.readPending]
  split <;> omega

theorem tbe_eq_none_iff : ℓ.tbe = none ↔ ∀ k, n k = 0 := by
  constructor
  · intro ht k
    obtain ⟨hw, ha, hr⟩ := hbal.idle ht
    have hread := hbal.readPending
    rw [hr] at hread
    cases k with
    | read => exact hread
    | write => exact hw
    | atomic => exact ha
  · intro h0
    by_contra hne
    obtain ⟨t, ht⟩ := Option.ne_none_iff_exists'.mp hne
    have hbusy := hbal.busy t ht
    simp only [h0] at hbusy
    omega

theorem entry_isSome (ht : ℓ.tbe = some t) (now : Nat) (hs : t.stateAt now ≠ .I_I) :
    ∃ e, ℓ.entry = some e := by
  rcases hbal.state t ht with ⟨-, he, -⟩ | h | ⟨-, he, -⟩
  · exact Option.isSome_iff_exists.mp he
  · exact absurd (by simp [L1TBE.stateAt, h]) hs
  · exact Option.isSome_iff_exists.mp he

end L1Line.Balanced

/-! ## The steps -/

/-- The requests an L1 sends, for the access `g` in `space`. -/
def getsMsg (space : MemorySpaceType) (g : MemFetch ι) (delta : Nat) : RequestMsg ι :=
  { type := .GETS, requestor := g.sid, space := space, deltaRequested := delta, memfetch := g }

def upgradeMsg (space : MemorySpaceType) (g : MemFetch ι) (time : Nat) : RequestMsg ι :=
  { type := .DATA_UPGRADE, requestor := g.sid, space := space, dirty := true,
    liveUntilTime := time, memfetch := g }

def dataMsg (type : CoherenceRequestType) (space : MemorySpaceType) (g : MemFetch ι) :
    RequestMsg ι :=
  { type := type, requestor := g.sid, space := space, dirty := true, memfetch := g }

/-- The steps of an L1 that a request of the core causes, with the message they send. -/
inductive CoreStep (now : Nat) (space : MemorySpaceType) (g : MemFetch ι) (delta : Nat)
    (ℓ : L1Line ι) : Option (RequestMsg ι) → L1Line ι → Prop
  /-- A load hits a live copy in `S`. -/
  | hit {e} (hr : ℓ.readPending = false) (ht : ℓ.tbe = none) (he : ℓ.entry = some e)
      (hs : e.cacheState = .S) (hlive : now ≤ e.liveUntilTime) : CoreStep now space g delta ℓ none ℓ
  /-- A load hits the copy in a live `SM`. -/
  | hitSM {t} (hr : ℓ.readPending = false) (ht : ℓ.tbe = some t) (hs : t.stateAt now = .SM) :
      CoreStep now space g delta ℓ none
        { entry := ℓ.entry.map fun e => { e with cacheState := .SM }
          tbe := some { t with tbeState := .SM }, readPending := false }
  /-- A load misses and opens a TBE in `I_S`. -/
  | loadMiss (hr : ℓ.readPending = false) (ht : ℓ.tbe = none) :
      CoreStep now space g delta ℓ (some (getsMsg space g delta))
        { entry := some { ℓ.entry.getD {} with cacheState := .I_S }
          tbe := some { tbeState := .I_S, space := space, threadID := g.wid, pendingReads := 1 }
          readPending := true }
  /-- A load joins the writes that are under way. -/
  | loadMore {t} (hr : ℓ.readPending = false) (ht : ℓ.tbe = some t) (hs : t.stateAt now = .I_I) :
      CoreStep now space g delta ℓ (some (getsMsg space g delta))
        { entry := ℓ.entry.map fun e => { e with cacheState := .I_I }
          tbe := some { t with tbeState := .I_I, pendingReads := t.pendingReads + 1 }
          readPending := true }
  /-- A write hits a live copy in `S` and sends its time along. -/
  | upgrade {e} (ht : ℓ.tbe = none) (he : ℓ.entry = some e) (hs : e.cacheState = .S)
      (hlive : now ≤ e.liveUntilTime) :
      CoreStep now space g delta ℓ (some (upgradeMsg space g e.liveUntilTime))
        { entry := some { e with cacheState := .SM, own := g :: e.own }
          tbe := some { tbeState := .SM, space := space, threadID := g.wid,
                        liveUntilTime := e.liveUntilTime, pendingWrites := 1 }
          readPending := ℓ.readPending }
  /-- A write joins the upgrades that are under way in a live `SM`. -/
  | upgradeMore {t} (ht : ℓ.tbe = some t) (hs : t.stateAt now = .SM) :
      CoreStep now space g delta ℓ (some (upgradeMsg space g t.liveUntilTime))
        { entry := ℓ.entry.map fun e => { e with cacheState := .SM, own := g :: e.own }
          tbe := some { t with tbeState := .SM, pendingWrites := t.pendingWrites + 1 }
          readPending := ℓ.readPending }
  /-- A write misses, or an atomic comes first: a TBE in `I_I`, with no time or that of the entry. -/
  | write {type time} (ht : ℓ.tbe = none) (htype : type = .DATA ∨ type = .DATA_ATOMIC)
      (htime : time = 0 ∨ ∃ e ∈ ℓ.entry, time = e.liveUntilTime) :
      CoreStep now space g delta ℓ (some (dataMsg type space g))
        { entry := ℓ.entry.map fun e => { e with cacheState := .I_I }
          tbe := some { tbeState := .I_I, space := space, threadID := g.wid,
                        liveUntilTime := time, pendingWrites := 1 }
          readPending := ℓ.readPending }
  /-- A write or an atomic joins what is under way, which leaves the copy behind. -/
  | writeMore {t type} (ht : ℓ.tbe = some t) (htype : type = .DATA ∨ type = .DATA_ATOMIC) :
      CoreStep now space g delta ℓ (some (dataMsg type space g))
        { entry := ℓ.entry.map fun e => { e with cacheState := .I_I }
          tbe := some { t with tbeState := .I_I, pendingWrites := t.pendingWrites + 1 }
          readPending := ℓ.readPending }

/-- The copy after the answer `m` to an upgrade: the lease is that of the answer, and the data too
if it brings any. -/
def L1Entry.renewed (e : L1Entry ι) (m : ResponseMsg ι) : L1Entry ι :=
  { e with dataBlk := if m.type = .DATA_GLOBAL then m.dataBlk else e.dataBlk
           liveUntilTime := m.liveUntilTime }

/-- The steps of an L1 that take in the response `m`. -/
inductive ResponseStep (now : Nat) (m : ResponseMsg ι) (ℓ : L1Line ι) : L1Line ι → Prop
  /-- Data is installed with its lease. -/
  | install {t} (ht : ℓ.tbe = some t) (hm : m.type = .DATA) (hs : t.tbeState = .I_S) :
      ResponseStep now m ℓ
        { entry := some { cacheState := .S, dataBlk := m.dataBlk, liveUntilTime := m.liveUntilTime }
          tbe := none, readPending := false }
  /-- Data is handed to the core and dropped, since writes are under way. -/
  | discard {t} (ht : ℓ.tbe = some t) (hm : m.type = .DATA) (hw : 0 < t.pendingWrites)
      (hs : t.stateAt now = .I_I) :
      ResponseStep now m ℓ
        { entry := ℓ.entry.map fun e => { e with cacheState := .I_I }
          tbe := some { t with tbeState := .I_I, pendingReads := t.pendingReads - 1 }
          readPending := false }
  /-- Data is handed to the core and dropped, and was the last. -/
  | discardDone {t} (ht : ℓ.tbe = some t) (hm : m.type = .DATA) (hw : t.pendingWrites = 0)
      (hs : t.stateAt now = .I_I) :
      ResponseStep now m ℓ
        { entry := ℓ.entry.map fun e => { e with cacheState := .I }
          tbe := none, readPending := false }
  /-- The answer to an upgrade renews the lease of the copy in a live `SM`. -/
  | renew {t e} (ht : ℓ.tbe = some t) (he : ℓ.entry = some e)
      (hm : m.type = .ACK ∨ m.type = .ACK_GLOBAL ∨ m.type = .DATA_GLOBAL)
      (hs : t.stateAt now = .SM) (hmore : 0 < t.pendingReads ∨ 1 < t.pendingWrites) :
      ResponseStep now m ℓ
        { entry := some { e.renewed m with cacheState := .SM }
          tbe := some { t with tbeState := .SM, pendingWrites := t.pendingWrites - 1 }
          readPending := ℓ.readPending }
  /-- The last answer in a live `SM`: back to `S` with the renewed lease. -/
  | renewDone {t e} (ht : ℓ.tbe = some t) (he : ℓ.entry = some e)
      (hm : m.type = .ACK ∨ m.type = .ACK_GLOBAL ∨ m.type = .DATA_GLOBAL)
      (hs : t.stateAt now = .SM) (hr : t.pendingReads = 0) (hw : t.pendingWrites = 1) :
      ResponseStep now m ℓ
        { entry := some { e.renewed m with cacheState := .S }
          tbe := none, readPending := ℓ.readPending }
  /-- A write is answered in `I_I`. -/
  | ack {t} (ht : ℓ.tbe = some t) (hm : m.type ≠ .DATA)
      (hs : t.stateAt now = .I_I) (hmore : 0 < t.pendingReads ∨ 1 < t.pendingWrites) :
      ResponseStep now m ℓ
        { entry := ℓ.entry.map fun e => { e with cacheState := .I_I }
          tbe := some { t with tbeState := .I_I, pendingWrites := t.pendingWrites - 1 }
          readPending := ℓ.readPending }
  /-- The last write is answered in `I_I`. -/
  | ackDone {t} (ht : ℓ.tbe = some t) (hm : m.type ≠ .DATA)
      (hs : t.stateAt now = .I_I) (hr : t.pendingReads = 0) (hw : t.pendingWrites = 1) :
      ResponseStep now m ℓ
        { entry := ℓ.entry.map fun e => { e with cacheState := .I }
          tbe := none, readPending := ℓ.readPending }

/-- The steps of an L1 that give the block up. -/
inductive ReplaceStep (now : Nat) (ℓ : L1Line ι) : L1Line ι → Prop
  | idle (ht : ℓ.tbe = none) : ReplaceStep now ℓ { ℓ with entry := none }
  | busy {t} (ht : ℓ.tbe = some t) (hs : t.stateAt now = .I_I) :
      ReplaceStep now ℓ { ℓ with entry := none, tbe := some { t with tbeState := .I_I } }
  | stall : ReplaceStep now ℓ ℓ

/-- The steps of an L1 that take in an ideal invalidation. -/
inductive ResetStep (now : Nat) (ℓ : L1Line ι) : L1Line ι → Prop
  | idle (ht : ℓ.tbe = none) :
      ResetStep now ℓ { ℓ with entry := ℓ.entry.map fun e => { e with cacheState := .I } }
  | copy {e} (ht : ℓ.tbe = none) (he : ℓ.entry = some e) (hs : e.cacheState = .S) :
      ResetStep now ℓ { ℓ with entry := some { e with liveUntilTime := now - 1 } }
  | upgrade {t} (ht : ℓ.tbe = some t) (hs : t.stateAt now = .SM) :
      ResetStep now ℓ
        { ℓ with entry := ℓ.entry.map fun e => { e with cacheState := .SM }
                 tbe := some { t with tbeState := .SM, liveUntilTime := now - 1 } }
  | busy {t} (ht : ℓ.tbe = some t) (hs : t.stateAt now = .I_S ∨ t.stateAt now = .I_I) :
      ResetStep now ℓ
        { ℓ with entry := ℓ.entry.map fun e => { e with cacheState := .I_I }
                 tbe := some { t with tbeState := .I_I } }

/-- Does the response carry a completion time for the L1 to note? -/
def ResponseMsg.isGlobal (m : ResponseMsg ι) : Bool :=
  m.type = .DATA_GLOBAL ∨ m.type = .ACK_GLOBAL ∨ m.type = .DATA_ATOMIC

/-- The completion times of the L1 after the response. -/
def ResponseMsg.note (m : ResponseMsg ι) (ℓ : L1Line ι) (gw : Nat → Nat) : Nat → Nat :=
  match ℓ.tbe with
  | some t => if m.isGlobal then Function.update gw t.threadID m.gwct else gw
  | none => gw

/-- The write that is done with the response. -/
def ResponseMsg.completes (m : ResponseMsg ι) : List (MemFetch ι) :=
  if m.type = .DATA then [] else m.memfetch.toList

/-! ## The controller takes one of them -/

namespace L1

variable {c : L1Ctx ι}

theorem getState_tbe {t : L1TBE} (ht : c.tbe = some t) : getState c = t.stateAt c.now := by
  simp [getState, isLive, L1TBE.stateAt, ht]

theorem getState_idle (ht : c.tbe = none) (he : ∀ e ∈ c.entry, e.cacheState = .S ∨ e.cacheState = .I) :
    getState c = .I ∨
      getState c = .S ∧ ∃ e, c.entry = some e ∧ e.cacheState = .S ∧ c.now ≤ e.liveUntilTime := by
  cases hc : c.entry with
  | none => simp [getState, ht, hc]
  | some e =>
    by_cases hl : c.now ≤ e.liveUntilTime
    · rcases he e (by simp [hc]) with h | h <;> simp [getState, isLive, ht, hc, h, hl]
    · simp [getState, isLive, ht, hc, hl]

section Request

variable {now : Nat} {ℓ : L1Line ι} {n : Kind → Nat}

theorem request_go {delta : Nat} {inMsg : CacheMsg ι} {s next : L1State}
    {actions : List (Action (L1Ctx ι))} (hs : getState c = s)
    (ht : transitions delta s (mandatoryRequestTypeToEvent inMsg.type) = some (.go next actions)) :
    request delta inMsg c =
      (runActions actions { c with
        mandatoryQueue := some inMsg
        readPending := if inMsg.type = .LD then true else c.readPending }).map (setState next) :=
  Controller.doTransition_go _ hs ht

/-- **Handling an access.** The controller takes a `CoreStep` and sends its request, if the MSHR has
kept back a load while another one is outstanding. -/
theorem request_spec (now : Nat) (space : MemorySpaceType) (g : MemFetch ι) (delta : Nat)
    (gw : Nat → Nat) {type : CacheRequestType} (hbal : ℓ.Balanced n)
    (hmshr : type = .LD → ℓ.readPending = false) (hfence : type ≠ .MEM_FENCE) :
    ∃ sent ℓ', request delta
        { type := type, space := space, threadID := g.wid, memfetch := g } (ℓ.ctx now g.sid gw) =
        .ok { ℓ'.ctx now g.sid gw with requestFromL1Cache := sent.toList } ∧
      CoreStep now space g delta ℓ sent ℓ' := by
  obtain ⟨entry, tbe, rp⟩ := ℓ
  cases tbe with
  | none =>
    rcases getState_idle (c := L1Line.ctx ⟨entry, none, rp⟩ now g.sid gw) rfl (hbal.idleEntry rfl)
      with hI | ⟨hS, e, he, hes, hlive⟩
    · cases type with
      | LD =>
        obtain rfl := hmshr rfl
        refine ⟨_, _, ?_, .loadMiss rfl rfl⟩
        cases entry <;> exact Eq.trans (request_go hI rfl) rfl
      | ST =>
        refine ⟨_, _, ?_, .write rfl (.inl rfl) (.inl rfl)⟩
        exact Eq.trans (request_go hI rfl) rfl
      | ATOMIC =>
        refine ⟨_, _, ?_, .write rfl (.inr rfl) (.inl rfl)⟩
        exact Eq.trans (request_go hI rfl) rfl
      | MEM_FENCE => exact absurd rfl hfence
    · obtain rfl : entry = some e := he
      cases type with
      | LD =>
        obtain rfl := hmshr rfl
        refine ⟨_, _, ?_, .hit rfl rfl rfl hes hlive⟩
        cases e
        subst hes
        exact Eq.trans (request_go hS rfl) rfl
      | ST =>
        refine ⟨_, _, ?_, .upgrade rfl rfl hes hlive⟩
        exact Eq.trans (request_go hS rfl) rfl
      | ATOMIC =>
        refine ⟨_, _, ?_, .write rfl (.inr rfl) (.inr ⟨e, rfl, rfl⟩)⟩
        exact Eq.trans (request_go hS rfl) rfl
      | MEM_FENCE => exact absurd rfl hfence
  | some t =>
    have hs : getState (L1Line.ctx ⟨entry, some t, rp⟩ now g.sid gw) = t.stateAt now :=
      getState_tbe rfl
    have hcases : t.stateAt now = .I_S ∧ 0 < n .read ∨ t.stateAt now = .I_I ∨ t.stateAt now = .SM :=
      hbal.stateAt_cases rfl now
    cases type with
    | LD =>
      obtain rfl := hmshr rfl
      have hread : n .read = 0 := hbal.readPending
      rcases hcases with ⟨-, h⟩ | h | h
      · omega
      · refine ⟨_, _, ?_, .loadMore rfl rfl h⟩
        exact Eq.trans (request_go (hs.trans h) rfl) rfl
      · refine ⟨_, _, ?_, .hitSM rfl rfl h⟩
        exact Eq.trans (request_go (hs.trans h) rfl) rfl
    | ST =>
      rcases hcases with ⟨h, -⟩ | h | h
      · refine ⟨_, _, ?_, .writeMore rfl (.inl rfl)⟩
        exact Eq.trans (request_go (hs.trans h) rfl) rfl
      · refine ⟨_, _, ?_, .writeMore rfl (.inl rfl)⟩
        exact Eq.trans (request_go (hs.trans h) rfl) rfl
      · refine ⟨_, _, ?_, .upgradeMore rfl h⟩
        cases entry <;> exact Eq.trans (request_go (hs.trans h) rfl) rfl
    | ATOMIC =>
      refine ⟨_, _, ?_, .writeMore rfl (.inr rfl)⟩
      rcases hcases with ⟨h, -⟩ | h | h
      · exact Eq.trans (request_go (hs.trans h) rfl) rfl
      · exact Eq.trans (request_go (hs.trans h) rfl) rfl
      · exact Eq.trans (request_go (hs.trans h) rfl) rfl
    | MEM_FENCE => exact absurd rfl hfence

/-- **Giving the block up.** -/
theorem replacement_spec (now : Nat) (i : ι) (gw : Nat → Nat) (hbal : ℓ.Balanced n) (he : ℓ.entry ≠ none) :
    ∃ ℓ', (controller 0).doTransition .l1Replacement (ℓ.ctx now i gw) = .ok (ℓ'.ctx now i gw) ∧
      ReplaceStep now ℓ ℓ' := by
  obtain ⟨entry, tbe, rp⟩ := ℓ
  obtain ⟨e, rfl⟩ := Option.ne_none_iff_exists'.mp he
  cases tbe with
  | none =>
    refine ⟨_, ?_, .idle rfl⟩
    rcases getState_idle (c := L1Line.ctx ⟨some e, none, rp⟩ now i gw) rfl (hbal.idleEntry rfl)
      with hI | ⟨hS, -⟩
    · exact Eq.trans (Controller.doTransition_go _ hI rfl) rfl
    · exact Eq.trans (Controller.doTransition_go _ hS rfl) rfl
  | some t =>
    have hs : getState (L1Line.ctx ⟨some e, some t, rp⟩ now i gw) = t.stateAt now := getState_tbe rfl
    rcases hbal.stateAt_cases rfl now with ⟨h, -⟩ | h | h
    · exact ⟨_, Controller.doTransition_stall _ (hs.trans h) rfl, .stall⟩
    · refine ⟨_, ?_, .busy rfl h⟩
      exact Eq.trans (Controller.doTransition_go _ (hs.trans h) rfl) rfl
    · exact ⟨_, Controller.doTransition_stall _ (hs.trans h) rfl, .stall⟩

theorem orRResetTime_of_live {c d : L1Ctx ι} (hlive : isLive c = true)
    (hset : setLifetime (c.now - 1) c = .ok d) (hd : isLive d = false) : orRResetTime c = .ok d := by
  simp [orRResetTime, hlive, hset, hd]

/-- **Taking in an ideal invalidation.** -/
theorem idealInvalidate_spec (i : ι) (gw : Nat → Nat) (hnow : 0 < now) (hbal : ℓ.Balanced n) :
    ∃ ℓ', idealInvalidate (ℓ.ctx now i gw) = .ok (ℓ'.ctx now i gw) ∧ ResetStep now ℓ ℓ' := by
  obtain ⟨entry, tbe, rp⟩ := ℓ
  have hpast : ¬ now ≤ now - 1 := by omega
  cases tbe with
  | none =>
    rcases getState_idle (c := L1Line.ctx ⟨entry, none, rp⟩ now i gw) rfl (hbal.idleEntry rfl)
      with hI | ⟨hS, e, he, hes, hlive⟩
    · refine ⟨_, ?_, .idle rfl⟩
      exact Eq.trans (Controller.doTransition_go _ hI rfl) rfl
    · obtain rfl : entry = some e := he
      refine ⟨_, ?_, .copy rfl rfl hes⟩
      have hreset : orRResetTime { L1Line.ctx ⟨some e, none, rp⟩ now i gw with idealInv := true } =
          .ok _ := orRResetTime_of_live (decide_eq_true hlive) rfl (decide_eq_false hpast)
      refine Eq.trans (Controller.doTransition_go _ hS rfl) ?_
      rw [runActions_cons, hreset]
      cases e
      subst hes
      rfl
  | some t =>
    have hs : getState (L1Line.ctx ⟨entry, some t, rp⟩ now i gw) = t.stateAt now := getState_tbe rfl
    rcases hbal.stateAt_cases rfl now with ⟨h, -⟩ | h | h
    · refine ⟨_, ?_, .busy rfl (.inl h)⟩
      exact Eq.trans (Controller.doTransition_go _ (hs.trans h) rfl) rfl
    · refine ⟨_, ?_, .busy rfl (.inr h)⟩
      exact Eq.trans (Controller.doTransition_go _ (hs.trans h) rfl) rfl
    · refine ⟨_, ?_, .upgrade rfl h⟩
      have hreset : orRResetTime { L1Line.ctx ⟨entry, some t, rp⟩ now i gw with idealInv := true } =
          .ok _ :=
        orRResetTime_of_live (decide_eq_true (L1TBE.stateAt_SM h).2) rfl (decide_eq_false hpast)
      refine Eq.trans (Controller.doTransition_go _ (hs.trans h) rfl) ?_
      rw [runActions_cons, hreset]
      rfl

end Request

section Response

variable [DecidableEq ι] {now : Nat} {i : ι} {gw : Nat → Nat} {ℓ : L1Line ι} {n : Kind → Nat}
  {m : ResponseMsg ι} {t : L1TBE}

theorem receive_go {event : L1Event} {next : L1State} {actions : List (Action (L1Ctx ι))}
    (ht : ℓ.tbe = some t) (hev : responseEvent (ℓ.ctx now i gw) m = .ok event)
    (hgo : transitions 0 (t.stateAt now) event = some (.go next actions)) :
    receive m (ℓ.ctx now i gw) =
      (runActions actions { ℓ.ctx now i gw with responseToL1Cache := some m }).map
        (setState next) := by
  simp only [receive, hev]
  exact Controller.doTransition_go event (getState_tbe ht) hgo

theorem receive_data (gw : Nat → Nat) (hbal : ℓ.Balanced n) (ht : ℓ.tbe = some t)
    (hdest : i ∈ m.destination) (htype : m.type = .DATA) (hn : 0 < n .read) :
    ∃ ℓ', receive m (ℓ.ctx now i gw) = .ok (ℓ'.ctx now i gw) ∧ ResponseStep now m ℓ ℓ' := by
  have hr : t.pendingReads = 1 := by
    have hle := hbal.reads_le_one
    rw [hbal.reads t ht]
    omega
  have hw := hbal.writes t ht
  by_cases hpw : 0 < t.pendingWrites
  · have hev : responseEvent (ℓ.ctx now i gw) m = .ok .data := by
      simp [responseEvent, L1Line.ctx, ht, hdest, htype, hr, hpw]
    have h := hbal.stateAt_of_read_write ht now hn (by omega)
    obtain ⟨entry, tbe, rp⟩ := ℓ
    obtain ⟨st, sp, thr, time, pr, pw⟩ := t
    obtain ⟨type, dest, blk, mtime, gwct, mf, mfset, perf⟩ := m
    subst hr ht htype
    refine ⟨_, ?_, .discard rfl rfl hpw h⟩
    exact Eq.trans (receive_go rfl hev (by rw [h]; rfl)) rfl
  · have hpw0 : t.pendingWrites = 0 := by omega
    have hev : responseEvent (ℓ.ctx now i gw) m = .ok .dataDone := by
      simp [responseEvent, L1Line.ctx, ht, hdest, htype, hr, hpw0]
    have hstate := hbal.stateAt_of_read ht now hn
    have hentry := hbal.entry_isSome ht now
    obtain ⟨entry, tbe, rp⟩ := ℓ
    obtain ⟨st, sp, thr, time, pr, pw⟩ := t
    obtain ⟨type, dest, blk, mtime, gwct, mf, mfset, perf⟩ := m
    subst hr ht htype hpw0
    rcases hstate with h | h
    · obtain ⟨e, rfl⟩ := hentry (by rw [h]; nofun)
      refine ⟨_, ?_, .install rfl rfl (L1TBE.stateAt_I_S.mp h)⟩
      exact Eq.trans (receive_go rfl hev (by rw [h]; rfl)) rfl
    · refine ⟨_, ?_, .discardDone rfl rfl rfl h⟩
      exact Eq.trans (receive_go rfl hev (by rw [h]; rfl)) rfl

omit [DecidableEq ι] in
theorem pwDecPendingWrite_of_pos (ht : c.tbe = some t) (hw : 0 < t.pendingWrites) : pwDecPendingWrite c =
      .ok { c with tbe := some { t with pendingWrites := t.pendingWrites - 1 } } := by
  simp only [pwDecPendingWrite, ht]
  exact require_pos (by omega)

/-- The events of the answers to a write: is something left to wait for, or not? -/
def writeEvents : CoherenceResponseType → L1Event × L1Event
  | .DATA_GLOBAL => (.dataG, .dataGDone)
  | .DATA_ATOMIC => (.dataAtomic, .dataAtomicDone)
  | .ACK_GLOBAL => (.ackG, .ackGDone)
  | _ => (.ack, .ackDone)

theorem responseEvent_write (ht : ℓ.tbe = some t) (hdest : i ∈ m.destination)
    (htype : m.type = .ACK ∨ m.type = .ACK_GLOBAL ∨ m.type = .DATA_GLOBAL ∨ m.type = .DATA_ATOMIC)
    (hw : 0 < t.pendingWrites) : responseEvent (ℓ.ctx now i gw) m =
      .ok (if 0 < t.pendingReads ∨ 1 < t.pendingWrites then (writeEvents m.type).1
        else (writeEvents m.type).2) := by
  rcases htype with htype | htype | htype | htype <;>
    simp only [responseEvent, L1Line.ctx, ht, hdest, htype, hw, writeEvents, not_true_eq_false,
      if_false] <;>
    split <;> rfl

theorem receive_write (gw : Nat → Nat) (hbal : ℓ.Balanced n) (ht : ℓ.tbe = some t)
    (hdest : i ∈ m.destination)
    (htype : m.type = .ACK ∨ m.type = .ACK_GLOBAL ∨ m.type = .DATA_GLOBAL ∨ m.type = .DATA_ATOMIC)
    (hn : 0 < n m.kind) :
    ∃ ℓ', receive m (ℓ.ctx now i gw) =
        .ok { ℓ'.ctx now i (m.note ℓ gw) with writeCallback := m.completes } ∧
      ResponseStep now m ℓ ℓ' := by
  have hr := hbal.reads t ht
  have hw := hbal.writes t ht
  have hkind : m.kind = if m.type = .DATA_ATOMIC then .atomic else .write := by
    rcases htype with h | h | h | h <;> simp [ResponseMsg.kind, h]
  have hsum : 0 < n .write + n .atomic := by
    rw [hkind] at hn
    split at hn <;> omega
  have hpw : 0 < t.pendingWrites := by omega
  have hev : responseEvent (ℓ.ctx now i gw) m = _ := responseEvent_write ht hdest htype hpw
  have hstate := hbal.stateAt_of_write ht now hsum
  have hentry := hbal.entry_isSome ht now
  have hsm : t.stateAt now = .SM → m.type ≠ .DATA_ATOMIC := by
    intro h ha
    rw [hkind, if_pos ha] at hn
    rw [hbal.stateAt_of_atomic ht now hn] at h
    cases h
  obtain ⟨entry, tbe, rp⟩ := ℓ
  obtain ⟨st, sp, thr, time, pr, pw⟩ := t
  obtain ⟨type, dest, blk, mtime, gwct, mf, mfset, perf⟩ := m
  obtain rfl : tbe = _ := ht
  have hne : type ≠ .DATA := by
    rintro rfl
    simp at htype
  by_cases hmore : 0 < pr ∨ 1 < pw
  · rw [if_pos hmore] at hev
    rcases hstate with h | h
    · refine ⟨_, ?_, .ack rfl hne h hmore⟩
      rcases htype with rfl | rfl | rfl | rfl <;>
        rw [receive_go rfl hev (by rw [h]; rfl), runActions_cons,
          pwDecPendingWrite_of_pos rfl hpw] <;>
        rfl
    · obtain ⟨e, rfl⟩ := hentry (by rw [h]; nofun)
      have htype' := htype.imp id (Or.imp id fun hg => hg.resolve_right (hsm h))
      refine ⟨_, ?_, .renew rfl rfl htype' h hmore⟩
      rcases htype' with rfl | rfl | rfl <;>
        rw [receive_go rfl hev (by rw [h]; rfl), runActions_cons,
          pwDecPendingWrite_of_pos rfl hpw] <;>
        rfl
  · rw [if_neg hmore] at hev
    simp only at hr hpw
    obtain rfl : pr = 0 := by omega
    obtain rfl : pw = 1 := by omega
    rcases hstate with h | h
    · refine ⟨_, ?_, .ackDone rfl hne h rfl rfl⟩
      rcases htype with rfl | rfl | rfl | rfl <;>
        exact Eq.trans (receive_go rfl hev (by rw [h]; rfl)) rfl
    · obtain ⟨e, rfl⟩ := hentry (by rw [h]; nofun)
      have htype' := htype.imp id (Or.imp id fun hg => hg.resolve_right (hsm h))
      refine ⟨_, ?_, .renewDone rfl rfl htype' h rfl rfl⟩
      rcases htype' with rfl | rfl | rfl <;>
        exact Eq.trans (receive_go rfl hev (by rw [h]; rfl)) rfl

/-- **Taking in a response.** A response that is counted as outstanding is handled without a fault:
it leaves the queue, the line takes a `ResponseStep`, and the L1 notes the completion time. -/
theorem receive_spec (now : Nat) (gw : Nat → Nat) (hbal : ℓ.Balanced n) (hdest : i ∈ m.destination)
    (htype : m.type = .DATA ∨ m.type = .ACK ∨ m.type = .ACK_GLOBAL ∨ m.type = .DATA_GLOBAL ∨
      m.type = .DATA_ATOMIC) (hn : 0 < n m.kind) :
    ∃ ℓ', receive m (ℓ.ctx now i gw) =
        .ok { ℓ'.ctx now i (m.note ℓ gw) with writeCallback := m.completes } ∧
      ResponseStep now m ℓ ℓ' := by
  obtain ⟨t, ht⟩ : ∃ t, ℓ.tbe = some t := by
    refine Option.ne_none_iff_exists'.mp fun ht => ?_
    have := hbal.tbe_eq_none_iff.mp ht m.kind
    omega
  rcases htype with h | h
  · have hnote : m.note ℓ gw = gw := by simp [ResponseMsg.note, ResponseMsg.isGlobal, ht, h]
    have hdone : m.completes = [] := by simp [ResponseMsg.completes, h]
    rw [hnote, hdone]
    simp only [ResponseMsg.kind, h] at hn
    exact receive_data gw hbal ht hdest h hn
  · exact receive_write gw hbal ht hdest h hn

end Response

end L1

/-! ## The steps keep the balance -/

section Balance

variable {now : Nat} {space : MemorySpaceType} {g : MemFetch ι} {delta : Nat} {ℓ ℓ' : L1Line ι}
  {n n' : Kind → Nat} {entry : Option (L1Entry ι)}

/-- The counters of a line with a TBE are compared by arithmetic. -/
theorem L1Line.balanced_busy {t : L1TBE} {rp : Bool}
    (hstate : (t.tbeState = .I_S ∧ entry.isSome ∧ n .write = 0 ∧ n .atomic = 0) ∨
      t.tbeState = .I_I ∨ (t.tbeState = .SM ∧ entry.isSome ∧ n .read = 0 ∧ n .atomic = 0))
    (hread : n .read = if rp then 1 else 0 := by first | omega | simp; omega)
    (hr : t.pendingReads = n .read := by dsimp only; omega)
    (hw : t.pendingWrites = n .write + n .atomic := by dsimp only; omega)
    (hbusy : 0 < n .read + n .write + n .atomic := by omega) :
    L1Line.Balanced ⟨entry, some t, rp⟩ n := by
  refine ⟨hread, nofun, nofun, ?_, ?_, ?_, ?_⟩ <;> rintro _ ⟨⟩ <;> assumption

theorem L1Line.balanced_idle {rp : Bool} (he : ∀ e ∈ entry, e.cacheState = .S ∨ e.cacheState = .I)
    (hread : n .read = if rp then 1 else 0 := by first | omega | simp; omega)
    (hr : n .read = 0 := by omega) (hw : n .write = 0 := by omega) (ha : n .atomic = 0 := by omega) :
    L1Line.Balanced ⟨entry, none, rp⟩ n := by
  have hrp : rp = false := by
    cases rp with
    | false => rfl
    | true => exact absurd (hread.symm.trans hr) (by simp)
  refine ⟨hread, fun _ => ⟨hw, ha, hrp⟩, fun _ => he, ?_, ?_, ?_, ?_⟩ <;> rintro _ ⟨⟩

theorem L1Line.Balanced.in_SM (hbal : ℓ.Balanced n) {t : L1TBE} (ht : ℓ.tbe = some t)
    (hs : t.stateAt now = .SM) : ℓ.entry.isSome ∧ n .read = 0 ∧ n .atomic = 0 ∧ t.pendingReads = 0 ∧
      t.pendingWrites = n .write ∧ 0 < n .write := by
  have hstored := (L1TBE.stateAt_SM hs).1
  have hr := hbal.reads t ht
  have hw := hbal.writes t ht
  have hbusy := hbal.busy t ht
  rcases hbal.state t ht with ⟨h, -⟩ | h | ⟨-, he, h0, ha⟩
  · rw [hstored] at h
    cases h
  · rw [hstored] at h
    cases h
  · exact ⟨he, h0, ha, by omega, by omega, by omega⟩

theorem CoreStep.balanced {sent : Option (RequestMsg ι)}
    (h : CoreStep now space g delta ℓ sent ℓ') (hbal : ℓ.Balanced n)
    (hn : ∀ k, n' k = n k + sent.toList.countP fun m => m.kind = k) : ℓ'.Balanced n' := by
  have hr := hn .read
  have hw := hn .write
  have ha := hn .atomic
  have hrp := hbal.readPending
  cases h with
  | hit h0 ht he hs hlive =>
    obtain rfl : n' = n := funext fun k => by simpa using hn k
    exact hbal
  | @hitSM t h0 ht hs =>
    obtain rfl : n' = n := funext fun k => by simpa using hn k
    obtain ⟨hsome, hr0, ha0, hpr, hpw, hw0⟩ := hbal.in_SM ht hs
    exact L1Line.balanced_busy (.inr (.inr ⟨rfl, by simpa using hsome, hr0, ha0⟩))
  | loadMiss h0 ht =>
    obtain ⟨hw0, ha0, -⟩ := hbal.idle ht
    simp [getsMsg, RequestMsg.kind, h0] at hr hw ha hrp
    exact L1Line.balanced_busy (.inl ⟨rfl, rfl, by omega, by omega⟩)
  | @loadMore t h0 ht hs =>
    have h1 := hbal.reads t ht
    have h2 := hbal.writes t ht
    simp [getsMsg, RequestMsg.kind, h0] at hr hw ha hrp
    exact L1Line.balanced_busy (.inr (.inl rfl))
  | upgrade ht he hs hlive =>
    obtain ⟨hw0, ha0, h0⟩ := hbal.idle ht
    have h1 : n .read = 0 := by rw [hrp, h0]; rfl
    simp [upgradeMsg, RequestMsg.kind] at hr hw ha
    exact L1Line.balanced_busy (.inr (.inr ⟨rfl, rfl, by omega, by omega⟩))
  | @upgradeMore t ht hs =>
    obtain ⟨hsome, hr0, ha0, hpr, hpw, hw0⟩ := hbal.in_SM ht hs
    simp [upgradeMsg, RequestMsg.kind] at hr hw ha
    exact L1Line.balanced_busy (.inr (.inr ⟨rfl, by simpa using hsome, by omega, by omega⟩))
  | write ht htype htime =>
    obtain ⟨hw0, ha0, h0⟩ := hbal.idle ht
    have hsum : n' .write + n' .atomic = 1 := by
      rcases htype with rfl | rfl <;> simp [dataMsg, RequestMsg.kind] at hw ha <;> omega
    have hread : n' .read = n .read := by
      rcases htype with rfl | rfl <;> simpa [dataMsg, RequestMsg.kind] using hr
    have h1 : n .read = 0 := by rw [hrp, h0]; rfl
    exact L1Line.balanced_busy (.inr (.inl rfl))
  | @writeMore t _ ht htype =>
    have h1 := hbal.reads t ht
    have h2 := hbal.writes t ht
    have hsum : n' .write + n' .atomic = n .write + n .atomic + 1 := by
      rcases htype with rfl | rfl <;> simp [dataMsg, RequestMsg.kind] at hw ha <;> omega
    have hread : n' .read = n .read := by
      rcases htype with rfl | rfl <;> simpa [dataMsg, RequestMsg.kind] using hr
    exact L1Line.balanced_busy (.inr (.inl rfl))

theorem L1Line.idleEntry_of_map :
    ∀ e ∈ entry.map fun e => { e with cacheState := L1State.I }, e.cacheState = .S ∨ e.cacheState = .I := by
  intro e he
  obtain ⟨e', -, rfl⟩ := Option.map_eq_some_iff.mp he
  exact .inr rfl

theorem ResponseStep.balanced {m : ResponseMsg ι} (h : ResponseStep now m ℓ ℓ')
    (hbal : ℓ.Balanced n) (hn : ∀ k, n k = n' k + if m.kind = k then 1 else 0) :
    ℓ'.Balanced n' := by
  have hr := hn .read
  have hw := hn .write
  have ha := hn .atomic
  have hrp := hbal.readPending
  have hle := hbal.reads_le_one
  -- an answer to a write, of either kind
  have hwrite : m.type ≠ .DATA → n' .read = n .read ∧ n' .write + n' .atomic + 1 = n .write + n .atomic := by
    intro hm
    have hk : m.kind ≠ .read := by
      intro hk
      unfold ResponseMsg.kind at hk
      split at hk
      · next h => exact hm h
      · cases hk
      · cases hk
    cases hkind : m.kind with
    | read => exact absurd hkind hk
    | write => simp [hkind] at hr hw ha; omega
    | atomic => simp [hkind] at hr hw ha; omega
  cases h with
  | @install t ht hm hs =>
    have hzero : n .write = 0 ∧ n .atomic = 0 := by
      rcases hbal.state t ht with ⟨-, -, h⟩ | h | ⟨h, -⟩
      · exact h
      · rw [hs] at h
        cases h
      · rw [hs] at h
        cases h
    simp [ResponseMsg.kind, hm] at hr hw ha
    refine L1Line.balanced_idle ?_
    rintro _ ⟨⟩
    exact .inl rfl
  | @discard t ht hm hpw hs =>
    have h1 := hbal.reads t ht
    have h2 := hbal.writes t ht
    simp [ResponseMsg.kind, hm] at hr hw ha
    exact L1Line.balanced_busy (.inr (.inl rfl))
  | @discardDone t ht hm hpw hs =>
    have h2 := hbal.writes t ht
    simp [ResponseMsg.kind, hm] at hr hw ha
    exact L1Line.balanced_idle L1Line.idleEntry_of_map
  | @renew t e ht he hm hs hmore =>
    obtain ⟨hsome, hr0, ha0, hpr, hpw, hw0⟩ := hbal.in_SM ht hs
    obtain ⟨hread, hsum⟩ := hwrite (by rcases hm with h | h | h <;> simp [h])
    have hmore' : 1 < t.pendingWrites := hmore.resolve_left (by omega)
    have ha' : n' .atomic ≤ n .atomic := by omega
    exact L1Line.balanced_busy (.inr (.inr ⟨rfl, rfl, by omega, by omega⟩))
  | @renewDone t e ht he hm hs h0 h1 =>
    obtain ⟨hsome, hr0, ha0, hpr, hpw, hw0⟩ := hbal.in_SM ht hs
    obtain ⟨hread, hsum⟩ := hwrite (by rcases hm with h | h | h <;> simp [h])
    refine L1Line.balanced_idle ?_
    rintro _ ⟨⟩
    exact .inl rfl
  | @ack t ht hm hs hmore =>
    have h1 := hbal.reads t ht
    have h2 := hbal.writes t ht
    obtain ⟨hread, hsum⟩ := hwrite hm
    exact L1Line.balanced_busy (.inr (.inl rfl))
  | @ackDone t ht hm hs h0 h1 =>
    have h1 := hbal.reads t ht
    have h2 := hbal.writes t ht
    obtain ⟨hread, hsum⟩ := hwrite hm
    exact L1Line.balanced_idle L1Line.idleEntry_of_map

theorem ReplaceStep.balanced (h : ReplaceStep now ℓ ℓ') (hbal : ℓ.Balanced n) : ℓ'.Balanced n := by
  cases h with
  | idle ht => exact ⟨hbal.readPending, hbal.idle, fun _ => nofun, by simp [ht], by simp [ht],
      by simp [ht], by simp [ht]⟩
  | @busy t ht hs =>
    exact L1Line.balanced_busy (.inr (.inl rfl)) hbal.readPending (hbal.reads t ht)
      (hbal.writes t ht) (hbal.busy t ht)
  | stall => exact hbal

theorem ResetStep.balanced (h : ResetStep now ℓ ℓ') (hbal : ℓ.Balanced n) : ℓ'.Balanced n := by
  cases h with
  | idle ht => exact ⟨hbal.readPending, hbal.idle, fun _ => L1Line.idleEntry_of_map, by simp [ht],
      by simp [ht], by simp [ht], by simp [ht]⟩
  | copy ht he hs =>
    refine ⟨hbal.readPending, hbal.idle, fun _ => ?_, by simp [ht], by simp [ht], by simp [ht],
      by simp [ht]⟩
    rintro _ ⟨⟩
    exact .inl hs
  | @upgrade t ht hs =>
    obtain ⟨hsome, hr0, ha0, -⟩ := hbal.in_SM ht hs
    exact L1Line.balanced_busy (.inr (.inr ⟨rfl, by simpa using hsome, hr0, ha0⟩)) hbal.readPending
      (hbal.reads t ht) (hbal.writes t ht) (hbal.busy t ht)
  | @busy t ht hs =>
    exact L1Line.balanced_busy (.inr (.inl rfl)) hbal.readPending (hbal.reads t ht)
      (hbal.writes t ht) (hbal.busy t ht)

end Balance

end GpgpuSimRuby.Ruby.Cachelease3
