import GpgpuSimRuby.Ruby.Cachelease2.System

/-!
# cachelease2: what an L1 can do in one step

`LineStep` lists the steps of one L1 on its line, each with the request it sends and the response it
takes in; `stepCore_spec`, `stepL1Replace_spec` and `stepL1Response_spec` say that the controller
takes one of them and does not fault. Whatever holds of the L1s from here on is proved by cases on
`LineStep`, without looking at the transition table again.

The premise of the three is `L1Line.Balanced`: the counters of the TBE count what is outstanding,
and the state of the TBE fits to it.
-/

namespace GpgpuSimRuby.Ruby.Cachelease2

open Library

variable {ι : Type}

/-! ## The invariant of a line -/

/-- The kind of transaction a request opens. -/
def RequestMsg.kind (m : RequestMsg ι) : Kind :=
  match m.type with
  | .GETS => .read
  | .DATA_ATOMIC => .atomic
  | _ => .write

/-- The kind of transaction a response closes. -/
def ResponseMsg.kind (m : ResponseMsg ι) : Kind :=
  match m.type with
  | .DATA => .read
  | .DATA_ATOMIC => .atomic
  | _ => .write

/-- The state of a TBE, once an expired `SM` counts as `I_I`. -/
def L1TBE.stateAt (now : Nat) (t : L1TBE) : L1State :=
  if t.tbeState = .SM ∧ t.liveUntilTime < now then .I_I else t.tbeState

/-- The line's counters count the `n` outstanding transactions of each kind, and its state fits:
a TBE exists exactly while something is outstanding, `I_S` waits for a read only, and no atomic is
under way in `SM`. -/
structure L1Line.Balanced (ℓ : L1Line ι) (n : Kind → Nat) : Prop where
  readPending : n .read = if ℓ.readPending then 1 else 0
  idle : ℓ.tbe = none → n .write = 0 ∧ n .atomic = 0 ∧ ℓ.readPending = false
  idleEntry : ℓ.tbe = none → ∀ e ∈ ℓ.entry, e.cacheState = .S ∨ e.cacheState = .I
  reads : ∀ t ∈ ℓ.tbe, t.pendingReads = n .read
  writes : ∀ t ∈ ℓ.tbe, t.pendingWrites = n .write + n .atomic
  busy : ∀ t ∈ ℓ.tbe, 0 < n .read + n .write + n .atomic
  state : ∀ t ∈ ℓ.tbe,
    (t.tbeState = .I_S ∧ ℓ.entry.isSome ∧ n .write = 0 ∧ n .atomic = 0) ∨ t.tbeState = .I_I ∨
    (t.tbeState = .SM ∧ ℓ.entry.isSome ∧ n .atomic = 0)

namespace L1TBE

theorem stateAt_SM {now : Nat} {t : L1TBE} (h : t.stateAt now = .SM) :
    t.tbeState = .SM ∧ now ≤ t.liveUntilTime := by
  unfold stateAt at h
  split at h
  · cases h
  · next hn =>
    refine ⟨h, ?_⟩
    by_contra hlt
    exact hn ⟨h, by omega⟩

theorem stateAt_I_I {now : Nat} {t : L1TBE} (h : t.stateAt now = .I_I) :
    t.tbeState = .I_I ∨ t.tbeState = .SM := by
  unfold stateAt at h
  split at h
  · next hs => exact .inr hs.1
  · exact .inl h

theorem stateAt_I_S {now : Nat} {t : L1TBE} : t.stateAt now = .I_S ↔ t.tbeState = .I_S := by
  unfold stateAt
  split <;> simp_all

end L1TBE

namespace L1Line.Balanced

variable {ℓ : L1Line ι} {n : Kind → Nat} (hbal : ℓ.Balanced n) {t : L1TBE}
include hbal

theorem stateAt_cases (ht : ℓ.tbe = some t) (now : Nat) :
    t.stateAt now = .I_S ∧ 0 < n .read ∨ t.stateAt now = .I_I ∨ t.stateAt now = .SM := by
  rcases hbal.state t ht with ⟨hs, -, hw, ha⟩ | hs | ⟨hs, -⟩
  · have hbusy := hbal.busy t ht
    exact .inl ⟨L1TBE.stateAt_I_S.mpr hs, by omega⟩
  · exact .inr (.inl (by simp [L1TBE.stateAt, hs]))
  · refine .inr ?_
    unfold L1TBE.stateAt
    split
    · exact .inl rfl
    · exact .inr hs

theorem stateAt_of_write (ht : ℓ.tbe = some t) (now : Nat) (hn : 0 < n .write + n .atomic) :
    t.stateAt now = .I_I ∨ t.stateAt now = .SM := by
  rcases hbal.stateAt_cases ht now with ⟨h, -⟩ | h
  · rw [L1TBE.stateAt_I_S] at h
    rcases hbal.state t ht with ⟨-, -, hw, ha⟩ | h' | ⟨h', -⟩
    · omega
    · rw [h] at h'
      cases h'
    · rw [h] at h'
      cases h'
  · exact h

theorem stateAt_of_atomic (ht : ℓ.tbe = some t) (now : Nat) (hn : 0 < n .atomic) :
    t.stateAt now = .I_I := by
  rcases hbal.stateAt_of_write ht now (by omega) with h | h
  · exact h
  · have hs := (L1TBE.stateAt_SM h).1
    rcases hbal.state t ht with ⟨h', -⟩ | h' | ⟨-, -, ha⟩
    · rw [hs] at h'
      cases h'
    · rw [hs] at h'
      cases h'
    · omega

theorem atomic_eq_zero (ht : ℓ.tbe = some t) {now : Nat} (hs : t.stateAt now = .SM) :
    n .atomic = 0 := by
  by_contra hn
  rw [hbal.stateAt_of_atomic ht now (by omega)] at hs
  cases hs

theorem reads_le_one : n .read ≤ 1 := by
  rw [hbal.readPending]
  split <;> omega

theorem tbe_eq_none_iff : ℓ.tbe = none ↔ ∀ k, n k = 0 := by
  constructor
  · intro ht k
    obtain ⟨hw, ha, hr⟩ := hbal.idle ht
    have hread := hbal.readPending
    rw [hr] at hread
    cases k with
    | read => exact hread
    | write => exact hw
    | atomic => exact ha
  · intro h0
    by_contra hne
    obtain ⟨t, ht⟩ := Option.ne_none_iff_exists'.mp hne
    have hbusy := hbal.busy t ht
    simp only [h0] at hbusy
    omega

theorem entry_isSome (ht : ℓ.tbe = some t) (now : Nat) (hs : t.stateAt now ≠ .I_I) :
    ∃ e, ℓ.entry = some e := by
  rcases hbal.state t ht with ⟨-, he, -⟩ | h | ⟨-, he, -⟩
  · exact Option.isSome_iff_exists.mp he
  · exact absurd (by simp [L1TBE.stateAt, h]) hs
  · exact Option.isSome_iff_exists.mp he

end L1Line.Balanced

/-! ## The steps -/

/-- The requests an L1 sends, for the access `g` in `space`. -/
def getsMsg (cfg : Config) (space : MemorySpaceType) (g : MemFetch ι) : RequestMsg ι :=
  { type := .GETS, requestor := g.sid, space := space, deltaRequested := cfg.fixedLease,
    memfetch := g }

def upgradeMsg (space : MemorySpaceType) (g : MemFetch ι) (time : Nat) : RequestMsg ι :=
  { type := .DATA_UPGRADE, requestor := g.sid, space := space, dirty := true,
    liveUntilTime := time, memfetch := g }

def dataMsg (type : CoherenceRequestType) (space : MemorySpaceType) (g : MemFetch ι) :
    RequestMsg ι :=
  { type := type, requestor := g.sid, space := space, dirty := true, memfetch := g }

/-- The steps of an L1 that a request of the core causes, with the message they send. -/
inductive CoreStep (cfg : Config) (now : Nat) (space : MemorySpaceType) (g : MemFetch ι)
    (ℓ : L1Line ι) : Option (RequestMsg ι) → L1Line ι → Prop
  /-- A load hits a live copy in `S`. -/
  | hit {e} (hr : ℓ.readPending = false) (ht : ℓ.tbe = none) (he : ℓ.entry = some e)
      (hs : e.cacheState = .S) (hlive : now ≤ e.liveUntilTime) : CoreStep cfg now space g ℓ none ℓ
  /-- A load misses and opens a TBE in `I_S`. -/
  | loadMiss (hr : ℓ.readPending = false) (ht : ℓ.tbe = none) :
      CoreStep cfg now space g ℓ (some (getsMsg cfg space g))
        { entry := some { ℓ.entry.getD {} with cacheState := .I_S }
          tbe := some { tbeState := .I_S, space := space, threadID := g.wid, pendingReads := 1 }
          readPending := true }
  /-- A load joins the writes that are under way. -/
  | loadMore {t} (hr : ℓ.readPending = false) (ht : ℓ.tbe = some t)
      (hs : t.tbeState = .I_I ∨ t.tbeState = .SM) :
      CoreStep cfg now space g ℓ (some (getsMsg cfg space g))
        { entry := ℓ.entry.map fun e => { e with cacheState := t.stateAt now }
          tbe := some { t with tbeState := t.stateAt now, pendingReads := t.pendingReads + 1 }
          readPending := true }
  /-- A write hits a live copy in `S` and sends its time along. -/
  | upgrade {e} (ht : ℓ.tbe = none) (he : ℓ.entry = some e) (hs : e.cacheState = .S)
      (hlive : now ≤ e.liveUntilTime) :
      CoreStep cfg now space g ℓ (some (upgradeMsg space g e.liveUntilTime))
        { entry := some { e with cacheState := cfg.wthruNext }
          tbe := some { tbeState := cfg.wthruNext, space := space, threadID := g.wid,
                        liveUntilTime := e.liveUntilTime, pendingWrites := 1 }
          readPending := ℓ.readPending }
  /-- A write joins the upgrades that are under way in a live `SM`. -/
  | upgradeMore {t} (ht : ℓ.tbe = some t) (hs : t.stateAt now = .SM) :
      CoreStep cfg now space g ℓ (some (upgradeMsg space g t.liveUntilTime))
        { entry := ℓ.entry.map fun e => { e with cacheState := .SM }
          tbe := some { t with tbeState := .SM, pendingWrites := t.pendingWrites + 1 }
          readPending := ℓ.readPending }
  /-- A write misses, or an atomic comes first: a TBE in `I_I`, with no time or that of the entry. -/
  | write {type time} (ht : ℓ.tbe = none) (htype : type = .DATA ∨ type = .DATA_ATOMIC)
      (htime : time = 0 ∨ ∃ e ∈ ℓ.entry, time = e.liveUntilTime) :
      CoreStep cfg now space g ℓ (some (dataMsg type space g))
        { entry := ℓ.entry.map fun e => { e with cacheState := .I_I }
          tbe := some { tbeState := .I_I, space := space, threadID := g.wid,
                        liveUntilTime := time, pendingWrites := 1 }
          readPending := ℓ.readPending }
  /-- A write or an atomic joins what is under way, which leaves the copy behind. -/
  | writeMore {t type} (ht : ℓ.tbe = some t) (htype : type = .DATA ∨ type = .DATA_ATOMIC) :
      CoreStep cfg now space g ℓ (some (dataMsg type space g))
        { entry := ℓ.entry.map fun e => { e with cacheState := .I_I }
          tbe := some { t with tbeState := .I_I, pendingWrites := t.pendingWrites + 1 }
          readPending := ℓ.readPending }

/-- The steps of an L1 that take in the response `m`. -/
inductive ResponseStep [DecidableEq ι] (now : Nat) (i : ι) (m : ResponseMsg ι) (ℓ : L1Line ι) :
    L1Line ι → Prop
  /-- Data is installed with its lease: nothing else is under way. -/
  | install {t} (ht : ℓ.tbe = some t) (hm : m.type = .DATA) (hw : t.pendingWrites = 0)
      (hs : t.stateAt now = .I_S ∨ t.stateAt now = .SM) :
      ResponseStep now i m ℓ
        { entry := some { cacheState := .S, dataBlk := m.dataBlk, liveUntilTime := m.liveUntilTime
                          filledFor := L1.answered m i }
          tbe := none, readPending := false }
  /-- Data is handed to the core and dropped, since writes are under way. -/
  | discard {t} (ht : ℓ.tbe = some t) (hm : m.type = .DATA) (hw : 0 < t.pendingWrites)
      (hs : t.tbeState = .I_I ∨ t.tbeState = .SM) :
      ResponseStep now i m ℓ
        { entry := ℓ.entry.map fun e => { e with cacheState := t.stateAt now }
          tbe := some { t with tbeState := t.stateAt now, pendingReads := t.pendingReads - 1 }
          readPending := false }
  /-- Data is handed to the core and dropped, and was the last. -/
  | discardDone {t} (ht : ℓ.tbe = some t) (hm : m.type = .DATA) (hw : t.pendingWrites = 0)
      (hs : t.stateAt now = .I_I) :
      ResponseStep now i m ℓ
        { entry := ℓ.entry.map fun e => { e with cacheState := .I }
          tbe := none, readPending := false }
  /-- An acknowledgement renews the lease of the copy in a live `SM`. -/
  | renew {t e} (ht : ℓ.tbe = some t) (he : ℓ.entry = some e) (hm : m.type = .ACK)
      (hs : t.stateAt now = .SM) (hmore : 0 < t.pendingReads ∨ 1 < t.pendingWrites) :
      ResponseStep now i m ℓ
        { entry := some { e with cacheState := .SM, liveUntilTime := m.liveUntilTime }
          tbe := some { t with tbeState := .SM, pendingWrites := t.pendingWrites - 1 }
          readPending := ℓ.readPending }
  /-- The last acknowledgement in a live `SM`: back to `S` with the renewed lease. -/
  | renewDone {t e} (ht : ℓ.tbe = some t) (he : ℓ.entry = some e) (hm : m.type = .ACK)
      (hs : t.stateAt now = .SM) (hr : t.pendingReads = 0) (hw : t.pendingWrites = 1) :
      ResponseStep now i m ℓ
        { entry := some { e with cacheState := .S, liveUntilTime := m.liveUntilTime }
          tbe := none, readPending := ℓ.readPending }
  /-- A write is answered in `I_I`. -/
  | ack {t} (ht : ℓ.tbe = some t) (hm : m.type = .ACK ∨ m.type = .DATA_ATOMIC)
      (hs : t.stateAt now = .I_I) (hmore : 0 < t.pendingReads ∨ 1 < t.pendingWrites) :
      ResponseStep now i m ℓ
        { entry := ℓ.entry.map fun e => { e with cacheState := .I_I }
          tbe := some { t with tbeState := .I_I, pendingWrites := t.pendingWrites - 1 }
          readPending := ℓ.readPending }
  /-- The last write is answered in `I_I`. -/
  | ackDone {t} (ht : ℓ.tbe = some t) (hm : m.type = .ACK ∨ m.type = .DATA_ATOMIC)
      (hs : t.stateAt now = .I_I) (hr : t.pendingReads = 0) (hw : t.pendingWrites = 1) :
      ResponseStep now i m ℓ
        { entry := ℓ.entry.map fun e => { e with cacheState := .I }
          tbe := none, readPending := ℓ.readPending }

/-! ## The controller takes one of them -/

namespace L1

variable {c : L1Ctx ι}

theorem getState_tbe {t : L1TBE} (ht : c.tbe = some t) : getState c = t.stateAt c.now := by
  simp [getState, isLive, L1TBE.stateAt, ht]

theorem getState_idle (ht : c.tbe = none) (he : ∀ e ∈ c.entry, e.cacheState = .S ∨ e.cacheState = .I) :
    (getState c = .I) ∨
      (getState c = .S ∧ ∃ e, c.entry = some e ∧ e.cacheState = .S ∧ c.now ≤ e.liveUntilTime) := by
  cases hc : c.entry with
  | none => simp [getState, ht, hc]
  | some e =>
    by_cases hl : c.now ≤ e.liveUntilTime
    · rcases he e (by simp [hc]) with h | h <;> simp [getState, isLive, ht, hc, h, hl]
    · simp [getState, isLive, ht, hc, hl]

theorem request_go [DecidableEq ι] (cfg : Config) {inMsg : CacheMsg ι} {event : L1Event}
    {s next : L1State} {actions : List (Action (L1Ctx ι))}
    (hev : mandatoryRequestTypeToEvent inMsg.type = .ok event) (hs : getState c = s)
    (ht : transitionsWith cfg.wthruNext cfg.fixedLease s event = some (.go next actions)) :
    request cfg.l1Controller inMsg c =
      (runActions actions { c with
        mandatoryQueue := some inMsg
        readPending := if inMsg.type = .LD then true else c.readPending }).map (setState next) := by
  simp only [request, hev]
  exact Controller.doTransition_go event hs ht

theorem request_spec [DecidableEq ι] (cfg : Config) (now : Nat) (space : MemorySpaceType) (g : MemFetch ι)
    {type : CacheRequestType} {ℓ : L1Line ι} {n : Kind → Nat} (hbal : ℓ.Balanced n)
    (hmshr : type = .LD → ℓ.readPending = false) (hfence : type ≠ .MEM_FENCE) :
    ∃ sent ℓ', request cfg.l1Controller
        { type := type, space := space, threadID := g.wid, memfetch := g } (ℓ.ctx now g.sid) =
        .ok { ℓ'.ctx now g.sid with requestFromL1Cache := sent.toList } ∧
      CoreStep cfg now space g ℓ sent ℓ' := by
  obtain ⟨entry, tbe, rp⟩ := ℓ
  cases tbe with
  | none =>
    rcases getState_idle (c := L1Line.ctx ⟨entry, none, rp⟩ now g.sid) rfl (hbal.idleEntry rfl)
      with hI | ⟨hS, e, he, hes, hlive⟩
    · cases type with
      | LD =>
        obtain rfl := hmshr rfl
        refine ⟨_, _, ?_, .loadMiss rfl rfl⟩
        cases entry <;> exact Eq.trans (request_go cfg rfl hI rfl) rfl
      | ST =>
        refine ⟨_, _, ?_, .write rfl (.inl rfl) (.inl rfl)⟩
        exact Eq.trans (request_go cfg rfl hI rfl) rfl
      | ATOMIC =>
        refine ⟨_, _, ?_, .write rfl (.inr rfl) (.inl rfl)⟩
        exact Eq.trans (request_go cfg rfl hI rfl) rfl
      | MEM_FENCE => exact absurd rfl hfence
    · obtain rfl : entry = some e := he
      cases type with
      | LD =>
        obtain rfl := hmshr rfl
        refine ⟨_, _, ?_, .hit rfl rfl rfl hes hlive⟩
        cases e
        subst hes
        exact Eq.trans (request_go cfg rfl hS rfl) rfl
      | ST =>
        refine ⟨_, _, ?_, .upgrade rfl rfl hes hlive⟩
        exact Eq.trans (request_go cfg rfl hS rfl) rfl
      | ATOMIC =>
        refine ⟨_, _, ?_, .write rfl (.inr rfl) (.inr ⟨e, rfl, rfl⟩)⟩
        exact Eq.trans (request_go cfg rfl hS rfl) rfl
      | MEM_FENCE => exact absurd rfl hfence
  | some t =>
    have hs : getState (L1Line.ctx ⟨entry, some t, rp⟩ now g.sid) = t.stateAt now :=
      getState_tbe rfl
    have hcases : t.stateAt now = .I_S ∧ 0 < n .read ∨ t.stateAt now = .I_I ∨ t.stateAt now = .SM :=
      hbal.stateAt_cases rfl now
    cases type with
    | LD =>
      obtain rfl := hmshr rfl
      have hread : n .read = 0 := hbal.readPending
      rcases hcases with ⟨-, h⟩ | h | h
      · omega
      · refine ⟨_, _, ?_, .loadMore rfl rfl (L1TBE.stateAt_I_I h)⟩
        exact Eq.trans (request_go cfg rfl (hs.trans h) rfl) (by rw [h]; rfl)
      · refine ⟨_, _, ?_, .loadMore rfl rfl (.inr (L1TBE.stateAt_SM h).1)⟩
        exact Eq.trans (request_go cfg rfl (hs.trans h) rfl) (by rw [h]; rfl)
    | ST =>
      rcases hcases with ⟨h, -⟩ | h | h
      · refine ⟨_, _, ?_, .writeMore rfl (.inl rfl)⟩
        exact Eq.trans (request_go cfg rfl (hs.trans h) rfl) rfl
      · refine ⟨_, _, ?_, .writeMore rfl (.inl rfl)⟩
        exact Eq.trans (request_go cfg rfl (hs.trans h) rfl) rfl
      · refine ⟨_, _, ?_, .upgradeMore rfl h⟩
        exact Eq.trans (request_go cfg rfl (hs.trans h) rfl) rfl
    | ATOMIC =>
      refine ⟨_, _, ?_, .writeMore rfl (.inr rfl)⟩
      rcases hcases with ⟨h, -⟩ | h | h
      · exact Eq.trans (request_go cfg rfl (hs.trans h) rfl) rfl
      · exact Eq.trans (request_go cfg rfl (hs.trans h) rfl) rfl
      · exact Eq.trans (request_go cfg rfl (hs.trans h) rfl) rfl
    | MEM_FENCE => exact absurd rfl hfence

theorem replacement_spec [DecidableEq ι] (cfg : Config) (now : Nat) (i : ι) {ℓ : L1Line ι} {n : Kind → Nat}
    (hbal : ℓ.Balanced n) (he : ℓ.entry ≠ none) :
    cfg.l1Controller.doTransition .l1Replacement (ℓ.ctx now i) =
      .ok ((if ℓ.tbe = none then { ℓ with entry := none } else ℓ).ctx now i) := by
  obtain ⟨entry, tbe, rp⟩ := ℓ
  cases tbe with
  | none =>
    obtain ⟨e, rfl⟩ := Option.ne_none_iff_exists'.mp he
    rcases getState_idle (c := L1Line.ctx ⟨some e, none, rp⟩ now i) rfl (hbal.idleEntry rfl)
      with hI | ⟨hS, -⟩
    · exact Eq.trans (Controller.doTransition_go _ hI rfl) rfl
    · exact Eq.trans (Controller.doTransition_go _ hS rfl) rfl
  | some t =>
    have hs : getState (L1Line.ctx ⟨entry, some t, rp⟩ now i) = t.stateAt now := getState_tbe rfl
    rcases hbal.stateAt_cases rfl now with ⟨h, -⟩ | h | h
    · exact Eq.trans (Controller.doTransition_stall _ (hs.trans h) rfl) rfl
    · exact Eq.trans (Controller.doTransition_stall _ (hs.trans h) rfl) rfl
    · exact Eq.trans (Controller.doTransition_stall _ (hs.trans h) rfl) rfl

section Response

variable [DecidableEq ι] (cfg : Config) {now : Nat} {i : ι} {ℓ : L1Line ι} {n : Kind → Nat}
  {m : ResponseMsg ι} {t : L1TBE}

theorem receive_go {event : L1Event} {next : L1State} {actions : List (Action (L1Ctx ι))}
    (ht : ℓ.tbe = some t) (hev : responseEvent (ℓ.ctx now i) m = .ok event)
    (hgo : transitionsWith cfg.wthruNext cfg.fixedLease (t.stateAt now) event = some (.go next actions)) :
    receive cfg.l1Controller m (ℓ.ctx now i) =
      (runActions actions { ℓ.ctx now i with responseToL1Cache := some m }).map (setState next) := by
  simp only [receive, hev]
  exact Controller.doTransition_go event (getState_tbe ht) hgo

theorem receive_data (hbal : ℓ.Balanced n) (ht : ℓ.tbe = some t) (hdest : i ∈ m.destination)
    (htype : m.type = .DATA) (hn : 0 < n .read) :
    ∃ ℓ', receive cfg.l1Controller m (ℓ.ctx now i) = .ok (ℓ'.ctx now i) ∧ ResponseStep now i m ℓ ℓ' := by
  have hr : t.pendingReads = 1 := by
    have hle := hbal.reads_le_one
    rw [hbal.reads t ht]
    omega
  have hw := hbal.writes t ht
  by_cases hpw : 0 < t.pendingWrites
  · have hev : responseEvent (ℓ.ctx now i) m = .ok .data := by
      simp [responseEvent, L1Line.ctx, ht, hdest, htype, hr, hpw]
    have hns := hbal.stateAt_of_write ht now (by omega)
    obtain ⟨entry, tbe, rp⟩ := ℓ
    obtain ⟨st, sp, thr, time, pr, pw⟩ := t
    obtain ⟨type, dest, blk, mtime, mf, mfset⟩ := m
    subst hr ht htype
    rcases hns with h | h
    · refine ⟨_, ?_, .discard rfl rfl hpw (L1TBE.stateAt_I_I h)⟩
      rw [receive_go cfg rfl hev (by rw [h]; rfl), h]
      rfl
    · refine ⟨_, ?_, .discard rfl rfl hpw (.inr (L1TBE.stateAt_SM h).1)⟩
      rw [receive_go cfg rfl hev (by rw [h]; rfl), h]
      rfl
  · have hpw0 : t.pendingWrites = 0 := by omega
    have hev : responseEvent (ℓ.ctx now i) m = .ok .dataDone := by
      simp [responseEvent, L1Line.ctx, ht, hdest, htype, hr, hpw0]
    have hstate := hbal.stateAt_cases ht now
    have hentry := hbal.entry_isSome ht now
    obtain ⟨entry, tbe, rp⟩ := ℓ
    obtain ⟨st, sp, thr, time, pr, pw⟩ := t
    obtain ⟨type, dest, blk, mtime, mf, mfset⟩ := m
    subst hr ht htype hpw0
    rcases hstate with ⟨h, -⟩ | h | h
    · obtain ⟨e, rfl⟩ := hentry (by rw [h]; nofun)
      refine ⟨_, ?_, .install rfl rfl rfl (.inl h)⟩
      exact Eq.trans (receive_go cfg rfl hev (by rw [h]; rfl)) rfl
    · refine ⟨_, ?_, .discardDone rfl rfl rfl h⟩
      exact Eq.trans (receive_go cfg rfl hev (by rw [h]; rfl)) rfl
    · obtain ⟨e, rfl⟩ := hentry (by rw [h]; nofun)
      refine ⟨_, ?_, .install rfl rfl rfl (.inr h)⟩
      exact Eq.trans (receive_go cfg rfl hev (by rw [h]; rfl)) rfl

omit [DecidableEq ι] in
theorem pwDecPendingWrite_of_pos (ht : c.tbe = some t) (hw : 0 < t.pendingWrites) : pwDecPendingWrite c =
      .ok { c with tbe := some { t with pendingWrites := t.pendingWrites - 1 } } := by
  simp only [pwDecPendingWrite, ht]
  exact require_pos (by omega)

theorem responseEvent_ack (ht : ℓ.tbe = some t) (hdest : i ∈ m.destination) (htype : m.type = .ACK)
    (hw : 0 < t.pendingWrites) : responseEvent (ℓ.ctx now i) m =
      .ok (if 0 < t.pendingReads ∨ 1 < t.pendingWrites then .ack else .ackDone) := by
  simp only [responseEvent, L1Line.ctx, ht, hdest, htype, hw, not_true_eq_false, if_false]
  split <;> rfl

theorem responseEvent_atomic (ht : ℓ.tbe = some t) (hdest : i ∈ m.destination)
    (htype : m.type = .DATA_ATOMIC) (hw : 0 < t.pendingWrites) :
    responseEvent (ℓ.ctx now i) m =
      .ok (if 0 < t.pendingReads ∨ 1 < t.pendingWrites then .dataAtomic else .dataAtomicDone) := by
  simp only [responseEvent, L1Line.ctx, ht, hdest, htype, hw, not_true_eq_false, if_false]
  split <;> rfl

theorem receive_ack (hbal : ℓ.Balanced n) (ht : ℓ.tbe = some t) (hdest : i ∈ m.destination)
    (htype : m.type = .ACK) (hn : 0 < n .write) :
    ∃ ℓ', receive cfg.l1Controller m (ℓ.ctx now i) = .ok (ℓ'.ctx now i) ∧ ResponseStep now i m ℓ ℓ' := by
  have hr := hbal.reads t ht
  have hw := hbal.writes t ht
  have hpw : 0 < t.pendingWrites := by omega
  have hev : responseEvent (ℓ.ctx now i) m = _ := responseEvent_ack ht hdest htype hpw
  have hstate := hbal.stateAt_of_write ht now (by omega)
  have hentry := hbal.entry_isSome ht now
  obtain ⟨entry, tbe, rp⟩ := ℓ
  obtain ⟨st, sp, thr, time, pr, pw⟩ := t
  obtain ⟨type, dest, blk, mtime, mf, mfset⟩ := m
  subst ht htype
  by_cases hmore : 0 < pr ∨ 1 < pw
  · rw [if_pos hmore] at hev
    rcases hstate with h | h
    · refine ⟨_, ?_, .ack rfl (.inl rfl) h hmore⟩
      rw [receive_go cfg rfl hev (by rw [h]; rfl), runActions_cons, pwDecPendingWrite_of_pos rfl hpw]
      rfl
    · obtain ⟨e, rfl⟩ := hentry (by rw [h]; nofun)
      refine ⟨_, ?_, .renew rfl rfl rfl h hmore⟩
      rw [receive_go cfg rfl hev (by rw [h]; rfl), runActions_cons, pwDecPendingWrite_of_pos rfl hpw]
      rfl
  · rw [if_neg hmore] at hev
    simp only at hr hpw
    obtain rfl : pr = 0 := by omega
    obtain rfl : pw = 1 := by omega
    rcases hstate with h | h
    · refine ⟨_, ?_, .ackDone rfl (.inl rfl) h rfl rfl⟩
      exact Eq.trans (receive_go cfg rfl hev (by rw [h]; rfl)) rfl
    · obtain ⟨e, rfl⟩ := hentry (by rw [h]; nofun)
      refine ⟨_, ?_, .renewDone rfl rfl rfl h rfl rfl⟩
      exact Eq.trans (receive_go cfg rfl hev (by rw [h]; rfl)) rfl

theorem receive_atomic (hbal : ℓ.Balanced n) (ht : ℓ.tbe = some t) (hdest : i ∈ m.destination)
    (htype : m.type = .DATA_ATOMIC) (hn : 0 < n .atomic) :
    ∃ ℓ', receive cfg.l1Controller m (ℓ.ctx now i) = .ok (ℓ'.ctx now i) ∧ ResponseStep now i m ℓ ℓ' := by
  have hr := hbal.reads t ht
  have hw := hbal.writes t ht
  have hpw : 0 < t.pendingWrites := by omega
  have hev : responseEvent (ℓ.ctx now i) m = _ := responseEvent_atomic ht hdest htype hpw
  have h := hbal.stateAt_of_atomic ht now hn
  obtain ⟨entry, tbe, rp⟩ := ℓ
  obtain ⟨st, sp, thr, time, pr, pw⟩ := t
  obtain ⟨type, dest, blk, mtime, mf, mfset⟩ := m
  subst ht htype
  by_cases hmore : 0 < pr ∨ 1 < pw
  · rw [if_pos hmore] at hev
    refine ⟨_, ?_, .ack rfl (.inr rfl) h hmore⟩
    rw [receive_go cfg rfl hev (by rw [h]; rfl), runActions_cons, pwDecPendingWrite_of_pos rfl hpw]
    rfl
  · rw [if_neg hmore] at hev
    simp only at hr hpw
    obtain rfl : pr = 0 := by omega
    obtain rfl : pw = 1 := by omega
    refine ⟨_, ?_, .ackDone rfl (.inr rfl) h rfl rfl⟩
    exact Eq.trans (receive_go cfg rfl hev (by rw [h]; rfl)) rfl

/-- **Taking in a response.** A response that is counted as outstanding is handled without a fault:
it leaves the queue and the line takes a `ResponseStep`. -/
theorem receive_spec (now : Nat) (hbal : ℓ.Balanced n) (hdest : i ∈ m.destination)
    (htype : m.type = .DATA ∨ m.type = .ACK ∨ m.type = .DATA_ATOMIC) (hn : 0 < n m.kind) :
    ∃ ℓ', receive cfg.l1Controller m (ℓ.ctx now i) = .ok (ℓ'.ctx now i) ∧ ResponseStep now i m ℓ ℓ' := by
  obtain ⟨t, ht⟩ : ∃ t, ℓ.tbe = some t := by
    refine Option.ne_none_iff_exists'.mp fun ht => ?_
    have := hbal.tbe_eq_none_iff.mp ht m.kind
    omega
  rcases htype with h | h | h <;> simp only [ResponseMsg.kind, h] at hn
  · exact receive_data cfg hbal ht hdest h hn
  · exact receive_ack cfg hbal ht hdest h hn
  · exact receive_atomic cfg hbal ht hdest h hn

end Response

end L1

/-! ## The steps keep the balance -/

section Balance

variable {cfg : Config} {now : Nat} {space : MemorySpaceType} {g : MemFetch ι} {ℓ ℓ' : L1Line ι}
  {n n' : Kind → Nat}

/-- The counters of a line with a TBE are compared by arithmetic. -/
theorem L1Line.balanced_busy {entry : Option (L1Entry ι)} {t : L1TBE} {rp : Bool}
    (hstate : (t.tbeState = .I_S ∧ entry.isSome ∧ n .write = 0 ∧ n .atomic = 0) ∨
      t.tbeState = .I_I ∨ (t.tbeState = .SM ∧ entry.isSome ∧ n .atomic = 0))
    (hread : n .read = if rp then 1 else 0 := by first | omega | simp; omega)
    (hr : t.pendingReads = n .read := by dsimp only; omega)
    (hw : t.pendingWrites = n .write + n .atomic := by dsimp only; omega)
    (hbusy : 0 < n .read + n .write + n .atomic := by omega) :
    L1Line.Balanced ⟨entry, some t, rp⟩ n := by
  refine ⟨hread, nofun, nofun, ?_, ?_, ?_, ?_⟩ <;> rintro _ ⟨⟩ <;> assumption

theorem L1Line.balanced_idle {entry : Option (L1Entry ι)}
    (he : ∀ e ∈ entry, e.cacheState = .S ∨ e.cacheState = .I) (hr : n .read = 0 := by omega)
    (hw : n .write = 0 := by omega) (ha : n .atomic = 0 := by omega) :
    L1Line.Balanced ⟨entry, none, false⟩ n := by
  refine ⟨hr, fun _ => ⟨hw, ha, rfl⟩, fun _ => he, ?_, ?_, ?_, ?_⟩ <;> rintro _ ⟨⟩

theorem L1Line.Balanced.not_readPending (hbal : ℓ.Balanced n) (h : n .read = 0) :
    ℓ.readPending = false := by
  have hrp := hbal.readPending
  rw [h] at hrp
  cases hp : ℓ.readPending with
  | false => rfl
  | true => simp [hp] at hrp

/-- An entry that has gone to `I`. -/
theorem entry_I {entry : Option (L1Entry ι)} {e : L1Entry ι}
    (he : e ∈ entry.map fun e => { e with cacheState := .I }) : e.cacheState = .S ∨ e.cacheState = .I := by
  obtain ⟨e', -, rfl⟩ := Option.map_eq_some_iff.mp he
  exact .inr rfl

theorem L1Line.Balanced.replace (hbal : ℓ.Balanced n) (ht : ℓ.tbe = none) :
    ({ ℓ with entry := none } : L1Line ι).Balanced n := by
  obtain ⟨entry, tbe, rp⟩ := ℓ
  obtain rfl : tbe = none := ht
  obtain ⟨hw, ha, hr⟩ := hbal.idle rfl
  obtain rfl : rp = false := hr
  exact L1Line.balanced_idle nofun hbal.readPending

theorem CoreStep.balanced {sent : Option (RequestMsg ι)} (h : CoreStep cfg now space g ℓ sent ℓ')
    (hbal : ℓ.Balanced n)
    (hn : ∀ k, n' k = n k + sent.toList.countP fun m => m.kind = k) : ℓ'.Balanced n' := by
  have hr := hn .read
  have hw := hn .write
  have ha := hn .atomic
  have hrp := hbal.readPending
  cases h with
  | hit h0 ht he hs hlive =>
    obtain rfl : n' = n := funext fun k => by simpa using hn k
    exact hbal
  | loadMiss h0 ht =>
    obtain ⟨hw0, ha0, -⟩ := hbal.idle ht
    simp [getsMsg, RequestMsg.kind, h0] at hr hw ha hrp
    exact L1Line.balanced_busy (.inl ⟨rfl, rfl, by omega, by omega⟩)
  | @loadMore t h0 ht hs =>
    have h1 := hbal.reads t ht
    have h2 := hbal.writes t ht
    have h3 := hbal.busy t ht
    simp [getsMsg, RequestMsg.kind, h0] at hr hw ha hrp
    refine L1Line.balanced_busy ?_
    rcases hbal.state t ht with ⟨h', -⟩ | h' | ⟨h', he, ha0⟩
    · simp [h'] at hs
    · simp [L1TBE.stateAt, h']
    · rcases hbal.stateAt_cases ht now with h | h | h
      · omega
      · simp [h]
      · simp [h, he]
        omega
  | upgrade ht he hs hlive =>
    obtain ⟨hw0, ha0, h0⟩ := hbal.idle ht
    have h1 : n .read = 0 := by rw [hrp, h0]; rfl
    simp [upgradeMsg, RequestMsg.kind] at hr hw ha
    refine L1Line.balanced_busy ?_
    simp only [Config.wthruNext]
    cases cfg.variant <;> simp <;> omega
  | @upgradeMore t ht hs =>
    have h1 := hbal.reads t ht
    have h2 := hbal.writes t ht
    obtain ⟨e, he⟩ := hbal.entry_isSome ht now (by rw [hs]; nofun)
    simp [upgradeMsg, RequestMsg.kind] at hr hw ha
    refine L1Line.balanced_busy ?_
    have := hbal.atomic_eq_zero ht hs
    simp [he]; omega
  | write ht htype htime =>
    obtain ⟨hw0, ha0, h0⟩ := hbal.idle ht
    have h1 : n .read = 0 := by rw [hrp, h0]; rfl
    rcases htype with rfl | rfl <;> simp [dataMsg, RequestMsg.kind] at hr hw ha <;>
      exact L1Line.balanced_busy (.inr (.inl rfl))
  | @writeMore t _ ht htype =>
    have h1 := hbal.reads t ht
    have h2 := hbal.writes t ht
    rcases htype with rfl | rfl <;> simp [dataMsg, RequestMsg.kind] at hr hw ha <;>
      exact L1Line.balanced_busy (.inr (.inl rfl))

theorem ResponseStep.balanced [DecidableEq ι] {i : ι} {m : ResponseMsg ι} (h : ResponseStep now i m ℓ ℓ')
    (hbal : ℓ.Balanced n) (hn : ∀ k, n k = n' k + if m.kind = k then 1 else 0) :
    ℓ'.Balanced n' := by
  have hr := hn .read
  have hw := hn .write
  have ha := hn .atomic
  have hrp := hbal.readPending
  have hle := hbal.reads_le_one
  cases h with
  | @install t ht hm hpw hs =>
    have h2 := hbal.writes t ht
    simp [ResponseMsg.kind, hm] at hr hw ha
    refine L1Line.balanced_idle ?_
    rintro _ ⟨⟩
    exact .inl rfl
  | @discard t ht hm hpw hs =>
    have h1 := hbal.reads t ht
    have h2 := hbal.writes t ht
    have hstate := hbal.stateAt_of_write ht now (by omega)
    simp [ResponseMsg.kind, hm] at hr hw ha
    refine L1Line.balanced_busy ?_
    rcases hstate with h | h
    · simp [h]
    · obtain ⟨e, he⟩ := hbal.entry_isSome ht now (by rw [h]; nofun)
      have := hbal.atomic_eq_zero ht h
      simp [h, he]; omega
  | @discardDone t ht hm hpw hs =>
    have h2 := hbal.writes t ht
    simp [ResponseMsg.kind, hm] at hr hw ha
    exact L1Line.balanced_idle fun _ => entry_I
  | @renew t e ht he hm hs hmore =>
    have h1 := hbal.reads t ht
    have h2 := hbal.writes t ht
    have h3 := hbal.atomic_eq_zero ht hs
    simp [ResponseMsg.kind, hm] at hr hw ha
    exact L1Line.balanced_busy (.inr (.inr ⟨rfl, rfl, by omega⟩))
  | @renewDone t e ht he hm hs h0 h1 =>
    have h1 := hbal.reads t ht
    have h2 := hbal.writes t ht
    simp [ResponseMsg.kind, hm] at hr hw ha
    rw [hbal.not_readPending (by omega)]
    refine L1Line.balanced_idle ?_
    rintro _ ⟨⟩
    exact .inl rfl
  | @ack t ht hm hs hmore =>
    have h1 := hbal.reads t ht
    have h2 := hbal.writes t ht
    rcases hm with hm | hm <;> simp [ResponseMsg.kind, hm] at hr hw ha <;>
      exact L1Line.balanced_busy (.inr (.inl rfl))
  | @ackDone t ht hm hs h0 h1 =>
    have h1 := hbal.reads t ht
    have h2 := hbal.writes t ht
    rw [hbal.not_readPending (by omega)]
    rcases hm with hm | hm <;> simp [ResponseMsg.kind, hm] at hr hw ha <;>
      exact L1Line.balanced_idle fun _ => entry_I

end Balance

end GpgpuSimRuby.Ruby.Cachelease2
