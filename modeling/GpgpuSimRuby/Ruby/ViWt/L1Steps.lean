import GpgpuSimRuby.Ruby.ViWt.Network

/-!
# VI_wt: what an L1 can do in one step

`CoreStep`, `ReplaceStep`, `ResponseStep` and `InvStep` list the steps of one L1 on its line, each
with the request it sends; the four `…_spec` theorems say that the controller takes one of them and
does not fault. Whatever holds of the L1s from here on is proved by cases on these relations, without
looking at the transition table again.

The premise is `L1Line.Balanced`: the counters of the TBE count what is outstanding, and the state of
the TBE fits to it.
-/

namespace GpgpuSimRuby.Ruby.ViWt

open Library

variable {ι : Type}

/-! ## The invariant of a line -/

/-- The kind of transaction a request opens; a notice opens none. -/
def RequestMsg.kind (m : RequestMsg ι) : Option Kind :=
  match m.type with
  | .GETS => some .read
  | .DATA => some .write
  | .DATA_ATOMIC => some .atomic
  | _ => none

/-- The kind of transaction a response closes. -/
def ResponseMsg.kind (m : ResponseMsg ι) : Kind :=
  match m.type with
  | .DATA => .read
  | .DATA_ATOMIC => .atomic
  | _ => .write

/-- The state the controller finds the line in. -/
def L1Line.state (ℓ : L1Line) : L1State :=
  match ℓ.tbe, ℓ.entry with
  | some t, _ => t.tbeState
  | none, some e => e.cacheState
  | none, none => .I

theorem L1Line.state_tbe {ℓ : L1Line} {t : L1TBE} (ht : ℓ.tbe = some t) : ℓ.state = t.tbeState := by
  simp [L1Line.state, ht]

/-- The line's counters count the `n` outstanding transactions of each kind, and its state fits:
a TBE exists exactly while something is outstanding, `I_S` waits for a read only, and no atomic is
under way in `S_M`. -/
structure L1Line.Balanced (ℓ : L1Line) (n : Kind → Nat) : Prop where
  readPending : n .read = if ℓ.readPending then 1 else 0
  idle : ℓ.tbe = none → n .write = 0 ∧ n .atomic = 0 ∧ ℓ.readPending = false
  idleEntry : ℓ.tbe = none → ∀ e ∈ ℓ.entry, e.cacheState = .S ∨ e.cacheState = .I
  reads : ∀ t ∈ ℓ.tbe, t.pendingReads = n .read
  writes : ∀ t ∈ ℓ.tbe, t.pendingWrites = n .write + n .atomic
  busy : ∀ t ∈ ℓ.tbe, 0 < n .read + n .write + n .atomic
  state : ∀ t ∈ ℓ.tbe,
    (t.tbeState = .I_S ∧ ℓ.entry.isSome ∧ n .write = 0 ∧ n .atomic = 0) ∨ t.tbeState = .I_I ∨
    (t.tbeState = .S_M ∧ ℓ.entry.isSome ∧ n .atomic = 0)

namespace L1Line.Balanced

variable {ℓ : L1Line} {n : Kind → Nat} (hbal : ℓ.Balanced n) {t : L1TBE}
include hbal

theorem reads_le_one : n .read ≤ 1 := by
  rw [hbal.readPending]
  split <;> omega

theorem tbe_eq_none_iff : ℓ.tbe = none ↔ ∀ k, n k = 0 := by
  constructor
  · intro ht k
    obtain ⟨hw, ha, hr⟩ := hbal.idle ht
    have hread := hbal.readPending
    rw [hr] at hread
    cases k with
    | read => exact hread
    | write => exact hw
    | atomic => exact ha
  · intro h0
    by_contra hne
    obtain ⟨t, ht⟩ := Option.ne_none_iff_exists'.mp hne
    have hbusy := hbal.busy t ht
    simp only [h0] at hbusy
    omega

theorem exists_tbe {k : Kind} (hk : 0 < n k) : ∃ t, ℓ.tbe = some t := by
  rw [← Option.ne_none_iff_exists']
  intro ht
  have := hbal.tbe_eq_none_iff.mp ht k
  omega

theorem read_of_I_S (ht : ℓ.tbe = some t) (hs : t.tbeState = .I_S) :
    n .read = 1 ∧ n .write = 0 ∧ n .atomic = 0 := by
  have hbusy := hbal.busy t ht
  have hle := hbal.reads_le_one
  rcases hbal.state t ht with ⟨-, -, hw, ha⟩ | h | ⟨h, -⟩
  · omega
  · rw [hs] at h
    cases h
  · rw [hs] at h
    cases h

theorem state_of_ne_I_S (ht : ℓ.tbe = some t) (hs : t.tbeState ≠ .I_S) :
    t.tbeState = .I_I ∨ (t.tbeState = .S_M ∧ ℓ.entry.isSome ∧ n .atomic = 0) :=
  (hbal.state t ht).resolve_left fun h => hs h.1

theorem state_of_write (ht : ℓ.tbe = some t) (hn : 0 < n .write + n .atomic) :
    t.tbeState = .I_I ∨ t.tbeState = .S_M := by
  rcases hbal.state t ht with ⟨-, -, hw, ha⟩ | h | ⟨h, -⟩
  · omega
  · exact .inl h
  · exact .inr h

theorem state_of_atomic (hn : 0 < n .atomic) : ℓ.state = .I_I := by
  obtain ⟨t, ht⟩ := hbal.exists_tbe hn
  rw [L1Line.state_tbe ht]
  rcases hbal.state t ht with ⟨-, -, hw, ha⟩ | h | ⟨-, -, ha⟩
  · omega
  · exact h
  · omega

theorem state_ne_I_S (hn : 0 < n .write + n .atomic) : ℓ.state ≠ .I_S := by
  have htbe : ∃ t, ℓ.tbe = some t := by
    by_cases hw : 0 < n .write
    · exact hbal.exists_tbe hw
    · exact hbal.exists_tbe (k := .atomic) (by omega)
  obtain ⟨t, ht⟩ := htbe
  rw [L1Line.state_tbe ht]
  rcases hbal.state_of_write ht hn with h | h <;> rw [h] <;> decide

theorem relabel {n' : Kind → Nat} (hr : n' .read = n .read)
    (hwa : n' .write + n' .atomic = n .write + n .atomic) (ha : n' .atomic ≤ n .atomic) : ℓ.Balanced n' := by
  have hwa' : (n' .write + n' .atomic : Int) = n .write + n .atomic := by exact_mod_cast hwa
  refine ⟨by rw [hr]; exact hbal.readPending, ?_, hbal.idleEntry, ?_, ?_, ?_, ?_⟩
  · intro ht
    obtain ⟨hw, ha', hp⟩ := hbal.idle ht
    exact ⟨by omega, by omega, hp⟩
  · rw [hr]
    exact hbal.reads
  · rw [hwa']
    exact hbal.writes
  · intro t ht
    have := hbal.busy t ht
    omega
  · intro t ht
    rcases hbal.state t ht with ⟨h, he, hw, ha'⟩ | h | ⟨h, he, ha'⟩
    · exact .inl ⟨h, he, by omega, by omega⟩
    · exact .inr (.inl h)
    · exact .inr (.inr ⟨h, he, by omega⟩)

theorem exists_entry (ht : ℓ.tbe = some t) (hs : t.tbeState ≠ .I_I) : ∃ e, ℓ.entry = some e := by
  rcases hbal.state t ht with ⟨-, he, -⟩ | h | ⟨-, he, -⟩
  · exact Option.isSome_iff_exists.mp he
  · exact absurd h hs
  · exact Option.isSome_iff_exists.mp he

end L1Line.Balanced

theorem L1Line.state_idle {ℓ : L1Line} (ht : ℓ.tbe = none)
    (he : ∀ e ∈ ℓ.entry, e.cacheState = .S ∨ e.cacheState = .I) :
    ℓ.state = .I ∨ ℓ.state = .S ∧ ∃ e, ℓ.entry = some e ∧ e.cacheState = .S := by
  unfold L1Line.state
  rw [ht]
  cases hc : ℓ.entry with
  | none => exact .inl rfl
  | some e =>
    rcases he e hc with h | h
    · exact .inr ⟨h, e, rfl, h⟩
    · exact .inl h

/-! ## The steps -/

/-- The requests an L1 sends, for the access `g` in `space`. -/
def getsMsg (space : MemorySpaceType) (g : MemFetch ι) : RequestMsg ι :=
  { type := .GETS, requestor := g.sid, space := space, memfetch := some g }

def dataMsg (type : CoherenceRequestType) (space : MemorySpaceType) (g : MemFetch ι) :
    RequestMsg ι :=
  { type := type, requestor := g.sid, dirty := true, space := space, memfetch := some g }

/-- The notice of an eviction. -/
def evicMsg (i : ι) : RequestMsg ι := { type := .L1_EVIC_INV, requestor := i }

/-- Set the state of what is there of the entry. -/
def setEntryState (s : L1State) (entry : Option L1Entry) : Option L1Entry :=
  entry.map fun e => { e with cacheState := s }

/-- The steps of an L1 that a request of the core causes, with the message they send. -/
inductive CoreStep (space : MemorySpaceType) (g : MemFetch ι) (ℓ : L1Line) :
    Option (RequestMsg ι) → L1Line → Prop
  /-- A load hits a copy in `S`. -/
  | hit (hr : ℓ.readPending = false) (ht : ℓ.tbe = none) (hs : ℓ.state = .S) :
      CoreStep space g ℓ none ℓ
  /-- A load misses and opens a TBE in `I_S`. -/
  | loadMiss (hr : ℓ.readPending = false) (ht : ℓ.tbe = none) (hs : ℓ.state = .I) :
      CoreStep space g ℓ (some (getsMsg space g))
        { entry := some { cacheState := .I_S }
          tbe := some { tbeState := .I_S, space := space, pendingReads := 1 }
          readPending := true }
  /-- A load joins the writes that are under way. -/
  | loadMore {t} (hr : ℓ.readPending = false) (ht : ℓ.tbe = some t)
      (hs : t.tbeState = .I_I ∨ t.tbeState = .S_M) :
      CoreStep space g ℓ (some (getsMsg space g))
        { entry := setEntryState t.tbeState ℓ.entry
          tbe := some { t with pendingReads := t.pendingReads + 1 }
          readPending := true }
  /-- A write hits a copy in `S` and keeps it. -/
  | writeHit (ht : ℓ.tbe = none) (hs : ℓ.state = .S) :
      CoreStep space g ℓ (some (dataMsg .DATA space g))
        { entry := setEntryState .S_M ℓ.entry
          tbe := some { tbeState := .S_M, space := space, pendingWrites := 1 }
          readPending := ℓ.readPending }
  /-- A write joins those that are under way in `S_M`. -/
  | writeHitMore {t} (ht : ℓ.tbe = some t) (hs : t.tbeState = .S_M) :
      CoreStep space g ℓ (some (dataMsg .DATA space g))
        { entry := setEntryState .S_M ℓ.entry
          tbe := some { t with pendingWrites := t.pendingWrites + 1 }
          readPending := ℓ.readPending }
  /-- A write misses, or an atomic comes first: a TBE in `I_I`. -/
  | write {type} (ht : ℓ.tbe = none) (htype : type = .DATA ∨ type = .DATA_ATOMIC) :
      CoreStep space g ℓ (some (dataMsg type space g))
        { entry := setEntryState .I_I ℓ.entry
          tbe := some { tbeState := .I_I, space := space, pendingWrites := 1 }
          readPending := ℓ.readPending }
  /-- A write or an atomic joins what is under way, which leaves the copy behind. -/
  | writeMore {t type} (ht : ℓ.tbe = some t) (htype : type = .DATA ∨ type = .DATA_ATOMIC) :
      CoreStep space g ℓ (some (dataMsg type space g))
        { entry := setEntryState .I_I ℓ.entry
          tbe := some { t with tbeState := .I_I, pendingWrites := t.pendingWrites + 1 }
          readPending := ℓ.readPending }

/-- The steps of an L1 that make room, with the notice they send. -/
inductive ReplaceStep (p : L1.Protocol) (i : ι) (ℓ : L1Line) : Option (RequestMsg ι) → L1Line → Prop
  /-- A copy in `S` is dropped. -/
  | evict (ht : ℓ.tbe = none) (hs : ℓ.state = .S) :
      ReplaceStep p i ℓ (if p = .VI_wt_ee then some (evicMsg i) else none) { ℓ with entry := none }
  /-- An invalid copy is dropped. -/
  | drop (hs : ℓ.state = .I ∨ ℓ.state = .I_I) : ReplaceStep p i ℓ none { ℓ with entry := none }
  | stall : ReplaceStep p i ℓ none ℓ

/-- Where the last outstanding response leaves the line. -/
def L1State.done : L1State → L1State
  | .S_M => .S
  | _ => .I

/-- The steps of an L1 that take in the response `m`. -/
inductive ResponseStep (m : ResponseMsg ι) (ℓ : L1Line) : L1Line → Prop
  /-- Data is installed: nothing else is under way. -/
  | install {t} (ht : ℓ.tbe = some t) (hm : m.type = .DATA) (hs : t.tbeState = .I_S) :
      ResponseStep m ℓ { entry := setEntryState .S ℓ.entry, tbe := none, readPending := false }
  /-- Data is handed to the core and dropped, since writes are under way. -/
  | data {t} (ht : ℓ.tbe = some t) (hm : m.type = .DATA) (hw : 0 < t.pendingWrites)
      (hs : t.tbeState = .I_I ∨ t.tbeState = .S_M) :
      ResponseStep m ℓ
        { entry := setEntryState t.tbeState ℓ.entry
          tbe := some { t with pendingReads := t.pendingReads - 1 }
          readPending := false }
  /-- Data is handed to the core and dropped, and was the last. -/
  | dataDone {t} (ht : ℓ.tbe = some t) (hm : m.type = .DATA) (hw : t.pendingWrites = 0)
      (hs : t.tbeState = .I_I ∨ t.tbeState = .S_M) :
      ResponseStep m ℓ
        { entry := setEntryState t.tbeState.done ℓ.entry, tbe := none, readPending := false }
  /-- A write is answered. -/
  | ack {t} (ht : ℓ.tbe = some t) (hm : m.type = .WB_ACK ∨ m.type = .DATA_ATOMIC)
      (hmore : 0 < t.pendingReads ∨ 1 < t.pendingWrites) (hw : 0 < t.pendingWrites)
      (hs : t.tbeState = .I_I ∨ t.tbeState = .S_M) :
      ResponseStep m ℓ
        { entry := setEntryState t.tbeState ℓ.entry
          tbe := some { t with pendingWrites := t.pendingWrites - 1 }
          readPending := ℓ.readPending }
  /-- The last write is answered. -/
  | ackDone {t} (ht : ℓ.tbe = some t) (hm : m.type = .WB_ACK ∨ m.type = .DATA_ATOMIC)
      (hr : t.pendingReads = 0) (hw : t.pendingWrites = 1)
      (hs : t.tbeState = .I_I ∨ t.tbeState = .S_M) :
      ResponseStep m ℓ
        { entry := setEntryState t.tbeState.done ℓ.entry, tbe := none, readPending := ℓ.readPending }

/-- The steps of an L1 that take in an invalidation: no copy is left. -/
inductive InvStep (ℓ : L1Line) : L1Line → Prop
  | idle (ht : ℓ.tbe = none) : InvStep ℓ { ℓ with entry := setEntryState .I ℓ.entry }
  | busy {t} (ht : ℓ.tbe = some t) :
      InvStep ℓ { ℓ with entry := setEntryState .I_I ℓ.entry, tbe := some { t with tbeState := .I_I } }

/-! ## The controller takes one of them -/

namespace L1

variable [DecidableEq ι] {p : Protocol} {sharers : Finset ι} {i : ι} {ℓ : L1Line} {n : Kind → Nat}

section Request

variable {space : MemorySpaceType} {g : MemFetch ι} {type : CacheRequestType}

theorem request_go {inMsg : CacheMsg ι} {c : L1Ctx ι} {event : L1Event}
    {s next : L1State} {actions : List (Action (L1Ctx ι))}
    (hev : mandatoryRequestTypeToEvent inMsg.type = .ok event) (hs : getState c = s)
    (ht : transitions p s event = some (.go next actions)) :
    request p inMsg c =
      (runActions actions { c with
        mandatoryQueue := some inMsg
        readPending := if inMsg.type = .LD then true else c.readPending }).map (setState next) := by
  simp only [request, hev]
  exact Controller.doTransition_go event hs ht

theorem request_idle (hbal : ℓ.Balanced n) (ht : ℓ.tbe = none)
    (hmshr : type = .LD → ℓ.readPending = false) (hfence : type ≠ .MEM_FENCE) :
    ∃ sent ℓ', request p { type := type, space := space, threadID := g.wid, memfetch := g }
        (ℓ.ctx g.sid sharers) =
        .ok { ℓ'.ctx g.sid sharers with requestFromL1Cache := sent.toList } ∧
      CoreStep space g ℓ sent ℓ' := by
  obtain ⟨entry, tbe, rp⟩ := ℓ
  obtain rfl : tbe = none := ht
  rcases L1Line.state_idle rfl (hbal.idleEntry rfl) with hI | ⟨hS, e, he, hes⟩
  · cases type with
    | LD =>
      obtain rfl := hmshr rfl
      refine ⟨_, _, ?_, .loadMiss rfl rfl hI⟩
      cases entry <;> exact Eq.trans (request_go rfl hI rfl) rfl
    | ST =>
      refine ⟨_, _, ?_, .write rfl (.inl rfl)⟩
      exact Eq.trans (request_go rfl hI rfl) rfl
    | ATOMIC =>
      refine ⟨_, _, ?_, .write rfl (.inr rfl)⟩
      exact Eq.trans (request_go rfl hI rfl) rfl
    | MEM_FENCE => exact absurd rfl hfence
  · obtain rfl : entry = some e := he
    cases type with
    | LD =>
      obtain rfl := hmshr rfl
      refine ⟨_, _, ?_, .hit rfl rfl hS⟩
      cases e
      subst hes
      exact Eq.trans (request_go rfl hS rfl) rfl
    | ST =>
      refine ⟨_, _, ?_, .writeHit rfl hS⟩
      exact Eq.trans (request_go rfl hS rfl) rfl
    | ATOMIC =>
      refine ⟨_, _, ?_, .write rfl (.inr rfl)⟩
      exact Eq.trans (request_go rfl hS rfl) rfl
    | MEM_FENCE => exact absurd rfl hfence

theorem request_busy {t : L1TBE} (hbal : ℓ.Balanced n) (ht : ℓ.tbe = some t)
    (hmshr : type = .LD → ℓ.readPending = false) (hfence : type ≠ .MEM_FENCE) :
    ∃ sent ℓ', request p { type := type, space := space, threadID := g.wid, memfetch := g }
        (ℓ.ctx g.sid sharers) =
        .ok { ℓ'.ctx g.sid sharers with requestFromL1Cache := sent.toList } ∧
      CoreStep space g ℓ sent ℓ' := by
  have hread := hbal.read_of_I_S ht
  obtain ⟨entry, tbe, rp⟩ := ℓ
  obtain rfl : tbe = some t := ht
  obtain ⟨st, sp, pr, pw⟩ := t
  have hcases : st = .I_S ∨ st = .I_I ∨ st = .S_M := by
    rcases hbal.state _ rfl with ⟨h, -⟩ | h | ⟨h, -⟩
    · exact .inl h
    · exact .inr (.inl h)
    · exact .inr (.inr h)
  cases type with
  | LD =>
    obtain rfl := hmshr rfl
    have hn : n .read = 0 := hbal.readPending
    rcases hcases with rfl | rfl | rfl
    · have := (hread rfl).1
      omega
    · refine ⟨_, _, ?_, .loadMore rfl rfl (.inl rfl)⟩
      exact Eq.trans (request_go rfl rfl rfl) rfl
    · refine ⟨_, _, ?_, .loadMore rfl rfl (.inr rfl)⟩
      exact Eq.trans (request_go rfl rfl rfl) rfl
  | ST =>
    rcases hcases with rfl | rfl | rfl
    · refine ⟨_, _, ?_, .writeMore rfl (.inl rfl)⟩
      exact Eq.trans (request_go rfl rfl rfl) rfl
    · refine ⟨_, _, ?_, .writeMore rfl (.inl rfl)⟩
      exact Eq.trans (request_go rfl rfl rfl) rfl
    · refine ⟨_, _, ?_, .writeHitMore rfl rfl⟩
      exact Eq.trans (request_go rfl rfl rfl) rfl
  | ATOMIC =>
    refine ⟨_, _, ?_, .writeMore rfl (.inr rfl)⟩
    rcases hcases with rfl | rfl | rfl
    · exact Eq.trans (request_go rfl rfl rfl) rfl
    · exact Eq.trans (request_go rfl rfl rfl) rfl
    · exact Eq.trans (request_go rfl rfl rfl) rfl
  | MEM_FENCE => exact absurd rfl hfence

/-- **A request of the core** is a `CoreStep`. -/
theorem request_spec (sharers : Finset ι) (space : MemorySpaceType) (g : MemFetch ι)
    (hbal : ℓ.Balanced n) (hmshr : type = .LD → ℓ.readPending = false) (hfence : type ≠ .MEM_FENCE) :
    ∃ sent ℓ', request p { type := type, space := space, threadID := g.wid, memfetch := g }
        (ℓ.ctx g.sid sharers) =
        .ok { ℓ'.ctx g.sid sharers with requestFromL1Cache := sent.toList } ∧
      CoreStep space g ℓ sent ℓ' := by
  cases ht : ℓ.tbe with
  | none => exact request_idle hbal ht hmshr hfence
  | some t => exact request_busy hbal ht hmshr hfence

end Request

/-- **Making room** is a `ReplaceStep`. -/
theorem replacement_spec (hbal : ℓ.Balanced n) (he : ℓ.entry ≠ none)
    (hsh : ℓ.entry.isSome → i ∈ sharers) :
    ∃ sent ℓ', (controller p).doTransition .l1Replacement (ℓ.ctx i sharers) =
        .ok { ℓ'.ctx i sharers with requestFromL1Cache := sent.toList } ∧
      ReplaceStep p i ℓ sent ℓ' := by
  obtain ⟨e, he⟩ := Option.ne_none_iff_exists'.mp he
  obtain ⟨entry, tbe, rp⟩ := ℓ
  obtain rfl : entry = some e := he
  cases tbe with
  | none =>
    rcases L1Line.state_idle rfl (hbal.idleEntry rfl) with hI | ⟨hS, -⟩
    · exact ⟨_, _, Eq.trans (Controller.doTransition_go _ hI rfl) rfl, .drop (.inl hI)⟩
    · refine ⟨_, _, ?_, .evict rfl hS⟩
      refine Eq.trans (Controller.doTransition_go _ hS rfl) ?_
      cases p with
      | VI_wt => rfl
      | VI_wt_b => rfl
      | VI_wt_ee => rfl
      | VI_wt_ni =>
        have hmem : i ∈ sharers := hsh rfl
        by_cases hcard : sharers.card = 1
        · simp [replaceActions, runActions, pPEProfilePrivateEviction, L1Line.ctx, hcard, hmem,
            ffDeallocateL1CacheBlock, controller, setState, Except.map]
        · simp [replaceActions, runActions, pPEProfilePrivateEviction, L1Line.ctx, hcard,
            ffDeallocateL1CacheBlock, controller, setState, Except.map]
  | some t =>
    obtain ⟨st, sp, pr, pw⟩ := t
    rcases hbal.state _ rfl with ⟨rfl, -⟩ | rfl | ⟨rfl, -⟩
    · exact ⟨_, _, Eq.trans (Controller.doTransition_stall _ rfl rfl) rfl, .stall⟩
    · exact ⟨_, _, Eq.trans (Controller.doTransition_go _ rfl rfl) rfl, .drop (.inr rfl)⟩
    · exact ⟨_, _, Eq.trans (Controller.doTransition_stall _ rfl rfl) rfl, .stall⟩

theorem invalidate_go {sharers : Finset ι} {m : InvMsg ι} (hdest : i ∈ m.destination)
    (htype : m.type = .INV ∨ m.type = .RECALL) {s next : L1State} (hs : ℓ.state = s)
    (htrans : transitions (ι := ι) p s .inv = some (.go next [jSendInvAck, ouPopIncomingRequestQueue]))
    {ℓ' : L1Line} (hstep : InvStep ℓ ℓ')
    (hnext : ∀ ack, setState next { ℓ.ctx i sharers with unblockFromL1Cache := [ack] } =
      { ℓ'.ctx i sharers with unblockFromL1Cache := [ack] }) :
    ∃ ack ℓ', invalidate p m (ℓ.ctx i sharers) =
        .ok { ℓ'.ctx i sharers with unblockFromL1Cache := [ack] } ∧
      (ack.type = .INV_ACK ∨ ack.type = .RECALL_ACK) ∧ ack.sender = i ∧ ack.ackCount = 1 ∧
      InvStep ℓ ℓ' := by
  have hrun := Controller.doTransition_go (C := controller (ι := ι) p)
    (c := { ℓ.ctx i sharers with requestToL1Cache := some m }) .inv hs htrans
  rcases htype with h | h
  · refine ⟨⟨.INV_ACK, i, 1⟩, ℓ', ?_, .inl rfl, rfl, rfl, hstep⟩
    rw [← hnext]
    simp [invalidate, L1Line.ctx, hdest, h] at hrun ⊢
    rw [hrun]
    simp [runActions, jSendInvAck, peekInv, h, ouPopIncomingRequestQueue, Except.map, controller,
      setState]
  · refine ⟨⟨.RECALL_ACK, i, 1⟩, ℓ', ?_, .inr rfl, rfl, rfl, hstep⟩
    rw [← hnext]
    simp [invalidate, L1Line.ctx, hdest, h] at hrun ⊢
    rw [hrun]
    simp [runActions, jSendInvAck, peekInv, h, ouPopIncomingRequestQueue, Except.map, controller,
      setState]

/-- **An invalidation** is an `InvStep`, and is acknowledged. -/
theorem invalidate_spec (sharers : Finset ι) (hbal : ℓ.Balanced n) {m : InvMsg ι}
    (hdest : i ∈ m.destination) (htype : m.type = .INV ∨ m.type = .RECALL) :
    ∃ ack ℓ', invalidate p m (ℓ.ctx i sharers) =
        .ok { ℓ'.ctx i sharers with unblockFromL1Cache := [ack] } ∧
      (ack.type = .INV_ACK ∨ ack.type = .RECALL_ACK) ∧ ack.sender = i ∧ ack.ackCount = 1 ∧
      InvStep ℓ ℓ' := by
  obtain ⟨entry, tbe, rp⟩ := ℓ
  cases tbe with
  | none =>
    rcases L1Line.state_idle rfl (hbal.idleEntry rfl) with hI | ⟨hS, -⟩
    · exact invalidate_go hdest htype hI rfl (.idle rfl) fun _ => rfl
    · exact invalidate_go hdest htype hS rfl (.idle rfl) fun _ => rfl
  | some t =>
    obtain ⟨st, sp, pr, pw⟩ := t
    rcases hbal.state _ rfl with ⟨rfl, -⟩ | rfl | ⟨rfl, -⟩
    · exact invalidate_go hdest htype rfl rfl (.busy rfl) fun _ => rfl
    · exact invalidate_go hdest htype rfl rfl (.busy rfl) fun _ => rfl
    · exact invalidate_go hdest htype rfl rfl (.busy rfl) fun _ => rfl

theorem receive_go {m : ResponseMsg ι} {c : L1Ctx ι} {event : L1Event} {s next : L1State}
    {actions : List (Action (L1Ctx ι))} (hev : responseEvent c m = .ok event) (hs : getState c = s)
    (ht : transitions p s event = some (.go next actions)) : receive p m c =
      (runActions actions { c with responseToL1Cache := some m }).map (setState next) := by
  simp only [receive, hev]
  exact Controller.doTransition_go event hs ht

theorem receive_data (hbal : ℓ.Balanced n) {m : ResponseMsg ι} (hdest : i ∈ m.destination)
    (htype : m.type = .DATA) (hn : 0 < n .read) :
    ∃ ℓ', receive p m (ℓ.ctx i sharers) = .ok (ℓ'.ctx i sharers) ∧ ResponseStep m ℓ ℓ' := by
  obtain ⟨t, ht⟩ := hbal.exists_tbe hn
  have hone : t.pendingReads = 1 := by
    have hreads := hbal.reads t ht
    have := hbal.reads_le_one
    omega
  have hIS := hbal.read_of_I_S ht
  have hentry := hbal.exists_entry ht
  have hst := hbal.state t ht
  obtain ⟨entry, tbe, rp⟩ := ℓ
  obtain rfl : tbe = some t := ht
  obtain ⟨st, sp, pr, pw⟩ := t
  obtain rfl : pr = 1 := hone
  obtain ⟨mtype, dest, g, mf⟩ := m
  obtain rfl : mtype = .DATA := htype
  have hwrites : pw = n .write + n .atomic := hbal.writes _ rfl
  have hev : ∀ event, (if 0 < pw then L1Event.data else L1Event.dataDone) = event →
      responseEvent ((L1Line.mk entry (some ⟨st, sp, 1, pw⟩) rp).ctx i sharers)
        ⟨.DATA, dest, g, mf⟩ = .ok event := by
    rintro event rfl
    by_cases hpw : 0 < pw <;> simp [responseEvent, L1Line.ctx, hdest, hpw]
  by_cases hpw : 0 < pw
  · have hdata := hev .data (if_pos hpw)
    rcases hst with ⟨rfl, -⟩ | rfl | ⟨rfl, -⟩
    · have := hIS rfl
      omega
    · exact ⟨_, Eq.trans (receive_go hdata rfl rfl) rfl, .data rfl rfl hpw (.inl rfl)⟩
    · exact ⟨_, Eq.trans (receive_go hdata rfl rfl) rfl, .data rfl rfl hpw (.inr rfl)⟩
  · have hdone := hev .dataDone (if_neg hpw)
    obtain rfl : pw = 0 := by omega
    rcases hst with ⟨rfl, -⟩ | rfl | ⟨rfl, -⟩
    · obtain ⟨e, he⟩ := hentry (show L1State.I_S ≠ .I_I by decide)
      obtain rfl : entry = some e := he
      exact ⟨_, Eq.trans (receive_go hdone rfl rfl) rfl, .install rfl rfl rfl⟩
    · exact ⟨_, Eq.trans (receive_go hdone rfl rfl) rfl, .dataDone rfl rfl rfl (.inl rfl)⟩
    · exact ⟨_, Eq.trans (receive_go hdone rfl rfl) rfl, .dataDone rfl rfl rfl (.inr rfl)⟩

theorem receive_ack (hbal : ℓ.Balanced n) {m : ResponseMsg ι} (hdest : i ∈ m.destination)
    (htype : m.type = .WB_ACK ∨ m.type = .DATA_ATOMIC) (hn : 0 < n m.kind) :
    ∃ ℓ', receive p m (ℓ.ctx i sharers) = .ok (ℓ'.ctx i sharers) ∧ ResponseStep m ℓ ℓ' := by
  obtain ⟨t, ht⟩ := hbal.exists_tbe hn
  have hwa : 0 < n .write + n .atomic := by
    rcases htype with h | h <;> simp only [ResponseMsg.kind, h] at hn <;> omega
  have hst := hbal.state_of_write ht hwa
  obtain ⟨entry, tbe, rp⟩ := ℓ
  obtain rfl : tbe = some t := ht
  obtain ⟨st, sp, pr, pw⟩ := t
  have hwrites : pw = n .write + n .atomic := hbal.writes _ rfl
  have hreads : pr = n .read := hbal.reads _ rfl
  have hpw : 0 < pw := by omega
  have hone : 1 ≤ pw := hpw
  have hev : ∀ event,
      (if 0 < pr ∨ 1 < pw then L1Event.wbOrAtomic else L1Event.wbOrAtomicDone) = event →
      responseEvent ((L1Line.mk entry (some ⟨st, sp, pr, pw⟩) rp).ctx i sharers) m = .ok event := by
    rintro event rfl
    rcases htype with h | h <;> by_cases hmore : 0 < pr ∨ 1 < pw <;>
      simp only [responseEvent, L1Line.ctx, hdest, h, hpw, hmore] <;> simp
  by_cases hmore : 0 < pr ∨ 1 < pw
  · have hack := hev .wbOrAtomic (if_pos hmore)
    refine ⟨_, ?_, .ack rfl htype hmore hpw hst⟩
    rcases hst with rfl | rfl <;> rw [receive_go hack rfl rfl] <;>
      rcases htype with h | h <;>
      simp [runActions, pwDecPendingWrite, require, hhStoreHit, peekResponse,
        oPopIncomingResponseQueue, h, hone, Except.map, setState, L1Line.ctx, setEntryState]
  · have hdone := hev .wbOrAtomicDone (if_neg hmore)
    obtain rfl : pr = 0 := by omega
    obtain rfl : pw = 1 := by omega
    refine ⟨_, ?_, .ackDone rfl htype rfl rfl hst⟩
    rcases hst with rfl | rfl <;> rw [receive_go hdone rfl rfl] <;>
      rcases htype with h | h <;>
      simp [runActions, pwDecPendingWrite, require, hhStoreHit, peekResponse, sDeallocateTBE,
        oPopIncomingResponseQueue, h, Except.map, setState, L1Line.ctx, setEntryState, L1State.done]

/-- **A response** is a `ResponseStep`. -/
theorem receive_spec (sharers : Finset ι) (hbal : ℓ.Balanced n) {m : ResponseMsg ι}
    (hdest : i ∈ m.destination)
    (htype : m.type = .DATA ∨ m.type = .WB_ACK ∨ m.type = .DATA_ATOMIC) (hn : 0 < n m.kind) :
    ∃ ℓ', receive p m (ℓ.ctx i sharers) = .ok (ℓ'.ctx i sharers) ∧ ResponseStep m ℓ ℓ' := by
  rcases htype with h | h
  · exact receive_data hbal hdest h (by simpa only [ResponseMsg.kind, h] using hn)
  · exact receive_ack hbal hdest h hn

end L1

/-! ## The line stays balanced -/

/-- The outstanding transactions once a request of kind `k` joins them. -/
def opened (n : Kind → Nat) (sent : Option (RequestMsg ι)) (k : Kind) : Nat :=
  n k + if sent.bind RequestMsg.kind = some k then 1 else 0

@[simp] theorem opened_none (n : Kind → Nat) : opened n (none : Option (RequestMsg ι)) = n := by
  funext k
  simp [opened]

@[simp] theorem opened_evicMsg (n : Kind → Nat) (i : ι) : opened n (some (evicMsg i)) = n := by
  funext k
  simp [opened, evicMsg, RequestMsg.kind]

section Balanced

variable {ℓ ℓ' : L1Line} {n : Kind → Nat} {space : MemorySpaceType} {g : MemFetch ι}
  {sent : Option (RequestMsg ι)}

theorem opened_getsMsg (k : Kind) :
    opened n (some (getsMsg space g)) k = n k + if Kind.read = k then 1 else 0 := by
  simp [opened, getsMsg, RequestMsg.kind]

theorem exists_opened_dataMsg (n : Kind → Nat) (space : MemorySpaceType) (g : MemFetch ι)
    {type : CoherenceRequestType} (htype : type = .DATA ∨ type = .DATA_ATOMIC) :
    ∃ k, (type = .DATA ↔ k = Kind.write) ∧ (k = .write ∨ k = .atomic) ∧
      ∀ k', opened n (some (dataMsg type space g)) k' = n k' + if k = k' then 1 else 0 := by
  rcases htype with rfl | rfl
  · exact ⟨.write, by simp, .inl rfl, fun k' => by simp [opened, dataMsg, RequestMsg.kind]⟩
  · exact ⟨.atomic, by simp, .inr rfl, fun k' => by simp [opened, dataMsg, RequestMsg.kind]⟩

theorem setEntryState_done {s : L1State} {entry : Option L1Entry} {e : L1Entry}
    (hs : s = .I_I ∨ s = .S_M) (he : e ∈ setEntryState s.done entry) :
    e.cacheState = .S ∨ e.cacheState = .I := by
  simp only [setEntryState, Option.mem_def, Option.map_eq_some_iff] at he
  obtain ⟨e', -, rfl⟩ := he
  rcases hs with rfl | rfl
  · exact .inr rfl
  · exact .inl rfl

theorem CoreStep.balanced (h : CoreStep space g ℓ sent ℓ') (hbal : ℓ.Balanced n) :
    ℓ'.Balanced (opened n sent) := by
  cases h with
  | hit => rwa [opened_none]
  | loadMiss hr ht hs =>
    have h0 := hbal.tbe_eq_none_iff.mp ht
    constructor <;> simp [opened_getsMsg, h0]
  | @loadMore t hr ht hs =>
    have hn : n .read = 0 := by simpa [hr] using hbal.readPending
    have hreads := hbal.reads t ht
    have hwrites := hbal.writes t ht
    constructor <;> simp [opened_getsMsg, hn, hreads, hwrites]
    refine .inr ((hbal.state_of_ne_I_S ht (by rcases hs with h | h <;> simp [h])).imp_right ?_)
    exact fun ⟨h, he, ha⟩ => ⟨h, by simpa [setEntryState] using he, ha⟩
  | writeHit ht hs =>
    have h0 := hbal.tbe_eq_none_iff.mp ht
    have hr := (hbal.idle ht).2.2
    obtain ⟨k, hk, -, hopen⟩ := exists_opened_dataMsg n space g (.inl rfl)
    obtain rfl := hk.mp rfl
    have he : (setEntryState .S_M ℓ.entry).isSome := by
      rcases L1Line.state_idle ht (hbal.idleEntry ht) with hI | ⟨-, e, he, -⟩
      · rw [hs] at hI
        cases hI
      · simp [setEntryState, he]
    constructor <;> simp [hopen, h0, hr, he]
  | @writeHitMore t ht hs =>
    have hread := hbal.readPending
    have hreads := hbal.reads t ht
    have hwrites := hbal.writes t ht
    obtain ⟨k, hk, -, hopen⟩ := exists_opened_dataMsg n space g (.inl rfl)
    obtain rfl := hk.mp rfl
    have hstate : (setEntryState .S_M ℓ.entry).isSome ∧ n .atomic = 0 := by
      obtain ⟨-, he, ha⟩ := (hbal.state_of_ne_I_S ht (by simp [hs])).resolve_left (by simp [hs])
      exact ⟨by simpa [setEntryState] using he, ha⟩
    constructor <;> simp [hopen, hread, hreads, hwrites, hs, hstate]
  | @write type ht htype =>
    have h0 := hbal.tbe_eq_none_iff.mp ht
    have hr := (hbal.idle ht).2.2
    obtain ⟨k, -, hk, hopen⟩ := exists_opened_dataMsg n space g htype
    rcases hk with rfl | rfl <;> constructor <;> simp [hopen, h0, hr]
  | @writeMore t type ht htype =>
    have hread := hbal.readPending
    have hreads := hbal.reads t ht
    have hwrites := hbal.writes t ht
    obtain ⟨k, -, hk, hopen⟩ := exists_opened_dataMsg n space g htype
    rcases hk with rfl | rfl <;> constructor <;> simp [hopen, hread, hreads, hwrites] <;> omega

theorem ReplaceStep.balanced {p : L1.Protocol} {i : ι} (h : ReplaceStep p i ℓ sent ℓ')
    (hbal : ℓ.Balanced n) : ℓ'.Balanced (opened n sent) := by
  cases h with
  | evict ht hs =>
    have hn : opened n (if p = .VI_wt_ee then some (evicMsg i) else none) = n := by
      split <;> simp
    rw [hn]
    exact ⟨hbal.readPending, hbal.idle, by simp, hbal.reads, hbal.writes, hbal.busy,
      fun t htt => by simp [ht] at htt⟩
  | drop hs =>
    rw [opened_none]
    refine ⟨hbal.readPending, hbal.idle, by simp, hbal.reads, hbal.writes, hbal.busy, ?_⟩
    intro t htt
    replace htt : ℓ.tbe = some t := htt
    rw [L1Line.state_tbe htt] at hs
    rcases hbal.state_of_ne_I_S htt (by rcases hs with h | h <;> simp [h]) with h | ⟨h, -⟩
    · exact .inr (.inl h)
    · rcases hs with hs | hs <;> cases h.symm.trans hs
  | stall => rwa [opened_none]

theorem InvStep.balanced (h : InvStep ℓ ℓ') (hbal : ℓ.Balanced n) : ℓ'.Balanced n := by
  cases h with
  | idle ht =>
    refine ⟨hbal.readPending, hbal.idle, ?_, hbal.reads, hbal.writes, hbal.busy,
      fun t htt => by simp [ht] at htt⟩
    intro _ e he
    simp only [setEntryState, Option.mem_def, Option.map_eq_some_iff] at he
    obtain ⟨e', -, rfl⟩ := he
    exact .inr rfl
  | @busy t ht =>
    have hreads := hbal.reads t ht
    have hwrites := hbal.writes t ht
    have hbusy := hbal.busy t ht
    refine ⟨hbal.readPending, by simp, by simp, ?_, ?_, fun _ _ => hbusy, by simp⟩
    · simpa using hreads
    · simpa using hwrites

theorem ResponseStep.balanced {m : ResponseMsg ι} {n' : Kind → Nat} (h : ResponseStep m ℓ ℓ')
    (hbal : ℓ.Balanced n) (hn : ∀ k, n k = n' k + if m.kind = k then 1 else 0) :
    ℓ'.Balanced n' := by
  have hread := hn .read
  have hwrite := hn .write
  have hatomic := hn .atomic
  have hle := hbal.reads_le_one
  -- an answer to a write, of either kind
  have hanswer : m.type = .WB_ACK ∨ m.type = .DATA_ATOMIC →
      n' .read = n .read ∧ (n .write : Int) + n .atomic = n' .write + n' .atomic + 1 := by
    rintro (hm | hm) <;> simp [ResponseMsg.kind, hm] at hread hwrite hatomic <;> omega
  cases h with
  | @install t ht hm hs =>
    obtain ⟨h1, hw, ha⟩ := hbal.read_of_I_S ht hs
    simp only [ResponseMsg.kind, hm, ↓reduceIte, reduceCtorEq] at hread hwrite hatomic
    constructor <;> simp [setEntryState] <;> omega
  | @data t ht hm hw hs =>
    have hreads := hbal.reads t ht
    have hwrites := hbal.writes t ht
    simp only [ResponseMsg.kind, hm, ↓reduceIte, reduceCtorEq] at hread hwrite hatomic
    refine ⟨by simp; omega, by simp, by simp, by simp; omega, by simp; omega, by simp; omega, ?_⟩
    intro t' ht'
    obtain rfl : _ = t' := Option.some.inj ht'
    refine .inr ((hbal.state_of_ne_I_S ht (by rcases hs with h | h <;> simp [h])).imp_right ?_)
    exact fun ⟨h, he, ha⟩ => ⟨h, by simpa [setEntryState] using he, by omega⟩
  | @dataDone t ht hm hw hs =>
    have hwrites := hbal.writes t ht
    simp only [ResponseMsg.kind, hm, ↓reduceIte, reduceCtorEq] at hread hwrite hatomic
    refine ⟨by simp; omega, by simp; omega, ?_, by simp, by simp, by simp, by simp⟩
    intro _ e he
    exact setEntryState_done hs he
  | @ack t ht hm hmore hw hs =>
    have hreads := hbal.reads t ht
    have hwrites := hbal.writes t ht
    have hrp := hbal.readPending
    obtain ⟨hr, hwa⟩ := hanswer hm
    have hmono : n' .atomic ≤ n .atomic := by omega
    refine ⟨by rw [hr]; exact hrp, by simp, by simp, by simp; omega, by simp; omega,
      by simp; omega, ?_⟩
    intro t' ht'
    obtain rfl : _ = t' := Option.some.inj ht'
    refine .inr ((hbal.state_of_ne_I_S ht (by rcases hs with h | h <;> simp [h])).imp_right ?_)
    exact fun ⟨h, he, ha⟩ => ⟨h, by simpa [setEntryState] using he, by omega⟩
  | @ackDone t ht hm hr hw hs =>
    have hreads := hbal.reads t ht
    have hwrites := hbal.writes t ht
    have hrp := hbal.readPending
    obtain ⟨hrd, hwa⟩ := hanswer hm
    have hrpf : ℓ.readPending = false := by
      by_contra hne
      simp only [Bool.not_eq_false] at hne
      simp only [hne, ↓reduceIte] at hrp
      omega
    refine ⟨by rw [hrd]; exact hrp, ?_, ?_, by simp, by simp, by simp, by simp⟩
    · exact fun _ => ⟨by omega, by omega, hrpf⟩
    · intro _ e he
      exact setEntryState_done hs he

end Balanced

/-! ## Where copies come from -/

/-- The line holds a copy that a load may hit. -/
def L1Line.Valid (ℓ : L1Line) : Prop := ℓ.state = .S ∨ ℓ.state = .S_M

instance (ℓ : L1Line) : Decidable ℓ.Valid := inferInstanceAs (Decidable (_ ∨ _))

section Valid

variable {ℓ ℓ' : L1Line} {n : Kind → Nat} {space : MemorySpaceType} {g : MemFetch ι}
  {sent : Option (RequestMsg ι)}

theorem CoreStep.valid (h : CoreStep space g ℓ sent ℓ') (hv : ℓ'.Valid) : ℓ.Valid := by
  cases h with
  | hit => exact hv
  | loadMiss => simp [L1Line.Valid, L1Line.state] at hv
  | loadMore _ ht _ => simpa [L1Line.Valid, L1Line.state, ht] using hv
  | writeHit _ hs => exact .inl hs
  | writeHitMore ht hs => exact .inr ((L1Line.state_tbe ht).trans hs)
  | write => simp [L1Line.Valid, L1Line.state] at hv
  | writeMore => simp [L1Line.Valid, L1Line.state] at hv

theorem CoreStep.tbe_of_I_S (h : CoreStep space g ℓ sent ℓ') (hs' : ℓ'.state = .I_S) : ℓ.tbe = none := by
  cases h with
  | hit _ ht _ => exact ht
  | loadMiss _ ht _ => exact ht
  | loadMore _ ht hs =>
    rcases hs with hs | hs <;> simp [L1Line.state, hs] at hs'
  | writeHit ht _ => exact ht
  | writeHitMore ht hs => simp [L1Line.state, hs] at hs'
  | write ht _ => exact ht
  | writeMore => simp [L1Line.state] at hs'

theorem ReplaceStep.holds {p : L1.Protocol} {i : ι} (h : ReplaceStep p i ℓ sent ℓ')
    (hv : ℓ'.Valid ∨ ℓ'.state = .I_S) : ℓ' = ℓ ∧ sent = none := by
  cases h with
  | evict ht hs => simp [L1Line.Valid, L1Line.state, ht] at hv
  | drop hs =>
    cases ht : ℓ.tbe with
    | none => simp [L1Line.Valid, L1Line.state, ht] at hv
    | some t =>
      rw [L1Line.state_tbe ht] at hs
      rcases hs with hs | hs <;> simp [L1Line.Valid, L1Line.state, ht, hs] at hv
  | stall => exact ⟨rfl, rfl⟩

theorem ResponseStep.valid {m : ResponseMsg ι} (h : ResponseStep m ℓ ℓ') (hv : ℓ'.Valid) :
    ℓ.Valid ∨ ℓ.state = .I_S ∧ m.type = .DATA := by
  cases h with
  | install ht hm hs => exact .inr ⟨(L1Line.state_tbe ht).trans hs, hm⟩
  | data ht => exact .inl (by simpa [L1Line.Valid, L1Line.state, ht] using hv)
  | @dataDone t ht hm hw hs =>
    rcases hs with hs | hs
    · cases he : ℓ.entry <;> simp [L1Line.Valid, L1Line.state, setEntryState, L1State.done, hs, he]
        at hv
    · exact .inl (.inr ((L1Line.state_tbe ht).trans hs))
  | ack ht => exact .inl (by simpa [L1Line.Valid, L1Line.state, ht] using hv)
  | @ackDone t ht hm hr hw hs =>
    rcases hs with hs | hs
    · cases he : ℓ.entry <;> simp [L1Line.Valid, L1Line.state, setEntryState, L1State.done, hs, he]
        at hv
    · exact .inl (.inr ((L1Line.state_tbe ht).trans hs))

theorem ResponseStep.state_ne_I_S {m : ResponseMsg ι} (h : ResponseStep m ℓ ℓ') : ℓ'.state ≠ .I_S := by
  cases h with
  | install => cases he : ℓ.entry <;> simp [L1Line.state, setEntryState]
  | data _ _ _ hs => rcases hs with hs | hs <;> simp [L1Line.state, hs]
  | dataDone _ _ _ hs =>
    rcases hs with hs | hs <;>
      cases he : ℓ.entry <;> simp [L1Line.state, setEntryState, L1State.done, hs]
  | ack _ _ _ _ hs => rcases hs with hs | hs <;> simp [L1Line.state, hs]
  | ackDone _ _ _ _ hs =>
    rcases hs with hs | hs <;>
      cases he : ℓ.entry <;> simp [L1Line.state, setEntryState, L1State.done, hs]

theorem InvStep.state (h : InvStep ℓ ℓ') : ℓ'.state = .I ∨ ℓ'.state = .I_I := by
  cases h with
  | idle ht => cases he : ℓ.entry <;> simp [L1Line.state, ht, setEntryState]
  | busy => exact .inr rfl

end Valid

end GpgpuSimRuby.Ruby.ViWt
