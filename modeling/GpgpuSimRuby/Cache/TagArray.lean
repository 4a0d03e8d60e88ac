import GpgpuSimRuby.Library.Fault

/-!
# The tag array of a cache

`cache_config`, `cache_block_t` and `tag_array`. A line is looked for in the ways of its set; on a
miss the last invalid way is replaced, or else the one with the earliest time stamp, and never a
reserved one.
-/

namespace GpgpuSimRuby.Cache

open Library Function

/-- `unsigned` arithmetic is modulo this. -/
abbrev wordSize : Nat := 2 ^ 32

/-! ## Configuration -/

inductive ReplacementPolicy where
  | lru | fifo
  deriving DecidableEq, Repr

inductive WritePolicy where
  | readOnly | writeBack | writeThrough | writeEvict | localWbGlobalWt
  deriving DecidableEq, Repr

inductive AllocationPolicy where
  | onMiss | onFill
  deriving DecidableEq, Repr

inductive WriteAllocatePolicy where
  | noWriteAllocate | writeAllocate
  deriving DecidableEq, Repr

structure CacheConfig where
  nset : Nat
  lineSz : Nat
  assoc : Nat
  replacementPolicy : ReplacementPolicy
  writePolicy : WritePolicy
  allocPolicy : AllocationPolicy
  writeAllocPolicy : WriteAllocatePolicy
  mshrEntries : Nat
  mshrMaxMerge : Nat
  missQueueSize : Nat

namespace CacheConfig

variable (cfg : CacheConfig)

def setIndex (addr : Nat) : Nat :=
  (addr >>> cfg.lineSz.log2) &&& ((cfg.nset + wordSize - 1) % wordSize)

def tag (addr : Nat) : Nat := addr >>> (cfg.lineSz.log2 + cfg.nset.log2)

/-- The complement is taken in 32 bits. -/
def blockAddr (addr : Nat) : Nat :=
  addr &&& (wordSize - 1 - (cfg.lineSz + wordSize - 1) % wordSize)

/-- The indices of the ways of a set. -/
def ways (addr : Nat) : List Nat :=
  (List.range cfg.assoc).map fun way => cfg.setIndex addr * cfg.assoc + way

end CacheConfig

theorem CacheConfig.blockAddr_blockAddr (cfg : CacheConfig) (addr : Nat) :
    cfg.blockAddr (cfg.blockAddr addr) = cfg.blockAddr addr := by
  unfold blockAddr
  rw [Nat.and_assoc, Nat.and_self]

/-! ## Lines -/

inductive CacheBlockState where
  | invalid | reserved | valid | modified
  deriving DecidableEq, Repr

structure CacheBlock where
  tag : Nat := 0
  blockAddr : Nat := 0
  allocTime : Nat := 0
  lastAccessTime : Nat := 0
  status : CacheBlockState := .invalid
  deriving DecidableEq, Repr

/-- The assertions and aborts of the caches. -/
inductive Fault where
  | notReserved | allocPolicy | noReplaceable | writeBackDropped | redundantFill
  | mshrEntries | mshrMerged | mshrNoEntry | mshrResponses | mshrNotReady | mshrEmptyEntry
  | notWaiting | atomicOnFill | atomicType | dataSize | writePolicy | writeToReadOnly
  deriving DecidableEq, Repr

/-- The assertions of `mshr_table`. -/
def Fault.isMshr : Fault → Bool
  | .mshrEntries | .mshrMerged | .mshrNoEntry | .mshrResponses | .mshrNotReady | .mshrEmptyEntry => true
  | _ => false

inductive CacheRequestStatus where
  | hit | hitReserved | miss | reservationFail
  deriving DecidableEq, Repr

/-- What `probe` answers, with the index that it sets. -/
inductive Probe where
  | hit (index : Nat)
  | hitReserved (index : Nat)
  | miss (index : Nat)
  | reservationFail
  deriving DecidableEq, Repr

namespace Probe

def status : Probe → CacheRequestStatus
  | .hit _ => .hit
  | .hitReserved _ => .hitReserved
  | .miss _ => .miss
  | .reservationFail => .reservationFail

/-- The index after the call. -/
def index (p : Probe) (old : Nat) : Nat :=
  match p with
  | .hit idx | .hitReserved idx | .miss idx => idx
  | .reservationFail => old

end Probe

/-- What the loop of `probe` has seen; the time stamp starts at the largest `unsigned`. -/
structure Candidates where
  invalidLine : Option Nat := none
  validLine : Option Nat := none
  validTimestamp : Nat := wordSize - 1
  allReserved : Bool := true

abbrev Lines := Nat → CacheBlock

namespace Lines

variable (cfg : CacheConfig) (lines : Lines)

/-- The time stamp by which lines are replaced. -/
def stamp (line : CacheBlock) : Nat :=
  match cfg.replacementPolicy with
  | .lru => line.lastAccessTime
  | .fifo => line.allocTime

/-- A way whose tag does not match. -/
def consider (index : Nat) (c : Candidates) : Candidates :=
  match (lines index).status with
  | .reserved => c
  | .invalid => { c with allReserved := false, invalidLine := some index }
  | .valid | .modified =>
    if stamp cfg (lines index) < c.validTimestamp then
      { c with allReserved := false, validTimestamp := stamp cfg (lines index), validLine := some index }
    else { c with allReserved := false }

/-- The loop over the ways: it ends at the first way that holds the tag. -/
def search (tag : Nat) : List Nat → Candidates → Option Nat × Candidates
  | [], c => (none, c)
  | index :: rest, c =>
    if (lines index).tag = tag ∧ (lines index).status ≠ .invalid then (some index, c)
    else search tag rest (consider cfg lines index c)

def probe (addr : Nat) : Except Fault Probe :=
  match search cfg lines (cfg.tag addr) (cfg.ways addr) {} with
  | (some index, _) =>
    .ok (if (lines index).status = .reserved then .hitReserved index else .hit index)
  | (none, c) =>
    if c.allReserved then do
      assert (cfg.allocPolicy = .onMiss) .allocPolicy
      return .reservationFail
    else
      match c.invalidLine, c.validLine with
      | some index, _ => .ok (.miss index)
      | none, some index => .ok (.miss index)
      | none, none => .error .noReplaceable

def setLine (index : Nat) (line : CacheBlock) : Lines := update lines index line

def setStatus (index : Nat) (status : CacheBlockState) : Lines :=
  setLine lines index { lines index with status }

def allocate (index addr time : Nat) : Lines :=
  setLine lines index ⟨cfg.tag addr, cfg.blockAddr addr, time, time, .reserved⟩

/-- What `access` leaves and tells: `evicted` is the block that must be written back. -/
structure Accessed where
  lines : Lines
  probe : Probe
  evicted : Option CacheBlock

/-- `tag_array::access`. -/
def access (addr time : Nat) : Except Fault Accessed := do
  let p ← probe cfg lines addr
  match p with
  | .hit index | .hitReserved index =>
    return ⟨setLine lines index { lines index with lastAccessTime := time }, p, none⟩
  | .miss index =>
    if cfg.allocPolicy = .onMiss then
      return ⟨allocate cfg lines index addr time, p,
        if (lines index).status = .modified then some (lines index) else none⟩
    else return ⟨lines, p, none⟩
  | .reservationFail => return ⟨lines, p, none⟩

/-- The short form of `access`, for callers that expect no write-back. -/
def accessClean (addr time : Nat) : Except Fault Accessed := do
  let r ← access cfg lines addr time
  assert (r.evicted = none) .writeBackDropped
  return r

/-- The line that was reserved gets its data. -/
def fillLine (index : Nat) : Except Fault Lines := do
  assert ((lines index).status = .reserved) .notReserved
  return setStatus lines index .valid

/-- `tag_array::fill` of an index. -/
def fillIndex (index : Nat) : Except Fault Lines := do
  assert (cfg.allocPolicy = .onMiss) .allocPolicy
  fillLine lines index

/-- `tag_array::fill` of an address. -/
def fillAddr (addr time : Nat) : Except Fault Lines := do
  assert (cfg.allocPolicy = .onFill) .allocPolicy
  match ← probe cfg lines addr with
  | .miss index => fillLine (allocate cfg lines index addr time) index
  | _ => .error .redundantFill

/-! ## What a probe finds -/

variable {cfg lines} {addr time index tag : Nat} {c : Candidates}

/-- The indices among the candidates are of lines that are not reserved. -/
structure Sound (lines : Lines) (ways : List Nat) (c : Candidates) : Prop where
  invalid : ∀ index ∈ c.invalidLine, index ∈ ways ∧ (lines index).status ≠ .reserved
  valid : ∀ index ∈ c.validLine, index ∈ ways ∧ (lines index).status ≠ .reserved

variable {ways l : List Nat} {c' : Candidates} {line : CacheBlock} {i : Nat} {s : CacheBlockState}
  {a : Accessed} {lines' : Lines}

theorem Sound.consider (h : Sound lines ways c) (hw : index ∈ ways) :
    Sound lines ways (consider cfg lines index c) := by
  unfold Lines.consider
  split
  case h_1 => exact h
  case h_2 hs =>
    refine ⟨?_, h.valid⟩
    intro i hi
    cases hi
    exact ⟨hw, by simp [hs]⟩
  all_goals
    next hs =>
    split
    · refine ⟨h.invalid, ?_⟩
      intro i hi
      cases hi
      exact ⟨hw, by simp [hs]⟩
    · exact ⟨h.invalid, h.valid⟩

theorem search_some (h : search cfg lines tag l c = (some index, c')) :
    index ∈ l ∧ (lines index).tag = tag ∧ (lines index).status ≠ .invalid := by
  induction l generalizing c with
  | nil => cases h
  | cons i rest ih =>
    unfold search at h
    split at h
    · next hi =>
      cases h
      exact ⟨List.mem_cons_self, hi⟩
    · obtain ⟨hmem, htag⟩ := ih h
      exact ⟨List.mem_cons_of_mem _ hmem, htag⟩

theorem search_none (hsub : l ⊆ ways) (hc : Sound lines ways c)
    (h : search cfg lines tag l c = (none, c')) : Sound lines ways c' ∧
      ∀ i ∈ l, (lines i).tag = tag → (lines i).status = .invalid := by
  induction l generalizing c with
  | nil =>
    cases h
    exact ⟨hc, fun i hi => by cases hi⟩
  | cons i rest ih =>
    unfold search at h
    split at h
    · cases h
    · next hi =>
      have hw : i ∈ ways := hsub List.mem_cons_self
      obtain ⟨hs, hrest⟩ := ih (fun j hj => hsub (List.mem_cons_of_mem _ hj)) (hc.consider hw) h
      refine ⟨hs, ?_⟩
      intro j hj htag
      rcases List.mem_cons.mp hj with rfl | hj
      · by_contra hne
        exact hi ⟨htag, hne⟩
      · exact hrest j hj htag

/-- What the answers of `probe` mean. -/
def Found (cfg : CacheConfig) (lines : Lines) (addr : Nat) : Probe → Prop
  | .hit index => index ∈ cfg.ways addr ∧ (lines index).tag = cfg.tag addr ∧
      ((lines index).status = .valid ∨ (lines index).status = .modified)
  | .hitReserved index => index ∈ cfg.ways addr ∧ (lines index).tag = cfg.tag addr ∧
      (lines index).status = .reserved
  | .miss index => index ∈ cfg.ways addr ∧ (lines index).status ≠ .reserved ∧
      ∀ i ∈ cfg.ways addr, (lines i).tag = cfg.tag addr → (lines i).status = .invalid
  | .reservationFail => cfg.allocPolicy = .onMiss

theorem probe_ok {p : Probe} (h : probe cfg lines addr = .ok p) : Found cfg lines addr p := by
  have hempty : Sound lines (cfg.ways addr) {} := by
    constructor <;> intro i hi <;> cases hi
  unfold probe at h
  split at h
  · next index c hs =>
    obtain ⟨hmem, htag, hne⟩ := search_some hs
    cases h
    split
    · next hr => exact ⟨hmem, htag, hr⟩
    · next hr =>
      refine ⟨hmem, htag, ?_⟩
      cases hst : (lines index).status with
      | invalid => exact absurd hst hne
      | reserved => exact absurd hst hr
      | valid => exact .inl rfl
      | modified => exact .inr rfl
  · next c hs =>
    obtain ⟨hsound, hno⟩ := search_none (List.Subset.refl _) hempty hs
    split at h
    · obtain ⟨_, hassert, h⟩ := bind_eq_ok.mp h
      cases h
      show cfg.allocPolicy = .onMiss
      exact assert_eq_ok.mp hassert
    · cases hinv : c.invalidLine with
      | some index =>
        simp only [hinv] at h
        cases h
        obtain ⟨hmem, hst⟩ := hsound.invalid index hinv
        exact ⟨hmem, hst, hno⟩
      | none =>
        cases hval : c.validLine with
        | some index =>
          simp only [hinv, hval] at h
          cases h
          obtain ⟨hmem, hst⟩ := hsound.valid index hval
          exact ⟨hmem, hst, hno⟩
        | none =>
          simp only [hinv, hval] at h
          cases h

@[simp]
theorem setLine_self : setLine lines index line index = line :=
  update_self ..

theorem setLine_of_ne (h : i ≠ index) :
    setLine lines index line i = lines i := update_of_ne h _ _

@[simp]
theorem setStatus_self :
    setStatus lines index s index = { lines index with status := s } := setLine_self

theorem setStatus_of_ne (h : i ≠ index) :
    setStatus lines index s i = lines i := setLine_of_ne h

@[simp]
theorem setLine_setLine {line' : CacheBlock} :
    setLine (setLine lines index line) index line' = setLine lines index line' :=
  update_idem ..

/-! ## What an access does -/

/-- What `access` makes of the answer of its probe. -/
def Answered (cfg : CacheConfig) (lines : Lines) (addr time : Nat) (a : Accessed) : Probe → Prop
  | .hit index | .hitReserved index =>
    a.lines = setLine lines index { lines index with lastAccessTime := time } ∧ a.evicted = none
  | .miss index =>
    if cfg.allocPolicy = .onMiss then
      a.lines = allocate cfg lines index addr time ∧
        a.evicted = if (lines index).status = .modified then some (lines index) else none
    else a.lines = lines ∧ a.evicted = none
  | .reservationFail => a.lines = lines ∧ a.evicted = none

theorem access_ok (h : access cfg lines addr time = .ok a) :
    probe cfg lines addr = .ok a.probe ∧ Answered cfg lines addr time a a.probe := by
  obtain ⟨p, hp, h⟩ := bind_eq_ok.mp h
  cases p with
  | hit index =>
    cases h
    exact ⟨hp, rfl, rfl⟩
  | hitReserved index =>
    cases h
    exact ⟨hp, rfl, rfl⟩
  | miss index =>
    dsimp only at h
    split at h
    · next hpol =>
      cases h
      refine ⟨hp, ?_⟩
      simp [Answered, hpol]
    · next hpol =>
      cases h
      refine ⟨hp, ?_⟩
      simp [Answered, hpol]
  | reservationFail =>
    cases h
    exact ⟨hp, rfl, rfl⟩

theorem accessClean_ok (h : accessClean cfg lines addr time = .ok a) :
    access cfg lines addr time = .ok a ∧ a.evicted = none := by
  obtain ⟨b, hb, h⟩ := bind_eq_ok.mp h
  obtain ⟨_, hclean, h⟩ := bind_eq_ok.mp h
  cases h
  exact ⟨hb, assert_eq_ok.mp hclean⟩

theorem accessClean_hit (hp : probe cfg lines addr = .ok (.hit index))
    (h : accessClean cfg lines addr time = .ok a) :
    a.probe = .hit index ∧ a.lines = setLine lines index { lines index with lastAccessTime := time } := by
  obtain ⟨hprobe, hans⟩ := access_ok (accessClean_ok h).1
  have heq : a.probe = .hit index := Except.ok.inj (hprobe.symm.trans hp)
  rw [heq] at hans
  exact ⟨heq, hans.1⟩

/-! ## What a fill does -/

theorem fillLine_ok (h : fillLine lines index = .ok lines') :
    (lines index).status = .reserved ∧ lines' = setStatus lines index .valid := by
  obtain ⟨_, hres, h⟩ := bind_eq_ok.mp h
  cases h
  exact ⟨assert_eq_ok.mp hres, rfl⟩

theorem fillAddr_ok (h : fillAddr cfg lines addr time = .ok lines') :
    ∃ index, probe cfg lines addr = .ok (.miss index) ∧
      lines' = setStatus (allocate cfg lines index addr time) index .valid := by
  obtain ⟨_, -, h⟩ := bind_eq_ok.mp h
  obtain ⟨p, hp, h⟩ := bind_eq_ok.mp h
  cases p with
  | miss index => exact ⟨index, hp, (fillLine_ok h).2⟩
  | hit index => cases h
  | hitReserved index => cases h
  | reservationFail => cases h

end Lines

end GpgpuSimRuby.Cache
