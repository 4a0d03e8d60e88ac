import GpgpuSimRuby.Cache.TagArray
import GpgpuSimRuby.Library.Machine

/-!
# Replacement in the tag array

`tag_array` by itself: probes, accesses and fills in any order, at times that do not decrease, and what
the caches do with `get_block`, which is to mark a line that they hit as modified or to invalidate it.

The least time stamp is looked for below the largest `unsigned`, so that a line with that time stamp is
never found.
-/

namespace GpgpuSimRuby.Cache

open Library

namespace Lines

variable (cfg : CacheConfig) (lines : Lines)

/-! ## What should be replaced -/

/-- A way of the set that is not reserved. -/
def Replaceable (addr index : Nat) : Prop := index ∈ cfg.ways addr ∧ (lines index).status ≠ .reserved

/-- The line to replace: an invalid one if there is one, and else one with the earliest time stamp. -/
structure Victim (addr index : Nat) : Prop where
  replaceable : Replaceable cfg lines addr index
  invalid : (∃ i, Replaceable cfg lines addr i ∧ (lines i).status = .invalid) →
    (lines index).status = .invalid
  earliest : (∀ i, Replaceable cfg lines addr i → (lines i).status ≠ .invalid) →
    ∀ i, Replaceable cfg lines addr i → stamp cfg (lines index) ≤ stamp cfg (lines i)

/-- The block is not in its set, the set has lines that are not reserved, and all of these are in use
with the largest time stamp. -/
structure Stuck (addr : Nat) : Prop where
  absent : ∀ i ∈ cfg.ways addr, (lines i).tag = cfg.tag addr → (lines i).status = .invalid
  some : ∃ i, Replaceable cfg lines addr i
  latest : ∀ i, Replaceable cfg lines addr i →
    (lines i).status ≠ .invalid ∧ wordSize - 1 ≤ stamp cfg (lines i)

variable {cfg lines} {addr time index tag : Nat} {c c' : Candidates}
  {P Q : Nat → Prop} {l : List Nat}

/-- A line that is in use and not reserved. -/
def InUse (line : CacheBlock) : Prop := line.status = .valid ∨ line.status = .modified

/-- What the candidates say about the ways that have been considered, those with `P`. -/
structure Considered (cfg : CacheConfig) (lines : Lines) (P : Nat → Prop) (c : Candidates) : Prop where
  reserved : c.allReserved = true ↔ ∀ i, P i → (lines i).status = .reserved
  invalid : ∀ i, c.invalidLine = some i → P i ∧ (lines i).status = .invalid
  noInvalid : c.invalidLine = none → ∀ i, P i → (lines i).status ≠ .invalid
  valid : ∀ i, c.validLine = some i → P i ∧ InUse (lines i) ∧
    stamp cfg (lines i) = c.validTimestamp ∧ c.validTimestamp < wordSize - 1
  noValid : c.validLine = none → c.validTimestamp = wordSize - 1
  earliest : ∀ i, P i → InUse (lines i) → c.validTimestamp ≤ stamp cfg (lines i)

theorem Considered.bound (h : Considered cfg lines P c) : c.validTimestamp ≤ wordSize - 1 := by
  cases hval : c.validLine with
  | none => exact (h.noValid hval).le
  | some i => exact (h.valid i hval).2.2.2.le

theorem Considered.congr (h : Considered cfg lines P c) (hPQ : ∀ i, P i ↔ Q i) :
    Considered cfg lines Q c := by
  obtain rfl : P = Q := funext fun i => propext (hPQ i)
  exact h

theorem considered_init : Considered cfg lines (fun _ => False) {} where
  reserved := ⟨fun _ _ h => h.elim, fun _ => rfl⟩
  invalid _ h := by cases h
  noInvalid _ _ h := h.elim
  valid _ h := by cases h
  noValid _ := rfl
  earliest _ h := h.elim

theorem InUse.ne_reserved (h : InUse (lines index)) : (lines index).status ≠ .reserved := by
  rcases h with h | h <;> simp [h]

theorem InUse.ne_invalid (h : InUse (lines index)) : (lines index).status ≠ .invalid := by
  rcases h with h | h <;> simp [h]

theorem inUse_of_ne (hr : (lines index).status ≠ .reserved) (hi : (lines index).status ≠ .invalid) :
    InUse (lines index) := by
  unfold InUse
  cases hs : (lines index).status with
  | invalid => exact absurd hs hi
  | reserved => exact absurd hs hr
  | valid => exact .inl rfl
  | modified => exact .inr rfl

theorem consider_inUse (h : InUse (lines index)) :
    consider cfg lines index c = { c with
      allReserved := false
      validTimestamp := min c.validTimestamp (stamp cfg (lines index))
      validLine := if stamp cfg (lines index) < c.validTimestamp then some index else c.validLine } := by
  have key : (if stamp cfg (lines index) < c.validTimestamp then
      { c with allReserved := false, validTimestamp := stamp cfg (lines index), validLine := some index }
    else { c with allReserved := false }) = { c with
      allReserved := false
      validTimestamp := min c.validTimestamp (stamp cfg (lines index))
      validLine := if stamp cfg (lines index) < c.validTimestamp then some index
        else c.validLine } := by
    by_cases hlt : stamp cfg (lines index) < c.validTimestamp
    · rw [if_pos hlt, if_pos hlt, min_eq_right hlt.le]
    · rw [if_neg hlt, if_neg hlt, min_eq_left (Nat.le_of_not_lt hlt)]
  unfold Lines.consider
  rcases h with h | h
  · rw [h]
    exact key
  · rw [h]
    exact key

theorem Considered.used (h : Considered cfg lines P c) (huse : InUse (lines index)) :
    Considered cfg lines (fun i => P i ∨ i = index) (Lines.consider cfg lines index c) := by
  rw [consider_inUse huse]
  constructor
  · constructor
    · intro hf
      cases hf
    · intro hall
      exact absurd (hall index (.inr rfl)) huse.ne_reserved
  · intro i hi
    exact ⟨.inl (h.invalid i hi).1, (h.invalid i hi).2⟩
  · rintro hi i (hP | rfl)
    · exact h.noInvalid hi i hP
    · exact huse.ne_invalid
  · intro i hi
    dsimp only at hi
    split at hi
    · next hlt =>
      obtain rfl := Option.some.inj hi
      have hmin := min_eq_right hlt.le
      refine ⟨.inr rfl, huse, hmin.symm, ?_⟩
      dsimp only
      rw [hmin]
      exact Nat.lt_of_lt_of_le hlt h.bound
    · next hge =>
      obtain ⟨hP, hi, hstamp, hlt⟩ := h.valid i hi
      have hmin := min_eq_left (Nat.le_of_not_lt hge)
      refine ⟨.inl hP, hi, hstamp.trans hmin.symm, ?_⟩
      dsimp only
      rwa [hmin]
  · intro hi
    dsimp only at hi
    split at hi
    · cases hi
    · next hge => exact (min_eq_left (Nat.le_of_not_lt hge)).trans (h.noValid hi)
  · rintro i (hP | rfl) hi
    · exact le_trans (min_le_left _ _) (h.earliest i hP hi)
    · exact min_le_right _ _

theorem Considered.consider (h : Considered cfg lines P c) :
    Considered cfg lines (fun i => P i ∨ i = index) (consider cfg lines index c) := by
  have hnot : ∀ {s}, (lines index).status = s → s ≠ .reserved →
      ¬ ∀ i, P i ∨ i = index → (lines i).status = .reserved := by
    rintro s rfl hne hall
    exact hne (hall index (.inr rfl))
  by_cases huse : InUse (lines index)
  · exact h.used huse
  unfold Lines.consider
  cases hs : (lines index).status with
  | reserved =>
    refine ⟨?_, ?_, ?_, ?_, h.noValid, ?_⟩
    · rw [h.reserved]
      constructor
      · rintro hall i (hi | rfl)
        · exact hall i hi
        · exact hs
      · intro hall i hi
        exact hall i (.inl hi)
    · intro i hi
      exact ⟨.inl (h.invalid i hi).1, (h.invalid i hi).2⟩
    · rintro hi i (hP | rfl)
      · exact h.noInvalid hi i hP
      · rw [hs]
        simp
    · intro i hi
      exact ⟨.inl (h.valid i hi).1, (h.valid i hi).2⟩
    · rintro i (hP | rfl) huse
      · exact h.earliest i hP huse
      · exact absurd hs huse.ne_reserved
  | invalid =>
    refine ⟨?_, ?_, ?_, ?_, h.noValid, ?_⟩
    · simpa using hnot hs (by simp)
    · rintro i hi
      obtain rfl := Option.some.inj hi
      exact ⟨.inr rfl, hs⟩
    · intro hi
      cases hi
    · intro i hi
      exact ⟨.inl (h.valid i hi).1, (h.valid i hi).2⟩
    · rintro i (hP | rfl) huse
      · exact h.earliest i hP huse
      · exact absurd hs huse.ne_invalid
  | valid => exact absurd (.inl hs) huse
  | modified => exact absurd (.inr hs) huse

theorem search_considered (h : Considered cfg lines P c)
    (hs : search cfg lines tag l c = (none, c')) :
    Considered cfg lines (fun i => P i ∨ i ∈ l) c' := by
  induction l generalizing P c with
  | nil =>
    obtain rfl := (Prod.mk.inj hs).2
    exact h.congr fun i => by simp
  | cons i rest ih =>
    unfold search at hs
    split at hs
    · cases hs
    · exact (ih h.consider hs).congr fun j => by simp [or_assoc]

/-! ## What `probe` finds -/

theorem probe_miss (h : probe cfg lines addr = .ok (.miss index)) : Victim cfg lines addr index := by
  unfold probe at h
  split at h
  · split at h <;> cases h
  · next c hs =>
    have hc := (search_considered considered_init hs).congr (Q := (· ∈ cfg.ways addr)) (by simp)
    split at h
    · obtain ⟨_, -, h⟩ := bind_eq_ok.mp h
      cases h
    · cases hinv : c.invalidLine with
      | some i =>
        simp only [hinv] at h
        cases h
        obtain ⟨hmem, hstatus⟩ := hc.invalid index hinv
        refine ⟨⟨hmem, by simp [hstatus]⟩, fun _ => hstatus, ?_⟩
        intro hno
        exact absurd hstatus (hno index ⟨hmem, by simp [hstatus]⟩)
      | none =>
        cases hval : c.validLine with
        | none =>
          simp only [hinv, hval] at h
          cases h
        | some i =>
          simp only [hinv, hval] at h
          cases h
          obtain ⟨hmem, huse, hstamp, -⟩ := hc.valid index hval
          have hno := hc.noInvalid hinv
          refine ⟨⟨hmem, huse.ne_reserved⟩, ?_, ?_⟩
          · rintro ⟨j, ⟨hj, -⟩, hstatus⟩
            exact absurd hstatus (hno j hj)
          · rintro - j ⟨hj, hres⟩
            rw [hstamp]
            exact hc.earliest j hj (inUse_of_ne hres (hno j hj))

/-- **`probe` aborts** exactly where it is stuck. -/
theorem probe_abort_iff : probe cfg lines addr = .error .noReplaceable ↔ Stuck cfg lines addr := by
  unfold probe
  split
  · next i c hs =>
    obtain ⟨hmem, htag, hne⟩ := search_some hs
    constructor
    · intro h
      cases h
    · intro h
      exact absurd (h.absent i hmem htag) hne
  · next c hs =>
    have hc := (search_considered considered_init hs).congr (Q := (· ∈ cfg.ways addr)) (by simp)
    have habsent := (search_none (List.Subset.refl _) (by constructor <;> intro i hi <;> cases hi) hs).2
    split
    · next hall =>
      constructor
      · intro h
        cases (assert_eq_error.mp (bind_return_eq_error.mp h)).2
      · rintro ⟨-, ⟨i, hmem, hres⟩, -⟩
        exact absurd (hc.reserved.mp hall i hmem) hres
    · next hall =>
      cases hinv : c.invalidLine with
      | some i =>
        obtain ⟨hmem, hstatus⟩ := hc.invalid i hinv
        constructor
        · intro h
          cases h
        · intro h
          exact absurd hstatus (h.latest i ⟨hmem, by simp [hstatus]⟩).1
      | none =>
        have hno := hc.noInvalid hinv
        cases hval : c.validLine with
        | some i =>
          obtain ⟨hmem, huse, hstamp, hlt⟩ := hc.valid i hval
          constructor
          · intro h
            cases h
          · intro h
            have hle := (h.latest i ⟨hmem, huse.ne_reserved⟩).2
            rw [hstamp] at hle
            exact absurd hlt (Nat.not_lt.mpr hle)
        | none =>
          have hts := hc.noValid hval
          refine ⟨fun _ => ⟨habsent, ?_, ?_⟩, fun _ => rfl⟩
          · by_contra hnone
            apply hall
            rw [hc.reserved]
            intro i hi
            by_contra hres
            exact hnone ⟨i, hi, hres⟩
          · rintro i ⟨hi, hres⟩
            refine ⟨hno i hi, ?_⟩
            rw [← hts]
            exact hc.earliest i hi (inUse_of_ne hres (hno i hi))

end Lines

/-! ## Tags -/

/-- The indices of the ways of set number `set`. -/
def CacheConfig.setWays (cfg : CacheConfig) (set : Nat) : List Nat :=
  (List.range cfg.assoc).map fun way => set * cfg.assoc + way

theorem CacheConfig.setWays_unique {cfg : CacheConfig} {set set' i : Nat} (h : i ∈ cfg.setWays set)
    (h' : i ∈ cfg.setWays set') : set = set' := by
  obtain ⟨w, hw, rfl⟩ := List.mem_map.mp h
  obtain ⟨w', hw', heq⟩ := List.mem_map.mp h'
  have hw := List.mem_range.mp hw
  have hw' := List.mem_range.mp hw'
  have hdiv : ∀ {s w}, w < cfg.assoc → (s * cfg.assoc + w) / cfg.assoc = s := by
    intro s w hw
    rw [Nat.mul_comm, Nat.mul_add_div (by omega), Nat.div_eq_of_lt hw, Nat.add_zero]
  rw [← hdiv (s := set) hw, ← hdiv (s := set') hw', heq]

namespace Lines

variable {cfg : CacheConfig} {lines lines' : Lines} {addr index : Nat} {line : CacheBlock}

/-- No two lines of a set that are not invalid have the same tag. -/
def Unique (cfg : CacheConfig) (lines : Lines) : Prop :=
  ∀ set, ∀ i ∈ cfg.setWays set, ∀ j ∈ cfg.setWays set, (lines i).status ≠ .invalid →
    (lines j).status ≠ .invalid → (lines i).tag = (lines j).tag → i = j

theorem Unique.kept (h : Unique cfg lines) (hkept : ∀ i, (lines' i).status ≠ .invalid →
    (lines i).status ≠ .invalid ∧ (lines' i).tag = (lines i).tag) : Unique cfg lines' := by
  intro set i hi j hj hsi hsj htag
  obtain ⟨hsi, hti⟩ := hkept i hsi
  obtain ⟨hsj, htj⟩ := hkept j hsj
  apply h set i hi j hj hsi hsj
  rw [← hti, ← htj, htag]

theorem Unique.setLine (h : Unique cfg lines) (hstatus : (lines index).status ≠ .invalid)
    (htag : line.tag = (lines index).tag) : Unique cfg (setLine lines index line) := by
  apply h.kept
  intro i hi
  by_cases heq : i = index
  · subst heq
    rw [setLine_self]
    exact ⟨hstatus, htag⟩
  · rw [setLine_of_ne heq] at hi ⊢
    exact ⟨hi, rfl⟩

theorem Unique.allocate (h : Unique cfg lines) (hindex : index ∈ cfg.ways addr)
    (habsent : ∀ i ∈ cfg.ways addr, (lines i).tag = cfg.tag addr → (lines i).status = .invalid)
    (htag : line.tag = cfg.tag addr) : Unique cfg (Lines.setLine lines index line) := by
  -- the other lines of the set hold other blocks
  have hother : ∀ set i, index ∈ cfg.setWays set → i ∈ cfg.setWays set → i ≠ index →
      (Lines.setLine lines index line i).status ≠ .invalid →
      (Lines.setLine lines index line i).tag ≠ cfg.tag addr := by
    intro set i hset hi hne hstatus heq
    obtain rfl := CacheConfig.setWays_unique hset hindex
    rw [setLine_of_ne hne] at hstatus heq
    exact hstatus (habsent i hi heq)
  intro set i hi j hj hsi hsj heq
  by_cases hii : i = index
  · by_cases hjj : j = index
    · rw [hii, hjj]
    · subst hii
      rw [setLine_self, htag] at heq
      exact absurd heq.symm (hother set j hi hj hjj hsj)
  · by_cases hjj : j = index
    · subst hjj
      rw [setLine_self, htag] at heq
      exact absurd heq (hother set i hj hi hii hsi)
    · rw [setLine_of_ne hii] at hsi heq
      rw [setLine_of_ne hjj] at hsj heq
      exact h set i hi j hj hsi hsj heq

end Lines

/-! ## The tag array at work -/

/-- The lines, and the time of the last call. -/
structure TagArray where
  lines : Lines := fun _ => {}
  clock : Nat := 0

inductive TagAct where
  | probe (addr : Nat)
  | access (addr time : Nat)
  | accessClean (addr time : Nat)
  | fillIndex (index time : Nat)
  | fillAddr (addr time : Nat)
  | mark (index : Nat) (status : CacheBlockState)

namespace TagArray

open Lines

variable (cfg : CacheConfig) (s : TagArray)

/-- A time that can be passed: it does not decrease, and is an `unsigned`. -/
def InTime (time : Nat) : Prop := s.clock ≤ time ∧ time < wordSize

instance decidableInTime (time : Nat) : Decidable (s.InTime time) :=
  inferInstanceAs (Decidable (_ ∧ _))

/-- A call at a time. -/
def timed (time : Nat) (r : Except Fault Lines) : Option (Except Fault TagArray) :=
  if s.InTime time then some (r.map fun lines => ⟨lines, time⟩) else none

def step : TagAct → Option (Except Fault TagArray)
  | .probe addr => some ((probe cfg s.lines addr).map fun _ => s)
  | .access addr time => s.timed time ((access cfg s.lines addr time).map Accessed.lines)
  | .accessClean addr time =>
    s.timed time ((accessClean cfg s.lines addr time).map Accessed.lines)
  | .fillIndex index time => s.timed time (fillIndex cfg s.lines index)
  | .fillAddr addr time => s.timed time (fillAddr cfg s.lines addr time)
  | .mark index status =>
    if ((s.lines index).status = .valid ∨ (s.lines index).status = .modified) ∧
        (status = .modified ∨ status = .invalid) then
      some (.ok { s with lines := setStatus s.lines index status })
    else none

/-- The tag array. -/
def machine : Machine TagArray TagAct Fault where
  init := {}
  step := step cfg

/-- The call puts the block of an address into a line at a time, whatever the line held before. -/
inductive Replaces (cfg : CacheConfig) (lines : Lines) : TagAct → Nat → Nat → Nat → Prop
  | access {addr time index} : cfg.allocPolicy = .onMiss →
      probe cfg lines addr = .ok (.miss index) →
      Replaces cfg lines (.access addr time) addr index time
  | accessClean {addr time index} : cfg.allocPolicy = .onMiss →
      probe cfg lines addr = .ok (.miss index) →
      Replaces cfg lines (.accessClean addr time) addr index time
  | fillAddr {addr time index} : probe cfg lines addr = .ok (.miss index) →
      Replaces cfg lines (.fillAddr addr time) addr index time

/-- The call finds its block in a line. -/
def Finds (cfg : CacheConfig) (lines : Lines) (addr index : Nat) : Prop :=
  probe cfg lines addr = .ok (.hit index) ∨ probe cfg lines addr = .ok (.hitReserved index)

/-- The call accesses a line at a time. -/
inductive Touches (cfg : CacheConfig) (lines : Lines) : TagAct → Nat → Nat → Prop
  | access {addr time index} : Finds cfg lines addr index →
      Touches cfg lines (.access addr time) index time
  | accessClean {addr time index} : Finds cfg lines addr index →
      Touches cfg lines (.accessClean addr time) index time

/-- A line that is neither replaced nor accessed: only its status may change, and an invalid line stays
invalid. -/
structure Kept (old new : CacheBlock) : Prop where
  fields : new = { old with status := new.status }
  invalid : new.status ≠ .invalid → old.status ≠ .invalid

/-- What is expected of a call: tags are unique before and after it, `probe` does not abort, the line
that is replaced is the right one, and the times of the lines are those of the calls that allocated and
that last accessed them. -/
structure StepGood (cfg : CacheConfig) (s : TagArray) (a : TagAct) : Prop where
  before : Unique cfg s.lines
  after : ∀ t, step cfg s a = some (.ok t) → Unique cfg t.lines
  noAbort : step cfg s a ≠ some (.error .noReplaceable)
  victim : ∀ addr index time, Replaces cfg s.lines a addr index time →
    Victim cfg s.lines addr index
  replaced : ∀ t addr index time, step cfg s a = some (.ok t) →
    Replaces cfg s.lines a addr index time → ∃ status,
      t.lines index = ⟨cfg.tag addr, cfg.blockAddr addr, time, time, status⟩
  touched : ∀ t index time, step cfg s a = some (.ok t) → Touches cfg s.lines a index time →
    t.lines index = { s.lines index with lastAccessTime := time }
  others : ∀ t i, step cfg s a = some (.ok t) →
    (¬ ∃ addr time, Replaces cfg s.lines a addr i time) → (¬ ∃ time, Touches cfg s.lines a i time) →
    Kept (s.lines i) (t.lines i)

/-- The call finds no line to replace. -/
def StuckAt : TagAct → Prop
  | .probe addr => Stuck cfg s.lines addr
  | .access addr time => s.InTime time ∧ Stuck cfg s.lines addr
  | .accessClean addr time => s.InTime time ∧ Stuck cfg s.lines addr
  | .fillIndex _ _ => False
  | .fillAddr addr time =>
    s.InTime time ∧ cfg.allocPolicy = .onFill ∧ Stuck cfg s.lines addr
  | .mark _ _ => False

variable {cfg s} {t : TagArray} {a : TagAct} {addr time index : Nat} {r : Accessed}

theorem timed_ok {r : Except Fault Lines} (h : s.timed time r = some (.ok t)) : r = .ok t.lines := by
  unfold timed at h
  split at h
  · cases r with
    | error e => cases h
    | ok lines =>
      obtain rfl := Except.ok.inj (Option.some.inj h)
      rfl
  · cases h

theorem timed_error {r : Except Fault Lines} {e : Fault} :
    s.timed time r = some (.error e) ↔ s.InTime time ∧ r = .error e := by
  unfold timed
  split
  · next hin =>
    cases r with
    | error e' => simp [hin, Except.map]
    | ok lines => simp [Except.map]
  · next hout => simp [hout]

/-! ## Aborts -/

theorem access_abort_iff :
    access cfg s.lines addr time = .error .noReplaceable ↔ Stuck cfg s.lines addr := by
  rw [← probe_abort_iff]
  unfold access
  rw [bind_eq_error]
  constructor
  · rintro (h | ⟨p, -, h⟩)
    · exact h
    · cases p with
      | miss index =>
        dsimp only at h
        split at h <;> cases h
      | hit index => cases h
      | hitReserved index => cases h
      | reservationFail => cases h
  · exact .inl

theorem accessClean_abort_iff : accessClean cfg s.lines addr time = .error .noReplaceable ↔
      Stuck cfg s.lines addr := by
  have hacc : access cfg s.lines addr time = .error .noReplaceable ↔
      Stuck cfg s.lines addr := access_abort_iff
  rw [← hacc]
  unfold accessClean
  rw [bind_eq_error]
  constructor
  · rintro (h | ⟨r, -, h⟩)
    · exact h
    · cases (assert_eq_error.mp (bind_return_eq_error.mp h)).2
  · exact .inl

theorem fillAddr_abort_iff : fillAddr cfg s.lines addr time = .error .noReplaceable ↔
      cfg.allocPolicy = .onFill ∧ Stuck cfg s.lines addr := by
  rw [← probe_abort_iff]
  unfold fillAddr
  constructor
  · intro h
    rcases bind_eq_error.mp h with h | ⟨_, hpol, h⟩
    · cases (assert_eq_error.mp h).2
    · refine ⟨assert_eq_ok.mp hpol, ?_⟩
      rcases bind_eq_error.mp h with h | ⟨p, -, h⟩
      · exact h
      · cases p with
        | miss index =>
          cases (assert_eq_error.mp (bind_return_eq_error.mp h)).2
        | hit index => cases h
        | hitReserved index => cases h
        | reservationFail => cases h
  · rintro ⟨hpol, h⟩
    rw [assert_pos hpol, ok_bind, h, error_bind]

/-- **A call aborts** in `probe` exactly where it is stuck. -/
theorem step_abort_iff : step cfg s a = some (.error .noReplaceable) ↔ StuckAt cfg s a := by
  have hmap : ∀ {r : Except Fault Accessed},
      r.map Accessed.lines = .error .noReplaceable ↔ r = .error .noReplaceable := by
    intro r
    cases r <;> simp [Except.map]
  cases a with
  | probe addr =>
    simp only [step, StuckAt, ← probe_abort_iff, Option.some.injEq]
    cases probe cfg s.lines addr <;> simp [Except.map]
  | access addr time =>
    simp only [step, StuckAt, timed_error, hmap, access_abort_iff]
  | accessClean addr time =>
    simp only [step, StuckAt, timed_error, hmap, accessClean_abort_iff]
  | fillIndex index time =>
    simp only [step, StuckAt, timed_error, iff_false, not_and]
    intro _ h
    rcases bind_eq_error.mp h with h | ⟨_, -, h⟩
    · cases (assert_eq_error.mp h).2
    · cases (assert_eq_error.mp (bind_return_eq_error.mp h)).2
  | fillAddr addr time =>
    simp only [step, StuckAt, timed_error, fillAddr_abort_iff]
  | mark index status =>
    simp only [step, StuckAt, iff_false]
    split <;> simp

/-! ## What a call does to the lines -/

theorem Replaces.probe {lines : Lines} (h : Replaces cfg lines a addr index time) :
    probe cfg lines addr = .ok (.miss index) := by
  cases h <;> assumption

theorem Finds.ne_invalid {lines : Lines} (h : Finds cfg lines addr index) :
    (lines index).status ≠ .invalid := by
  rcases h with h | h
  · exact InUse.ne_invalid (probe_ok h).2.2
  · have hres := (probe_ok h).2.2
    simp [hres]

theorem Touches.ne_invalid {lines : Lines} (h : Touches cfg lines a index time) :
    (lines index).status ≠ .invalid := by
  cases h with
  | access hf => exact hf.ne_invalid
  | accessClean hf => exact hf.ne_invalid

theorem Kept.refl (line : CacheBlock) : Kept line line := ⟨rfl, id⟩

section

variable (h : access cfg s.lines addr time = .ok r)
include h

theorem access_replaces
    (hpol : cfg.allocPolicy = .onMiss) (hprobe : probe cfg s.lines addr = .ok (.miss index)) :
    r.lines = allocate cfg s.lines index addr time := by
  obtain ⟨hr, hans⟩ := access_ok h
  obtain hp : r.probe = .miss index := Except.ok.inj (hr.symm.trans hprobe)
  rw [hp] at hans
  simp only [Answered, hpol, if_true] at hans
  exact hans.1

theorem access_touches (hf : Finds cfg s.lines addr index) :
    r.lines = setLine s.lines index { s.lines index with lastAccessTime := time } := by
  obtain ⟨hr, hans⟩ := access_ok h
  rcases hf with hf | hf
  · obtain hp : r.probe = .hit index := Except.ok.inj (hr.symm.trans hf)
    rw [hp] at hans
    exact hans.1
  · obtain hp : r.probe = .hitReserved index := Except.ok.inj (hr.symm.trans hf)
    rw [hp] at hans
    exact hans.1

theorem access_cases :
    (∃ index, Finds cfg s.lines addr index) ∨
      (cfg.allocPolicy = .onMiss ∧ ∃ index, probe cfg s.lines addr = .ok (.miss index)) ∨
      r.lines = s.lines := by
  obtain ⟨hr, hans⟩ := access_ok h
  cases hp : r.probe with
  | hit index =>
    rw [hp] at hr
    exact .inl ⟨index, .inl hr⟩
  | hitReserved index =>
    rw [hp] at hr
    exact .inl ⟨index, .inr hr⟩
  | miss index =>
    rw [hp] at hr hans
    by_cases hpol : cfg.allocPolicy = .onMiss
    · exact .inr (.inl ⟨hpol, index, hr⟩)
    · simp only [Answered, hpol, if_false] at hans
      exact .inr (.inr hans.1)
  | reservationFail =>
    rw [hp] at hans
    exact .inr (.inr hans.1)

end

theorem step_replaces (h : step cfg s a = some (.ok t))
    (hrep : Replaces cfg s.lines a addr index time) : ∃ status,
    t.lines = setLine s.lines index ⟨cfg.tag addr, cfg.blockAddr addr, time, time, status⟩ := by
  cases hrep with
  | access hpol hprobe =>
    obtain ⟨r, hr, hl⟩ := map_eq_ok.mp (timed_ok h)
    exact ⟨.reserved, hl.symm.trans (access_replaces hr hpol hprobe)⟩
  | accessClean hpol hprobe =>
    obtain ⟨r, hr, hl⟩ := map_eq_ok.mp (timed_ok h)
    exact ⟨.reserved, hl.symm.trans (access_replaces (accessClean_ok hr).1 hpol hprobe)⟩
  | fillAddr hprobe =>
    obtain ⟨index', hprobe', hl⟩ := fillAddr_ok (timed_ok h)
    obtain rfl : index' = index := Probe.miss.inj (Except.ok.inj (hprobe'.symm.trans hprobe))
    refine ⟨.valid, ?_⟩
    rw [hl]
    unfold setStatus allocate
    rw [setLine_setLine, setLine_self]

theorem step_touches (h : step cfg s a = some (.ok t)) (ht : Touches cfg s.lines a index time) :
    t.lines = setLine s.lines index { s.lines index with lastAccessTime := time } := by
  cases ht with
  | access hf =>
    obtain ⟨r, hr, hl⟩ := map_eq_ok.mp (timed_ok h)
    exact hl.symm.trans (access_touches hr hf)
  | accessClean hf =>
    obtain ⟨r, hr, hl⟩ := map_eq_ok.mp (timed_ok h)
    exact hl.symm.trans (access_touches (accessClean_ok hr).1 hf)

theorem kept_setStatus {lines : Lines} {status : CacheBlockState} (i : Nat)
    (h : (lines index).status ≠ .invalid) : Kept (lines i) (setStatus lines index status i) := by
  by_cases heq : i = index
  · subst heq
    rw [setStatus_self]
    exact ⟨rfl, fun _ => h⟩
  · rw [setStatus_of_ne heq]
    exact .refl _

theorem step_else (h : step cfg s a = some (.ok t))
    (hrep : ¬ ∃ addr index time, Replaces cfg s.lines a addr index time)
    (ht : ¬ ∃ index time, Touches cfg s.lines a index time) (i : Nat) : Kept (s.lines i) (t.lines i) := by
  cases a with
  | probe addr =>
    simp only [step, Option.some.injEq] at h
    obtain ⟨p, -, rfl⟩ := map_eq_ok.mp h
    exact .refl _
  | access addr time =>
    obtain ⟨r, hr, hl⟩ := map_eq_ok.mp (timed_ok h)
    rcases access_cases hr with ⟨index, hf⟩ | ⟨hpol, index, hp⟩ | hsame
    · exact absurd ⟨index, time, .access hf⟩ ht
    · exact absurd ⟨addr, index, time, .access hpol hp⟩ hrep
    · rw [← hl, hsame]
      exact .refl _
  | accessClean addr time =>
    obtain ⟨r, hr, hl⟩ := map_eq_ok.mp (timed_ok h)
    rcases access_cases (accessClean_ok hr).1 with ⟨index, hf⟩ | ⟨hpol, index, hp⟩ | hsame
    · exact absurd ⟨index, time, .accessClean hf⟩ ht
    · exact absurd ⟨addr, index, time, .accessClean hpol hp⟩ hrep
    · rw [← hl, hsame]
      exact .refl _
  | fillIndex index time =>
    obtain ⟨_, -, hf⟩ := bind_eq_ok.mp (timed_ok h)
    obtain ⟨hres, hl⟩ := fillLine_ok hf
    rw [hl]
    apply kept_setStatus
    simp [hres]
  | fillAddr addr time =>
    obtain ⟨index, hprobe, -⟩ := fillAddr_ok (timed_ok h)
    exact absurd ⟨addr, index, time, .fillAddr hprobe⟩ hrep
  | mark index status =>
    simp only [step] at h
    split at h
    · next hmark =>
      obtain rfl := Except.ok.inj (Option.some.inj h)
      apply kept_setStatus
      exact InUse.ne_invalid hmark.1
    · cases h

theorem step_unique (h : step cfg s a = some (.ok t)) (hu : Unique cfg s.lines) :
    Unique cfg t.lines := by
  by_cases hrep : ∃ addr index time, Replaces cfg s.lines a addr index time
  · obtain ⟨addr, index, time, hrep⟩ := hrep
    obtain ⟨hmem, -, habsent⟩ := probe_ok hrep.probe
    obtain ⟨status, hl⟩ := step_replaces h hrep
    rw [hl]
    exact hu.allocate hmem habsent rfl
  by_cases ht : ∃ index time, Touches cfg s.lines a index time
  · obtain ⟨index, time, ht⟩ := ht
    rw [step_touches h ht]
    exact hu.setLine ht.ne_invalid rfl
  · apply hu.kept
    intro i hi
    have hkept := step_else h hrep ht i
    refine ⟨hkept.invalid hi, ?_⟩
    rw [hkept.fields]

theorem step_others {i : Nat} (h : step cfg s a = some (.ok t))
    (hi : ¬ ∃ addr time, Replaces cfg s.lines a addr i time)
    (hi' : ¬ ∃ time, Touches cfg s.lines a i time) : Kept (s.lines i) (t.lines i) := by
  by_cases hrep : ∃ addr index time, Replaces cfg s.lines a addr index time
  · obtain ⟨addr, index, time, hrep⟩ := hrep
    obtain ⟨status, hl⟩ := step_replaces h hrep
    have hne : i ≠ index := by
      rintro rfl
      exact hi ⟨addr, time, hrep⟩
    rw [hl, setLine_of_ne hne]
    exact .refl _
  by_cases ht : ∃ index time, Touches cfg s.lines a index time
  · obtain ⟨index, time, ht⟩ := ht
    have hne : i ≠ index := by
      rintro rfl
      exact hi' ⟨time, ht⟩
    rw [step_touches h ht, setLine_of_ne hne]
    exact .refl _
  · exact step_else h hrep ht i

/-! ## Every run -/

theorem unique_init : Unique cfg (machine cfg).init.lines := by
  intro set i _ j _ hi
  exact absurd rfl hi

theorem stepGood_iff (hu : Unique cfg s.lines) : StepGood cfg s a ↔ ¬ StuckAt cfg s a := by
  rw [← step_abort_iff]
  constructor
  · intro h
    exact h.noAbort
  · intro h
    constructor
    · exact hu
    · intro t ht
      exact step_unique ht hu
    · exact h
    · intro addr index time hrep
      exact probe_miss hrep.probe
    · intro t addr index time ht hrep
      obtain ⟨status, hl⟩ := step_replaces ht hrep
      refine ⟨status, ?_⟩
      rw [hl, setLine_self]
    · intro t index time ht htouch
      rw [step_touches ht htouch, setLine_self]
    · intro t i ht
      exact step_others ht

/-- **Every call of a run** of the tag array is as expected if and only if none finds only lines in use
with the largest time stamp. -/
theorem replacement_iff (cfg : CacheConfig) (as : List TagAct) :
    (machine cfg).RunMeets (StepGood cfg) as (machine cfg).init ↔
      (machine cfg).RunMeets (fun s a => ¬ StuckAt cfg s a) as (machine cfg).init := by
  have hstep : ∀ s a t, Unique cfg s.lines → (machine cfg).step s a = some (.ok t) →
      Unique cfg t.lines := fun s a t hu ht => step_unique ht hu
  apply Machine.runMeets_congr hstep
  · intro s a hu
    exact stepGood_iff hu
  · exact unique_init

/-! ## Before the largest time -/

/-- The call is not at the largest time. -/
def Early : TagAct → Prop
  | .access _ time | .accessClean _ time | .fillIndex _ time | .fillAddr _ time => time < wordSize - 1
  | .probe _ | .mark _ _ => True

/-- All time stamps are below the largest. -/
def EarlyLines (lines : Lines) : Prop :=
  ∀ i, (lines i).allocTime < wordSize - 1 ∧ (lines i).lastAccessTime < wordSize - 1

theorem EarlyLines.stamp {lines : Lines} (h : EarlyLines lines) (i : Nat) :
    stamp cfg (lines i) < wordSize - 1 := by
  unfold Lines.stamp
  split
  · exact (h i).2
  · exact (h i).1

theorem EarlyLines.not_stuck {lines : Lines} (h : EarlyLines lines) : ¬ Stuck cfg lines addr := by
  intro hs
  obtain ⟨i, hi⟩ := hs.some
  exact absurd (hs.latest i hi).2 (Nat.not_le.mpr (h.stamp i))

theorem EarlyLines.setLine {lines : Lines} {line : CacheBlock} (h : EarlyLines lines)
    (halloc : line.allocTime < wordSize - 1) (hlast : line.lastAccessTime < wordSize - 1) :
    EarlyLines (setLine lines index line) := by
  intro i
  by_cases heq : i = index
  · subst heq
    rw [setLine_self]
    exact ⟨halloc, hlast⟩
  · rw [setLine_of_ne heq]
    exact h i

theorem step_early (h : step cfg s a = some (.ok t)) (ha : Early a) (hs : EarlyLines s.lines) :
    EarlyLines t.lines := by
  by_cases hrep : ∃ addr index time, Replaces cfg s.lines a addr index time
  · obtain ⟨addr, index, time, hrep⟩ := hrep
    have htime : time < wordSize - 1 := by
      cases hrep <;> exact ha
    obtain ⟨status, hl⟩ := step_replaces h hrep
    rw [hl]
    exact hs.setLine htime htime
  by_cases ht : ∃ index time, Touches cfg s.lines a index time
  · obtain ⟨index, time, ht⟩ := ht
    have htime : time < wordSize - 1 := by
      cases ht <;> exact ha
    rw [step_touches h ht]
    exact hs.setLine (hs index).1 htime
  · intro i
    rw [(step_else h hrep ht i).fields]
    exact hs i

theorem EarlyLines.not_stuckAt (h : EarlyLines s.lines) : ¬ StuckAt cfg s a := by
  cases a with
  | probe addr => exact h.not_stuck
  | access addr time => exact fun hs => h.not_stuck hs.2
  | accessClean addr time => exact fun hs => h.not_stuck hs.2
  | fillIndex index time => exact id
  | fillAddr addr time => exact fun hs => h.not_stuck hs.2.2
  | mark index status => exact id

/-- **A line is always found** in the runs in which no call is at the largest time. -/
theorem not_abort_of_early (h : (machine cfg).ReachableUnder (fun _ => Early) s) (a : TagAct) :
    step cfg s a ≠ some (.error .noReplaceable) := by
  have hs : EarlyLines s.lines := by
    induction h with
    | init =>
      have hpos : 0 < wordSize - 1 := by decide
      exact fun _ => ⟨hpos, hpos⟩
    | step _ ha ht ih => exact step_early ht ha ih
  intro hr
  exact hs.not_stuckAt (step_abort_iff.mp hr)

/-! ## At the largest time -/

/-- One set of one line. -/
def smallest : CacheConfig where
  nset := 1
  lineSz := 128
  assoc := 1
  replacementPolicy := .lru
  writePolicy := .readOnly
  allocPolicy := .onMiss
  writeAllocPolicy := .noWriteAllocate
  mshrEntries := 1
  mshrMaxMerge := 1
  missQueueSize := 1

/-- The only line is filled at the largest time, and then another block is probed. -/
def latest : List TagAct :=
  [.access 0 (wordSize - 1), .fillIndex 0 (wordSize - 1), .probe 128]

theorem not_abort_of_early_fill : ∃ s, (machine smallest).run [.access 0 5, .fillIndex 0 6] {} = some s ∧
    step smallest s (.probe 128) ≠ some (.error .noReplaceable) := by
  have h0 : Early (.access 0 5) := by
    unfold Early
    decide
  have h1 : Early (.fillIndex 0 6) := by
    unfold Early
    decide
  have hs : (machine smallest).ReachableUnder (fun _ => Early) _ := .step .init h0 rfl
  exact ⟨_, rfl, not_abort_of_early (hs.step h1 rfl) _⟩

theorem latest_not_replacement :
    ¬ (machine smallest).RunMeets (StepGood smallest) latest (machine smallest).init := by
  intro h
  exact h.2.2.1.noAbort rfl

end TagArray

end GpgpuSimRuby.Cache
