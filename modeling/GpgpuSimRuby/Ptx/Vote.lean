import GpgpuSimRuby.Ptx.IntegerInstructions

/-!
# Warp votes

`vote_impl`, which the lanes of a warp execute one after the other. It collects their predicates in
static variables, and the lane that is expected to be the last one writes the result for all of them.

The option `.uni` does not set `m_vote_mode`, which then has whatever was in its memory.
-/

namespace GpgpuSimRuby.Ptx

open Value

/-- `vote_mode_t`. -/
inductive VoteMode where
  | any | all | uni | ballot
  deriving DecidableEq, Repr

/-- `ANY_OPTION`, `ALL_OPTION`, `UNI_OPTION` and `BALLOT_OPTION`. -/
inductive VoteOption where
  | any | all | uni | ballot
  deriving DecidableEq, Repr

structure VoteInst where
  option : VoteOption
  isNegPred : Bool
  deriving DecidableEq, Repr

/-- A `ptx_thread_info`, by its SM and its hardware thread. -/
structure VoteThread where
  smid : Nat
  hwTid : Nat
  deriving DecidableEq, Repr

/-- The static variables of `vote_impl`. -/
structure VoteStatics where
  firstInWarp : Bool
  andAll : Bool
  orAll : Bool
  ballotResult : BitVec 32
  threadsInWarp : List VoteThread
  lastTid : Nat
  deriving DecidableEq, Repr

inductive VoteFault where
  | assertion
  | abort
  deriving DecidableEq, Repr

/-- The search for the last active lane, from `offset` downwards. -/
def lastActive (active : Finset Nat) : Nat → Option Nat
  | 0 => none
  | offset + 1 => if offset ∈ active then some offset else lastActive active offset

namespace VoteInst

variable (i : VoteInst) (active : Finset Nat) (warpSize : Nat) (thread : VoteThread) (src : Value)

/-- `vote_mode()`, where `unset` is what was in the memory of `m_vote_mode`, if that is one. -/
def voteMode (unset : Option VoteMode) : Option VoteMode :=
  match i.option with
  | .any => some .any
  | .all => some .all
  | .ballot => some .ballot
  | .uni => unset

/-- The value of the source predicate. A set bit stands for false. -/
def predValue : Bool := i.isNegPred ^^ (src &&& 1 == 0)

/-- The static variables at the beginning of a vote. -/
def reset (lastTid : Nat) : VoteStatics where
  firstInWarp := false
  andAll := true
  orAll := false
  ballotResult := 0
  threadsInWarp := []
  lastTid := lastTid

/-- The first lane of a warp resets the static variables. -/
def start (s : VoteStatics) : Except VoteFault VoteStatics :=
  if s.firstInWarp then
    match lastActive active 32 with
    | none => .error .assertion
    | some offset => .ok (reset (thread.hwTid - thread.hwTid % warpSize + offset))
  else .ok s

def collect (s : VoteStatics) : VoteStatics :=
  { s with
    threadsInWarp := s.threadsInWarp ++ [thread]
    andAll := s.andAll && i.predValue src
    orAll := s.orAll || i.predValue src
    ballotResult :=
      if i.predValue src then s.ballotResult ||| 1 <<< (thread.hwTid % warpSize) else s.ballotResult }

/-- What is written to the destination. -/
def data (mode : VoteMode) (s : VoteStatics) : Value :=
  match mode with
  | .ballot => ofMember s.ballotResult
  | .any => if s.orAll then 0 else 1
  | .all => if s.andAll then 0 else 1
  | .uni => if s.orAll ^^ s.andAll then 0 else 1

/-- `vote_impl`, with the values it writes. -/
def voteImpl (unset : Option VoteMode) (s : VoteStatics) :
    Except VoteFault (VoteStatics × List (VoteThread × Value)) := do
  let s ← start active warpSize thread s
  let s := i.collect warpSize thread src s
  if thread.hwTid = s.lastTid then
    match i.voteMode unset with
    | some mode => .ok ({ s with firstInWarp := true }, s.threadsInWarp.map fun t => (t, data mode s))
    | none => .error .abort
  else .ok (s, [])

end VoteInst

/-- A vote of a warp: the instruction, the active mask, and for each lane whether its guard skips it and
what its source predicate is. -/
structure Vote where
  inst : VoteInst
  smid : Nat
  warpId : Nat
  warpSize : Nat
  active : Finset Nat
  skip : Nat → Bool
  src : Nat → Value
  active_lt : ∀ l ∈ active, l < warpSize
  warpSize_le : warpSize ≤ 32

/-- The state while the lanes are executed. -/
structure VoteRun where
  active : Finset Nat
  statics : VoteStatics
  writes : List (VoteThread × Value)

namespace Vote

variable (v : Vote)

def thread (lane : Nat) : VoteThread := ⟨v.smid, v.warpSize * v.warpId + lane⟩

/-- `ptx_exec_inst` on a lane, if that is active. -/
def lane (unset : Option VoteMode) (r : VoteRun) (lane : Nat) : Except VoteFault VoteRun :=
  if lane ∈ r.active then
    if v.skip lane then .ok { r with active := r.active.erase lane }
    else do
      let out ← v.inst.voteImpl r.active v.warpSize (v.thread lane) (v.src lane) unset r.statics
      .ok { r with statics := out.1, writes := r.writes ++ out.2 }
  else .ok r

/-- `execute_warp_inst_t`. -/
def exec (unset : Option VoteMode) (s : VoteStatics) : Except VoteFault VoteRun :=
  (List.range v.warpSize).foldlM (v.lane unset) ⟨v.active, s, []⟩

/-! ## What a vote is to do -/

def value (lane : Nat) : Bool := v.inst.predValue (v.src lane)

/-- Of the first lanes, those that pass their guard. -/
def passed (k : Nat) : List Nat :=
  (List.range k).filter fun lane => decide (lane ∈ v.active) && !v.skip lane

/-- The lanes that take part in the vote. -/
def lanes : List Nat := v.passed v.warpSize

/-- A value is the result of the vote. -/
def IsResult (d : Value) : Prop :=
  match v.inst.option with
  | .any => d &&& 1 = 0 ↔ ∃ l ∈ v.lanes, v.value l = true
  | .all => d &&& 1 = 0 ↔ ∀ l ∈ v.lanes, v.value l = true
  | .uni => d &&& 1 = 0 ↔ (∀ l ∈ v.lanes, v.value l = true) ∨ ∀ l ∈ v.lanes, v.value l = false
  | .ballot => ∀ l, d.getLsbD l = true ↔ l ∈ v.lanes ∧ v.value l = true

/-- Each lane that takes part is written the result, and the static variables are those of no vote. -/
structure Right (r : VoteRun) : Prop where
  closed : r.statics.firstInWarp = true
  threads : r.writes.map Prod.fst = v.lanes.map v.thread
  isResult : ∀ w ∈ r.writes, v.IsResult w.2

/-- The votes that come out right. -/
def RightWhen : Prop :=
  v.lanes = [] ∨
    (v.inst.option ≠ .uni ∧ ∀ l ∈ v.active, (∀ l' ∈ v.active, l' ≤ l) → v.skip l = false)

/-- All votes of a run come out right, whatever was in the memory of their instructions. -/
def AllRight : List Vote → VoteStatics → Prop
  | [], _ => True
  | v :: votes, s =>
    ∀ unset, ∃ r, v.exec unset s = .ok r ∧ v.Right r ∧ AllRight votes r.statics

end Vote

/-! ## The last active lane -/

theorem lastActive_eq {active : Finset Nat} {h m : Nat} (hmem : h ∈ active) (hmax : ∀ l ∈ active, l ≤ h)
    (hm : h < m) : lastActive active m = some h := by
  induction m with
  | zero => exact absurd hm (Nat.not_lt_zero h)
  | succ m ih =>
    unfold lastActive
    split
    · next hin =>
      have := hmax m hin
      rw [show m = h by omega]
    · next hout =>
      apply ih
      have hne : h ≠ m := fun heq => hout (heq ▸ hmem)
      omega

namespace Vote

variable {v : Vote} {r r' : VoteRun} {s : VoteStatics} {h k : Nat} {unset : Option VoteMode}

/-! ## The lanes -/

section Lanes

theorem mem_passed {l : Nat} : l ∈ v.passed k ↔ l < k ∧ l ∈ v.active ∧ v.skip l = false := by
  unfold passed
  simp

theorem mem_lanes {l : Nat} : l ∈ v.lanes ↔ l ∈ v.active ∧ v.skip l = false := by
  unfold lanes
  rw [mem_passed]
  exact ⟨fun hl => hl.2, fun hl => ⟨v.active_lt l hl.1, hl⟩⟩

theorem passed_succ_of_passes (hk : k ∈ v.active) (hskip : v.skip k = false) :
    v.passed (k + 1) = v.passed k ++ [k] := by
  unfold passed
  rw [List.range_succ, List.filter_append]
  simp [hk, hskip]

theorem passed_succ_of_not (hk : ¬ (k ∈ v.active ∧ v.skip k = false)) : v.passed (k + 1) = v.passed k := by
  have hnil : [k].filter (fun lane => decide (lane ∈ v.active) && !v.skip lane) = [] := by
    simpa using hk
  unfold passed
  rw [List.range_succ, List.filter_append, hnil, List.append_nil]

theorem thread_hwTid_mod (hk : k < v.warpSize) : (v.thread k).hwTid % v.warpSize = k := by
  show (v.warpSize * v.warpId + k) % v.warpSize = k
  rw [Nat.mul_add_mod, Nat.mod_eq_of_lt hk]

end Lanes

/-! ## The state between two lanes -/

/-- The static variables after some lanes have been collected. -/
structure Collected (v : Vote) (h : Nat) (collected : List Nat) (s : VoteStatics) : Prop where
  firstInWarp : s.firstInWarp = false
  andAll : s.andAll = true ↔ ∀ l ∈ collected, v.value l = true
  orAll : s.orAll = true ↔ ∃ l ∈ collected, v.value l = true
  ballotResult : ∀ l, s.ballotResult.getLsbD l = true ↔ l ∈ collected ∧ v.value l = true
  threadsInWarp : s.threadsInWarp = collected.map v.thread
  lastTid : s.lastTid = (v.thread h).hwTid

/-- The state before lane `k`, where `h` is the last lane of the active mask. -/
inductive Before (v : Vote) (unset : Option VoteMode) (h : Nat) (s : VoteStatics) (k : Nat)
    (r : VoteRun) : Prop
  /-- No lane has passed its guard yet. -/
  | idle (none : v.passed k = []) (statics : r.statics = s) (writes : r.writes = [])
  /-- The last lane has not been reached, or has been skipped. -/
  | open (some : v.passed k ≠ []) (last : h ∉ v.passed k) (collected : Collected v h (v.passed k) r.statics)
      (writes : r.writes = [])
  /-- The last lane has written the result. -/
  | released (t : VoteStatics) (mode : VoteMode) (set : v.inst.voteMode unset = some mode)
      (last : h ∈ v.passed k) (collected : Collected v h (v.passed k) t)
      (statics : r.statics = { t with firstInWarp := true })
      (writes : r.writes = (v.passed k).map fun l => (v.thread l, VoteInst.data mode t))

/-- The active mask before lane `k`. -/
def ActiveBefore (v : Vote) (k : Nat) (r : VoteRun) : Prop :=
  ∀ l, l ∈ r.active ↔ l ∈ v.active ∧ (k ≤ l ∨ v.skip l = false)

section Step

theorem start_eq {active : Finset Nat} (hs : s.firstInWarp = true) (hk : k < v.warpSize)
    (hlast : lastActive active 32 = some h) :
    VoteInst.start active v.warpSize (v.thread k) s = .ok (VoteInst.reset (v.thread h).hwTid) := by
  have hbase : (v.thread k).hwTid - (v.thread k).hwTid % v.warpSize + h = (v.thread h).hwTid := by
    rw [thread_hwTid_mod hk]
    show v.warpSize * v.warpId + k - k + h = v.warpSize * v.warpId + h
    rw [Nat.add_sub_cancel]
  unfold VoteInst.start
  rw [if_pos hs, hlast]
  dsimp only
  rw [hbase]

theorem collected_reset : Collected v h [] (VoteInst.reset (v.thread h).hwTid) where
  firstInWarp := rfl
  andAll := by simp [VoteInst.reset]
  orAll := by simp [VoteInst.reset]
  ballotResult := by simp [VoteInst.reset]
  threadsInWarp := rfl
  lastTid := rfl

theorem getLsbD_or_bit {x : BitVec 32} {l : Nat} (hk : k < 32) :
    (x ||| 1#32 <<< k).getLsbD l = true ↔ x.getLsbD l = true ∨ l = k := by
  rw [BitVec.getLsbD_or, Bool.or_eq_true, BitVec.getLsbD_shiftLeft, BitVec.getLsbD_one]
  simp only [Bool.and_eq_true, Bool.not_eq_true', decide_eq_true_eq, decide_eq_false_iff_not]
  have hbit : (l < 32 ∧ ¬ l < k) ∧ 0 < 32 ∧ l - k = 0 ↔ l = k := by omega
  rw [hbit]

theorem Collected.collect {collected : List Nat} (hc : Collected v h collected s) (hk : k < v.warpSize) :
    Collected v h (collected ++ [k]) (v.inst.collect v.warpSize (v.thread k) (v.src k) s) := by
  have hk32 : k < 32 := lt_of_lt_of_le hk v.warpSize_le
  have hvalue : v.inst.predValue (v.src k) = v.value k := rfl
  constructor
  · exact hc.firstInWarp
  · show (s.andAll && v.value k) = true ↔ _
    rw [Bool.and_eq_true, hc.andAll, List.forall_mem_append, List.forall_mem_singleton]
  · show (s.orAll || v.value k) = true ↔ _
    rw [Bool.or_eq_true, hc.orAll]
    simp only [List.mem_append, List.mem_singleton, or_and_right, exists_or, exists_eq_left]
  · intro l
    show (if v.value k then s.ballotResult ||| 1#32 <<< ((v.thread k).hwTid % v.warpSize)
      else s.ballotResult).getLsbD l = true ↔ _
    rw [thread_hwTid_mod hk, List.mem_append, List.mem_singleton]
    cases hv : v.value k with
    | true =>
      rw [if_pos rfl, getLsbD_or_bit hk32, hc.ballotResult]
      grind
    | false =>
      rw [if_neg Bool.false_ne_true, hc.ballotResult]
      grind
  · show s.threadsInWarp ++ [v.thread k] = _
    rw [hc.threadsInWarp, List.map_append, List.map_singleton]
  · exact hc.lastTid

theorem voteImpl_eq {active : Finset Nat} {collected : List Nat} {t : VoteStatics}
    (ht : VoteInst.start active v.warpSize (v.thread k) s = .ok t) (hc : Collected v h collected t)
    (hk : k < v.warpSize) :
    ∃ t', Collected v h (collected ++ [k]) t' ∧
      (k ≠ h → v.inst.voteImpl active v.warpSize (v.thread k) (v.src k) unset s = .ok (t', [])) ∧
      ∀ mode, v.inst.voteMode unset = some mode → k = h →
        v.inst.voteImpl active v.warpSize (v.thread k) (v.src k) unset s =
          .ok ({ t' with firstInWarp := true },
            (collected ++ [k]).map fun l => (v.thread l, VoteInst.data mode t')) := by
  have hcollect := hc.collect hk
  have hlast : (v.thread k).hwTid = (v.inst.collect v.warpSize (v.thread k) (v.src k) t).lastTid ↔ k = h := by
    rw [hcollect.lastTid]
    show v.warpSize * v.warpId + k = v.warpSize * v.warpId + h ↔ k = h
    omega
  refine ⟨_, hcollect, fun hkh => ?_, fun mode hmode hkh => ?_⟩
  · unfold VoteInst.voteImpl
    rw [ht]
    exact if_neg (mt hlast.mp hkh)
  · unfold VoteInst.voteImpl
    rw [ht, hmode]
    refine (if_pos (hlast.mpr hkh)).trans ?_
    rw [hcollect.threadsInWarp, List.map_map]
    rfl

theorem Before.frame (hb : Before v unset h s k r) (hpassed : v.passed (k + 1) = v.passed k)
    (hstatics : r'.statics = r.statics) (hwrites : r'.writes = r.writes) :
    Before v unset h s (k + 1) r' := by
  cases hb with
  | idle none statics writes =>
    exact .idle (hpassed.trans none) (hstatics.trans statics) (hwrites.trans writes)
  | «open» some last collected writes =>
    rw [← hpassed] at some last collected
    rw [← hstatics] at collected
    exact .open some last collected (hwrites.trans writes)
  | released t mode set last collected statics writes =>
    rw [← hpassed] at last collected writes
    exact .released t mode set last collected (hstatics.trans statics) (hwrites.trans writes)

theorem Before.start (hb : Before v unset h s k r) (hs : s.firstInWarp = true) (hmem : h ∈ v.active)
    (hmax : ∀ l ∈ v.active, l ≤ h) (hk : k < v.warpSize) (hkh : k ≤ h) (hactive : ActiveBefore v k r) :
    ∃ t, VoteInst.start r.active v.warpSize (v.thread k) r.statics = .ok t ∧
      Collected v h (v.passed k) t ∧ r.writes = [] ∧ h ∉ v.passed k := by
  cases hb with
  | idle none statics writes =>
    have hlast : lastActive r.active 32 = some h := by
      apply lastActive_eq
      · exact (hactive h).mpr ⟨hmem, .inl hkh⟩
      · exact fun l hl => hmax l ((hactive l).mp hl).1
      · exact lt_of_lt_of_le (v.active_lt h hmem) v.warpSize_le
    refine ⟨VoteInst.reset (v.thread h).hwTid, ?_, ?_, writes, ?_⟩
    · rw [statics]
      exact start_eq hs hk hlast
    · rw [none]
      exact collected_reset
    · rw [none]
      exact List.not_mem_nil
  | «open» some last collected writes =>
    refine ⟨r.statics, ?_, collected, writes, last⟩
    unfold VoteInst.start
    rw [collected.firstInWarp, if_neg Bool.false_ne_true]
  | released t mode set last collected statics writes =>
    have := (mem_passed.mp last).1
    omega

theorem lane_step (hs : s.firstInWarp = true) (hmem : h ∈ v.active) (hmax : ∀ l ∈ v.active, l ≤ h)
    (hset : v.skip h = false → ∃ mode, v.inst.voteMode unset = some mode) (hk : k < v.warpSize)
    (hactive : ActiveBefore v k r) (hb : Before v unset h s k r) :
    ∃ r', v.lane unset r k = .ok r' ∧ ActiveBefore v (k + 1) r' ∧ Before v unset h s (k + 1) r' := by
  by_cases hin : k ∈ v.active
  · have hrun : k ∈ r.active := (hactive k).mpr ⟨hin, .inl le_rfl⟩
    unfold lane
    rw [if_pos hrun]
    cases hskip : v.skip k with
    | true =>
      refine ⟨_, if_pos rfl, ?_, hb.frame (passed_succ_of_not (by simp [hskip])) rfl rfl⟩
      intro l
      rw [Finset.mem_erase, hactive l]
      by_cases hl : l = k
      · simp [hl, hskip]
      · have hle : k + 1 ≤ l ↔ k ≤ l := by omega
        simp [hl, hle]
    | false =>
      obtain ⟨t, ht, hcollected, hwrites, hlast⟩ := hb.start hs hmem hmax hk (hmax k hin) hactive
      obtain ⟨t', hcollected', hvote, hlastVote⟩ := voteImpl_eq ht hcollected hk
      have hpassed := passed_succ_of_passes hin hskip
      have hactive' : ∀ l, l ∈ r.active ↔ l ∈ v.active ∧ (k + 1 ≤ l ∨ v.skip l = false) := by
        intro l
        rw [hactive l]
        by_cases hl : l = k
        · simp [hl, hskip]
        · have hle : k + 1 ≤ l ↔ k ≤ l := by omega
          rw [hle]
      rw [if_neg Bool.false_ne_true]
      rw [← hpassed] at hcollected' hlastVote
      by_cases hkh : k = h
      · -- This is the last lane.
        obtain ⟨mode, hmode⟩ := hset (hkh ▸ hskip)
        rw [hlastVote mode hmode hkh]
        refine ⟨_, rfl, hactive', .released t' mode hmode ?_ hcollected' rfl ?_⟩
        · rw [hpassed, hkh]
          simp
        · show r.writes ++ _ = _
          rw [hwrites, List.nil_append]
      · rw [hvote hkh]
        refine ⟨_, rfl, hactive', .open ?_ ?_ hcollected' ?_⟩
        · rw [hpassed]
          simp
        · rw [hpassed]
          simp [hlast, Ne.symm hkh]
        · show r.writes ++ [] = []
          rw [hwrites, List.nil_append]
  · have hrun : k ∉ r.active := fun hmem => hin ((hactive k).mp hmem).1
    refine ⟨r, if_neg hrun, ?_, hb.frame (passed_succ_of_not fun hp => hin hp.1) rfl rfl⟩
    intro l
    rw [hactive l]
    by_cases hl : l = k
    · simp [hl, hin]
    · have hle : k + 1 ≤ l ↔ k ≤ l := by omega
      rw [hle]

variable (unset) in
theorem lanes_run (hs : s.firstInWarp = true) (hmem : h ∈ v.active) (hmax : ∀ l ∈ v.active, l ≤ h)
    (hset : v.skip h = false → ∃ mode, v.inst.voteMode unset = some mode) (k : Nat)
    (hk : k ≤ v.warpSize) : ∃ r, (List.range k).foldlM (v.lane unset) ⟨v.active, s, []⟩ = .ok r ∧
      ActiveBefore v k r ∧ Before v unset h s k r := by
  induction k with
  | zero =>
    refine ⟨_, rfl, ?_, .idle rfl rfl rfl⟩
    intro l
    simp
  | succ k ih =>
    obtain ⟨r, hr, hactive, hb⟩ := ih (by omega)
    obtain ⟨r', hr', hactive', hb'⟩ := lane_step hs hmem hmax hset (by omega) hactive hb
    refine ⟨r', ?_, hactive', hb'⟩
    rw [List.range_succ, List.foldlM_append, hr]
    show [k].foldlM (v.lane unset) r = .ok r'
    rw [List.foldlM_cons, hr']
    rfl

end Step

/-! ## The result -/

section Result

variable {t : VoteStatics}

theorem data_and_one (b : Bool) : (if b then 0 else 1 : Value) &&& 1 = 0 ↔ b = true := by
  revert b
  decide

theorem isResult_data (hc : Collected v h v.lanes t) (hopt : v.inst.option ≠ .uni) {mode : VoteMode}
    (hmode : v.inst.voteMode unset = some mode) : v.IsResult (VoteInst.data mode t) := by
  unfold VoteInst.voteMode at hmode
  unfold IsResult
  cases ho : v.inst.option with
  | uni => exact absurd ho hopt
  | any =>
    rw [ho] at hmode
    obtain rfl := Option.some.inj hmode
    exact (data_and_one _).trans hc.orAll
  | all =>
    rw [ho] at hmode
    obtain rfl := Option.some.inj hmode
    exact (data_and_one _).trans hc.andAll
  | ballot =>
    rw [ho] at hmode
    obtain rfl := Option.some.inj hmode
    intro l
    rw [← hc.ballotResult l]
    show ((t.ballotResult.setWidth 64).getLsbD l = true) ↔ _
    rw [BitVec.getLsbD_setWidth]
    constructor
    · intro h
      exact (Bool.and_eq_true_iff.mp h).2
    · intro h
      have hlt := BitVec.lt_of_getLsbD h
      rw [decide_eq_true (show l < 64 by omega), h]
      rfl

/-- Even `vote_uni` is not what `.uni` asks for: the exclusive or is set if the values differ. -/
theorem not_isResult_uni (hc : Collected v h v.lanes t) (hne : v.lanes ≠ [])
    (hopt : v.inst.option = .uni) : ¬ v.IsResult (VoteInst.data .uni t) := by
  have hand := hc.andAll
  have hor := hc.orAll
  obtain ⟨l, hl⟩ := List.exists_mem_of_ne_nil _ hne
  unfold IsResult
  rw [hopt]
  intro hdata
  have huni := (data_and_one _).symm.trans hdata
  cases hoa : t.orAll <;> cases haa : t.andAll <;> grind

theorem exec_of_lanes_nil (unset : Option VoteMode) (hs : s.firstInWarp = true) (hnil : v.lanes = []) :
    ∃ r, v.exec unset s = .ok r ∧ v.Right r := by
  rcases v.active.eq_empty_or_nonempty with hempty | hne
  · have hidle : ∀ lanes : List Nat, lanes.foldlM (v.lane unset) ⟨v.active, s, []⟩ =
        .ok ⟨v.active, s, []⟩ := by
      intro lanes
      induction lanes with
      | nil => rfl
      | cons l lanes ih =>
        have hout : l ∉ v.active := by simp [hempty]
        have hlane : v.lane unset ⟨v.active, s, []⟩ l = .ok ⟨v.active, s, []⟩ := if_neg hout
        rw [List.foldlM_cons, hlane]
        exact ih
    refine ⟨_, hidle _, hs, ?_, ?_⟩
    · rw [hnil]
      rfl
    · intro w hw
      cases hw
  · have hmax := v.active.max'_mem hne
    have hskip : v.skip (v.active.max' hne) = true := by
      by_contra hskip
      have hin := mem_lanes.mpr ⟨hmax, Bool.eq_false_iff.mpr hskip⟩
      rw [hnil] at hin
      cases hin
    obtain ⟨r, hr, -, hb⟩ := lanes_run unset hs hmax (fun l hl => v.active.le_max' l hl)
      (fun h => absurd (h.symm.trans hskip) Bool.false_ne_true) v.warpSize le_rfl
    refine ⟨r, hr, ?_⟩
    cases hb with
    | idle none statics writes =>
      refine ⟨by rw [statics]; exact hs, by rw [writes, hnil]; rfl, ?_⟩
      intro w hw
      rw [writes] at hw
      cases hw
    | «open» some last collected writes => exact absurd hnil some
    | released t mode set last collected statics writes => exact absurd hnil (List.ne_nil_of_mem last)

/-- **A vote comes out right** where `RightWhen` holds, if no other one is open. -/
theorem exec_right (v : Vote) (unset : Option VoteMode) (hs : s.firstInWarp = true)
    (h : v.RightWhen) : ∃ r, v.exec unset s = .ok r ∧ v.Right r := by
  rcases h with hnil | ⟨hopt, hlast⟩
  · exact exec_of_lanes_nil unset hs hnil
  by_cases hnil : v.lanes = []
  · exact exec_of_lanes_nil unset hs hnil
  obtain ⟨l, hl⟩ := List.exists_mem_of_ne_nil _ hnil
  have hne : v.active.Nonempty := ⟨l, (mem_lanes.mp hl).1⟩
  have hmem := v.active.max'_mem hne
  have hle : ∀ l ∈ v.active, l ≤ v.active.max' hne := fun l hl => v.active.le_max' l hl
  have hpasses : v.active.max' hne ∈ v.lanes := mem_lanes.mpr ⟨hmem, hlast _ hmem hle⟩
  have hset : ∃ mode, v.inst.voteMode unset = some mode := by
    unfold VoteInst.voteMode
    cases ho : v.inst.option with
    | uni => exact absurd ho hopt
    | any => exact ⟨_, rfl⟩
    | all => exact ⟨_, rfl⟩
    | ballot => exact ⟨_, rfl⟩
  obtain ⟨r, hr, -, hb⟩ := lanes_run unset hs hmem hle (fun _ => hset) v.warpSize le_rfl
  refine ⟨r, hr, ?_⟩
  cases hb with
  | idle none statics writes => exact absurd none hnil
  | «open» some last collected writes => exact absurd hpasses last
  | released t mode set last collected statics writes =>
    refine ⟨by rw [statics], ?_, ?_⟩
    · rw [writes, List.map_map]
      rfl
    · intro w hw
      rw [writes] at hw
      obtain ⟨l', -, rfl⟩ := List.mem_map.mp hw
      exact isResult_data collected hopt set

/-- Where it does not hold, it comes out wrong even if `m_vote_mode` was `vote_uni`. -/
theorem exec_wrong (v : Vote) (hs : s.firstInWarp = true) (h : ¬ v.RightWhen)
    (hr : v.exec (some .uni) s = .ok r) :
    ¬ v.Right r := by
  obtain ⟨hnil, hcond⟩ := not_or.mp h
  obtain ⟨l, hl⟩ := List.exists_mem_of_ne_nil _ hnil
  have hne : v.active.Nonempty := ⟨l, (mem_lanes.mp hl).1⟩
  have hmem := v.active.max'_mem hne
  have hle : ∀ l ∈ v.active, l ≤ v.active.max' hne := fun l hl => v.active.le_max' l hl
  have hset : ∃ mode, v.inst.voteMode (some .uni) = some mode := by
    unfold VoteInst.voteMode
    cases v.inst.option <;> exact ⟨_, rfl⟩
  obtain ⟨r', hr', -, hb⟩ := lanes_run _ hs hmem hle (fun _ => hset) v.warpSize le_rfl
  obtain rfl := Except.ok.inj (hr.symm.trans hr')
  intro hright
  cases hb with
  | idle none statics writes => exact hnil none
  | «open» some last collected writes =>
    exact absurd (collected.firstInWarp.symm.trans hright.closed) Bool.false_ne_true
  | released t mode set last collected statics writes =>
    have hopt : v.inst.option = .uni := by
      by_contra hopt
      refine hcond ⟨hopt, fun l hl hmax => ?_⟩
      rw [le_antisymm (hle l hl) (hmax _ hmem)]
      exact (mem_lanes.mp last).2
    have hmode : mode = .uni := by
      unfold VoteInst.voteMode at set
      rw [hopt] at set
      exact (Option.some.inj set).symm
    subst hmode
    apply not_isResult_uni collected hnil hopt
    apply hright.isResult (v.thread l, VoteInst.data .uni t)
    rw [writes]
    exact List.mem_map_of_mem hl

end Result

/-- **Warp votes.** In a run of votes that begins with none open, all come out right exactly when
`RightWhen` holds of each of them. -/
theorem votes_allRight_iff (votes : List Vote) (s : VoteStatics) (hs : s.firstInWarp = true) :
    AllRight votes s ↔ ∀ v ∈ votes, v.RightWhen := by
  induction votes generalizing s with
  | nil => exact iff_of_true trivial (by simp)
  | cons v votes ih =>
    rw [List.forall_mem_cons]
    constructor
    · intro h
      obtain ⟨r, hr, hright, hrest⟩ := h (some .uni)
      refine ⟨?_, (ih r.statics hright.closed).mp hrest⟩
      by_contra hcond
      exact exec_wrong v hs hcond hr hright
    · rintro ⟨hv, hrest⟩ unset
      obtain ⟨r, hr, hright⟩ := exec_right v unset hs hv
      exact ⟨r, hr, hright, (ih r.statics hright.closed).mpr hrest⟩

/-- A `vote.all` of two lanes, of which the second one is skipped if `skip` is set. -/
def twoLanes (skip : Bool) : Vote where
  inst := ⟨.all, false⟩
  smid := 0
  warpId := 0
  warpSize := 2
  active := {0, 1}
  skip := fun lane => skip && lane == 1
  src := fun _ => 0
  active_lt := by decide
  warpSize_le := by decide

/-- The static variables at the start of the simulation. -/
def noVote : VoteStatics := { VoteInst.reset 0 with firstInWarp := true }

/-- Both predicates are true. -/
theorem allRight_twoLanes : AllRight [twoLanes false] noVote := by
  refine (votes_allRight_iff _ _ rfl).mpr ?_
  simp [RightWhen, twoLanes]

/-- With the second lane skipped the first one is written nothing, and the vote stays open. -/
theorem not_allRight_twoLanes : ¬ AllRight [twoLanes true] noVote := by
  intro h
  obtain ⟨r, hr, hright, -⟩ := h none
  have hopen : ((twoLanes true).exec none noVote).map (·.statics.firstInWarp) = .ok false := by decide
  rw [hr] at hopen
  exact absurd ((Except.ok.inj hopen).symm.trans hright.closed) Bool.false_ne_true

end Vote

end GpgpuSimRuby.Ptx
