import GpgpuSimRuby.Cache.DataCache

/-!
# What an access does

Every policy ends in one of two ways. Either the access changes at most the line that it hit, and may
send its own write; or it is an accepted miss, which waits in an entry of the MSHRs and may ask for its
block, after its own write and before the write-back of the line that it replaces.
-/

namespace GpgpuSimRuby.Cache

open Library

/-! ## The two kinds of answers -/

/-- The configuration evicts the line that this write hits. -/
def WriteEvicts (cfg : CacheConfig) (accessType : MemAccessType) : Prop :=
  cfg.writePolicy = .writeEvict ∨ cfg.writePolicy = .localWbGlobalWt ∧ accessType = .globalAccW

/-- What becomes of the lines at a hit, when `sent` is sent. -/
inductive HitChange (cfg : CacheConfig) (lines : Lines) (addr : Nat) (mf : MemFetch)
    (sent : List MemFetch) : Lines → Prop
  | same : HitChange cfg lines addr mf sent lines
  | touch {index line} (hit : Lines.probe cfg lines (cfg.blockAddr addr) = .ok (.hit index))
      (tag : line.tag = (lines index).tag) (block : line.blockAddr = (lines index).blockAddr)
      (status : line.status = (lines index).status ∨ line.status = .modified) :
      HitChange cfg lines addr mf sent (Lines.setLine lines index line)
  | evict {index} (hit : Lines.probe cfg lines (cfg.blockAddr addr) = .ok (.hit index))
      (write : mf.isWrite = true) (policy : WriteEvicts cfg mf.accessType) (own : sent = [mf]) :
      HitChange cfg lines addr mf sent (Lines.setStatus lines index .invalid)

namespace BaselineCache

/-- How many requests beyond the first the miss queue must have room for. -/
def missRoom : Kind → Bool → Nat
  | .readOnlyCache, _ => 0
  | .dataCache, false => 1
  | .dataCache, true => 2

/-- What the probe of an access answers. -/
def probeStatus (cfg : CacheConfig) (s : BaselineCache) (addr : Nat) : Except Fault CacheRequestStatus :=
  (Lines.probe cfg s.lines (cfg.blockAddr addr)).map Probe.status

/-- The cache takes a read of this block, or the read of a write-allocate. -/
def Accepts (kind : Kind) (cfg : CacheConfig) (s : BaselineCache) (addr : Nat) (isWrite : Bool) : Prop :=
  (isWrite = true → cfg.writeAllocPolicy = .writeAllocate) ∧
    s.missQueueFull cfg (missRoom kind isWrite) = false ∧
    s.mshrs.full cfg (cfg.blockAddr addr) = false ∧
    (s.probeStatus cfg addr = .ok .miss ∨ s.probeStatus cfg addr = .ok .hitReserved)

instance decidableAccepts (kind : Kind) (cfg : CacheConfig) (s : BaselineCache) (addr : Nat)
    (isWrite : Bool) : Decidable (Accepts kind cfg s addr isWrite) :=
  inferInstanceAs (Decidable (_ ∧ _))

/-- An accepted miss: `w` waits for the block, `pre` is the write that is sent before, `wbs` the
write-back of the line that is replaced, and `a` is what the tag array answers. -/
structure Misses (kind : Kind) (cfg : CacheConfig) (s : BaselineCache) (addr time : Nat)
    (mf w : MemFetch) (pre wbs : List MemFetch) (a : Lines.Accessed) (c : BaselineCache) : Prop where
  waiter : w = mf ∧ pre = [] ∧ mf.isWrite = false ∨
    w = s.newMf mf.addr .l2WrAllocR false false ∧ pre = [mf] ∧ mf.isWrite = true
  room : s.missQueue.length + (pre.length + wbs.length) < cfg.missQueueSize
  accepts : Accepts kind cfg s addr mf.isWrite
  found : ∃ index, a.probe = .miss index ∨ a.probe = .hitReserved index
  tags : Lines.access cfg s.lines (cfg.blockAddr addr) time = .ok a
  add : s.mshrs.add cfg (cfg.blockAddr addr) w = .ok c.mshrs
  writeBack : ∃ accessType, (accessType = .l1WrbkAcc ∨ accessType = .l2WrbkAcc) ∧
    wbs = (a.evicted.filter fun _ => cfg.writePolicy ≠ .writeThrough).toList.map
      fun e => ⟨s.made + pre.length, e.blockAddr, accessType, true, false⟩
  lines : c.lines = a.lines
  missQueue : c.missQueue = s.missQueue ++
    (pre ++ if s.mshrs.probe (cfg.blockAddr addr) then wbs else w :: wbs)
  extra : ∃ size, c.extraMfFields = if s.mshrs.probe (cfg.blockAddr addr) then s.extraMfFields else
    Function.update s.extraMfFields w.id (some ⟨cfg.blockAddr addr, a.probe.index 0, size⟩)
  record : c.record = if s.mshrs.probe (cfg.blockAddr addr) then
      .waits (cfg.blockAddr addr) w :: s.record
    else .requested (cfg.blockAddr addr) :: .waits (cfg.blockAddr addr) w :: s.record
  below : c.below = s.below
  made : c.made = s.made + (pre.length + wbs.length)

/-- What an access leaves, and what it answers. -/
inductive Answers (kind : Kind) (cfg : CacheConfig) (s : BaselineCache) (addr time : Nat)
    (mf : MemFetch) : BaselineCache → CacheRequestStatus → Prop
  | quiet {lines sent events status}
      (hsent : sent = [] ∨ sent = [mf] ∧ mf.isWrite = true ∧
        s.missQueue.length < cfg.missQueueSize)
      (hchange : HitChange cfg s.lines addr mf sent lines)
      (hstatus : status = .miss → mf.isWrite = true)
      (hsends : status = .hit ∧ events = s.events ++ sent.map (fun _ => .writeRequestSent) ∨
        status = .reservationFail ∧ sent = [] ∨ status = .miss ∧ sent = [mf]) :
      Answers kind cfg s addr time mf
        { s with lines, missQueue := s.missQueue ++ sent, events } status
  | missed {w pre wbs a c} (h : Misses kind cfg s addr time mf w pre wbs a c) :
      Answers kind cfg s addr time mf c .miss

variable {kind : Kind} {cfg : CacheConfig} {s c : BaselineCache} {addr time index : Nat} {mf w : MemFetch}
  {status : CacheRequestStatus} {t : BaselineCache} {a : Lines.Accessed}

theorem not_missQueueFull {n : Nat} :
    s.missQueueFull cfg n = false ↔ s.missQueue.length + n < cfg.missQueueSize := by
  simp [missQueueFull]

theorem Answers.refused : Answers kind cfg s addr time mf s .reservationFail := by
  have h : Answers kind cfg s addr time mf { s with missQueue := s.missQueue ++ [] } .reservationFail :=
    .quiet (.inl rfl) .same (fun h => by cases h) (.inr (.inl ⟨rfl, rfl⟩))
  simpa using h

theorem Answers.unsent {lines : Lines} (hchange : HitChange cfg s.lines addr mf [] lines) :
    Answers kind cfg s addr time mf { s with lines } .hit := by
  have h : Answers kind cfg s addr time mf { s with lines, missQueue := s.missQueue ++ [] } .hit :=
    .quiet (.inl rfl) hchange (fun h => by cases h) (.inl ⟨rfl, (List.append_nil _).symm⟩)
  simpa using h

/-! ## Hits -/

section Hits

variable (hp : Lines.probe cfg s.lines (cfg.blockAddr addr) = .ok (.hit index))
include hp

theorem modified_of_hit
    (h : Lines.accessClean cfg s.lines (cfg.blockAddr addr) time = .ok a) (sent : List MemFetch) :
    HitChange cfg s.lines addr mf sent (Lines.setStatus a.lines (a.probe.index index) .modified) := by
  obtain ⟨hprobe, hlines⟩ := Lines.accessClean_hit hp h
  rw [hprobe, hlines]
  show HitChange cfg s.lines addr mf sent (Lines.setStatus (Lines.setLine _ index _) index .modified)
  rw [Lines.setStatus, Lines.setLine_setLine, Lines.setLine_self]
  exact .touch hp rfl rfl (.inr rfl)

theorem touched_of_hit
    (h : Lines.accessClean cfg s.lines (cfg.blockAddr addr) time = .ok a) (sent : List MemFetch) :
    HitChange cfg s.lines addr mf sent a.lines := by
  obtain ⟨-, hlines⟩ := Lines.accessClean_hit hp h
  rw [hlines]
  exact .touch hp rfl rfl (.inl rfl)

theorem wrHitWb_ok (h : s.wrHitWb cfg addr index time = .ok (c, status)) :
    Answers kind cfg s addr time mf c status := by
  obtain ⟨a, ha, h⟩ := bind_eq_ok.mp h
  cases h
  exact .unsent (modified_of_hit hp ha [])

theorem wrHitWt_ok (hw : mf.isWrite = true) (h : s.wrHitWt cfg addr index mf time = .ok (c, status)) :
    Answers kind cfg s addr time mf c status := by
  unfold wrHitWt at h
  split at h
  · cases h
    exact .refused
  · next hfull =>
    obtain ⟨a, ha, h⟩ := bind_eq_ok.mp h
    cases h
    have hroom := not_missQueueFull.mp (Bool.eq_false_of_not_eq_true hfull)
    exact .quiet (.inr ⟨rfl, hw, hroom⟩) (modified_of_hit hp ha [mf]) (fun h => by cases h)
      (.inl ⟨rfl, rfl⟩)

theorem wrHitWe_ok (hw : mf.isWrite = true) (hpol : WriteEvicts cfg mf.accessType)
    (h : s.wrHitWe cfg index mf = .ok (c, status)) : Answers kind cfg s addr time mf c status := by
  unfold wrHitWe at h
  split at h
  · cases h
    exact .refused
  · next hfull =>
    cases h
    have hroom := not_missQueueFull.mp (Bool.eq_false_of_not_eq_true hfull)
    exact .quiet (.inr ⟨rfl, hw, hroom⟩) (.evict hp hw hpol rfl) (fun h => by cases h)
      (.inl ⟨rfl, rfl⟩)

theorem wrHit_ok (hw : mf.isWrite = true) (h : s.wrHit cfg addr index mf time = .ok (c, status)) :
    Answers kind cfg s addr time mf c status := by
  unfold wrHit at h
  split at h
  case h_1 => cases h
  case h_2 => exact wrHitWb_ok hp h
  case h_3 => exact wrHitWt_ok hp hw h
  case h_4 hpol => exact wrHitWe_ok hp hw (.inl hpol) h
  case h_5 hpol =>
    unfold wrHitGlobalWeLocalWb at h
    split at h
    · next hglobal => exact wrHitWe_ok hp hw (.inr ⟨hpol, hglobal⟩) h
    · exact wrHitWb_ok hp h

theorem rdHitBase_ok (h : s.rdHitBase cfg addr index mf time = .ok (c, status)) :
    Answers kind cfg s addr time mf c status := by
  obtain ⟨a, ha, h⟩ := bind_eq_ok.mp h
  split at h
  · obtain ⟨_, -, h⟩ := bind_eq_ok.mp h
    cases h
    exact .unsent (modified_of_hit hp ha [])
  · cases h
    exact .unsent (touched_of_hit hp ha [])

end Hits

/-! ## Misses -/

theorem tagAccess_ok {readOnly : Bool} {b : Nat} (h : s.tagAccess cfg readOnly b time = .ok a) :
    Lines.access cfg s.lines b time = .ok a ∧ (readOnly = true → a.evicted = none) := by
  cases readOnly with
  | false => exact ⟨h, fun h => by cases h⟩
  | true =>
    obtain ⟨ha, hclean⟩ := Lines.accessClean_ok h
    exact ⟨ha, fun _ => hclean⟩

/-- What a read request leaves that is taken: it is merged into an entry, or asks for its block. -/
def taken (cfg : CacheConfig) (s : BaselineCache) (a : Lines.Accessed) (mshrs : MshrTable)
    (b index : Nat) (w : MemFetch) (wa : Bool) : BaselineCache :=
  if s.mshrs.probe b then s.merged a mshrs b w else s.requested cfg a mshrs b index w wa

theorem sendReadRequest_ok {r : Sent} {readOnly wa : Bool} {b : Nat}
    (h : s.sendReadRequest cfg b index w time readOnly wa = .ok r) :
    r = ⟨s, false, none⟩ ∧ (s.mshrs.full cfg b = true ∨ cfg.missQueueSize ≤ s.missQueue.length) ∨
    ∃ a mshrs, s.tagAccess cfg readOnly b time = .ok a ∧ s.mshrs.full cfg b = false ∧
      s.mshrs.add cfg b w = .ok mshrs ∧ r = ⟨s.taken cfg a mshrs b index w wa, true, a.evicted⟩ := by
  unfold sendReadRequest at h
  dsimp only at h
  split at h
  · next hc =>
    obtain ⟨a, ha, h⟩ := bind_eq_ok.mp h
    obtain ⟨mshrs, hm, h⟩ := bind_eq_ok.mp h
    cases h
    obtain ⟨hprobe, hfull⟩ := Bool.and_eq_true_iff.mp hc
    refine .inr ⟨a, mshrs, ha, by simpa using hfull, hm, ?_⟩
    rw [taken, if_pos hprobe]
  · split at h
    · next hc =>
      obtain ⟨a, ha, h⟩ := bind_eq_ok.mp h
      obtain ⟨mshrs, hm, h⟩ := bind_eq_ok.mp h
      cases h
      obtain ⟨⟨hprobe, hfull⟩, -⟩ : (s.mshrs.probe b = false ∧ s.mshrs.full cfg b = false) ∧ _ := by
        simpa using hc
      refine .inr ⟨a, mshrs, ha, hfull, hm, ?_⟩
      rw [taken, hprobe, if_neg Bool.false_ne_true]
    · next hno hno' =>
      cases h
      refine .inl ⟨rfl, ?_⟩
      by_contra hcon
      obtain ⟨hfull, hroom⟩ := not_or.mp hcon
      cases hprobe : s.mshrs.probe b with
      | true => simp [hprobe, hfull] at hno
      | false => simp [hprobe, hfull, Nat.lt_of_not_le hroom] at hno'

theorem writeBack_eq (cfg : CacheConfig) (s : BaselineCache) (evicted : Option CacheBlock)
    (accessType : MemAccessType) :
    s.writeBack cfg evicted accessType =
      (evicted.filter fun _ => cfg.writePolicy ≠ .writeThrough).toList.map
        fun e => ⟨s.made, e.blockAddr, accessType, true, false⟩ := by
  unfold writeBack
  cases evicted with
  | none => rfl
  | some e => by_cases hpol : cfg.writePolicy = .writeThrough <;> simp [hpol, Option.filter, newMf]

theorem length_writeBack (evicted : Option CacheBlock) (accessType : MemAccessType) :
    (s.writeBack cfg evicted accessType).length ≤ 1 := by
  unfold writeBack
  split
  · split <;> simp
  · simp

/-- A write-back that is sent changes the miss queue and the number of requests, and what is
reported. -/
theorem sendWriteBack_eq (s : BaselineCache) {wb : List MemFetch} (events : List CacheEvent)
    (h : wb.length ≤ 1) : ∃ dataSize events', s.sendWriteBack cfg wb events =
      { s with
        missQueue := s.missQueue ++ wb
        made := s.made + wb.length
        dataSize
        events := events' } := by
  cases wb with
  | nil => exact ⟨s.dataSize, s.events, by simp [sendWriteBack]⟩
  | cons mf rest =>
    have hrest : rest = [] := by simpa using h
    subst hrest
    exact ⟨_, _, rfl⟩

section Misses

variable (hp : Lines.probe cfg s.lines (cfg.blockAddr addr) = .ok (.miss index) ∨
  Lines.probe cfg s.lines (cfg.blockAddr addr) = .ok (.hitReserved index))
include hp

theorem probeStatus_of_probe :
    s.probeStatus cfg addr = .ok .miss ∨ s.probeStatus cfg addr = .ok .hitReserved := by
  rcases hp with hp | hp
  · refine .inl ?_
    rw [probeStatus, hp]
    rfl
  · refine .inr ?_
    rw [probeStatus, hp]
    rfl

theorem misses_of_sent (kind : Kind) (pre : List MemFetch) (dataSize : Nat → Nat)
    (events events' : List CacheEvent) {readOnly wa : Bool} {r : Sent} {accessType : MemAccessType}
    (htype : accessType = .l1WrbkAcc ∨ accessType = .l2WrbkAcc)
    (hw : w = mf ∧ pre = [] ∧ mf.isWrite = false ∨
      w = s.newMf mf.addr .l2WrAllocR false false ∧ pre = [mf] ∧ mf.isWrite = true)
    (halloc : mf.isWrite = true → cfg.writeAllocPolicy = .writeAllocate)
    (hqueue : s.missQueueFull cfg (missRoom kind mf.isWrite) = false)
    (hroom : pre.length + (if readOnly then 0 else 1) ≤ missRoom kind mf.isWrite)
    {s' : BaselineCache} (hs : s' = { s with
      missQueue := s.missQueue ++ pre
      made := s.made + pre.length
      dataSize
      events })
    (hsend : s'.sendReadRequest cfg (cfg.blockAddr addr) index w time readOnly wa = .ok r) :
    r.doMiss = true ∧ Answers kind cfg s addr time mf
        (r.cache.sendWriteBack cfg (r.cache.writeBack cfg r.evicted accessType) events') .miss ∨
      r = ⟨s', false, none⟩ ∧
        (s.mshrs.full cfg (cfg.blockAddr addr) = true ∨ cfg.missQueueSize ≤ s'.missQueue.length) := by
  rcases sendReadRequest_ok hsend with ⟨hr, hno⟩ | ⟨a, mshrs, ha, hfull, hadd, rfl⟩
  · subst hs
    exact .inr ⟨hr, hno⟩
  · refine .inl ?_
    subst hs
    obtain ⟨htags, hclean⟩ := tagAccess_ok ha
    obtain ⟨hprobe, -⟩ := Lines.access_ok htags
    have hfound : a.probe = .miss index ∨ a.probe = .hitReserved index := by
      rcases hp with hp | hp
      · exact .inl (Except.ok.inj (hprobe.symm.trans hp))
      · exact .inr (Except.ok.inj (hprobe.symm.trans hp))
    have hindex : a.probe.index index = a.probe.index 0 := by
      rcases hfound with h | h <;> rw [h] <;> rfl
    dsimp only
    generalize hc : taken cfg _ a mshrs _ index w wa = c
    unfold taken at hc
    obtain ⟨hmade, hwb⟩ : c.made = s.made + pre.length ∧
        (writeBack cfg c a.evicted accessType).length ≤ 1 := by
      refine ⟨?_, length_writeBack ..⟩
      rw [← hc]
      split <;> rfl
    obtain ⟨dataSize', events'', heq⟩ := sendWriteBack_eq c events' hwb
    rw [heq]
    have hback := writeBack_eq cfg c a.evicted accessType
    rw [hmade] at hback
    refine ⟨rfl, .missed (a := a)
      ⟨hw, ?_, ⟨halloc, hqueue, hfull, probeStatus_of_probe hp⟩, ⟨index, hfound⟩,
        htags, ?_, ⟨accessType, htype, hback⟩, ?_, ?_, ?_, ?_, ?_, ?_⟩⟩
    · have hqueue := not_missQueueFull.mp hqueue
      cases readOnly with
      | false =>
        simp only [Bool.false_eq_true, if_false] at hroom
        omega
      | true =>
        have hnone : (writeBack cfg c a.evicted accessType).length = 0 := by
          rw [hback, hclean rfl]
          rfl
        simp only [if_true] at hroom
        omega
    · rw [hadd, ← hc]
      split <;> rfl
    · rw [← hc]
      split <;> rfl
    · show c.missQueue ++ _ = _
      rw [← hc]
      split
      · simp [merged]
      · simp [requested]
    · refine ⟨dataSize w.id, ?_⟩
      show c.extraMfFields = _
      rw [← hindex, ← hc]
      split <;> rfl
    · show c.record = _
      rw [← hc]
      split <;> rfl
    · rw [← hc]
      split <;> rfl
    · show c.made + _ = _
      rw [hmade, Nat.add_assoc]

theorem rdMissBase_ok (hw : mf.isWrite = false) (h : s.rdMissBase cfg addr index mf time = .ok (c, status)) :
    Answers .dataCache cfg s addr time mf c status := by
  unfold rdMissBase at h
  split at h
  · cases h
    exact .refused
  · next hfull =>
    have hqueue : s.missQueueFull cfg 1 = false := Bool.eq_false_of_not_eq_true hfull
    obtain ⟨r, hr, h⟩ := bind_eq_ok.mp h
    rcases misses_of_sent hp .dataCache [] s.dataSize s.events [.writeBackRequestSent] (.inl rfl)
      (.inl ⟨rfl, rfl, hw⟩) (by simp [hw]) (by rwa [hw]) (by rw [hw]; exact le_rfl) (by simp) hr
      with ⟨hdo, hans⟩ | ⟨rfl, -⟩
    · simp only [hdo, if_true] at h
      cases h
      exact hans
    · cases h
      exact .refused

theorem wrMissWa_ok (hw : mf.isWrite = true) (halloc : cfg.writeAllocPolicy = .writeAllocate)
    (h : s.wrMissWa cfg addr index mf time = .ok (c, status)) :
    Answers .dataCache cfg s addr time mf c status := by
  unfold wrMissWa at h
  dsimp only at h
  split at h
  · cases h
    exact .refused
  · next hguard =>
    obtain ⟨r, hr, h⟩ := bind_eq_ok.mp h
    obtain ⟨hqueue, hguard⟩ := Bool.or_eq_false_iff.mp (Bool.eq_false_of_not_eq_true hguard)
    rcases misses_of_sent hp .dataCache [mf] _ _ [] (.inr rfl) (.inr ⟨rfl, rfl, hw⟩) (fun _ => halloc)
      (by rwa [hw]) (by rw [hw]; exact le_rfl) rfl hr with ⟨hdo, hans⟩ | ⟨-, hno⟩
    · simp only [hdo, if_true] at h
      cases h
      exact hans
    · have hroom := not_missQueueFull.mp hqueue
      rcases hno with hfull | hno
      · simp [hfull] at hguard
      · simp only [List.length_append, List.length_singleton] at hno
        omega

theorem missReadOnly_ok (hw : mf.isWrite = false)
    (h : (if s.missQueueFull cfg 0 then (Except.ok (s, .reservationFail) : Except Fault _)
      else s.sendReadRequest cfg (cfg.blockAddr addr) index mf time true false >>= fun r =>
        .ok (r.cache, if r.doMiss then .miss else .reservationFail)) = .ok (c, status)) :
    Answers .readOnlyCache cfg s addr time mf c status := by
  split at h
  · cases h
    exact .refused
  · next hfull =>
    obtain ⟨r, hr, h⟩ := bind_eq_ok.mp h
    have hclean : r.evicted = none := by
      rcases sendReadRequest_ok hr with ⟨rfl, -⟩ | ⟨a, mshrs, ha, -, -, rfl⟩
      · rfl
      · exact (tagAccess_ok ha).2 rfl
    rcases misses_of_sent hp .readOnlyCache [] s.dataSize s.events [] (.inl rfl)
      (.inl ⟨rfl, rfl, hw⟩) (by simp [hw]) (by rw [hw]; exact Bool.eq_false_of_not_eq_true hfull)
      (by rw [hw]; exact le_rfl) (by simp) hr with ⟨hdo, hans⟩ | ⟨rfl, -⟩
    · rw [hclean] at hans
      rw [hdo] at h
      cases h
      exact hans
    · cases h
      exact .refused

omit hp in
theorem wrMissNoWa_ok (hw : mf.isWrite = true) (h : s.wrMissNoWa cfg mf = .ok (c, status)) :
    Answers kind cfg s addr time mf c status := by
  unfold wrMissNoWa at h
  split at h
  · cases h
    exact .refused
  · next hfull =>
    cases h
    have hroom := not_missQueueFull.mp (Bool.eq_false_of_not_eq_true hfull)
    exact .quiet (.inr ⟨rfl, hw, hroom⟩) .same (fun _ => hw) (.inr (.inr ⟨rfl, rfl⟩))

theorem missData_ok (h : (if mf.isWrite then s.wrMiss cfg addr index mf time
      else s.rdMissBase cfg addr index mf time) = .ok (c, status)) :
    Answers .dataCache cfg s addr time mf c status := by
  split at h
  · next hw =>
    unfold wrMiss at h
    split at h
    · next halloc => exact wrMissWa_ok hp hw halloc h
    · exact wrMissNoWa_ok hw h
  · next hw => exact rdMissBase_ok hp (Bool.eq_false_of_not_eq_true hw) h

end Misses

/-! ## Accesses -/

theorem accessReadOnly_ok (h : s.accessReadOnly cfg addr mf time = .ok (c, status)) :
    Answers .readOnlyCache cfg s addr time mf c status := by
  obtain ⟨_, -, h⟩ := bind_eq_ok.mp h
  obtain ⟨_, -, h⟩ := bind_eq_ok.mp h
  obtain ⟨_, hw, h⟩ := bind_eq_ok.mp h
  obtain ⟨p, hp, h⟩ := bind_eq_ok.mp h
  have hw : mf.isWrite = false := assert_eq_ok.mp hw
  cases p with
  | hit index =>
    obtain ⟨a, ha, h⟩ := bind_eq_ok.mp h
    cases h
    exact .unsent (touched_of_hit hp ha [])
  | reservationFail =>
    cases h
    exact .refused
  | miss index => exact missReadOnly_ok (.inl hp) hw h
  | hitReserved index => exact missReadOnly_ok (.inr hp) hw h

theorem accessData_ok (h : s.accessData cfg addr mf time = .ok (c, status)) :
    Answers .dataCache cfg s addr time mf c status := by
  obtain ⟨_, -, h⟩ := bind_eq_ok.mp h
  obtain ⟨p, hp, h⟩ := bind_eq_ok.mp h
  cases p with
  | hit index =>
    dsimp only at h
    split at h
    · next hw => exact wrHit_ok hp hw h
    · exact rdHitBase_ok hp h
  | reservationFail =>
    cases h
    exact .refused
  | miss index => exact missData_ok (.inl hp) h
  | hitReserved index => exact missData_ok (.inr hp) h

/-- **What an access does.** -/
theorem access_ok (h : s.access cfg addr mf time kind = .ok (c, status)) :
    Answers kind cfg s addr time mf c status := by
  cases kind with
  | readOnlyCache => exact accessReadOnly_ok h
  | dataCache => exact accessData_ok h

/-! ## Steps -/

/-- What a step of the cache does. -/
inductive Stepped (kind : Kind) (cfg : CacheConfig) (s : BaselineCache) : Act → BaselineCache → Prop
  | access {addr r time c status}
      (h : Answers kind cfg (s.asked r) addr time (s.requestMf r) c status) :
      Stepped kind cfg s (.access addr r time)
        { c with record := .answered (cfg.blockAddr addr) (s.requestMf r) status :: c.record }
  | idle {full} : Stepped kind cfg s (.cycle full) s
  | sent {full mf rest} (hqueue : s.missQueue = mf :: rest) :
      Stepped kind cfg s (.cycle full) { s with missQueue := rest, below := s.below ++ [mf] }
  | fill {id time e lines lines' mshrs dataSize} (hextra : s.extraMfFields id = some e)
      (hbelow : ∃ mf ∈ s.below, mf.id = id) (htags : s.fillTags cfg e time = .ok lines)
      (hmshrs : s.mshrs.markReady e.blockAddr = .ok mshrs)
      (hlines : lines' = lines ∨ cfg.allocPolicy = .onMiss ∧
        lines' = Lines.setStatus lines e.cacheIndex .modified) :
      Stepped kind cfg s (.fill id time)
        { s with
          lines := lines'
          mshrs
          dataSize
          extraMfFields := Function.update s.extraMfFields id none
          below := s.below.filter (·.id ≠ id)
          record := .filled e.blockAddr :: s.record }
  | nextAccess {mf mshrs} (h : s.mshrs.nextAccess = .ok (mf, mshrs)) :
      Stepped kind cfg s .nextAccess
        { s with mshrs, record := .returned s.responding mf :: s.record }

theorem fill_eq {id : Nat} (h : s.fill cfg id time = .ok t) :
    ∃ e lines lines' mshrs dataSize, s.extraMfFields id = some e ∧ s.fillTags cfg e time = .ok lines ∧
      s.mshrs.markReady e.blockAddr = .ok mshrs ∧
      (lines' = lines ∨ cfg.allocPolicy = .onMiss ∧
        lines' = Lines.setStatus lines e.cacheIndex .modified) ∧
      t = { s with
        lines := lines'
        mshrs
        dataSize
        extraMfFields := Function.update s.extraMfFields id none
        record := .filled e.blockAddr :: s.record } := by
  unfold fill at h
  split at h
  · cases h
  · next e hextra =>
    obtain ⟨lines, htags, h⟩ := bind_eq_ok.mp h
    obtain ⟨mshrs, hmshrs, h⟩ := bind_eq_ok.mp h
    obtain ⟨_, hatomic, h⟩ := bind_eq_ok.mp h
    cases h
    refine ⟨e, lines, _, mshrs, _, hextra, htags, hmshrs, ?_, rfl⟩
    split
    · next ha => exact .inr ⟨assert_eq_ok.mp hatomic ha, rfl⟩
    · exact .inl rfl

theorem fill_ok {id : Nat} (hbelow : ∃ mf ∈ s.below, mf.id = id) (h : s.fill cfg id time = .ok t) :
    Stepped kind cfg s (.fill id time) { t with below := t.below.filter (·.id ≠ id) } := by
  obtain ⟨e, lines, lines', mshrs, dataSize, hextra, htags, hmshrs, hlines, rfl⟩ := fill_eq h
  exact .fill hextra hbelow htags hmshrs hlines

/-- **What a step does.** -/
theorem step_ok {a : Act} (h : step kind cfg s a = some (.ok t)) : Stepped kind cfg s a t := by
  cases a with
  | access addr r time =>
    obtain ⟨⟨c, status⟩, hc, rfl⟩ := map_eq_ok.mp (Option.some.inj h)
    exact .access (access_ok hc)
  | cycle full =>
    cases Except.ok.inj (Option.some.inj h)
    unfold cycle
    split
    · exact .idle
    · next mf rest hq =>
      split
      · exact .idle
      · exact .sent hq
  | fill id time =>
    simp only [step] at h
    split at h
    · next hen =>
      obtain ⟨u, hu, rfl⟩ := map_eq_ok.mp (Option.some.inj h)
      exact fill_ok hen.2 hu
    · cases h
  | nextAccess =>
    simp only [step] at h
    split at h
    · obtain ⟨⟨mf, mshrs⟩, hr, ht⟩ := bind_eq_ok.mp (Option.some.inj h)
      cases ht
      exact .nextAccess hr
    · cases h

end BaselineCache

end GpgpuSimRuby.Cache
