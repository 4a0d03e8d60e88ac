import GpgpuSimRuby.Cache.Accesses

/-!
# Accesses that are refused

An access that answers `RESERVATION_FAIL` has done nothing, so that the caller can try again in a later
cycle. The write of a write-allocate is sent before the read of the block; what is looked at before the
write is enough for the read to be taken.
-/

namespace GpgpuSimRuby.Cache

open Library

namespace BaselineCache

variable {kind : Kind} {cfg : CacheConfig} {s c : BaselineCache} {addr time index b : Nat} {mf w : MemFetch}

theorem sendReadRequest_refused {r : Sent} {readOnly wa : Bool}
    (h : s.sendReadRequest cfg b index w time readOnly wa = .ok r) (hno : r.doMiss ≠ true) :
    r = ⟨s, false, none⟩ := by
  rcases sendReadRequest_ok h with ⟨hr, -⟩ | ⟨a, mshrs, -, -, -, rfl⟩
  · exact hr
  · exact absurd rfl hno

theorem sendReadRequest_taken {r : Sent} {readOnly wa : Bool}
    (h : s.sendReadRequest cfg b index w time readOnly wa = .ok r)
    (hfull : s.mshrs.full cfg b = false) (hroom : s.missQueue.length < cfg.missQueueSize) :
    r.doMiss = true := by
  rcases sendReadRequest_ok h with ⟨-, hno | hno⟩ | ⟨a, mshrs, -, -, -, rfl⟩
  · rw [hfull] at hno
    cases hno
  · exact absurd hroom (Nat.not_lt.mpr hno)
  · rfl

/-! ## The policies -/

theorem wrHit_refused (h : s.wrHit cfg addr index mf time = .ok (c, .reservationFail)) : c = s := by
  have hwb : ∀ {c}, s.wrHitWb cfg addr index time ≠ .ok (c, .reservationFail) := by
    intro c h
    obtain ⟨a, -, h⟩ := bind_eq_ok.mp h
    cases h
  have hwe : ∀ {c}, s.wrHitWe cfg index mf = .ok (c, .reservationFail) → c = s := by
    intro c h
    unfold wrHitWe at h
    split at h
    · cases h
      rfl
    · cases h
  unfold wrHit at h
  split at h
  case h_1 => cases h
  case h_2 => exact absurd h hwb
  case h_3 =>
    unfold wrHitWt at h
    split at h
    · cases h
      rfl
    · obtain ⟨a, -, h⟩ := bind_eq_ok.mp h
      cases h
  case h_4 => exact hwe h
  case h_5 =>
    unfold wrHitGlobalWeLocalWb at h
    split at h
    · exact hwe h
    · exact absurd h hwb

theorem rdHitBase_ne_refused : s.rdHitBase cfg addr index mf time ≠ .ok (c, .reservationFail) := by
  intro h
  obtain ⟨a, -, h⟩ := bind_eq_ok.mp h
  split at h
  · obtain ⟨_, -, h⟩ := bind_eq_ok.mp h
    cases h
  · cases h

theorem wrMissWa_refused (h : s.wrMissWa cfg addr index mf time = .ok (c, .reservationFail)) : c = s := by
  unfold wrMissWa at h
  dsimp only at h
  split at h
  · cases h
    rfl
  · next hguard =>
    have hqueue : s.missQueueFull cfg 2 = false := by
      cases hq : s.missQueueFull cfg 2 with
      | false => rfl
      | true => exact absurd (by simp [hq]) hguard
    have hfull : s.mshrs.full cfg (cfg.blockAddr addr) = false := by
      cases hf : s.mshrs.full cfg (cfg.blockAddr addr) with
      | false => rfl
      | true => exact absurd (by simp [hf]) hguard
    obtain ⟨r, hr, h⟩ := bind_eq_ok.mp h
    have htaken : r.doMiss = true := by
      apply sendReadRequest_taken hr hfull
      have hroom := not_missQueueFull.mp hqueue
      show (s.missQueue ++ [mf]).length < cfg.missQueueSize
      rw [List.length_append, List.length_singleton]
      omega
    rw [if_pos htaken] at h
    cases h

theorem wrMiss_refused (h : s.wrMiss cfg addr index mf time = .ok (c, .reservationFail)) : c = s := by
  unfold wrMiss at h
  split at h
  · exact wrMissWa_refused h
  · unfold wrMissNoWa at h
    split at h
    · cases h
      rfl
    · cases h

theorem rdMissBase_refused (h : s.rdMissBase cfg addr index mf time = .ok (c, .reservationFail)) : c = s := by
  unfold rdMissBase at h
  split at h
  · cases h
    rfl
  · obtain ⟨r, hr, h⟩ := bind_eq_ok.mp h
    by_cases hmiss : r.doMiss = true
    · rw [if_pos hmiss] at h
      cases h
    · obtain rfl := sendReadRequest_refused hr hmiss
      cases h
      rfl

/-! ## Accesses -/

theorem accessReadOnly_refused
    (h : s.accessReadOnly cfg addr mf time = .ok (c, .reservationFail)) : c = s := by
  obtain ⟨_, -, h⟩ := bind_eq_ok.mp h
  obtain ⟨_, -, h⟩ := bind_eq_ok.mp h
  obtain ⟨_, -, h⟩ := bind_eq_ok.mp h
  obtain ⟨p, -, h⟩ := bind_eq_ok.mp h
  have hmiss : ∀ index, (if s.missQueueFull cfg 0 then
        (.ok (s, .reservationFail) : Except Fault (BaselineCache × CacheRequestStatus))
      else do
        let r ← s.sendReadRequest cfg (cfg.blockAddr addr) index mf time true false
        .ok (r.cache, if r.doMiss then .miss else .reservationFail)) = .ok (c, .reservationFail) →
      c = s := by
    intro index h
    split at h
    · cases h
      rfl
    · obtain ⟨r, hr, h⟩ := bind_eq_ok.mp h
      by_cases hdo : r.doMiss = true
      · rw [if_pos hdo] at h
        cases h
      · obtain rfl := sendReadRequest_refused hr hdo
        cases h
        rfl
  cases p with
  | hit index =>
    obtain ⟨a, -, h⟩ := bind_eq_ok.mp h
    cases h
  | reservationFail =>
    cases h
    rfl
  | miss index => exact hmiss index h
  | hitReserved index => exact hmiss index h

theorem accessData_refused (h : s.accessData cfg addr mf time = .ok (c, .reservationFail)) : c = s := by
  obtain ⟨_, -, h⟩ := bind_eq_ok.mp h
  obtain ⟨p, -, h⟩ := bind_eq_ok.mp h
  have hmiss : ∀ index, (if mf.isWrite then s.wrMiss cfg addr index mf time
      else s.rdMissBase cfg addr index mf time) = .ok (c, .reservationFail) → c = s := by
    intro index h
    split at h
    · exact wrMiss_refused h
    · exact rdMissBase_refused h
  cases p with
  | hit index =>
    have h : (if mf.isWrite then s.wrHit cfg addr index mf time
      else s.rdHitBase cfg addr index mf time) = .ok (c, .reservationFail) := h
    split at h
    · exact wrHit_refused h
    · exact absurd h rdHitBase_ne_refused
  | reservationFail =>
    cases h
    rfl
  | miss index => exact hmiss index h
  | hitReserved index => exact hmiss index h

/-- **`RESERVATION_FAIL`** leaves the cache as it is: the lines, the table of the miss status holding
registers, the miss queue, `m_extra_mf_fields` and the events. -/
theorem access_reservationFail (kind : Kind) (cfg : CacheConfig) (s s' : BaselineCache)
    (addr time : Nat) (mf : MemFetch)
    (h : s.access cfg addr mf time kind = .ok (s', .reservationFail)) : s' = s := by
  cases kind with
  | readOnlyCache => exact accessReadOnly_refused h
  | dataCache => exact accessData_refused h

/-- A cache of one line that allocates on writes, with one miss status holding register. -/
def oneRegister : CacheConfig :=
  { oneLine .onMiss with writeAllocPolicy := .writeAllocate, mshrEntries := 1 }

/-- Block 0 has been filled, and the register still has to hand out the read that asked for it, when a
write to block 128 comes. -/
theorem access_reservationFail_write : ∃ s s',
    (machine .dataCache oneRegister).Reachable s ∧ (s.lines 0).status = .valid ∧
      s.access oneRegister 128 ⟨1, 128, .globalAccW, true, false⟩ 5 .dataCache =
        .ok (s', .reservationFail) ∧ s' = s := by
  obtain ⟨s, -, hs, hf⟩ := (machine .dataCache oneRegister).exists_reachable_of_run
    [.access 0 (readOf 0) 1, .cycle false, .fill 0 2]
    (fun s => ((s.lines 0).status,
      (s.access oneRegister 128 ⟨1, 128, .globalAccW, true, false⟩ 5 .dataCache).toOption.map Prod.snd))
    (by decide : _ = some (.valid, some .reservationFail))
  simp only [Prod.mk.injEq, Option.map_eq_some_iff] at hf
  obtain ⟨hvalid, ⟨s', status⟩, hanswer, hstatus⟩ := hf
  have hstatus : status = .reservationFail := hstatus
  subst hstatus
  cases h : s.access oneRegister 128 ⟨1, 128, .globalAccW, true, false⟩ 5 .dataCache with
  | error e =>
    rw [h] at hanswer
    cases hanswer
  | ok r =>
    rw [h] at hanswer
    cases hanswer
    exact ⟨s, s', hs, hvalid, h, access_reservationFail .dataCache oneRegister s s' 128 5 _ h⟩

end BaselineCache

end GpgpuSimRuby.Cache
