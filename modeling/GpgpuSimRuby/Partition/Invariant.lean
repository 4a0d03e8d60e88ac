import GpgpuSimRuby.Partition.Accounts

/-!
# The L2 and its partition

What the L2 waits for is on its way beyond it, in whatever queue, and waits in the entry of its
block. To the L2, the queues and the DRAM are one memory below (`cache`).
-/

namespace GpgpuSimRuby.Partition.MemoryPartitionUnit

open Library Cache Function

/-- The L2, with all that is beyond it as its memory. -/
def cache (m : MemoryPartitionUnit) : BaselineCache :=
  { m.l2 with
    below := m.l2Dram ++ m.dramLatency.map (·.req) ++ m.dram ++ m.returnq ++ m.dramL2 }

structure Inv (cfg : Config) (m : MemoryPartitionUnit) : Prop where
  accounts : Accounts m
  pending : m.cache.Pending cfg.l2
  filed : ∀ id, ∀ e ∈ m.l2.extraMfFields id, ∃ mf ∈ (m.l2.mshrs.entry e.blockAddr).list,
    mf.id = id ∧ mf ∈ m.cache.outstanding
  disabled : cfg.l2Disabled = true → ∀ id, m.l2.extraMfFields id = none

variable {cfg : Config} {m t : MemoryPartitionUnit} {mf v : MemFetch} {p q : Place}

/-! ## Beyond the L2 -/

/-- What is outstanding for the L2 is what lies in the places beyond it. -/
theorem coe_outstanding : (m.cache.outstanding : Multiset MemFetch) =
    ∑ p, if Place.beyondL2 p then m.contents p else 0 := by
  have huniv : (Finset.univ : Finset Place) = {.rop, .icntL2, .missQueue, .l2Dram, .dramLatency, .dram,
    .returnq, .dramL2, .mshrs, .l2Icnt, .popped, .deleted, .toRuby} := rfl
  rw [huniv]
  simp [Place.beyondL2, contents, BaselineCache.outstanding, cache]

theorem mem_outstanding : mf ∈ m.cache.outstanding ↔ ∃ p, Place.beyondL2 p = true ∧ mf ∈ m.contents p := by
  rw [← Multiset.mem_coe, coe_outstanding, mem_total]
  apply exists_congr
  intro p
  split
  · next hp => simp [hp]
  · next hp => simp [hp]

/-- A balance of all places is one of what is outstanding. -/
theorem outstanding_of_balance {out into : Place → Multiset MemFetch}
    (hb : Balance m.contents out into t.contents) :
    (t.cache.outstanding : Multiset MemFetch) + ∑ p, (if Place.beyondL2 p then out p else 0) =
      (m.cache.outstanding : Multiset MemFetch) + ∑ p, if Place.beyondL2 p then into p else 0 := by
  rw [coe_outstanding, coe_outstanding, ← Finset.sum_add_distrib, ← Finset.sum_add_distrib]
  apply Finset.sum_congr rfl
  intro p _
  split
  · exact hb.at_place p
  · rfl

theorem sum_beyond_placed (xs : Multiset MemFetch) :
    ∑ r, (if Place.beyondL2 r then placed p xs r else 0) = if p.beyondL2 then xs else 0 := by
  rw [← Balance.sum_placed p (if p.beyondL2 then xs else 0)]
  apply Finset.sum_congr rfl
  intro r _
  by_cases hr : r = p
  · subst hr
    simp
  · simp [hr]

/-- A request that moves may cross the border of the L2. -/
theorem Moved.outstanding (hmv : Moved m t mf p q) :
    (t.cache.outstanding : Multiset MemFetch) + (if p.beyondL2 then {mf} else 0) =
      (m.cache.outstanding : Multiset MemFetch) + if q.beyondL2 then {mf} else 0 := by
  have hout := outstanding_of_balance hmv.balance
  rw [sum_beyond_placed, sum_beyond_placed] at hout
  exact hout

theorem Moved.outstanding_cases (hmv : Moved m t mf p q) :
    (t.cache.outstanding : Multiset MemFetch) = m.cache.outstanding ∨
    q.beyondL2 = false ∧ (t.cache.outstanding : Multiset MemFetch) + {mf} = m.cache.outstanding ∨
    p.beyondL2 = false ∧ q.beyondL2 = true ∧
      (t.cache.outstanding : Multiset MemFetch) = m.cache.outstanding + {mf} := by
  have hout := hmv.outstanding
  cases hp : p.beyondL2 <;> cases hq : q.beyondL2 <;> simp only [hp, hq] at hout
  case false.false => exact .inl (add_right_cancel hout)
  case false.true => exact .inr (.inr ⟨rfl, rfl, by simpa using hout⟩)
  case true.false => exact .inr (.inl ⟨rfl, by simpa using hout⟩)
  case true.true => exact .inl (add_right_cancel hout)

/-- A number stands for one request, so it is filed under one block. -/
theorem Accounts.entry_eq (h : Accounts m) (hs : m.l2.mshrs.Sound cfg.l2) {b b' : Nat}
    (hmf : mf ∈ (m.l2.mshrs.entry b).list) (hv : v ∈ (m.l2.mshrs.entry b').list) (hid : mf.id = v.id) :
    b = b' := by
  have hcounted {v : MemFetch} {b : Nat} (hv : v ∈ (m.l2.mshrs.entry b).list) : v ∈ m.total :=
    mem_total_iff.mpr ⟨.mshrs, hs.mem_waiting.mpr ⟨b, hv⟩⟩
  obtain rfl := h.eq_of_id (hcounted hmf) (hcounted hv) hid
  have hnodup : m.l2.mshrs.waiting.Nodup :=
    Multiset.coe_nodup.mp (nodup_place (c := counted m.l2.waitingForFill m.contents) h.nodup .mshrs)
  exact hs.entry_eq hnodup hmf hv

/-! ## Requests before the L2 -/

namespace Inv

variable (h : Inv cfg m)
include h

theorem mshrs_sound : m.l2.mshrs.Sound cfg.l2 := h.pending.mshrs

theorem mem_mshrs {b : Nat} (hmf : mf ∈ (m.l2.mshrs.entry b).list) :
    mf ∈ counted m.l2.waitingForFill m.contents .mshrs :=
  h.mshrs_sound.mem_waiting.mpr ⟨b, hmf⟩

/-- Where the L2 waits for a request, one of that number is in an entry. -/
theorem waits (hw : m.Waited mf) : ∃ v ∈ counted m.l2.waitingForFill m.contents .mshrs, v.id = mf.id := by
  obtain ⟨e, hex⟩ := Option.isSome_iff_exists.mp hw
  obtain ⟨v, hv, hid, -⟩ := h.filed mf.id e hex
  exact ⟨v, h.mem_mshrs hv, hid⟩

/-- An outstanding request the L2 waits for is the one in the entry. -/
theorem mshrs_of_waited (hout : mf ∈ m.cache.outstanding) (hw : m.Waited mf) : mf ∈ m.contents .mshrs := by
  obtain ⟨e, hex⟩ := Option.isSome_iff_exists.mp hw
  obtain ⟨v, hv, hid, hvout⟩ := h.filed mf.id e hex
  obtain rfl := List.inj_on_of_nodup_map h.pending.ids hvout hout hid
  exact (mem_counted.mp (h.mem_mshrs hv)).1

section Front

variable (hmf : mf ∈ m.contents p) (hp : p.beyondL2 = false) (hm : p ≠ .mshrs)

omit h in
include hmf hp in
theorem counted_of_not_beyond : mf ∈ counted m.l2.waitingForFill m.contents p :=
  mem_counted.mpr ⟨hmf, fun hb => by rw [hp] at hb; cases hb⟩

include hmf hp hm in
/-- The L2 does not wait for a request that is not beyond it. -/
theorem not_waited : ¬ m.Waited mf := by
  intro hw
  obtain ⟨v, hv, hid⟩ := h.waits hw
  exact hm (h.accounts.place_eq (counted_of_not_beyond hmf hp) hv hid.symm)

include hmf hp hm in
/-- Nothing beyond the L2 has the number of a request that is not. -/
theorem free : ∀ v ∈ m.cache.outstanding, v.id ≠ mf.id := by
  intro v hv hid
  by_cases hw : m.Waited v
  · obtain ⟨v', hv', hid'⟩ := h.waits hw
    exact hm (h.accounts.place_eq (counted_of_not_beyond hmf hp) hv' (hid'.trans hid).symm)
  · obtain ⟨q, hq, hvq⟩ := mem_outstanding.mp hv
    have hcounted : v ∈ counted m.l2.waitingForFill m.contents q :=
      mem_counted.mpr ⟨hvq, fun _ => Bool.eq_false_of_not_eq_true hw⟩
    have hpq := h.accounts.place_eq (counted_of_not_beyond hmf hp) hcounted hid.symm
    rw [hpq, hq] at hp
    cases hp

include hmf hp in
theorem id_lt : mf.id < m.l2.made :=
  h.accounts.id_lt (mem_total_iff.mpr ⟨p, counted_of_not_beyond hmf hp⟩)

end Front

/-! ## One request moves -/

/-- One request leaves what is beyond the L2 and is not waited for, or comes to be there. -/
theorem of_outstanding (mf : MemFetch) (ha : Accounts t) (hmshrs : t.l2.mshrs = m.l2.mshrs)
    (hextra : t.l2.extraMfFields = m.l2.extraMfFields)
    (hqueue : t.l2.missQueue.length ≤ cfg.l2.missQueueSize) (hmade : m.l2.made ≤ t.l2.made)
    (hout : (t.cache.outstanding : Multiset MemFetch) = m.cache.outstanding ∨
      ¬ m.Waited mf ∧ (t.cache.outstanding : Multiset MemFetch) + {mf} = m.cache.outstanding ∨
      (mf.id < t.l2.made ∧ ∀ v ∈ m.cache.outstanding, v.id ≠ mf.id) ∧
        (t.cache.outstanding : Multiset MemFetch) = m.cache.outstanding + {mf}) : Inv cfg t := by
  have hkept {v : MemFetch} (hv : v ∈ m.cache.outstanding) (hw : m.Waited v) : v ∈ t.cache.outstanding := by
    rw [← Multiset.mem_coe] at hv ⊢
    rcases hout with heq | ⟨hnot, heq⟩ | ⟨-, heq⟩
    · exact heq ▸ hv
    · rw [← heq, Multiset.mem_add, Multiset.mem_singleton] at hv
      exact hv.resolve_right fun hv => hnot (hv ▸ hw)
    · exact heq ▸ Multiset.mem_add.mpr (.inl hv)
  refine ⟨ha, ?_, ?_, fun hl2 => hextra ▸ h.disabled hl2⟩
  · refine h.pending.of_outstanding hmshrs hextra hqueue ?_ ?_ fun v hv hw => hkept hv hw
    · have hold : ((m.cache.outstanding : Multiset MemFetch).map (·.id)).Nodup := h.pending.ids
      show ((t.cache.outstanding : Multiset MemFetch).map (·.id)).Nodup
      rcases hout with heq | ⟨-, heq⟩ | ⟨⟨-, hfree⟩, heq⟩
      · exact heq ▸ hold
      · rw [← heq, Multiset.map_add] at hold
        exact Multiset.nodup_of_le (Multiset.le_add_right _ _) hold
      · rw [heq, Multiset.map_add, Multiset.nodup_add]
        refine ⟨hold, Multiset.nodup_singleton _, ?_⟩
        rw [Multiset.map_singleton, Multiset.disjoint_singleton]
        intro hin
        obtain ⟨v, hv, hid⟩ := Multiset.mem_map.mp hin
        exact hfree v hv hid
    · intro v hv
      show v.id < t.l2.made
      rw [← Multiset.mem_coe] at hv
      rcases hout with heq | ⟨-, heq⟩ | ⟨⟨hlt, -⟩, heq⟩
      · exact (h.pending.made v (Multiset.mem_coe.mp (heq ▸ hv))).trans_le hmade
      · refine (h.pending.made v (Multiset.mem_coe.mp ?_)).trans_le hmade
        exact heq ▸ Multiset.mem_add.mpr (.inl hv)
      · rw [heq, Multiset.mem_add, Multiset.mem_singleton] at hv
        rcases hv with hv | rfl
        · exact (h.pending.made v hv).trans_le hmade
        · exact hlt
  · intro id e hex
    rw [hextra] at hex
    obtain ⟨v, hv, rfl, hvout⟩ := h.filed id e hex
    rw [hmshrs]
    exact ⟨v, hv, rfl, hkept hvout (BaselineCache.waitingForFill_of_mem hex)⟩

/-- A move keeps the invariant, unless it takes a request out of an entry. -/
theorem moved (hmv : Moved m t mf p q) (hallowed : m.Allowed mf q) (hp : p ≠ .mshrs)
    (hmshrs : t.l2.mshrs = m.l2.mshrs) (hqueue : t.l2.missQueue.length ≤ cfg.l2.missQueueSize) :
    Inv cfg t := by
  refine h.of_outstanding mf (hmv.accounts h.accounts hallowed) hmshrs hmv.extra hqueue
    hmv.made.ge ?_
  rcases hmv.outstanding_cases with heq | ⟨hq, heq⟩ | ⟨hb, hq, heq⟩
  · exact .inl heq
  · refine .inr (.inl ⟨fun hw => ?_, heq⟩)
    rw [(hmv.waited hw).2] at hq
    cases hq
  · -- a request that comes to be beyond the L2 was not there
    have hmf : mf ∈ m.contents p := by
      refine (hmv.balance.mem_of_out (mem_placed.mpr ⟨rfl, Multiset.mem_singleton_self mf⟩)).resolve_right
        fun hmf => ?_
      rw [(mem_placed.mp hmf).1, hq] at hb
      cases hb
    exact .inr (.inr ⟨⟨hmv.made ▸ h.id_lt hmf hb, h.free hmf hb hp⟩, heq⟩)

/-! ## The L2 hands out an access -/

section NextAccess

variable {mshrs : MshrTable} (hn : m.l2.mshrs.nextAccess = .ok (mf, mshrs))

include hn in
theorem not_waited_nextAccess : ¬ m.Waited mf := by
  intro hw
  obtain ⟨b, rest, tail, hcur, hl, -⟩ := MshrTable.nextAccess_ok hn
  obtain ⟨e, hex⟩ := Option.isSome_iff_exists.mp hw
  obtain ⟨v, hv, hid, -⟩ := h.filed mf.id e hex
  have hb : b = e.blockAddr :=
    h.accounts.entry_eq h.mshrs_sound (hl ▸ List.mem_cons_self) hv hid.symm
  apply (h.pending.waits mf.id e hex).2
  show e.blockAddr ∈ m.l2.mshrs.currentResponse
  rw [← hb, hcur]
  exact List.mem_cons_self

include hn in
/-- The L2 hands an access out of its entry: it was not waited for any more. -/
theorem nextAccess (hm : t.l2.mshrs = mshrs) (hmv : Moved m t mf .mshrs q) (hallowed : m.Allowed mf q)
    (hq : t.l2.missQueue = m.l2.missQueue) (hb : t.cache.below = m.cache.below) : Inv cfg t where
  accounts := hmv.accounts h.accounts hallowed
  pending := h.pending.nextAccess hn hm hmv.extra hq hb hmv.made
  filed id e hex := by
    rw [hmv.extra] at hex
    obtain ⟨v, hv, hid, hout⟩ := h.filed id e hex
    refine ⟨v, ?_, hid, ?_⟩
    · obtain ⟨b, rest, tail, hcur, hl, hmshrs⟩ := MshrTable.nextAccess_ok hn
      have hne : e.blockAddr ≠ b := by
        rintro rfl
        apply (h.pending.waits id e hex).2
        show e.blockAddr ∈ m.l2.mshrs.currentResponse
        rw [hcur]
        exact List.mem_cons_self
      rw [hm, hmshrs]
      split
      · rw [MshrTable.release_of_ne hne]
        exact hv
      · rw [MshrTable.setEntry_of_ne hne]
        exact hv
    · have heq : t.cache.outstanding = m.cache.outstanding := by
        unfold BaselineCache.outstanding
        rw [hb]
        exact congrArg (· ++ _) hq
      exact heq ▸ hout
  disabled hl2 := hmv.extra ▸ h.disabled hl2

end NextAccess

/-! ## The L2 is filled -/

/-- The fill that the L2 waited for ends the wait, whatever becomes of its lines. -/
theorem fill {e : ExtraMfFields} {mshrs : MshrTable} {rest : List MemFetch}
    (hl2 : cfg.l2Disabled = false) (hdram : m.dramL2 = mf :: rest)
    (hextra : m.l2.extraMfFields mf.id = some e)
    (hmshrs : m.l2.mshrs.markReady e.blockAddr = .ok mshrs) {l2 : BaselineCache}
    (hm : l2.mshrs = mshrs) (he : l2.extraMfFields = update m.l2.extraMfFields mf.id none)
    (hq : l2.missQueue = m.l2.missQueue) (hmade : l2.made = m.l2.made) :
    Inv cfg { m with l2, dramL2 := rest } := by
  let t : MemoryPartitionUnit := { m with l2, dramL2 := rest }
  show Inv cfg t
  obtain ⟨hready, -⟩ := MshrTable.markReady_ok hmshrs
  have hb : Balance m.contents (placed .dramL2 {mf}) 0 t.contents := by
    funext p
    cases p <;> simp [t, contents, hm, hq, hready, hdram, MshrTable.waiting]
    exact Multiset.add_comm _ _
  have hout : m.cache.outstanding.Perm (mf :: t.cache.outstanding) := by
    have hmiddle := @List.perm_middle _ mf (m.l2.missQueue ++
      (m.l2Dram ++ m.dramLatency.map (·.req) ++ m.dram ++ m.returnq)) rest
    simpa only [BaselineCache.outstanding, cache, t, hdram, hq, List.append_assoc] using hmiddle
  have hids : ((mf :: t.cache.outstanding).map (·.id)).Nodup :=
    (hout.map (·.id)).nodup_iff.mp h.pending.ids
  have hne {v : MemFetch} (hv : v ∈ t.cache.outstanding) : v.id ≠ mf.id := by
    intro hid
    rw [List.map_cons, List.nodup_cons, ← hid] at hids
    exact hids.1 (List.mem_map_of_mem hv)
  have hwaited {id : Nat} (hid : id ≠ mf.id) : t.l2.waitingForFill id = m.l2.waitingForFill id := by
    show (l2.extraMfFields id).isSome = _
    rw [he, update_of_ne hid]
    rfl
  have htotal : t.total = m.total := by
    have hcongr : counted t.l2.waitingForFill t.contents = counted m.l2.waitingForFill t.contents :=
      counted_congr fun p hp v hv => hwaited (hne (mem_outstanding.mpr ⟨p, hp, hv⟩))
    have hself : m.l2.waitingForFill mf.id = true := BaselineCache.waitingForFill_of_mem hextra
    have hnone : counted m.l2.waitingForFill (placed .dramL2 {mf}) = 0 := by
      rw [counted_placed]
      simp [Place.beyondL2, Multiset.filter_singleton, hself]
    have hsum := (balance_counted m.l2.waitingForFill hb).total
    rw [hnone] at hsum
    unfold total
    rw [hcongr]
    simpa [counted] using hsum
  refine ⟨?_, ?_, ?_, fun hdis => absurd (hl2.symm.trans hdis) Bool.false_ne_true⟩
  · apply h.accounts.of_total (htotal.trans (add_zero _).symm)
    · rw [Multiset.map_zero, add_zero]
      exact congrArg _ hmade.symm
    · intro p v hv
      have hold := (hb.mem hv).resolve_right (by simp)
      refine (h.accounts.allowed p v hold).mono (List.Subset.refl _) (List.Subset.refl _) fun hp hw => ?_
      exact (hwaited (hne (mem_outstanding.mpr ⟨p, hp, hv⟩))).trans hw
    · exact h.accounts.tracker
    · exact fun v hv => .inl hv
    · exact fun v hv => .inl hv
  · refine h.pending.fill hextra hmshrs hm he hq ?_ hmade
    have hself : t.cache.below.filter (·.id ≠ mf.id) = t.cache.below := by
      rw [List.filter_eq_self]
      intro v hv
      simpa using hne (List.mem_append_right _ hv)
    have hbelow : m.cache.below =
        (m.l2Dram ++ m.dramLatency.map (·.req) ++ m.dram ++ m.returnq) ++ mf :: rest := by
      simp only [cache, hdram]
    rw [← hself, hbelow]
    simp [t, cache]
  · intro id e' hex
    have hex : e' ∈ l2.extraMfFields id := hex
    rw [he] at hex
    by_cases hid : id = mf.id
    · rw [hid, update_self] at hex
      cases hex
    · rw [update_of_ne hid] at hex
      obtain ⟨v, hv, rfl, hvout⟩ := h.filed id e' hex
      refine ⟨v, ?_, rfl, ?_⟩
      · show v ∈ (l2.mshrs.entry e'.blockAddr).list
        rw [hm, hready]
        exact hv
      · refine (List.mem_cons.mp (hout.mem_iff.mp hvout)).resolve_left ?_
        rintro rfl
        exact hid rfl

/-! ## The L2 misses -/

section Misses

variable {addr time : Nat} {w : MemFetch} {pre wbs rest : List MemFetch} {acc : Lines.Accessed}
  {l2 c : BaselineCache}
  (hmiss : BaselineCache.Misses .dataCache cfg.l2 { m.l2 with events := [] } addr time mf w pre wbs acc c)

theorem pending_events : BaselineCache.Pending cfg.l2 { m.cache with events := [] } :=
  h.pending.of_outstanding rfl rfl h.pending.queue h.pending.ids h.pending.made fun _ hv _ => hv

omit h in
include hmiss in
/-- What a miss sends has new numbers, one each. -/
theorem sent_ids : ∃ own : Multiset MemFetch, {w} + (pre : Multiset MemFetch) = {mf} + own ∧
    Multiset.range m.l2.made + (own + wbs).map (·.id) = Multiset.range c.made := by
  have hmade : c.made = m.l2.made + (pre.length + wbs.length) := hmiss.made
  obtain ⟨accessType, -, hwbs⟩ := hmiss.writeBack
  have hback : wbs = [] ∨ ∃ b : Nat, wbs = [⟨m.l2.made + pre.length, b, accessType, true, false⟩] := by
    rw [hwbs]
    cases acc.evicted.filter fun _ => cfg.l2.writePolicy ≠ .writeThrough with
    | none => exact .inl rfl
    | some e => exact .inr ⟨e.blockAddr, rfl⟩
  rcases hmiss.waiter with ⟨rfl, rfl, -⟩ | ⟨rfl, rfl, -⟩
  · refine ⟨0, by simp, ?_⟩
    rcases hback with rfl | ⟨b, rfl⟩
    · simp [hmade]
    · simpa [hmade] using range_add_singleton m.l2.made
  · refine ⟨{BaselineCache.newMf { m.l2 with events := [] } mf.addr .l2WrAllocR false false},
      by rw [add_comm]; rfl, ?_⟩
    rcases hback with rfl | ⟨b, rfl⟩
    · simpa [hmade, BaselineCache.newMf] using range_add_singleton m.l2.made
    · have htwo : Multiset.range m.l2.made + ({m.l2.made} + {m.l2.made + 1}) =
          Multiset.range (m.l2.made + 2) := by
        rw [← add_assoc, range_add_singleton, range_add_singleton]
      simpa [hmade, BaselineCache.newMf] using htwo

omit h in
include hmiss in
theorem sent_kinds : ∀ v ∈ (pre ++ if m.l2.mshrs.probe (cfg.l2.blockAddr addr) then wbs else w :: wbs),
    v = mf ∨ isWriteback v.accessType = true ∨
      v = w ∧ ∃ e, e ∈ c.extraMfFields w.id := by
  obtain ⟨accessType, htype, hwbs⟩ := hmiss.writeBack
  have hback : ∀ v ∈ wbs, isWriteback v.accessType = true := by
    intro v hv
    rw [hwbs, List.mem_map] at hv
    obtain ⟨e, -, rfl⟩ := hv
    rcases htype with rfl | rfl <;> rfl
  have hpre : ∀ v ∈ pre, v = mf := by
    rcases hmiss.waiter with ⟨-, rfl, -⟩ | ⟨-, rfl, -⟩ <;> simp
  intro v hv
  rcases List.mem_append.mp hv with hv | hv
  · exact .inl (hpre v hv)
  · split at hv
    · exact .inr (.inl (hback v hv))
    · next hnot =>
      rcases List.mem_cons.mp hv with rfl | hv
      · obtain ⟨e, hex, -⟩ := hmiss.extra_new fun hb => hnot (MshrTable.probe_iff.mpr hb)
        exact .inr (.inr ⟨rfl, e, hex⟩)
      · exact .inr (.inl (hback v hv))

omit h in
include hmiss in
theorem waiter_allowed (ha : Accounts m) (hentered : mf ∈ m.entered) :
    isWriteback w.accessType = false ∧ (w ∈ m.entered ∨ w.accessType = .l2WrAllocR) := by
  rcases hmiss.waiter with ⟨rfl, -, hread⟩ | ⟨rfl, -, -⟩
  · refine ⟨Bool.eq_false_of_not_eq_true fun hwb => ?_, .inl hentered⟩
    rw [(ha.entered w hentered).1.2 hwb] at hread
    cases hread
  · exact ⟨rfl, .inr rfl⟩

include hmiss in
theorem misses (hl2 : cfg.l2Disabled = false) (hfront : m.icntL2 = mf :: rest) :
    Inv cfg { m with l2 := c, icntL2 := rest } := by
  let t : MemoryPartitionUnit := { m with l2 := c, icntL2 := rest }
  show Inv cfg t
  have hmf : mf ∈ m.contents .icntL2 := by simp [contents, hfront]
  have hentered : mf ∈ m.entered := h.accounts.allowed .icntL2 mf hmf
  have hlt : mf.id < m.l2.made := h.id_lt hmf rfl
  have hfree : ∀ v ∈ m.cache.outstanding, v.id ≠ mf.id := h.free hmf rfl (by decide)
  have habove := hmiss.above m.cache.below
  have hnew : ∀ v ∈ pre ++ w :: wbs, ∀ u ∈ m.cache.outstanding, u.id ≠ v.id :=
    BaselineCache.Misses.free (s := { m.cache with events := [] }) hlt hfree habove h.pending_events
  obtain ⟨hpush, -, -⟩ := MshrTable.add_ok hmiss.add
  have hpush : c.mshrs = m.l2.mshrs.pushBack (cfg.l2.blockAddr addr) w := hpush
  -- what is sent: pre, w if it asks for the block, wbs
  generalize hsent : (pre ++ if m.l2.mshrs.probe (cfg.l2.blockAddr addr) then wbs else w :: wbs) = sent
  have hqueue : c.missQueue = m.l2.missQueue ++ sent := hsent ▸ hmiss.missQueue
  have hout {v : MemFetch} (hv : v ∈ m.cache.outstanding) : v ∈ t.cache.outstanding := by
    show v ∈ c.missQueue ++ m.cache.below
    rw [hqueue]
    rcases List.mem_append.mp hv with hv | hv
    · exact List.mem_append_left _ (List.mem_append_left _ hv)
    · exact List.mem_append_right _ hv
  have hb : Balance m.contents (placed .icntL2 {mf}) (placed .mshrs {w} + placed .missQueue sent)
      t.contents := by
    funext p
    cases p with
    | mshrs =>
      have hperm : (m.l2.mshrs.pushBack (cfg.l2.blockAddr addr) w).waiting.Perm
          (w :: m.l2.mshrs.waiting) := h.mshrs_sound.waiting_pushBack
      simp only [t, contents, hpush, Pi.add_apply, Multiset.coe_eq_coe.mpr hperm]
      simp [← Multiset.cons_coe, ← Multiset.singleton_add, add_comm]
    | icntL2 =>
      simp [t, contents, hfront]
      exact Multiset.add_comm _ _
    | missQueue => simp [t, contents, hqueue]
    | _ => simp [t, contents]
  -- what is sent and not waited for
  have hwaited {id : Nat} (hid : id ≠ w.id) : t.l2.waitingForFill id = m.l2.waitingForFill id := by
    obtain ⟨size, hextra⟩ := hmiss.extra
    show (c.extraMfFields id).isSome = _
    rw [hextra]
    split
    · rfl
    · rw [update_of_ne hid]
      rfl
  have hunwaited : ∀ v ∈ pre ++ w :: wbs, m.l2.waitingForFill v.id = false := by
    intro v hv
    show (m.cache.extraMfFields v.id).isSome = false
    rw [h.pending.extra_eq_none (hnew v hv)]
    rfl
  have hnodup : ((pre ++ w :: wbs).map (·.id)).Nodup :=
    (BaselineCache.Misses.ids (s := { m.cache with events := [] }) hlt habove).1
  have hfilter : (sent : Multiset MemFetch).filter (fun v => t.l2.waitingForFill v.id = false) =
      (pre ++ wbs : List MemFetch) := by
    have hno : ∀ v ∈ pre ++ wbs, t.l2.waitingForFill v.id = false := by
      intro v hv
      have hperm : (pre ++ w :: wbs).Perm (w :: (pre ++ wbs)) := List.perm_middle
      have hne := List.nodup_cons.mp ((hperm.map (·.id)).nodup_iff.mp hnodup)
      have hvw : v.id ≠ w.id := by
        intro hid
        apply hne.1
        show w.id ∈ _
        rw [← hid]
        exact List.mem_map_of_mem hv
      rw [hwaited hvw]
      exact hunwaited v (hperm.mem_iff.mpr (List.mem_cons_of_mem _ hv))
    rw [Multiset.filter_coe, Multiset.coe_eq_coe, ← hsent]
    apply List.Perm.of_eq
    split
    · exact List.filter_eq_self.mpr fun v hv => decide_eq_true (hno v hv)
    · next hnot =>
      obtain ⟨e, hex, -⟩ := hmiss.extra_new fun hb => hnot (MshrTable.probe_iff.mpr hb)
      have hw : t.l2.waitingForFill w.id = true := BaselineCache.waitingForFill_of_mem hex
      have hpre : pre.filter (fun v => t.l2.waitingForFill v.id = false) = pre :=
        List.filter_eq_self.mpr fun v hv => decide_eq_true (hno v (List.mem_append_left _ hv))
      have hwbs : wbs.filter (fun v => t.l2.waitingForFill v.id = false) = wbs :=
        List.filter_eq_self.mpr fun v hv => decide_eq_true (hno v (List.mem_append_right _ hv))
      rw [List.filter_append, List.filter_cons_of_neg (by simp [hw]), hpre, hwbs]
  have htotal : t.total + {mf} = m.total + ({w} + (pre ++ wbs : List MemFetch)) := by
    have hcongr : counted t.l2.waitingForFill m.contents = counted m.l2.waitingForFill m.contents := by
      refine counted_congr fun p hp v hv => hwaited fun hid => ?_
      exact hnew w (by simp) v (mem_outstanding.mpr ⟨p, hp, hv⟩) hid
    have hsum := (balance_counted t.l2.waitingForFill hb).total
    simp only [counted_add, Pi.add_apply, Finset.sum_add_distrib, sum_counted_placed, hcongr] at hsum
    simpa [total, Place.beyondL2, hfilter] using hsum
  refine ⟨?_, ?_, ?_, fun hdis => absurd (hl2.symm.trans hdis) Bool.false_ne_true⟩
  · obtain ⟨own, hown, hids⟩ := sent_ids hmiss
    have hnews : t.total = m.total + (own + wbs) := by
      apply add_right_cancel (b := {mf})
      calc t.total + {mf} = m.total + ({w} + pre + wbs) := by rw [htotal, ← Multiset.coe_add, add_assoc]
        _ = m.total + (own + wbs) + {mf} := by rw [hown]; abel
    have hwaiter := waiter_allowed hmiss h.accounts hentered
    apply h.accounts.of_total hnews hids
    · intro p v hv
      have hold (hv : v ∈ m.contents p) : t.Allowed v p := by
        refine (h.accounts.allowed p v hv).mono (List.Subset.refl _) (List.Subset.refl _) fun hp hw => ?_
        refine (hwaited fun hid => ?_).trans hw
        exact hnew w (by simp) v (mem_outstanding.mpr ⟨p, hp, hv⟩) hid
      rcases hb.mem hv with hv | hv
      · exact hold hv
      · rcases Multiset.mem_add.mp hv with hv | hv
        · obtain ⟨rfl, hv⟩ := mem_placed.mp hv
          rw [Multiset.mem_singleton.mp hv]
          exact hwaiter
        · obtain ⟨rfl, hv⟩ := mem_placed.mp hv
          rcases sent_kinds hmiss v (hsent ▸ hv) with rfl | hwb | ⟨rfl, e, hex⟩
          · exact .inr (.inl hentered)
          · exact .inr (.inr hwb)
          · exact .inl (BaselineCache.waitingForFill_of_mem hex)
    · exact h.accounts.tracker
    · exact fun v hv => .inl hv
    · exact fun v hv => .inl hv
  · exact BaselineCache.Pending.misses (s := { m.cache with events := [] }) hlt hfree habove
      h.pending_events rfl rfl rfl rfl rfl
  · intro id e hex
    have hentry {b : Nat} {v : MemFetch} (hv : v ∈ (m.l2.mshrs.entry b).list) :
        v ∈ (c.mshrs.entry b).list := by
      rw [hpush]
      by_cases hb : b = cfg.l2.blockAddr addr
      · rw [hb] at hv ⊢
        rw [MshrTable.pushBack_self]
        exact List.mem_append_left _ hv
      · rw [MshrTable.pushBack_of_ne hb]
        exact hv
    rcases hmiss.extra_cases (t := c) rfl hex with hex | ⟨rfl, hnot, hblock, -⟩
    · obtain ⟨v, hv, hid, hvout⟩ := h.filed id e hex
      exact ⟨v, hentry hv, hid, hout hvout⟩
    · refine ⟨w, ?_, rfl, ?_⟩
      · show w ∈ (c.mshrs.entry e.blockAddr).list
        rw [hblock, hpush, MshrTable.pushBack_self]
        simp
      · show w ∈ c.missQueue ++ m.cache.below
        have hno : ¬ m.l2.mshrs.probe (cfg.l2.blockAddr addr) = true :=
          fun hprobe => hnot (MshrTable.probe_iff.mp hprobe)
        rw [hqueue, ← hsent, if_neg hno]
        simp

end Misses

/-! ## A new request -/

/-- A request with the next number comes to `q`. -/
structure Created (m t : MemoryPartitionUnit) (mf : MemFetch) (q : Place) : Prop where
  balance : Balance m.contents 0 (placed q {mf}) t.contents
  id : mf.id = m.l2.made
  extra : t.l2.extraMfFields = m.l2.extraMfFields
  mshrs : t.l2.mshrs = m.l2.mshrs
  missQueue : t.l2.missQueue = m.l2.missQueue
  made : t.l2.made = m.l2.made + 1

theorem created (hc : Created m t mf q) (hallowed : t.Allowed mf q)
    (hentered : m.entered ⊆ t.entered) (hruby : m.fromRuby ⊆ t.fromRuby)
    (htracker : ∀ v, v ∈ t.requestTracker ↔ v ∈ t.entered ∧ v ∉ t.popped ∧ v ∉ t.deleted)
    (henter : ∀ v ∈ t.entered, v ∈ m.entered ∨ FromCore v.accessType v.isWrite ∧ v = mf)
    (hfrom : ∀ v ∈ t.fromRuby, v ∈ m.fromRuby ∨ isRuby v.accessType = true ∧ v = mf) : Inv cfg t := by
  have hfree : ∀ v ∈ m.cache.outstanding, v.id ≠ mf.id :=
    fun v hv => Nat.ne_of_lt (hc.id ▸ h.pending.made v hv)
  have hwaited {v : MemFetch} : t.Waited v ↔ m.Waited v := by
    unfold Waited BaselineCache.waitingForFill
    rw [hc.extra]
  have hnot : m.l2.waitingForFill mf.id = false := by
    show (m.cache.extraMfFields mf.id).isSome = false
    rw [h.pending.extra_eq_none hfree]
    rfl
  have htotal : t.total = m.total + {mf} := by
    have hsum := total_of_balance hc.balance hc.extra
    rw [sum_counted_placed] at hsum
    simpa [counted, Multiset.filter_singleton, hnot] using hsum
  have hout : (t.cache.outstanding : Multiset MemFetch) =
      (m.cache.outstanding : Multiset MemFetch) + if q.beyondL2 then {mf} else 0 := by
    have hsum := outstanding_of_balance hc.balance
    rw [sum_beyond_placed] at hsum
    simpa using hsum
  refine h.of_outstanding mf ?_ hc.mshrs hc.extra (hc.missQueue ▸ h.pending.queue)
    (hc.made ▸ Nat.le_succ _) ?_
  · apply h.accounts.of_total htotal
    · rw [Multiset.map_singleton, hc.id, hc.made]
      exact range_add_singleton _
    · intro p v hv
      rcases hc.balance.mem hv with hv | hv
      · exact (h.accounts.allowed p v hv).mono hentered hruby fun _ => hwaited.mpr
      · obtain ⟨rfl, hvmf⟩ := mem_placed.mp hv
        rw [Multiset.mem_singleton.mp hvmf]
        exact hallowed
    · exact htracker
    · intro v hv
      exact (henter v hv).imp_right fun hv => ⟨hv.1, Multiset.mem_singleton.mpr hv.2⟩
    · intro v hv
      exact (hfrom v hv).imp_right fun hv => ⟨hv.1, Multiset.mem_singleton.mpr hv.2⟩
  · split at hout
    · exact .inr (.inr ⟨⟨by rw [hc.id, hc.made]; exact Nat.lt_succ_self _, hfree⟩, hout⟩)
    · exact .inl (hout.trans (add_zero _))

end Inv

end GpgpuSimRuby.Partition.MemoryPartitionUnit
