import GpgpuSimRuby.Cache.Pending

/-!
# Reserved lines

With allocation on a miss, a line is reserved for a request and its fill makes it valid. A read that is
merged into an entry reserves a line, too: when the entry has had its fill, and its line is gone, nobody
will fill that one.
-/

namespace GpgpuSimRuby.Cache.BaselineCache

open Library Function

/-! ## Lines and requests -/

/-- Exactly one request for the line's block is on its way, and it knows the line. -/
def Served (s : BaselineCache) (index : Nat) : Prop :=
  ∃ mf ∈ s.outstanding, mf.isWrite = false ∧
    (∃ e ∈ s.extraMfFields mf.id, e.blockAddr = (s.lines index).blockAddr ∧ e.cacheIndex = index) ∧
    ∀ v ∈ s.outstanding, ∀ e ∈ s.extraMfFields v.id, e.blockAddr = (s.lines index).blockAddr → v = mf

/-- The fill makes exactly the line of the request valid or modified. -/
def FillsOnly (s t : BaselineCache) (e : ExtraMfFields) : Prop :=
  (s.lines e.cacheIndex).status = .reserved ∧ (t.lines e.cacheIndex).status ≠ .reserved ∧
    ∀ index, index ≠ e.cacheIndex → t.lines index = s.lines index

/-- A read that is taken finds a line reserved for it exactly if there is an entry for its block. -/
def FindsReserved (kind : Kind) (cfg : CacheConfig) (s : BaselineCache) : Act → Prop
  | .access addr r _ => Accepts kind cfg s addr r.isWrite →
      (s.probeStatus cfg addr = .ok .hitReserved ↔ cfg.blockAddr addr ∈ s.mshrs.blocks)
  | _ => True

instance decidableFindsReserved (kind : Kind) (cfg : CacheConfig) (s : BaselineCache) :
    ∀ a, Decidable (FindsReserved kind cfg s a)
  | .access addr r _ => inferInstanceAs (Decidable (Accepts kind cfg s addr r.isWrite → (_ ↔ _)))
  | .cycle _ => .isTrue trivial
  | .fill _ _ => .isTrue trivial
  | .nextAccess => .isTrue trivial

/-- Reserved lines and requests agree. -/
structure Reserves (s : BaselineCache) : Prop where
  served : ∀ index, (s.lines index).status = .reserved →
    ∃ id, ∃ e ∈ s.extraMfFields id, e.blockAddr = (s.lines index).blockAddr ∧ e.cacheIndex = index
  holds : ∀ id, ∀ e ∈ s.extraMfFields id, (s.lines e.cacheIndex).status = .reserved ∧
    (s.lines e.cacheIndex).blockAddr = e.blockAddr

variable {kind : Kind} {cfg : CacheConfig} {s t c : BaselineCache} {addr time : Nat}
  {mf w : MemFetch} {pre wbs : List MemFetch} {a : Act} {r : Request} {e : ExtraMfFields}

theorem Reserves.init : Reserves {} where
  served index h := by cases h
  holds id e h := by cases h

theorem Reserves.of_lines (h : Reserves s) (he : t.extraMfFields = s.extraMfFields)
    (hl : ∀ index, (t.lines index).status = .reserved ∨ (s.lines index).status = .reserved →
      (t.lines index).status = (s.lines index).status ∧
        (t.lines index).blockAddr = (s.lines index).blockAddr) : Reserves t where
  served index hres := by
    obtain ⟨hst, hb⟩ := hl index (.inl hres)
    rw [he, hb]
    exact h.served index (hst ▸ hres)
  holds id e hex := by
    rw [he] at hex
    obtain ⟨hres, hblock⟩ := h.holds id e hex
    obtain ⟨hst, hb⟩ := hl e.cacheIndex (.inr hres)
    exact ⟨hst.trans hres, hb.trans hblock⟩

/-! ## Steps -/

theorem Reserves.quiet (h : Reserves s) {sent : List MemFetch} {lines : Lines}
    (hchange : HitChange cfg s.lines addr mf sent lines) (hl : t.lines = lines)
    (he : t.extraMfFields = s.extraMfFields) : Reserves t := by
  refine h.of_lines he fun i hi => ?_
  subst hl
  generalize htl : t.lines = lines at hchange hi
  cases hchange with
  | same => exact ⟨rfl, rfl⟩
  | @touch index line hit tag block status =>
    have hfound : (s.lines index).status ≠ .reserved := by
      obtain ⟨-, -, hst | hst⟩ := Lines.probe_ok hit <;> rw [hst] <;> exact fun h => by cases h
    by_cases hii : i = index
    · rw [hii, Lines.setLine_self] at hi
      rcases hi with hi | hi
      · rcases status with hst | hst
        · exact absurd (hst.symm.trans hi) hfound
        · rw [hst] at hi
          cases hi
      · exact absurd hi hfound
    · rw [Lines.setLine_of_ne hii]
      exact ⟨rfl, rfl⟩
  | @evict index hit write policy own =>
    have hfound : (s.lines index).status ≠ .reserved := by
      obtain ⟨-, -, hst | hst⟩ := Lines.probe_ok hit <;> rw [hst] <;> exact fun h => by cases h
    by_cases hii : i = index
    · rw [hii, Lines.setStatus_self] at hi
      rcases hi with hi | hi
      · cases hi
      · exact absurd hi hfound
    · rw [Lines.setStatus_of_ne hii]
      exact ⟨rfl, rfl⟩

theorem Reserves.misses {acc : Lines.Accessed} (h : Reserves s) (hp : Pending cfg s)
    (hpol : cfg.allocPolicy = .onMiss)
    (hmiss : Misses kind cfg (s.asked r) addr time (s.requestMf r) w pre wbs acc c)
    (hok : FindsReserved kind cfg s (.access addr r time)) (hl : t.lines = c.lines)
    (he : t.extraMfFields = c.extraMfFields) : Reserves t := by
  have hfinds := hok hmiss.accepts
  obtain ⟨hprobe, hans⟩ := Lines.access_ok hmiss.tags
  have hstatus : s.probeStatus cfg addr = .ok acc.probe.status := congrArg _ hprobe
  have hlines : t.lines = acc.lines := hl.trans hmiss.lines
  obtain ⟨index, hfound | hfound⟩ := hmiss.found
  · -- a new line is reserved, and its block asked for
    have hnot : cfg.blockAddr addr ∉ s.mshrs.blocks := by
      intro hin
      have hres := hfinds.mpr hin
      rw [hstatus, hfound] at hres
      cases hres
    rw [hfound] at hans hprobe
    simp only [Lines.Answered, if_pos hpol] at hans
    have hnres := (Lines.probe_ok hprobe).2.1
    have hself : t.lines index = ⟨cfg.tag (cfg.blockAddr addr), cfg.blockAddr (cfg.blockAddr addr), time,
        time, .reserved⟩ := by
      rw [hlines, hans.1, Lines.allocate, Lines.setLine_self]
    have hother {i : Nat} (hi : i ≠ index) : t.lines i = s.lines i := by
      rw [hlines, hans.1]
      exact Lines.setLine_of_ne hi
    obtain ⟨e, hex, hblock, hindex⟩ := hmiss.extra_new hnot
    rw [hfound] at hindex
    have hindex : e.cacheIndex = index := hindex
    have hself' : (t.lines index).blockAddr = e.blockAddr := by
      rw [hself, hblock]
      exact cfg.blockAddr_blockAddr addr
    constructor
    · intro i hi
      by_cases hii : i = index
      · rw [hii]
        exact ⟨w.id, e, he ▸ hex, hself'.symm, hindex⟩
      · rw [hother hii] at hi ⊢
        obtain ⟨id, e', hex', hold⟩ := h.served i hi
        refine ⟨id, e', ?_, hold⟩
        rw [he]
        refine hmiss.extra_old ?_ hex'
        rintro rfl
        have hnone := (hp.asked_request r).extra_eq_none
          (hmiss.free (Nat.lt_succ_self _) hp.request_free (hp.asked_request r) w (by simp))
        cases (Option.mem_def.mp hex').symm.trans hnone
    · intro id e' hex'
      rcases hmiss.extra_cases he hex' with hex' | ⟨rfl, -, hblock', hindex'⟩
      · obtain ⟨hres, hb⟩ := h.holds id e' hex'
        have hne : e'.cacheIndex ≠ index := fun heq => hnres (heq ▸ hres)
        rw [hother hne]
        exact ⟨hres, hb⟩
      · rw [he] at hex'
        cases (Option.mem_def.mp hex).symm.trans (Option.mem_def.mp hex')
        rw [hindex]
        exact ⟨by rw [hself], hself'⟩
  · -- the entry's line is touched
    have hin : cfg.blockAddr addr ∈ s.mshrs.blocks := by
      apply hfinds.mp
      rw [hstatus, hfound]
      rfl
    rw [hfound] at hans
    obtain ⟨hset, -⟩ := hans
    refine h.of_lines ?_ fun i _ => ?_
    · obtain ⟨size, hextra⟩ := hmiss.extra
      have hyes : (s.asked r).mshrs.probe (cfg.blockAddr addr) = true := MshrTable.probe_iff.mpr hin
      rw [he, hextra, if_pos hyes]
      rfl
    · rw [hlines, hset]
      by_cases hii : i = index
      · rw [hii, Lines.setLine_self]
        exact ⟨rfl, rfl⟩
      · rw [Lines.setLine_of_ne hii]
        exact ⟨rfl, rfl⟩

theorem fillsOnly_of_tags {lines lines' : Lines} (hpol : cfg.allocPolicy = .onMiss)
    (htags : s.fillTags cfg e time = .ok lines) (hlines : lines' = lines ∨ cfg.allocPolicy = .onMiss ∧
      lines' = Lines.setStatus lines e.cacheIndex .modified) (hl : t.lines = lines') : FillsOnly s t e := by
  simp only [fillTags, hpol] at htags
  obtain ⟨_, -, hfill⟩ := bind_eq_ok.mp htags
  obtain ⟨hres, rfl⟩ := Lines.fillLine_ok hfill
  refine ⟨hres, ?_, fun i hi => ?_⟩
  · rw [hl]
    rcases hlines with rfl | ⟨-, rfl⟩ <;> rw [Lines.setStatus_self] <;> exact fun h => by cases h
  · rw [hl]
    rcases hlines with rfl | ⟨-, rfl⟩
    · exact Lines.setStatus_of_ne hi
    · exact (Lines.setStatus_of_ne hi).trans (Lines.setStatus_of_ne hi)

theorem Reserves.fill {id : Nat} (h : Reserves s) (hp : Pending cfg s)
    (hextra : s.extraMfFields id = some e) (hfill : FillsOnly s t e)
    (he : t.extraMfFields = update s.extraMfFields id none) : Reserves t := by
  obtain ⟨-, hdone, hother⟩ := hfill
  constructor
  · intro i hi
    by_cases hii : i = e.cacheIndex
    · exact absurd (hii ▸ hi) hdone
    · rw [hother i hii] at hi ⊢
      obtain ⟨id', e', hex, hblock, hindex⟩ := h.served i hi
      refine ⟨id', e', ?_, hblock, hindex⟩
      have hne : id' ≠ id := by
        rintro rfl
        cases hextra.symm.trans hex
        exact hii hindex.symm
      rw [he, update_of_ne hne]
      exact hex
  · intro id' e' hex
    rw [he] at hex
    by_cases hid : id' = id
    · rw [hid, update_self] at hex
      cases hex
    · rw [update_of_ne hid] at hex
      obtain ⟨hres, hblock⟩ := h.holds id' e' hex
      have hne : e'.cacheIndex ≠ e.cacheIndex := by
        intro heq
        apply hid
        refine hp.unique id' id e' hex e hextra ?_
        rw [← hblock, heq]
        exact (h.holds id e hextra).2
      rw [hother _ hne]
      exact ⟨hres, hblock⟩

theorem Reserves.step (h : Reserves s) (hp : Pending cfg s) (hpol : cfg.allocPolicy = .onMiss)
    (hok : FindsReserved kind cfg s a) (hs : Stepped kind cfg s a t) : Reserves t := by
  cases hs with
  | access hans =>
    generalize hs' : s.asked _ = s' at hans
    cases hans with
    | quiet hsent hchange hstatus =>
      subst hs'
      exact h.quiet hchange rfl rfl
    | missed hmiss =>
      subst hs'
      exact h.misses hp hpol hmiss hok rfl rfl
  | idle => exact h
  | sent hqueue => exact ⟨h.served, h.holds⟩
  | fill hextra hbelow htags hmshrs hlines =>
    exact h.fill hp hextra (fillsOnly_of_tags hpol htags hlines rfl) rfl
  | nextAccess hn => exact ⟨h.served, h.holds⟩

theorem reserves_of_reachable (hpol : cfg.allocPolicy = .onMiss)
    (h : (machine kind cfg).ReachableUnder (FindsReserved kind cfg) s) : Reserves s := by
  induction h with
  | init => exact Reserves.init
  | step hs hok ht ih => exact ih.step (pending_of_reachable hs) hpol hok (step_ok ht)

/-! ## Reserved lines are filled -/

theorem Reserves.served_line (h : Reserves s) (hp : Pending cfg s) {index : Nat}
    (hres : (s.lines index).status = .reserved) : s.Served index := by
  obtain ⟨id, e, hex, hblock, hindex⟩ := h.served index hres
  obtain ⟨mf, hmf, rfl, hread⟩ := hp.sent id e hex
  refine ⟨mf, hmf, hread, ⟨e, hex, hblock, hindex⟩, ?_⟩
  intro v hv e' hex' hblock'
  have hid : v.id = mf.id := hp.unique v.id mf.id e' hex' e hex (hblock'.trans hblock.symm)
  exact List.inj_on_of_nodup_map hp.ids hv hmf hid

theorem Reserves.fill_succeeds (h : Reserves s) (hp : Pending cfg s) (hpol : cfg.allocPolicy = .onMiss)
    {id : Nat} (hex : s.extraMfFields id = some e) (hbelow : ∃ mf ∈ s.below, mf.id = id) (time : Nat) :
    ∃ t, BaselineCache.step kind cfg s (.fill id time) = some (.ok t) := by
  obtain ⟨hres, -⟩ := h.holds id e hex
  obtain ⟨hin, hnot⟩ := hp.waits id e hex
  have htags : s.fillTags cfg e time = .ok (Lines.setStatus s.lines e.cacheIndex .valid) := by
    simp [fillTags, hpol, Lines.fillIndex, Lines.fillLine, hres]
  have hready : ∃ mshrs, s.mshrs.markReady e.blockAddr = .ok mshrs := by
    cases hm : s.mshrs.markReady e.blockAddr with
    | ok mshrs => exact ⟨mshrs, rfl⟩
    | error err => exact absurd hm (hp.mshrs.markReady_ne_error hin hnot)
  obtain ⟨mshrs, hm⟩ := hready
  have hwait : s.waitingForFill id = true := by rw [waitingForFill, hex]; rfl
  have hfill : ∃ t, s.fill cfg id time = .ok t := by
    simp only [BaselineCache.fill, hex, htags, hm, ok_bind, hpol, implies_true, assert_pos]
    exact ⟨_, rfl⟩
  obtain ⟨t, ht⟩ := hfill
  refine ⟨{ t with below := t.below.filter (·.id ≠ id) }, ?_⟩
  simp only [BaselineCache.step, if_pos (And.intro hwait hbelow), ht]
  rfl

/-- **Reserved lines.** With allocation on a miss, every reserved line has exactly one request for
its block on its way, which knows the line, and the fill by a request makes exactly its line valid,
as long as every read that is taken finds a line reserved for it exactly if there is an entry for
its block. -/
theorem reserved_served (hpol : cfg.allocPolicy = .onMiss)
    (h : (machine kind cfg).ReachableUnder (FindsReserved kind cfg) s) :
    (∀ index, (s.lines index).status = .reserved → s.Served index) ∧
    ∀ id time, ∀ e ∈ s.extraMfFields id, (∃ mf ∈ s.below, mf.id = id) →
      ∃ t, step kind cfg s (.fill id time) = some (.ok t) ∧ FillsOnly s t e := by
  have hp := pending_of_reachable h
  have hr := reserves_of_reachable hpol h
  refine ⟨fun index hres => hr.served_line hp hres, ?_⟩
  intro id time e hex hbelow
  obtain ⟨t, ht⟩ := hr.fill_succeeds hp hpol hex hbelow time
  refine ⟨t, ht, ?_⟩
  cases step_ok ht with
  | fill hextra _ htags hmshrs hlines =>
    cases hextra.symm.trans hex
    exact fillsOnly_of_tags hpol htags hlines rfl

/-- A line that is reserved, and its fill. -/
theorem reserved_served_read : ∃ s, (machine .dataCache (oneLine .onMiss)).Reachable s ∧
    (s.lines 0).status = .reserved ∧ s.Served 0 := by
  obtain ⟨s, -, hs, hres⟩ := (machine .dataCache (oneLine .onMiss)).exists_reachableUnder_of_run
    (FindsReserved .dataCache (oneLine .onMiss)) [.access 0 (readOf 0) 1, .cycle false]
    (fun s => (s.lines 0).status) (by decide) (by decide : _ = some .reserved)
  exact ⟨s, hs.reachable, hres, (reserved_served rfl hs).1 0 hres⟩

/-- Block 0 is filled and replaced by block 128 before its access is handed out; a second read of
block 0 is merged into its entry and reserves the line again, with nothing on its way. -/
theorem not_reserved_served : ∃ s, (machine .dataCache (oneLine .onMiss)).Reachable s ∧
    (s.lines 0).status = .reserved ∧ s.outstanding = [] ∧ ¬ s.Served 0 := by
  obtain ⟨s, -, hs, hres⟩ := (machine .dataCache (oneLine .onMiss)).exists_reachable_of_run
    [.access 0 (readOf 0) 1, .cycle false, .fill 0 2, .access 128 (readOf 128) 3, .cycle false,
      .fill 1 4, .access 0 (readOf 0) 5]
    (fun s => ((s.lines 0).status, s.outstanding)) (by decide : _ = some (.reserved, []))
  simp only [Prod.mk.injEq] at hres
  refine ⟨s, hs, hres.1, hres.2, ?_⟩
  rintro ⟨mf, hmf, -⟩
  rw [hres.2] at hmf
  cases hmf

end GpgpuSimRuby.Cache.BaselineCache
