import GpgpuSimRuby.Cache.Accesses

/-!
# Pending requests

An entry of the MSHRs that is not ready has exactly one request on its way, in the miss queue or below,
and the request knows its block.
-/

namespace GpgpuSimRuby.Cache.BaselineCache

open Library Function

/-- The requests that have not been answered. -/
def outstanding (s : BaselineCache) : List MemFetch := s.missQueue ++ s.below

/-- Entries and requests agree. -/
structure Pending (cfg : CacheConfig) (s : BaselineCache) : Prop where
  mshrs : s.mshrs.Sound cfg
  queue : s.missQueue.length ≤ cfg.missQueueSize
  ids : (s.outstanding.map (·.id)).Nodup
  made : ∀ mf ∈ s.outstanding, mf.id < s.made
  sent : ∀ id, ∀ e ∈ s.extraMfFields id, ∃ mf ∈ s.outstanding, mf.id = id ∧ mf.isWrite = false
  waits : ∀ id, ∀ e ∈ s.extraMfFields id,
    e.blockAddr ∈ s.mshrs.blocks ∧ e.blockAddr ∉ s.mshrs.currentResponse
  unique : ∀ i j, ∀ e ∈ s.extraMfFields i, ∀ e' ∈ s.extraMfFields j,
    e.blockAddr = e'.blockAddr → i = j
  asked : ∀ b ∈ s.mshrs.blocks, b ∉ s.mshrs.currentResponse →
    ∃ id, ∃ e ∈ s.extraMfFields id, e.blockAddr = b

variable {kind : Kind} {cfg : CacheConfig} {s t c : BaselineCache} {addr time : Nat}
  {mf w : MemFetch} {pre wbs : List MemFetch} {a : Act} {status : CacheRequestStatus} {id : Nat}
variable {e : ExtraMfFields}

theorem Pending.init : Pending cfg {} where
  mshrs := .empty
  queue := Nat.zero_le _
  ids := List.nodup_nil
  made mf h := by cases h
  sent id e h := by cases h
  waits id e h := by cases h
  unique i j e h := by cases h
  asked b h := by cases h

/-- A number that is not outstanding is not filed. -/
theorem Pending.extra_eq_none (h : Pending cfg s) (hid : ∀ v ∈ s.outstanding, v.id ≠ id) :
    s.extraMfFields id = none := by
  cases he : s.extraMfFields id with
  | none => rfl
  | some e =>
    obtain ⟨mf, hmf, hmfid, -⟩ := h.sent id e he
    exact absurd hmfid (hid mf hmf)

theorem waitingForFill_of_mem (h : e ∈ s.extraMfFields id) : s.waitingForFill id = true := by
  rw [waitingForFill, Option.mem_def.mp h]
  rfl

/-- The entries and the files stay, and so does all that is waited for. -/
theorem Pending.of_outstanding (h : Pending cfg s) (hm : t.mshrs = s.mshrs)
    (he : t.extraMfFields = s.extraMfFields) (hqueue : t.missQueue.length ≤ cfg.missQueueSize)
    (hids : (t.outstanding.map (·.id)).Nodup) (hmade : ∀ v ∈ t.outstanding, v.id < t.made)
    (hkept : ∀ v ∈ s.outstanding, s.waitingForFill v.id = true → v ∈ t.outstanding) : Pending cfg t where
  mshrs := hm ▸ h.mshrs
  queue := hqueue
  ids := hids
  made := hmade
  sent id e hex := by
    rw [he] at hex
    obtain ⟨v, hv, rfl, hread⟩ := h.sent id e hex
    exact ⟨v, hkept v hv (waitingForFill_of_mem hex), rfl, hread⟩
  waits := by
    rw [he, hm]
    exact h.waits
  unique := by
    rw [he]
    exact h.unique
  asked := by
    rw [he, hm]
    exact h.asked

/-! ## Queues that grow and move -/

section Outstanding

variable {news : List MemFetch} (hq : t.missQueue = s.missQueue ++ news) (hb : t.below = s.below)

include hq hb in
theorem mem_outstanding : mf ∈ t.outstanding ↔ mf ∈ s.outstanding ∨ mf ∈ news := by
  simp only [outstanding, hq, hb, List.mem_append]
  tauto

include hq hb in
/-- Outstanding numbers stay distinct when new ones are sent. -/
theorem Pending.ids_grow (h : Pending cfg s) (hnews : (news.map (·.id)).Nodup)
    (hfresh : ∀ v ∈ news, ∀ u ∈ s.outstanding, u.id ≠ v.id) : (t.outstanding.map (·.id)).Nodup := by
  have hperm : (t.outstanding.map (·.id)).Perm (s.outstanding.map (·.id) ++ news.map (·.id)) := by
    rw [← List.map_append]
    apply List.Perm.map
    unfold outstanding
    rw [hq, hb, List.append_assoc, List.append_assoc]
    exact List.Perm.append_left _ List.perm_append_comm
  refine hperm.nodup_iff.mpr (List.nodup_append.mpr ⟨h.ids, hnews, ?_⟩)
  rintro i hi j hj rfl
  obtain ⟨v, hv, rfl⟩ := List.mem_map.mp hi
  obtain ⟨v', hv', hid⟩ := List.mem_map.mp hj
  exact hfresh v' hv' v hv hid.symm

end Outstanding

/-! ## Accesses -/

theorem Pending.asked_request (h : Pending cfg s) (r : Request) : Pending cfg (s.asked r) :=
  ⟨h.mshrs, h.queue, h.ids, fun v hv => Nat.lt_succ_of_lt (h.made v hv), h.sent, h.waits, h.unique,
    h.asked⟩

/-- A request of the cache itself has a new number. -/
theorem Pending.request_free (h : Pending cfg s) {r : Request} :
    ∀ v ∈ (s.asked r).outstanding, v.id ≠ (s.requestMf r).id :=
  fun v hv => Nat.ne_of_lt (h.made v hv)

section Access

variable (hlt : mf.id < s.made) (hfree : ∀ v ∈ s.outstanding, v.id ≠ mf.id)

include hlt hfree in
/-- An access that needs no fill: it sends at most the write it is. -/
theorem Pending.quiet (h : Pending cfg s) {sent : List MemFetch}
    (hsent : sent = [] ∨ sent = [mf] ∧ mf.isWrite = true ∧ s.missQueue.length < cfg.missQueueSize)
    (hq : t.missQueue = s.missQueue ++ sent) (hb : t.below = s.below) (hm : t.mshrs = s.mshrs)
    (he : t.extraMfFields = s.extraMfFields) (hmade : t.made = s.made) : Pending cfg t := by
  have hid : ∀ v ∈ sent, v = mf := by
    intro v hv
    rcases hsent with rfl | ⟨rfl, -⟩
    · cases hv
    · exact List.mem_singleton.mp hv
  apply h.of_outstanding hm he
  · rcases hsent with rfl | ⟨rfl, -, hroom⟩
    · rw [hq, List.append_nil]
      exact h.queue
    · rw [hq, List.length_append]
      exact hroom
  · refine h.ids_grow hq hb ?_ fun v hv => hid v hv ▸ hfree
    rcases hsent with rfl | ⟨rfl, -⟩ <;> simp
  · intro v hv
    rw [hmade]
    rcases (mem_outstanding hq hb).mp hv with hv | hv
    · exact h.made v hv
    · rw [hid v hv]
      exact hlt
  · exact fun v hv _ => (mem_outstanding hq hb).mpr (.inl hv)

/-! ## Accepted misses -/

variable {acc : Lines.Accessed} (hmiss : Misses kind cfg s addr time mf w pre wbs acc c)
include hmiss

include hlt in
/-- What a miss sends has numbers of its own, or is the access itself. -/
theorem Misses.ids : ((pre ++ w :: wbs).map (·.id)).Nodup ∧
    ∀ v ∈ pre ++ w :: wbs, v.id < c.made ∧ (v = mf ∨ s.made ≤ v.id) := by
  have hmade : c.made = s.made + (pre.length + wbs.length) := hmiss.made
  obtain ⟨accessType, -, hwbs⟩ := hmiss.writeBack
  have hback : wbs = [] ∨ ∃ b : Nat, wbs = [⟨s.made + pre.length, b, accessType, true, false⟩] := by
    rw [hwbs]
    cases acc.evicted.filter fun _ => cfg.writePolicy ≠ .writeThrough with
    | none => exact .inl rfl
    | some e => exact .inr ⟨e.blockAddr, rfl⟩
  rcases hmiss.waiter with ⟨rfl, rfl, -⟩ | ⟨rfl, rfl, -⟩
  · rcases hback with rfl | ⟨b, rfl⟩
    · simp [hmade, hlt]
    · simp [hmade]
      omega
  · rcases hback with rfl | ⟨b, rfl⟩
    · simp [newMf, hmade]
      omega
    · simp [newMf, hmade]
      omega

include hlt hfree in
theorem Misses.free (h : Pending cfg s) : ∀ v ∈ pre ++ w :: wbs, ∀ u ∈ s.outstanding, u.id ≠ v.id := by
  intro v hv u hu
  rcases ((hmiss.ids hlt).2 v hv).2 with rfl | hle
  · exact hfree u hu
  · exact Nat.ne_of_lt ((h.made u hu).trans_le hle)

theorem Misses.above (below : List MemFetch) :
    Misses kind cfg { s with below } addr time mf w pre wbs acc { c with below } :=
  ⟨hmiss.waiter, hmiss.room, hmiss.accepts, hmiss.found, hmiss.tags, hmiss.add, hmiss.writeBack,
    hmiss.lines, hmiss.missQueue, hmiss.extra, hmiss.record, rfl, hmiss.made⟩

theorem Misses.waiter_read : w.isWrite = false := by
  rcases hmiss.waiter with ⟨rfl, -, hw⟩ | ⟨rfl, -, -⟩
  · exact hw
  · rfl

/-- A miss files at most its waiter, under the block it asked for. -/
theorem Misses.extra_cases (he : t.extraMfFields = c.extraMfFields)
    (hex : e ∈ t.extraMfFields id) : e ∈ s.extraMfFields id ∨
      id = w.id ∧ cfg.blockAddr addr ∉ s.mshrs.blocks ∧ e.blockAddr = cfg.blockAddr addr ∧
        e.cacheIndex = acc.probe.index 0 := by
  obtain ⟨size, hextra⟩ := hmiss.extra
  rw [he, hextra] at hex
  split at hex
  · exact .inl hex
  · next hnot =>
    by_cases hid : id = w.id
    · rw [hid, update_self] at hex
      cases hex
      exact .inr ⟨hid, fun hb => hnot (MshrTable.probe_iff.mpr hb), rfl, rfl⟩
    · rw [update_of_ne hid] at hex
      exact .inl hex

theorem Misses.extra_old (hid : id ≠ w.id) (hex : e ∈ s.extraMfFields id) : e ∈ c.extraMfFields id := by
  obtain ⟨size, hextra⟩ := hmiss.extra
  rw [hextra]
  split
  · exact hex
  · rw [update_of_ne hid]
    exact hex

theorem Misses.extra_new (hnot : cfg.blockAddr addr ∉ s.mshrs.blocks) :
    ∃ e ∈ c.extraMfFields w.id, e.blockAddr = cfg.blockAddr addr ∧ e.cacheIndex = acc.probe.index 0 := by
  obtain ⟨size, hextra⟩ := hmiss.extra
  have hno : ¬ s.mshrs.probe (cfg.blockAddr addr) = true :=
    fun hp => hnot (MshrTable.probe_iff.mp hp)
  rw [hextra, if_neg hno, update_self]
  exact ⟨_, rfl, rfl, rfl⟩

include hlt hfree in
/-- A miss is filed if nobody has asked for its block yet. -/
theorem Pending.misses (h : Pending cfg s) (hq : t.missQueue = c.missQueue) (hb : t.below = c.below)
    (hm : t.mshrs = c.mshrs) (he : t.extraMfFields = c.extraMfFields) (hmade : t.made = c.made) :
    Pending cfg t := by
  obtain ⟨hnodup, hnew⟩ := hmiss.ids hlt
  have hadd : s.mshrs.add cfg (cfg.blockAddr addr) w = .ok t.mshrs := hm ▸ hmiss.add
  obtain ⟨hpush, -, -⟩ := MshrTable.add_ok hadd
  have hblocks {b : Nat} : b ∈ t.mshrs.blocks ↔ b = cfg.blockAddr addr ∨ b ∈ s.mshrs.blocks := by
    rw [hpush]
    exact MshrTable.mem_pushBack
  have hcur : t.mshrs.currentResponse = s.mshrs.currentResponse := by
    rw [hpush]
    rfl
  obtain ⟨news, hnews, hqueue, hnewsw⟩ : ∃ news, news.Sublist (pre ++ w :: wbs) ∧
      t.missQueue = s.missQueue ++ news ∧ (cfg.blockAddr addr ∉ s.mshrs.blocks → w ∈ news) := by
    refine ⟨_, ?_, hq.trans hmiss.missQueue, ?_⟩
    · apply List.Sublist.append_left
      split
      · exact List.sublist_cons_self w wbs
      · exact List.Sublist.refl _
    · intro hnot
      have hno : ¬ s.mshrs.probe (cfg.blockAddr addr) = true :=
        fun hp => hnot (MshrTable.probe_iff.mp hp)
      rw [if_neg hno]
      simp
  have hbelow : t.below = s.below := hb.trans hmiss.below
  have hmem {v : MemFetch} : v ∈ t.outstanding ↔ v ∈ s.outstanding ∨ v ∈ news :=
    mem_outstanding hqueue hbelow
  have hle : s.made ≤ t.made := by
    have hmade' := hmiss.made
    omega
  have hroom := hmiss.room
  refine ⟨h.mshrs.add hadd, ?_, ?_, ?_, ?_, ?_, ?_, ?_⟩
  · have hlen := hnews.length_le
    simp only [List.length_append, List.length_cons] at hlen
    rw [hqueue, List.length_append]
    omega
  · refine h.ids_grow hqueue hbelow (hnodup.sublist (hnews.map _)) ?_
    exact fun v hv => hmiss.free hlt hfree h v (hnews.subset hv)
  · intro v hv
    rw [hmade]
    rcases hmem.mp hv with hv | hv
    · exact (h.made v hv).trans_le (hle.trans hmade.le)
    · exact (hnew v (hnews.subset hv)).1
  · intro id e hex
    rcases hmiss.extra_cases he hex with hex | ⟨rfl, hnot, -, -⟩
    · obtain ⟨v, hv, hvid⟩ := h.sent id e hex
      exact ⟨v, hmem.mpr (.inl hv), hvid⟩
    · exact ⟨w, hmem.mpr (.inr (hnewsw hnot)), rfl, hmiss.waiter_read⟩
  · intro id e hex
    rw [hblocks, hcur]
    rcases hmiss.extra_cases he hex with hex | ⟨-, hnot, hblock, -⟩
    · exact ⟨.inr (h.waits id e hex).1, (h.waits id e hex).2⟩
    · exact ⟨.inl hblock, fun hin => hnot (hblock ▸ h.mshrs.response _ hin)⟩
  · intro i j e hi e' hj hee
    rcases hmiss.extra_cases he hi with hi | ⟨rfl, hnot, hblock, -⟩ <;>
      rcases hmiss.extra_cases he hj with hj | ⟨rfl, hnot', hblock', -⟩
    · exact h.unique i j e hi e' hj hee
    · exact absurd (h.waits i e hi).1 (by rw [hee, hblock']; exact hnot')
    · exact absurd (h.waits j e' hj).1 (by rw [← hee, hblock]; exact hnot)
    · rfl
  · intro b hb hready
    rw [hcur] at hready
    by_cases hbb : b ∈ s.mshrs.blocks
    · obtain ⟨id, e, hex, hblock⟩ := h.asked b hbb hready
      refine ⟨id, e, ?_, hblock⟩
      rw [he]
      refine hmiss.extra_old ?_ hex
      exact fun hid => by
        have hnone := h.extra_eq_none (hmiss.free hlt hfree h w (by simp))
        rw [← hid, Option.mem_def.mp hex] at hnone
        cases hnone
    · obtain rfl := (hblocks.mp hb).resolve_right hbb
      obtain ⟨e, hex, hblock, -⟩ := hmiss.extra_new hbb
      exact ⟨w.id, e, he ▸ hex, hblock⟩

end Access

/-- Whatever the cache answers to an access. -/
theorem Pending.answers (h : Pending cfg s) (hlt : mf.id < s.made)
    (hfree : ∀ v ∈ s.outstanding, v.id ≠ mf.id) (hans : Answers kind cfg s addr time mf c status)
    (hq : t.missQueue = c.missQueue) (hb : t.below = c.below) (hm : t.mshrs = c.mshrs)
    (he : t.extraMfFields = c.extraMfFields) (hmade : t.made = c.made) : Pending cfg t := by
  cases hans with
  | quiet hsent hchange hstatus => exact h.quiet hlt hfree hsent hq hb hm he hmade
  | missed hmiss => exact h.misses hlt hfree hmiss hq hb hm he hmade

/-! ## The other steps -/

theorem Pending.sentOn (h : Pending cfg s) {rest : List MemFetch} (hqueue : s.missQueue = mf :: rest) :
    Pending cfg { s with missQueue := rest, below := s.below ++ [mf] } := by
  have hperm : (rest ++ (s.below ++ [mf])).Perm s.outstanding := by
    unfold outstanding
    rw [hqueue, ← List.append_assoc]
    exact List.perm_append_singleton mf (rest ++ s.below)
  refine h.of_outstanding rfl rfl ?_ ?_ ?_ ?_
  · have hlen := h.queue
    rw [hqueue, List.length_cons] at hlen
    exact Nat.le_of_succ_le hlen
  · exact (hperm.map _).nodup_iff.mpr h.ids
  · exact fun v hv => h.made v (hperm.mem_iff.mp hv)
  · exact fun v hv _ => hperm.mem_iff.mpr hv

/-- The fill of a filed request makes its entry ready. -/
theorem Pending.fill (h : Pending cfg s) {mshrs : MshrTable}
    (hextra : s.extraMfFields id = some e) (hmshrs : s.mshrs.markReady e.blockAddr = .ok mshrs)
    (hm : t.mshrs = mshrs) (he : t.extraMfFields = update s.extraMfFields id none)
    (hq : t.missQueue = s.missQueue) (hb : t.below = s.below.filter (·.id ≠ id))
    (hmade : t.made = s.made) : Pending cfg t := by
  obtain ⟨hready, hblock⟩ := MshrTable.markReady_ok hmshrs
  have hnot := (h.waits id e hextra).2
  have hsub : t.outstanding.Sublist s.outstanding := by
    unfold outstanding
    rw [hq, hb]
    exact List.Sublist.append_left (List.filter_sublist ..) _
  have hold {i : Nat} {e' : ExtraMfFields} (hex : e' ∈ t.extraMfFields i) :
      i ≠ id ∧ e' ∈ s.extraMfFields i := by
    rw [he] at hex
    by_cases hi : i = id
    · rw [hi, update_self] at hex
      cases hex
    · rw [update_of_ne hi] at hex
      exact ⟨hi, hex⟩
  have hcur {b : Nat} : b ∈ t.mshrs.currentResponse ↔ b ∈ s.mshrs.currentResponse ∨ b = e.blockAddr := by
    rw [hm, hready]
    simp
  refine ⟨hm ▸ h.mshrs.markReady hnot hmshrs, hq ▸ h.queue, h.ids.sublist (hsub.map _), ?_, ?_, ?_, ?_, ?_⟩
  · intro v hv
    rw [hmade]
    exact h.made v (hsub.subset hv)
  · intro i e' hex
    obtain ⟨hi, hex⟩ := hold hex
    obtain ⟨v, hv, hvid, hread⟩ := h.sent i e' hex
    refine ⟨v, ?_, hvid, hread⟩
    unfold outstanding at hv ⊢
    rw [hq, hb]
    rcases List.mem_append.mp hv with hv | hv
    · exact List.mem_append_left _ hv
    · exact List.mem_append_right _ (List.mem_filter.mpr ⟨hv, by simpa [hvid] using hi⟩)
  · intro i e' hex
    obtain ⟨hi, hex⟩ := hold hex
    obtain ⟨hin, hnr⟩ := h.waits i e' hex
    rw [hcur, hm, hready]
    refine ⟨hin, not_or.mpr ⟨hnr, ?_⟩⟩
    exact fun hbb => hi (h.unique i id e' hex e hextra hbb)
  · intro i j e₁ hi e₂ hj
    exact h.unique i j e₁ (hold hi).2 e₂ (hold hj).2
  · intro b hin hnr
    rw [hcur, not_or] at hnr
    rw [hm, hready] at hin
    obtain ⟨i, e', hex, hbb⟩ := h.asked b hin hnr.1
    refine ⟨i, e', ?_, hbb⟩
    rw [he]
    have hi : i ≠ id := by
      rintro rfl
      cases hextra.symm.trans hex
      exact hnr.2 hbb.symm
    rw [update_of_ne hi]
    exact hex

/-- A ready entry hands its accesses out one by one. -/
theorem Pending.nextAccess (h : Pending cfg s) {mshrs : MshrTable}
    (hn : s.mshrs.nextAccess = .ok (mf, mshrs)) (hm : t.mshrs = mshrs)
    (he : t.extraMfFields = s.extraMfFields) (hq : t.missQueue = s.missQueue) (hb : t.below = s.below)
    (hmade : t.made = s.made) : Pending cfg t := by
  have hout : t.outstanding = s.outstanding := by
    unfold outstanding
    rw [hq, hb]
  -- blocks that are not ready are not touched
  have hkeep {b : Nat} : b ∈ t.mshrs.blocks ∧ b ∉ t.mshrs.currentResponse ↔
      b ∈ s.mshrs.blocks ∧ b ∉ s.mshrs.currentResponse := hm ▸ h.mshrs.waiting_nextAccess hn
  refine ⟨hm ▸ h.mshrs.nextAccess hn, hq ▸ h.queue, hout ▸ h.ids, ?_, ?_, ?_, ?_, ?_⟩
  · rw [hout, hmade]
    exact h.made
  · rw [he, hout]
    exact h.sent
  · intro id e hex
    rw [he] at hex
    exact hkeep.mpr (h.waits id e hex)
  · rw [he]
    exact h.unique
  · intro b' hin hnr
    rw [he]
    obtain ⟨hin, hnr⟩ := hkeep.mp ⟨hin, hnr⟩
    exact h.asked b' hin hnr

theorem Pending.step (h : Pending cfg s) (hs : Stepped kind cfg s a t) : Pending cfg t := by
  cases hs with
  | @access addr r time c status hans =>
    exact (h.asked_request r).answers (Nat.lt_succ_self _) h.request_free hans rfl rfl rfl rfl rfl
  | idle => exact h
  | sent hqueue => exact h.sentOn hqueue
  | fill hextra hbelow htags hmshrs hlines => exact h.fill hextra hmshrs rfl rfl rfl rfl rfl
  | nextAccess hn => exact h.nextAccess hn rfl rfl rfl rfl rfl

theorem pending_of_reachable {ok : BaselineCache → Act → Prop}
    (h : (machine kind cfg).ReachableUnder ok s) : Pending cfg s :=
  h.invariant Pending.init fun _ _ _ hi _ hs => hi.step (step_ok hs)

end GpgpuSimRuby.Cache.BaselineCache
