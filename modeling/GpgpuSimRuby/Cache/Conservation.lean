import GpgpuSimRuby.Cache.Pending

/-!
# Misses are answered once

Every access that misses waits in one entry of the MSHRs until `next_access` hands it out. A record of
what happened to each block keeps the books: what has waited is what was returned, followed by what is
still in the entry.
-/

namespace GpgpuSimRuby.Cache

open Library

/-! ## Books -/

namespace Entry

/-- The accesses that have waited for a block, in order. -/
def waited (b : Nat) : List Entry → List MemFetch
  | [] => []
  | .waits b' mf :: t => if b' = b then waited b t ++ [mf] else waited b t
  | _ :: t => waited b t

def returnedOf (b : Nat) : List Entry → List MemFetch
  | [] => []
  | .returned b' mf :: t => if b' = b then returnedOf b t ++ [mf] else returnedOf b t
  | _ :: t => returnedOf b t

/-- How often a block was asked for, and filled. -/
def requests (b : Nat) (t : List Entry) : Nat := t.count (.requested b)

def fills (b : Nat) (t : List Entry) : Nat := t.count (.filled b)

/-- Accesses were returned only when every request for their block had had its fill. -/
def Timely : List Entry → Prop
  | [] => True
  | .returned b _ :: t => Timely t ∧ 0 < fills b t ∧ fills b t = requests b t
  | _ :: t => Timely t

theorem mem_waited {b : Nat} {mf : MemFetch} {t : List Entry} : mf ∈ waited b t ↔ .waits b mf ∈ t := by
  induction t with
  | nil => simp [waited]
  | cons e t ih =>
    cases e with
    | waits b' mf' =>
      simp only [waited]
      split
      · next hb =>
        subst hb
        simp [ih, or_comm]
      · next hb => simp [ih, Ne.symm hb]
    | _ => simp [waited, ih]

theorem count_returnedOf {b : Nat} {mf : MemFetch} {t : List Entry} :
    (returnedOf b t).count mf = t.count (.returned b mf) := by
  induction t with
  | nil => rfl
  | cons e t ih =>
    cases e with
    | returned b' mf' =>
      simp only [returnedOf, List.count_cons]
      split
      · next hb =>
        subst hb
        simp [ih, List.count_singleton]
      · next hb => simp [ih, hb]
    | _ => simp [returnedOf, ih]

end Entry

open Entry

namespace BaselineCache

/-- Where the merge limit is zero, no read is taken. -/
def WithinMergeLimit (kind : Kind) (cfg : CacheConfig) (s : BaselineCache) : Act → Prop
  | .access addr r _ => cfg.mshrMaxMerge = 0 → ¬ Accepts kind cfg s addr r.isWrite
  | _ => True

instance decidableWithinMergeLimit (kind : Kind) (cfg : CacheConfig) (s : BaselineCache) :
    ∀ a, Decidable (WithinMergeLimit kind cfg s a)
  | .access addr r _ => inferInstanceAs (Decidable (_ → ¬ Accepts kind cfg s addr r.isWrite))
  | .cycle _ => .isTrue trivial
  | .fill _ _ => .isTrue trivial
  | .nextAccess => .isTrue trivial

/-- The books of a cache. -/
structure Books (s : BaselineCache) : Prop where
  ledger : ∀ b, waited b s.record = returnedOf b s.record ++ (s.mshrs.entry b).list
  made : ∀ b mf, .waits b mf ∈ s.record → mf.id < s.made
  nodup : ∀ b, (waited b s.record).Nodup
  requests : ∀ b, requests b s.record = fills b s.record +
    if b ∈ s.mshrs.blocks ∧ b ∉ s.mshrs.currentResponse then 1 else 0
  present : ∀ b ∈ s.mshrs.blocks, 0 < Entry.requests b s.record
  timely : Timely s.record
  answered : ∀ b mf, .answered b mf .miss ∈ s.record → mf.isWrite = false → .waits b mf ∈ s.record

variable {kind : Kind} {cfg : CacheConfig} {s t c : BaselineCache} {addr time : Nat}
  {mf w : MemFetch} {pre wbs : List MemFetch} {a : Act} {r : Request} {status : CacheRequestStatus}
variable {lines : Lines} {mshrs : MshrTable}

theorem Books.init : Books {} where
  ledger _ := rfl
  made b mf h := by cases h
  nodup _ := List.nodup_nil
  requests b := by simp [Entry.requests, Entry.fills]
  present b h := by cases h
  timely := trivial
  answered b mf h := by cases h

theorem Books.quiet (h : Books s) (hstatus : status = .miss → mf.isWrite = true)
    (hrec : t.record = .answered addr mf status :: s.record) (hm : t.mshrs = s.mshrs)
    (hmade : s.made ≤ t.made) : Books t where
  ledger b := by
    rw [hrec, hm]
    exact h.ledger b
  made b v hv := by
    rw [hrec] at hv
    rcases List.mem_cons.mp hv with hv | hv
    · cases hv
    · exact (h.made b v hv).trans_le hmade
  nodup b := by
    rw [hrec]
    exact h.nodup b
  requests b := by
    rw [hrec, hm]
    simpa [Entry.requests, Entry.fills, List.count_cons] using h.requests b
  present b hb := by
    rw [hm] at hb
    rw [hrec]
    simpa [Entry.requests, List.count_cons] using h.present b hb
  timely := by
    rw [hrec]
    exact h.timely
  answered b v hv hread := by
    rw [hrec] at hv ⊢
    rcases List.mem_cons.mp hv with hv | hv
    · cases hv
      rw [hstatus rfl] at hread
      cases hread
    · exact List.mem_cons_of_mem _ (h.answered b v hv hread)

theorem Books.misses {acc : Lines.Accessed} (h : Books s) (hp : Pending cfg s)
    (hmiss : Misses kind cfg (s.asked r) addr time (s.requestMf r) w pre wbs acc c)
    (hrec : t.record = .answered (cfg.blockAddr addr) (s.requestMf r) .miss :: c.record)
    (hm : t.mshrs = c.mshrs) (hmade : t.made = c.made) : Books t := by
  have hadd : s.mshrs.add cfg (cfg.blockAddr addr) w = .ok t.mshrs := hm ▸ hmiss.add
  obtain ⟨hpush, -, -⟩ := MshrTable.add_ok hadd
  have hblocks {b : Nat} : b ∈ t.mshrs.blocks ↔ b = cfg.blockAddr addr ∨ b ∈ s.mshrs.blocks := by
    rw [hpush]
    exact MshrTable.mem_pushBack
  have hcur : t.mshrs.currentResponse = s.mshrs.currentResponse := by
    rw [hpush]
    rfl
  have hnew : s.made ≤ w.id ∧ w.id < c.made := by
    obtain ⟨hlt, rfl | hle⟩ := (hmiss.ids (Nat.lt_succ_self _)).2 w (by simp)
    · exact ⟨le_rfl, hlt⟩
    · exact ⟨Nat.le_of_succ_le hle, hlt⟩
  have hle : s.made ≤ t.made := hmade ▸ (hnew.1.trans hnew.2.le)
  generalize hblk : cfg.blockAddr addr = blk at *
  obtain ⟨reqs, hreqs, hrecord⟩ : ∃ reqs, (reqs = [] ∧ blk ∈ s.mshrs.blocks ∨
      reqs = [.requested blk] ∧ blk ∉ s.mshrs.blocks) ∧
      t.record = .answered blk (s.requestMf r) .miss :: (reqs ++ .waits blk w :: s.record) := by
    have hcr := hmiss.record
    rw [hblk] at hcr
    split at hcr
    · next hprobe =>
      exact ⟨[], .inl ⟨rfl, MshrTable.probe_iff.mp hprobe⟩, by rw [hrec, hcr]; rfl⟩
    · next hprobe =>
      exact ⟨[.requested blk], .inr ⟨rfl, fun hb => hprobe (MshrTable.probe_iff.mpr hb)⟩,
        by rw [hrec, hcr]; rfl⟩
  have hwaited (b : Nat) : waited b t.record =
      if blk = b then waited b s.record ++ [w] else waited b s.record := by
    rw [hrecord]
    rcases hreqs with ⟨rfl, -⟩ | ⟨rfl, -⟩ <;> rfl
  have hreturned (b : Nat) : returnedOf b t.record = returnedOf b s.record := by
    rw [hrecord]
    rcases hreqs with ⟨rfl, -⟩ | ⟨rfl, -⟩ <;> rfl
  have hfills (b : Nat) : fills b t.record = fills b s.record := by
    rw [hrecord]
    rcases hreqs with ⟨rfl, -⟩ | ⟨rfl, -⟩ <;> simp [fills]
  have hcount (b : Nat) : Entry.requests b t.record =
      Entry.requests b s.record + if blk = b ∧ blk ∉ s.mshrs.blocks then 1 else 0 := by
    rw [hrecord]
    rcases hreqs with ⟨rfl, hin⟩ | ⟨rfl, hin⟩
    · simp [Entry.requests, hin]
    · simp [Entry.requests, hin, List.count_cons]
  refine ⟨?_, ?_, ?_, ?_, ?_, ?_, ?_⟩
  · intro b
    rw [hwaited, hreturned, hpush]
    split
    · next hb =>
      subst hb
      rw [MshrTable.pushBack_self, h.ledger, List.append_assoc]
    · next hb => rw [MshrTable.pushBack_of_ne (Ne.symm hb), h.ledger]
  · intro b v hv
    rw [← mem_waited, hwaited] at hv
    split at hv
    · rcases List.mem_append.mp hv with hv | hv
      · exact (h.made b v (mem_waited.mp hv)).trans_le hle
      · rw [List.mem_singleton.mp hv, hmade]
        exact hnew.2
    · exact (h.made b v (mem_waited.mp hv)).trans_le hle
  · intro b
    rw [hwaited]
    split
    · refine List.nodup_append.mpr ⟨h.nodup b, List.nodup_singleton w, ?_⟩
      rintro v hv _ hw rfl
      rw [List.mem_singleton.mp hw] at hv
      exact absurd (h.made b w (mem_waited.mp hv)) (Nat.not_lt.mpr hnew.1)
    · exact h.nodup b
  · intro b
    have hold := h.requests b
    rw [hcount, hfills, hold, hcur]
    by_cases hb : blk = b
    · subst hb
      have hready : blk ∉ s.mshrs.blocks → blk ∉ s.mshrs.currentResponse :=
        fun hnot hin => hnot (hp.mshrs.response _ hin)
      by_cases hin : blk ∈ s.mshrs.blocks
      · simp [hblocks, hin]
      · simp [hblocks, hin, hready hin]
    · simp [hblocks, hb, Ne.symm hb]
  · intro b hb
    rw [hcount]
    rcases hblocks.mp hb with rfl | hb
    · by_cases hin : b ∈ s.mshrs.blocks
      · exact Nat.add_pos_left (h.present b hin) _
      · simp [hin]
    · exact Nat.add_pos_left (h.present b hb) _
  · rw [hrecord]
    rcases hreqs with ⟨rfl, -⟩ | ⟨rfl, -⟩ <;> exact h.timely
  · intro b v hv hread
    rw [← mem_waited, hwaited]
    have hv' : v = s.requestMf r ∧ b = blk ∨ .answered b v .miss ∈ s.record := by
      rw [hrecord] at hv
      rcases hreqs with ⟨rfl, -⟩ | ⟨rfl, -⟩ <;> simpa [and_comm] using hv
    rcases hv' with ⟨rfl, rfl⟩ | hv
    · rw [if_pos rfl]
      rcases hmiss.waiter with ⟨rfl, -, -⟩ | ⟨-, -, hw⟩
      · simp
      · rw [hread] at hw
        cases hw
    · have hin := mem_waited.mpr (h.answered b v hv hread)
      split
      · exact List.mem_append_left _ hin
      · exact hin

theorem Books.fill (h : Books s) (hp : Pending cfg s) {id : Nat} {e : ExtraMfFields}
    (hextra : s.extraMfFields id = some e)
    (hmshrs : s.mshrs.markReady e.blockAddr = .ok mshrs) (hm : t.mshrs = mshrs)
    (hrec : t.record = .filled e.blockAddr :: s.record) (hmade : t.made = s.made) : Books t := by
  obtain ⟨hin, hnot⟩ := hp.waits id e hextra
  obtain ⟨hready, -⟩ := MshrTable.markReady_ok hmshrs
  subst hm
  have hrequests (b : Nat) : Entry.requests b t.record = Entry.requests b s.record := by
    rw [hrec]
    simp [Entry.requests]
  refine ⟨?_, ?_, ?_, ?_, ?_, ?_, ?_⟩
  · intro b
    rw [hrec, hready]
    exact h.ledger b
  · intro b v hv
    rw [hrec] at hv
    rw [hmade]
    rcases List.mem_cons.mp hv with hv | hv
    · cases hv
    · exact h.made b v hv
  · intro b
    rw [hrec]
    exact h.nodup b
  · intro b
    rw [hrequests, h.requests, hready, hrec]
    by_cases hb : b = e.blockAddr
    · subst hb
      simp [fills, hin, hnot]
    · simp [fills, Ne.symm hb, hb]
  · intro b hb
    rw [hready] at hb
    rw [hrequests]
    exact h.present b hb
  · rw [hrec]
    exact h.timely
  · intro b v hv hread
    rw [hrec] at hv ⊢
    rcases List.mem_cons.mp hv with hv | hv
    · cases hv
    · exact List.mem_cons_of_mem _ (h.answered b v hv hread)

theorem entry_nextAccess (hn : s.mshrs.nextAccess = .ok (mf, mshrs)) (b : Nat) :
    (s.mshrs.entry b).list =
      if s.responding = b then mf :: (mshrs.entry b).list else (mshrs.entry b).list := by
  obtain ⟨b', rest, tail, hcur, hl, rfl⟩ := MshrTable.nextAccess_ok hn
  have hresp : s.responding = b' := by rw [responding, hcur]; rfl
  rw [hresp]
  by_cases hb : b' = b
  · subst hb
    rw [if_pos rfl, hl]
    split
    · next hrest =>
      subst hrest
      rw [MshrTable.release_self]
    · rw [MshrTable.setEntry_self]
  · rw [if_neg hb]
    split
    · rw [MshrTable.release_of_ne (Ne.symm hb)]
    · rw [MshrTable.setEntry_of_ne (Ne.symm hb)]

theorem Books.nextAccess (h : Books s) (hp : Pending cfg s)
    (hn : s.mshrs.nextAccess = .ok (mf, mshrs)) (hm : t.mshrs = mshrs)
    (hrec : t.record = .returned s.responding mf :: s.record) (hmade : t.made = s.made) : Books t := by
  have hready : s.responding ∈ s.mshrs.currentResponse := by
    obtain ⟨b', rest, tail, hcur, -, -⟩ := MshrTable.nextAccess_ok hn
    rw [responding, hcur]
    exact List.mem_cons_self
  have hin := hp.mshrs.response _ hready
  subst hm
  have hfills (b : Nat) : fills b t.record = fills b s.record := by
    rw [hrec]
    simp [fills]
  have hrequests (b : Nat) : Entry.requests b t.record = Entry.requests b s.record := by
    rw [hrec]
    simp [Entry.requests]
  refine ⟨?_, ?_, ?_, ?_, ?_, ?_, ?_⟩
  · intro b
    have hold := h.ledger b
    rw [entry_nextAccess hn b] at hold
    rw [hrec]
    show waited b s.record = (if s.responding = b then returnedOf b s.record ++ [mf]
      else returnedOf b s.record) ++ _
    rw [hold]
    split
    · rw [List.append_assoc, List.singleton_append]
    · rfl
  · intro b v hv
    rw [hrec] at hv
    rw [hmade]
    rcases List.mem_cons.mp hv with hv | hv
    · cases hv
    · exact h.made b v hv
  · intro b
    rw [hrec]
    exact h.nodup b
  · intro b
    rw [hrequests, hfills, h.requests]
    simp only [hp.mshrs.waiting_nextAccess hn]
  · intro b hb
    rw [hrequests]
    exact h.present b (MshrTable.blocks_nextAccess hn hb)
  · rw [hrec]
    have hcount := h.requests s.responding
    rw [if_neg fun hno => hno.2 hready, Nat.add_zero] at hcount
    exact ⟨h.timely, hcount ▸ h.present _ hin, hcount.symm⟩
  · intro b v hv hread
    rw [hrec] at hv ⊢
    rcases List.mem_cons.mp hv with hv | hv
    · cases hv
    · exact List.mem_cons_of_mem _ (h.answered b v hv hread)

theorem Books.step (h : Books s) (hp : Pending cfg s) (hs : Stepped kind cfg s a t) : Books t := by
  cases hs with
  | access hans =>
    generalize hs' : s.asked _ = s' at hans
    cases hans with
    | quiet hsent hchange hstatus =>
      subst hs'
      exact h.quiet hstatus rfl rfl (Nat.le_succ _)
    | missed hmiss =>
      subst hs'
      exact h.misses hp hmiss rfl rfl rfl
  | idle => exact h
  | sent hqueue => exact ⟨h.ledger, h.made, h.nodup, h.requests, h.present, h.timely, h.answered⟩
  | fill hextra hbelow htags hmshrs hlines => exact h.fill hp hextra hmshrs rfl rfl rfl
  | nextAccess hn => exact h.nextAccess hp hn rfl rfl rfl

theorem books_of_reachable {ok : BaselineCache → Act → Prop}
    (h : (machine kind cfg).ReachableUnder ok s) : Books s := by
  induction h with
  | init => exact Books.init
  | step hs _ ht ih => exact ih.step (pending_of_reachable hs) (step_ok ht)

/-! ## Assertions -/

theorem avoids_probe : Avoids Fault.isMshr (Lines.probe cfg lines addr) := by
  unfold Lines.probe
  split
  · exact .ok
  · split
    · exact .bind (.assert rfl) fun _ _ => .ok
    · split
      · exact .ok
      · exact .ok
      · exact .error rfl

theorem avoids_access : Avoids Fault.isMshr (Lines.access cfg lines addr time) := by
  refine .bind avoids_probe fun p _ => ?_
  cases p with
  | miss index =>
    dsimp only
    split <;> exact .ok
  | hit index => exact .ok
  | hitReserved index => exact .ok
  | reservationFail => exact .ok

theorem avoids_accessClean : Avoids Fault.isMshr (Lines.accessClean cfg lines addr time) :=
  .bind avoids_access fun _ _ => .bind (.assert rfl) fun _ _ => .ok

theorem avoids_fillTags {e : ExtraMfFields} : Avoids Fault.isMshr (s.fillTags cfg e time) := by
  have hline {lines : Lines} {index : Nat} : Avoids Fault.isMshr (Lines.fillLine lines index) :=
    .bind (.assert rfl) fun _ _ => .ok
  unfold fillTags
  split
  · exact .bind (.assert rfl) fun _ _ => hline
  · refine .bind (.assert rfl) fun _ _ => .bind avoids_probe fun p _ => ?_
    cases p with
    | miss index => exact hline
    | hit index => exact .error rfl
    | hitReserved index => exact .error rfl
    | reservationFail => exact .error rfl

section Access

variable (hs : s.mshrs.Sound cfg)

include hs in
theorem avoids_sendReadRequest {index b : Nat} {readOnly wa : Bool}
    (hlimit : s.mshrs.full cfg b = false → 0 < cfg.mshrMaxMerge) :
    Avoids Fault.isMshr (s.sendReadRequest cfg b index w time readOnly wa) := by
  have htags : Avoids Fault.isMshr (s.tagAccess cfg readOnly b time) := by
    unfold tagAccess
    split
    · exact avoids_accessClean
    · exact avoids_access
  have hadd (hfull : s.mshrs.full cfg b = false) : Avoids Fault.isMshr (s.mshrs.add cfg b w) :=
    fun e he => absurd he (hs.add_ne_error hfull (hlimit hfull))
  unfold sendReadRequest
  dsimp only
  split
  · next hc =>
    have hfull : s.mshrs.full cfg b = false := by simpa using (Bool.and_eq_true_iff.mp hc).2
    exact .bind htags fun _ _ => .bind (hadd hfull) fun _ _ => .ok
  · split
    · next hc =>
      obtain ⟨⟨-, hfull⟩, -⟩ : (s.mshrs.probe b = false ∧ s.mshrs.full cfg b = false) ∧ _ := by
        simpa using hc
      exact .bind htags fun _ _ => .bind (hadd hfull) fun _ _ => .ok
    · exact .ok

theorem avoids_wrHit {index : Nat} : Avoids Fault.isMshr (s.wrHit cfg addr index mf time) := by
  have hwb : Avoids Fault.isMshr (s.wrHitWb cfg addr index time) :=
    .bind avoids_accessClean fun _ _ => .ok
  have hwe : Avoids Fault.isMshr (s.wrHitWe cfg index mf) := by
    unfold wrHitWe
    split <;> exact .ok
  unfold wrHit
  split
  · exact .error rfl
  · exact hwb
  · unfold wrHitWt
    split
    · exact .ok
    · exact .bind avoids_accessClean fun _ _ => .ok
  · exact hwe
  · unfold wrHitGlobalWeLocalWb
    split
    · exact hwe
    · exact hwb

theorem avoids_rdHitBase {index : Nat} : Avoids Fault.isMshr (s.rdHitBase cfg addr index mf time) := by
  refine .bind avoids_accessClean fun a _ => ?_
  split
  · exact .bind (.assert rfl) fun _ _ => .ok
  · exact .ok

variable {index : Nat}
  (hp : Lines.probe cfg s.lines (cfg.blockAddr addr) = .ok (.miss index) ∨
    Lines.probe cfg s.lines (cfg.blockAddr addr) = .ok (.hitReserved index))
  (hlimit : Accepts kind cfg s addr mf.isWrite → 0 < cfg.mshrMaxMerge)

include hp hlimit in
theorem limit_of_room (hqueue : s.missQueueFull cfg (missRoom kind mf.isWrite) = false)
    (halloc : mf.isWrite = true → cfg.writeAllocPolicy = .writeAllocate)
    (hfull : s.mshrs.full cfg (cfg.blockAddr addr) = false) : 0 < cfg.mshrMaxMerge :=
  hlimit ⟨halloc, hqueue, hfull, probeStatus_of_probe hp⟩

include hs hp in
theorem avoids_rdMissBase (hw : mf.isWrite = false)
    (hlimit : Accepts .dataCache cfg s addr mf.isWrite → 0 < cfg.mshrMaxMerge) :
    Avoids Fault.isMshr (s.rdMissBase cfg addr index mf time) := by
  unfold rdMissBase
  split
  · exact .ok
  · next hqueue =>
    refine .bind (avoids_sendReadRequest hs ?_) fun _ _ => .ok
    apply limit_of_room hp hlimit
    · rw [hw]
      exact Bool.eq_false_of_not_eq_true hqueue
    · simp [hw]

include hs hp in
theorem avoids_wrMiss (hw : mf.isWrite = true)
    (hlimit : Accepts .dataCache cfg s addr mf.isWrite → 0 < cfg.mshrMaxMerge) :
    Avoids Fault.isMshr (s.wrMiss cfg addr index mf time) := by
  unfold wrMiss
  split
  · next halloc =>
    unfold wrMissWa
    dsimp only
    split
    · exact .ok
    · next hguard =>
      obtain ⟨hqueue, -⟩ := Bool.or_eq_false_iff.mp (Bool.eq_false_of_not_eq_true hguard)
      have hs' : ((s.sendWriteRequest mf .writeRequestSent).allocMf
          (s.dataSize mf.id)).mshrs.Sound cfg := hs
      have hpos : s.mshrs.full cfg (cfg.blockAddr addr) = false → 0 < cfg.mshrMaxMerge :=
        limit_of_room hp hlimit (by rw [hw]; exact hqueue) fun _ => halloc
      exact .bind (avoids_sendReadRequest hs' hpos) fun _ _ => .ok
  · unfold wrMissNoWa
    split <;> exact .ok

include hs hp in
theorem avoids_missReadOnly (hw : mf.isWrite = false)
    (hlimit : Accepts .readOnlyCache cfg s addr mf.isWrite → 0 < cfg.mshrMaxMerge) :
    Avoids Fault.isMshr (if s.missQueueFull cfg 0 then .ok (s, CacheRequestStatus.reservationFail)
      else s.sendReadRequest cfg (cfg.blockAddr addr) index mf time true false >>= fun r =>
        .ok (r.cache, if r.doMiss then .miss else .reservationFail)) := by
  split
  · exact .ok
  · next hqueue =>
    refine .bind (avoids_sendReadRequest hs ?_) fun _ _ => .ok
    apply limit_of_room hp hlimit
    · exact Bool.eq_false_of_not_eq_true hqueue
    · simp [hw]

include hs hp in
theorem avoids_missData (hlimit : Accepts .dataCache cfg s addr mf.isWrite → 0 < cfg.mshrMaxMerge) :
    Avoids Fault.isMshr (if mf.isWrite then s.wrMiss cfg addr index mf time
      else s.rdMissBase cfg addr index mf time) := by
  split
  · next hw => exact avoids_wrMiss hs hp hw hlimit
  · next hw => exact avoids_rdMissBase hs hp (Bool.eq_false_of_not_eq_true hw) hlimit

end Access

theorem avoids_access_mshr (hs : s.mshrs.Sound cfg)
    (hlimit : Accepts kind cfg s addr mf.isWrite → 0 < cfg.mshrMaxMerge) :
    Avoids Fault.isMshr (s.access cfg addr mf time kind) := by
  cases kind with
  | readOnlyCache =>
    refine .bind (.assert rfl) fun _ _ => .bind (.assert rfl) fun _ _ => .bind (.assert rfl) fun _ hw => ?_
    have hw : mf.isWrite = false := assert_eq_ok.mp hw
    refine .bind avoids_probe fun p hp => ?_
    cases p with
    | hit index => exact .bind avoids_accessClean fun _ _ => .ok
    | reservationFail => exact .ok
    | miss index => exact avoids_missReadOnly hs (.inl hp) hw hlimit
    | hitReserved index => exact avoids_missReadOnly hs (.inr hp) hw hlimit
  | dataCache =>
    refine .bind (.assert rfl) fun _ _ => .bind avoids_probe fun p hp => ?_
    cases p with
    | hit index =>
      dsimp only
      split
      · exact avoids_wrHit
      · exact avoids_rdHitBase
    | reservationFail => exact .ok
    | miss index => exact avoids_missData hs (.inl hp) hlimit
    | hitReserved index => exact avoids_missData hs (.inr hp) hlimit

theorem Pending.step_not_mshr (h : Pending cfg s) (hok : WithinMergeLimit kind cfg s a) {e : Fault}
    (hs : BaselineCache.step kind cfg s a = some (.error e)) : e.isMshr = false := by
  cases a with
  | access addr r time =>
    have hlimit : Accepts kind cfg (s.asked r) addr (s.requestMf r).isWrite → 0 < cfg.mshrMaxMerge :=
      fun hacc => Nat.pos_of_ne_zero fun hzero => hok hzero hacc
    exact (avoids_access_mshr (s := s.asked r) h.mshrs hlimit).map e (Option.some.inj hs)
  | cycle full => cases hs
  | fill id time =>
    simp only [BaselineCache.step] at hs
    split at hs
    · refine Avoids.map ?_ e (Option.some.inj hs)
      unfold BaselineCache.fill
      split
      · exact .error rfl
      · next x hex =>
        obtain ⟨hin, hnot⟩ := h.waits id x hex
        refine .bind avoids_fillTags fun _ _ => .bind ?_ fun _ _ => .bind (.assert rfl) fun _ _ => .ok
        exact fun e he => absurd he (h.mshrs.markReady_ne_error hin hnot)
    · cases hs
  | nextAccess =>
    simp only [BaselineCache.step] at hs
    split at hs
    · next hready =>
      rcases bind_eq_error.mp (Option.some.inj hs) with he | ⟨_, _, he⟩
      · exact absurd he (h.mshrs.nextAccess_ne_error hready)
      · cases he
    · cases hs

/-! ## Draining -/

/-- The accesses that can be handed out, in order. -/
def ready (s : BaselineCache) : List (Nat × MemFetch) :=
  s.mshrs.currentResponse.flatMap fun b => (s.mshrs.entry b).list.map fun mf => (b, mf)

theorem ready_nextAccess (hs : s.mshrs.Sound cfg)
    (hn : s.mshrs.nextAccess = .ok (mf, mshrs)) (hm : t.mshrs = mshrs) :
    s.ready = (s.responding, mf) :: t.ready := by
  obtain ⟨b, rest, tail, hcur, hl, rfl⟩ := MshrTable.nextAccess_ok hn
  have hready : (b :: tail).Nodup := hcur ▸ hs.ready
  have hne {b' : Nat} (hb : b' ∈ tail) : b' ≠ b := fun h => (List.nodup_cons.mp hready).1 (h ▸ hb)
  have htail (m : MshrTable) (hold : ∀ b' ∈ tail, m.entry b' = s.mshrs.entry b') :
      (tail.flatMap fun b => (m.entry b).list.map fun mf => (b, mf)) =
        tail.flatMap fun b => (s.mshrs.entry b).list.map fun mf => (b, mf) :=
    List.flatMap_congr fun b' hb' => by rw [hold b' hb']
  have hresp : s.responding = b := by
    rw [responding, hcur]
    rfl
  unfold ready
  rw [hresp, hcur, List.flatMap_cons, hl, hm, List.map_cons, List.cons_append]
  congr 1
  split
  · next hrest =>
    have hcur' : (s.mshrs.release b).currentResponse = tail := by
      show s.mshrs.currentResponse.tail = tail
      rw [hcur, List.tail_cons]
    rw [hcur', htail _ fun b' hb' => MshrTable.release_of_ne (hne hb'), hrest]
    rfl
  · rw [MshrTable.setEntry_currentResponse, hcur, List.flatMap_cons, MshrTable.setEntry_self,
      htail _ fun b' hb' => MshrTable.setEntry_of_ne (hne hb')]

/-- **Draining.** Calling `next_access` once for each access that is ready hands all of them out, in
order. -/
theorem drains (kind : Kind) (hs : s.mshrs.Sound cfg) :
    ∃ t, (machine kind cfg).run (List.replicate s.ready.length .nextAccess) s = some t ∧
      t.ready = [] ∧ t.record = (s.ready.map fun x => Entry.returned x.1 x.2).reverse ++ s.record := by
  generalize hr : s.ready = l
  induction l generalizing s with
  | nil => exact ⟨s, rfl, hr, rfl⟩
  | cons x l ih =>
    have hready : s.mshrs.accessReady = true := by
      cases hcur : s.mshrs.currentResponse with
      | nil =>
        rw [ready, hcur] at hr
        cases hr
      | cons b tail => simp [MshrTable.accessReady, hcur]
    cases hn : s.mshrs.nextAccess with
    | error e => exact absurd hn (hs.nextAccess_ne_error hready)
    | ok p =>
      obtain ⟨mf, mshrs⟩ := p
      generalize ht : { s with mshrs, record := Entry.returned s.responding mf :: s.record } = t
      have hmt : t.mshrs = mshrs := by rw [← ht]
      have hstep : (machine kind cfg).step s .nextAccess = some (.ok t) := by
        show (if s.mshrs.accessReady then some s.nextAccess else none) = _
        rw [if_pos hready, BaselineCache.nextAccess, hn, ← ht]
        rfl
      obtain ⟨rfl, hl⟩ := List.cons.inj (hr.symm.trans (ready_nextAccess hs hn hmt))
      obtain ⟨u, hu, hdone, hrec⟩ := ih (hmt ▸ hs.nextAccess hn) hl.symm
      refine ⟨u, ?_, hdone, ?_⟩
      · rw [List.length_cons, List.replicate_succ]
        simp only [Machine.run, hstep]
        exact hu
      · rw [hrec, ← ht, List.map_cons, List.reverse_cons, List.append_assoc]
        rfl

/-! ## Every miss is answered once -/

/-- An access that missed and waits for the block `b` is returned once the block is filled: if the block
is not ready, a request for it is on its way; if it is, `next_access` hands the access out. -/
def ComesBack (kind : Kind) (cfg : CacheConfig) (s : BaselineCache) (b : Nat) (mf : MemFetch) : Prop :=
  (b ∉ s.mshrs.currentResponse → ∃ v ∈ s.outstanding, ∃ e ∈ s.extraMfFields v.id, e.blockAddr = b) ∧
  (b ∈ s.mshrs.currentResponse → ∃ n t,
    (machine kind cfg).run (List.replicate n .nextAccess) s = some t ∧ .returned b mf ∈ t.record)

theorem Pending.comesBack (h : Pending cfg s) {b : Nat} (hmf : mf ∈ (s.mshrs.entry b).list) :
    ComesBack kind cfg s b mf := by
  have hin : b ∈ s.mshrs.blocks := by
    by_contra hnot
    rw [h.mshrs.absent b hnot] at hmf
    cases hmf
  constructor
  · intro hnot
    obtain ⟨id, e, hex, hblock⟩ := h.asked b hin hnot
    obtain ⟨v, hv, rfl, -⟩ := h.sent id e hex
    exact ⟨v, hv, e, hex, hblock⟩
  · intro hready
    obtain ⟨t, ht, -, hrec⟩ := drains kind h.mshrs
    refine ⟨_, t, ht, ?_⟩
    rw [hrec]
    refine List.mem_append_left _ (List.mem_reverse.mpr (List.mem_map.mpr ⟨(b, mf), ?_, rfl⟩))
    exact List.mem_flatMap.mpr ⟨b, hready, List.mem_map.mpr ⟨mf, hmf, rfl⟩⟩

theorem Books.once (h : Books s) {b : Nat} (hmiss : .answered b mf .miss ∈ s.record)
    (hread : mf.isWrite = false) : s.record.count (.returned b mf) + (s.mshrs.entry b).list.count mf = 1 := by
  have hwait : mf ∈ waited b s.record := mem_waited.mpr (h.answered b mf hmiss hread)
  have hone := List.count_eq_one_of_mem (h.nodup b) hwait
  rwa [h.ledger, List.count_append, count_returnedOf] at hone

/-- **Conservation.** As long as no read is taken where the merge limit is zero, the MSHRs trip no
assertion, the miss queue keeps its limit, and every read that missed is returned exactly once,
after the fill of its block: until then it waits for its block, which comes, and then it is handed
out. -/
theorem misses_conserved (h : (machine kind cfg).ReachableUnder (WithinMergeLimit kind cfg) s) :
    (∀ a e, WithinMergeLimit kind cfg s a → step kind cfg s a = some (.error e) → e.isMshr = false) ∧
    s.missQueue.length ≤ cfg.missQueueSize ∧
    Timely s.record ∧
    ∀ b mf, .answered b mf .miss ∈ s.record → mf.isWrite = false →
      s.record.count (.returned b mf) + (s.mshrs.entry b).list.count mf = 1 ∧
        (mf ∈ (s.mshrs.entry b).list → ComesBack kind cfg s b mf) := by
  have hp := pending_of_reachable h
  have hb := books_of_reachable h
  refine ⟨fun a e hok he => hp.step_not_mshr hok he, hp.queue, hb.timely, ?_⟩
  intro b mf hmiss hread
  exact ⟨hb.once hmiss hread, hp.comesBack⟩

/-- A read that missed and was handed out. -/
theorem misses_conserved_read : ∃ s mf, (machine .dataCache (oneLine .onMiss)).Reachable s ∧
    .returned 0 mf ∈ s.record ∧ s.record.count (.returned 0 mf) + (s.mshrs.entry 0).list.count mf = 1 := by
  obtain ⟨s, -, hs, hrec⟩ := (machine .dataCache (oneLine .onMiss)).exists_reachableUnder_of_run
    (WithinMergeLimit .dataCache (oneLine .onMiss))
    [.access 0 (readOf 0) 1, .cycle false, .fill 0 2, .nextAccess] (·.record) (by decide)
    (by decide : _ = some [.returned 0 ⟨0, 0, .globalAccR, false, false⟩, .filled 0,
      .answered 0 ⟨0, 0, .globalAccR, false, false⟩ .miss, .requested 0,
      .waits 0 ⟨0, 0, .globalAccR, false, false⟩])
  exact ⟨s, _, hs.reachable, by rw [hrec]; exact List.mem_cons_self,
    ((misses_conserved hs).2.2.2 0 ⟨0, 0, .globalAccR, false, false⟩ (by simp [hrec]) rfl).1⟩

/-- With a merge limit of zero, `full` lets the first read of a block pass, and `add` asserts. -/
theorem not_misses_conserved :
    ∃ cfg s a e, (machine .dataCache cfg).Reachable s ∧ step .dataCache cfg s a = some (.error e) ∧
      e.isMshr = true :=
  ⟨{ oneLine .onMiss with mshrMaxMerge := 0 }, {}, .access 0 (readOf 0) 1, .mshrMerged, .init, rfl, rfl⟩

end BaselineCache

end GpgpuSimRuby.Cache
