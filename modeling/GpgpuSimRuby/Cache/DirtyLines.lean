import GpgpuSimRuby.Cache.Accesses

/-!
# Dirty lines

A modified line leaves that state when another block takes its place, or when a write evicts it. An
access that replaces it writes it back; a fill that replaces it does not: `tag_array::fill` of an
address allocates like `tag_array::access`, but keeps no record of the block that it evicts.
-/

namespace GpgpuSimRuby.Cache.BaselineCache

open Library

/-! ## What is asked of a step -/

/-- What a step puts into the miss queue. -/
def issued (s t : BaselineCache) : List MemFetch := t.missQueue.drop s.missQueue.length

/-- A write-back that the cache has made itself after the state `s`. -/
def IsWriteBack (s : BaselineCache) (w : MemFetch) : Prop :=
  s.made < w.id ∧ w.isWrite = true ∧ (w.accessType = .l1WrbkAcc ∨ w.accessType = .l2WrbkAcc)

instance decidableIsWriteBack (s : BaselineCache) (w : MemFetch) : Decidable (s.IsWriteBack w) :=
  inferInstanceAs (Decidable (_ ∧ _))

def writeBacks (s t : BaselineCache) : List MemFetch := (s.issued t).filter fun w => s.IsWriteBack w

/-- The line is modified and does not stay so for its block. -/
def Leaves (s t : BaselineCache) (index : Nat) : Prop :=
  (s.lines index).status = .modified ∧
    ((t.lines index).status ≠ .modified ∨ (t.lines index).blockAddr ≠ (s.lines index).blockAddr)

/-- The step sends the write of an access to the block. -/
def WritesThrough (cfg : CacheConfig) (s : BaselineCache) (a : Act) (t : BaselineCache) (block : Nat) :
    Prop :=
  ∃ addr r time, a = .access addr r time ∧ r.isWrite = true ∧ cfg.blockAddr addr = block ∧
    s.requestMf r ∈ s.issued t

/-- A line leaves the modified state with one write-back of its block, or with a write of the block
that is sent on; nothing else is written back. -/
structure DirtyKept (cfg : CacheConfig) (s : BaselineCache) (a : Act) (t : BaselineCache) : Prop where
  kept : ∀ index, s.Leaves t index →
    (s.writeBacks t).map (·.addr) = [(s.lines index).blockAddr] ∨
      s.WritesThrough cfg a t (s.lines index).blockAddr
  only : ∀ w ∈ s.writeBacks t, ∃ index, s.Leaves t index ∧ w.addr = (s.lines index).blockAddr

/-- The step does not fill a block, allocating on fill, into the place of a modified line; and a write
that evicts the line it hits finds its own block there. -/
def KeepsDirty (cfg : CacheConfig) (s : BaselineCache) : Act → Prop
  | .access addr r _ => r.isWrite = true → WriteEvicts cfg r.accessType →
      s.missQueueFull cfg 0 = false → ∀ index,
      Lines.probe cfg s.lines (cfg.blockAddr addr) = .ok (.hit index) →
      (s.lines index).status = .modified → (s.lines index).blockAddr = cfg.blockAddr addr
  | .fill id _ => cfg.allocPolicy = .onFill → ∀ e ∈ s.extraMfFields id, ∀ index,
      Lines.probe cfg s.lines e.blockAddr = .ok (.miss index) → (s.lines index).status ≠ .modified
  | .cycle _ | .nextAccess => True

variable {kind : Kind} {cfg : CacheConfig} {s t c : BaselineCache} {addr time index : Nat}
  {mf : MemFetch} {a : Act} {r : Request}

/-! ## Steps that change no line -/

theorem not_leaves_of_lines (h : t.lines index = s.lines index) : ¬ s.Leaves t index := by
  rintro ⟨hm, hne | hne⟩
  · exact hne (h ▸ hm)
  · exact hne (by rw [h])

theorem dirtyKept_of_quiet (hlines : ∀ index, ¬ s.Leaves t index) (hwb : s.writeBacks t = []) :
    DirtyKept cfg s a t where
  kept index h := absurd h (hlines index)
  only w hw := by
    rw [hwb] at hw
    cases hw

theorem writeBacks_of_missQueue (h : t.missQueue = s.missQueue) : s.writeBacks t = [] := by
  simp [writeBacks, issued, h]

theorem dirtyKept_of_same (hlines : t.lines = s.lines) (hqueue : t.missQueue = s.missQueue) :
    DirtyKept cfg s a t :=
  dirtyKept_of_quiet (fun _ => not_leaves_of_lines (by rw [hlines])) (writeBacks_of_missQueue hqueue)

/-! ## Fills -/

theorem dirtyKept_fill {id : Nat} {e : ExtraMfFields} {lines lines' : Lines}
    (hextra : s.extraMfFields id = some e) (htags : s.fillTags cfg e time = .ok lines)
    (hlines : lines' = lines ∨ cfg.allocPolicy = .onMiss ∧
      lines' = Lines.setStatus lines e.cacheIndex .modified)
    (ht : t.lines = lines') (hqueue : t.missQueue = s.missQueue) :
    DirtyKept cfg s (.fill id time) t ↔ KeepsDirty cfg s (.fill id time) := by
  have hwb : s.writeBacks t = [] := writeBacks_of_missQueue hqueue
  unfold fillTags at htags
  split at htags
  · next hpol =>
    obtain ⟨_, -, hfill⟩ := bind_eq_ok.mp htags
    obtain ⟨hres, rfl⟩ := Lines.fillLine_ok hfill
    have hkeeps : KeepsDirty cfg s (.fill id time) := fun h => by rw [hpol] at h; cases h
    refine iff_of_true (dirtyKept_of_quiet ?_ hwb) hkeeps
    intro index hleaves
    by_cases hi : index = e.cacheIndex
    · rw [hi] at hleaves
      have hm := hleaves.1
      rw [hres] at hm
      cases hm
    · refine not_leaves_of_lines ?_ hleaves
      rw [ht]
      rcases hlines with rfl | ⟨-, rfl⟩
      · exact Lines.setStatus_of_ne hi
      · exact (Lines.setStatus_of_ne hi).trans (Lines.setStatus_of_ne hi)
  · next hpol =>
    obtain ⟨index, hp, rfl⟩ := Lines.fillAddr_ok htags
    have hfinal : t.lines = Lines.setStatus (Lines.allocate cfg s.lines index e.blockAddr time) index
        .valid := by
      rcases hlines with hl | ⟨hmiss, -⟩
      · exact ht.trans hl
      · rw [hpol] at hmiss
        cases hmiss
    have hstatus : (t.lines index).status = .valid := by
      rw [hfinal, Lines.setStatus_self]
    constructor
    · intro hkept _ e' he' index' hp' hm
      cases hextra.symm.trans he'
      cases hp.symm.trans hp'
      have hleaves : s.Leaves t index := ⟨hm, .inl (by rw [hstatus]; exact fun h => by cases h)⟩
      rcases hkept.kept index hleaves with h | ⟨_, _, _, h, -⟩
      · rw [hwb] at h
        cases h
      · cases h
    · intro hkeeps
      refine dirtyKept_of_quiet ?_ hwb
      intro i hleaves
      by_cases hi : i = index
      · rw [hi] at hleaves
        exact hkeeps hpol e hextra index hp hleaves.1
      · refine not_leaves_of_lines ?_ hleaves
        rw [hfinal]
        exact (Lines.setStatus_of_ne hi).trans (Lines.setLine_of_ne hi)

/-! ## Accesses -/

section Access

variable {pre wbs : List MemFetch} {w : MemFetch} {r : Request} {acc : Lines.Accessed}

theorem writeBacks_of_misses (hmf : mf = s.requestMf r)
    (h : Misses kind cfg (s.asked r) addr time mf w pre wbs acc c) (ht : t.missQueue = c.missQueue) :
    s.writeBacks t = wbs := by
  have hpre : ∀ v ∈ pre, ¬ s.IsWriteBack v := by
    intro v hv hback
    have hvm : v = mf := by
      rcases h.waiter with ⟨-, rfl, -⟩ | ⟨-, rfl, -⟩
      · cases hv
      · exact List.mem_singleton.mp hv
    rw [hvm, hmf] at hback
    exact Nat.lt_irrefl s.made hback.1
  have hw : ¬ s.IsWriteBack w := by
    intro hback
    rcases h.waiter with ⟨rfl, -, hwr⟩ | ⟨rfl, -, -⟩
    · rw [hback.2.1] at hwr
      cases hwr
    · cases hback.2.1
  have hwbs : ∀ v ∈ wbs, s.IsWriteBack v := by
    obtain ⟨accessType, htype, rfl⟩ := h.writeBack
    intro v hv
    obtain ⟨e, -, rfl⟩ := List.mem_map.mp hv
    refine ⟨?_, rfl, htype⟩
    show s.made < s.made + 1 + pre.length
    omega
  have hq : s.issued t = pre ++ if s.mshrs.probe (cfg.blockAddr addr) then wbs else w :: wbs := by
    unfold issued
    rw [ht, h.missQueue]
    exact List.drop_left
  have hfilter : wbs.filter (fun w => s.IsWriteBack w) = wbs :=
    List.filter_eq_self.mpr fun v hv => decide_eq_true (hwbs v hv)
  unfold writeBacks
  rw [hq, List.filter_append, List.filter_eq_nil_iff.mpr fun v hv => by simpa using hpre v hv,
    List.nil_append]
  split
  · exact hfilter
  · rw [List.filter_cons_of_neg (by simpa using hw), hfilter]

theorem dirtyKept_misses (hpol : cfg.writePolicy ≠ .writeThrough) (hmf : mf = s.requestMf r)
    (h : Misses kind cfg (s.asked r) addr time mf w pre wbs acc c) (ht : t.missQueue = c.missQueue)
    (hl : t.lines = c.lines) : DirtyKept cfg s a t := by
  have hback := writeBacks_of_misses hmf h ht
  obtain ⟨accessType, -, hwbs⟩ := h.writeBack
  have hnone (hev : acc.evicted = none) : s.writeBacks t = [] := by
    rw [hback, hwbs, hev]
    rfl
  have hlines : t.lines = acc.lines := hl.trans h.lines
  have hsame {index : Nat} {line : CacheBlock} (hset : acc.lines = Lines.setLine s.lines index line)
      (hline : (s.lines index).status = .modified → line.status = .modified ∧
        line.blockAddr = (s.lines index).blockAddr) (i : Nat) : ¬ s.Leaves t i := by
    by_cases hi : i = index
    · rintro ⟨hm, hne⟩
      rw [hi] at hm hne
      rw [hlines, hset, Lines.setLine_self] at hne
      exact hne.elim (fun h => h (hline hm).1) (fun h => h (hline hm).2)
    · apply not_leaves_of_lines
      rw [hlines, hset, Lines.setLine_of_ne hi]
  obtain ⟨-, hans⟩ := Lines.access_ok h.tags
  obtain ⟨index, hfound | hfound⟩ := h.found
  · rw [hfound] at hans
    unfold Lines.Answered at hans
    dsimp only at hans
    split at hans
    · obtain ⟨hset, hev⟩ := hans
      by_cases hm : (s.lines index).status = .modified
      · have hev : acc.evicted = some (s.lines index) := hev.trans (if_pos hm)
        have hmap : (s.writeBacks t).map (·.addr) = [(s.lines index).blockAddr] := by
          rw [hback, hwbs, hev]
          simp [Option.filter, hpol]
        have hleaves : s.Leaves t index := by
          refine ⟨hm, .inl ?_⟩
          rw [hlines, hset, Lines.allocate, Lines.setLine_self]
          exact fun h => by cases h
        constructor
        · intro i hi
          by_cases hii : i = index
          · rw [hii]
            exact .inl hmap
          · refine absurd hi (not_leaves_of_lines ?_)
            rw [hlines, hset]
            exact Lines.setLine_of_ne hii
        · intro v hv
          refine ⟨index, hleaves, ?_⟩
          have hmem : v.addr ∈ (s.writeBacks t).map (·.addr) := List.mem_map_of_mem hv
          rw [hmap] at hmem
          exact List.mem_singleton.mp hmem
      · refine dirtyKept_of_quiet (hsame hset ?_) (hnone (hev.trans (if_neg hm)))
        exact fun h => absurd h hm
    · obtain ⟨hset, hev⟩ := hans
      refine dirtyKept_of_quiet (fun i => not_leaves_of_lines ?_) (hnone hev)
      rw [hlines, hset]
      rfl
  · rw [hfound] at hans
    obtain ⟨hset, hev⟩ := hans
    exact dirtyKept_of_quiet (hsame hset fun hm => ⟨hm, rfl⟩) (hnone hev)

theorem writeBacks_of_sent {sent : List MemFetch} (hmf : mf = s.requestMf r)
    (hsent : ∀ v ∈ sent, v = mf) (ht : t.missQueue = s.missQueue ++ sent) : s.writeBacks t = [] := by
  unfold writeBacks issued
  rw [ht, List.drop_left, List.filter_eq_nil_iff]
  intro v hv hback
  rw [hsent v hv, hmf] at hback
  exact Nat.lt_irrefl s.made (of_decide_eq_true hback).1

/-- An access that is no accepted miss keeps the dirty lines, if it evicts only lines of its block. -/
theorem dirtyKept_quiet {sent : List MemFetch} {lines : Lines} (hmf : mf = s.requestMf r)
    (hsent : sent = [] ∨ sent = [mf] ∧ mf.isWrite = true ∧ s.missQueue.length < cfg.missQueueSize)
    (hchange : HitChange cfg s.lines addr mf sent lines) (hl : t.lines = lines)
    (ht : t.missQueue = s.missQueue ++ sent) (hkeeps : KeepsDirty cfg s (.access addr r time)) :
    DirtyKept cfg s (.access addr r time) t := by
  have hwb : s.writeBacks t = [] := by
    apply writeBacks_of_sent hmf _ ht
    intro v hv
    rcases hsent with rfl | ⟨rfl, -⟩
    · cases hv
    · exact List.mem_singleton.mp hv
  subst hl
  generalize htl : t.lines = lines at hchange
  cases hchange with
  | same => exact dirtyKept_of_quiet (fun _ => not_leaves_of_lines (by rw [htl])) hwb
  | @touch index line hit tag block status =>
    refine dirtyKept_of_quiet ?_ hwb
    intro i hleaves
    by_cases hi : i = index
    · rw [hi] at hleaves
      obtain ⟨hm, hne⟩ := hleaves
      rw [htl, Lines.setLine_self] at hne
      rcases hne with hne | hne
      · exact hne (status.elim (fun h => h.trans hm) id)
      · exact hne block
    · refine not_leaves_of_lines ?_ hleaves
      rw [htl]
      exact Lines.setLine_of_ne hi
  | @evict index hit write policy own =>
    subst hmf
    constructor
    · intro i hleaves
      by_cases hi : i = index
      · have hroom : s.missQueueFull cfg 0 = false := by
          rcases hsent with rfl | ⟨-, -, hroom⟩
          · cases own
          · exact not_missQueueFull.mpr hroom
        refine .inr ⟨addr, r, time, rfl, write, ?_, ?_⟩
        · rw [hi]
          exact (hkeeps write policy hroom index hit (hi ▸ hleaves.1)).symm
        · unfold issued
          rw [ht, List.drop_left, own]
          exact List.mem_singleton_self _
      · refine absurd hleaves (not_leaves_of_lines ?_)
        rw [htl]
        exact Lines.setStatus_of_ne hi
    · intro v hv
      rw [hwb] at hv
      cases hv

theorem access_evicts {status : CacheRequestStatus} (hw : r.isWrite = true)
    (hpol : WriteEvicts cfg r.accessType) (hroom : s.missQueueFull cfg 0 = false)
    (hp : Lines.probe cfg s.lines (cfg.blockAddr addr) = .ok (.hit index))
    (h : (s.asked r).access cfg addr (s.requestMf r) time .dataCache = .ok (c, status)) :
    c.lines = Lines.setStatus s.lines index .invalid ∧ c.missQueue = s.missQueue ++ [s.requestMf r] := by
  obtain ⟨_, -, h⟩ := bind_eq_ok.mp h
  obtain ⟨p, hp', h⟩ := bind_eq_ok.mp h
  cases hp.symm.trans hp'
  have hw' : (s.requestMf r).isWrite = true := hw
  have hwe : (s.asked r).wrHitWe cfg index (s.requestMf r) = .ok (c, status) := by
    simp only [hw', if_true, wrHit] at h
    rcases hpol with hpol | ⟨hpol, hglobal⟩
    · simpa only [hpol] using h
    · simp only [hpol, wrHitGlobalWeLocalWb] at h
      rwa [if_pos (show (s.requestMf r).accessType = .globalAccW from hglobal)] at h
  unfold wrHitWe at hwe
  rw [if_neg (by simpa [missQueueFull, asked, allocMf] using hroom)] at hwe
  cases hwe
  exact ⟨rfl, rfl⟩

theorem keepsDirty_access {status : CacheRequestStatus}
    (h : (s.asked r).access cfg addr (s.requestMf r) time .dataCache = .ok (c, status))
    (hl : t.lines = c.lines) (ht : t.missQueue = c.missQueue)
    (hkept : DirtyKept cfg s (.access addr r time) t) : KeepsDirty cfg s (.access addr r time) := by
  intro hw hpol hroom index hp hm
  obtain ⟨hlines, hqueue⟩ := access_evicts hw hpol hroom hp h
  have hleaves : s.Leaves t index := by
    refine ⟨hm, .inl ?_⟩
    rw [hl, hlines, Lines.setStatus_self]
    exact fun h => by cases h
  rcases hkept.kept index hleaves with hwb | ⟨addr', r', time', ha, -, hblock, -⟩
  · rw [writeBacks_of_sent rfl (fun v hv => List.mem_singleton.mp hv) (ht.trans hqueue)] at hwb
    cases hwb
  · cases ha
    exact hblock.symm

end Access

/-! ## Runs -/

/-- **One step.** A step of a data cache that does not only write through keeps the dirty lines just
when it meets the condition. -/
theorem dirtyKept_step (hpol : cfg.writePolicy ≠ .writeThrough)
    (h : step .dataCache cfg s a = some (.ok t)) : DirtyKept cfg s a t ↔ KeepsDirty cfg s a := by
  cases a with
  | access addr r time =>
    obtain ⟨⟨c, status⟩, hc, rfl⟩ := map_eq_ok.mp (Option.some.inj h)
    refine ⟨keepsDirty_access hc rfl rfl, fun hkeeps => ?_⟩
    cases access_ok hc with
    | quiet hsent hchange hstatus => exact dirtyKept_quiet rfl hsent hchange rfl rfl hkeeps
    | missed hmiss => exact dirtyKept_misses hpol rfl hmiss rfl rfl
  | cycle full =>
    refine iff_of_true ?_ trivial
    cases step_ok h with
    | idle => exact dirtyKept_of_same rfl rfl
    | @sent _ mf rest hqueue =>
      refine dirtyKept_of_quiet (fun _ => not_leaves_of_lines rfl) ?_
      have hnil : rest.drop (mf :: rest).length = [] := List.drop_eq_nil_of_le (Nat.le_succ _)
      rw [writeBacks, issued, hqueue, hnil, List.filter_nil]
  | fill id time =>
    cases step_ok h with
    | fill hextra hbelow htags hmshrs hlines =>
      exact dirtyKept_fill hextra htags hlines rfl rfl
  | nextAccess =>
    refine iff_of_true ?_ trivial
    cases step_ok h with
    | nextAccess => exact dirtyKept_of_same rfl rfl

theorem keepsDirty_of_onMiss (hpol : cfg.writePolicy = .writeBack) (halloc : cfg.allocPolicy = .onMiss) :
    KeepsDirty cfg s a := by
  cases a with
  | access addr r time =>
    rintro - (hevict | ⟨hevict, -⟩)
    · rw [hpol] at hevict
      cases hevict
    · rw [hpol] at hevict
      cases hevict
  | fill id time =>
    intro hfill
    rw [halloc] at hfill
    cases hfill
  | cycle full => trivial
  | nextAccess => trivial

/-- **Dirty data.** In a run of a data cache that writes back, every line that is dirtied leaves the
modified state with exactly one write-back of its block, or with a write of the block that is sent
on, if and only if no fill takes the place of a modified line and no write evicts a modified line of
another block. -/
theorem dirty_kept (cfg : CacheConfig) (hpol : cfg.writePolicy ≠ .writeThrough) (as : List Act) :
    (machine .dataCache cfg).RunKeeps (DirtyKept cfg) as (machine .dataCache cfg).init ↔
      (machine .dataCache cfg).RunKeeps (fun s a _ => KeepsDirty cfg s a) as
        (machine .dataCache cfg).init :=
  Machine.runKeeps_congr (fun _ _ _ h => dirtyKept_step hpol h) as _

/-- Block 0 is read and dirtied, and block 128 asked for. -/
def dirtied : List Act :=
  [.access 0 (readOf 0) 1, .cycle false, .fill 0 2, .nextAccess, .access 0 (writeTo 0) 3,
    .access 128 (readOf 128) 4, .cycle false]

theorem dirty_kept_onMiss : (machine .dataCache (oneLine .onMiss)).RunKeeps
    (DirtyKept (oneLine .onMiss)) (dirtied ++ [.fill 2 5]) (machine .dataCache (oneLine .onMiss)).init :=
  (dirty_kept (oneLine .onMiss) (by decide) _).mpr
    (Machine.runKeeps_of_steps (fun _ _ _ _ => keepsDirty_of_onMiss rfl rfl) _ _)

/-- Allocating on fill, block 128 takes the place of the dirty block 0, which is not written back. -/
theorem not_dirty_kept : ¬ (machine .dataCache (oneLine .onFill)).RunKeeps (DirtyKept (oneLine .onFill))
    (dirtied ++ [.fill 2 5]) (machine .dataCache (oneLine .onFill)).init := by
  intro h
  obtain ⟨s, hs, -, hdirty⟩ := (machine .dataCache (oneLine .onFill)).exists_reachable_of_run dirtied
    (fun s => ((s.lines 0).status, s.missQueue, ((step .dataCache (oneLine .onFill) s
      (.fill 2 5)).bind Except.toOption).map fun t => ((t.lines 0).status, t.missQueue)))
    (by decide : _ = some (.modified, [], some (.valid, [])))
  simp only [Prod.mk.injEq, Option.map_eq_some_iff, Option.bind_eq_some_iff] at hdirty
  obtain ⟨hm, hq, t, ⟨answer, hstep, hanswer⟩, hstatus, hqueue⟩ := hdirty
  cases answer with
  | error e => cases hanswer
  | ok t' =>
    cases hanswer
    have hkept := h.last hs hstep
    have hleaves : s.Leaves t 0 := ⟨hm, .inl (by rw [hstatus]; exact fun h => by cases h)⟩
    rcases hkept.kept 0 hleaves with hwb | ⟨_, _, _, ha, -⟩
    · rw [writeBacks_of_missQueue (hqueue.trans hq.symm)] at hwb
      cases hwb
    · cases ha

end GpgpuSimRuby.Cache.BaselineCache
