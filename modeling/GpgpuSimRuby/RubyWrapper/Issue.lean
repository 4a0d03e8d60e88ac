import GpgpuSimRuby.RubyWrapper.Invariant

/-!
# What an attempt to issue an access does

`is_ready` and `send_request` decide separately, so the two are read together here: `Issued` lists
the ways an attempt can end, each with what `is_ready` has found out.
-/

namespace GpgpuSimRuby.RubyWrapper

open Ruby Library

/-! ## What `is_ready` finds out -/

namespace Sequencer

variable {cfg : Config} {s : Sequencer} {r : Request}

theorem isReady_lt (h : s.isReady cfg r = .ok true) : s.outstandingCount < cfg.numSeqEntries := by
  unfold isReady at h
  split at h
  · cases h
  · omega

theorem isReady_error {e : Assertion} (h : s.isReady cfg r = .error e) : e = .outstandingRequest := by
  unfold isReady at h
  split at h
  · cases h
  split at h
  · cases h
  split at h
  · cases h
  exact (assert_eq_error.mp (bind_return_eq_error.mp h)).2.symm

end Sequencer

namespace MshrTable

variable {cfg : Config} {t : MshrTable} {b : RubyAddr} {isWrite : Bool} {warpId : Nat}

/-- What a hit that is allowed knows about the entry. -/
def Allowed (cfg : Config) (e : Entry) (isWrite : Bool) (warpId : Nat) : Prop :=
  (cfg.writesStallAtMshr = true → isWrite = true → e.writeset ≠ 0) ∧
    (cfg.writesStallAtMshr = false → isWrite = false → warpId ∈ e.writeset →
      e.writeAfterRead = false) ∧
    (cfg.singleWritePerWarp = true → warpId ∉ e.writeset)

theorem accessAllowed_spec (cfg : Config) (isWrite : Bool) (warpId : Nat) (h : b ∈ t.data) :
    ∃ allowed reason, t.accessAllowed cfg b isWrite warpId = .ok (allowed, reason) ∧
      (allowed = false → reason ≠ .rubyNoStall) ∧
      (allowed = true → Allowed cfg (t.entry b) isWrite warpId) := by
  unfold accessAllowed
  rw [assert_pos h, ok_bind]
  simp only
  split
  · exact ⟨_, _, rfl, by simp, by simp⟩
  next hsingle =>
  have hsingle : cfg.singleWritePerWarp = true → warpId ∉ (t.entry b).writeset :=
    fun hs hmem => hsingle ⟨hs, hmem⟩
  split
  · next hstall =>
    split
    · exact ⟨_, _, rfl, by simp, by simp⟩
    · next hw =>
      refine ⟨_, _, rfl, by simp, fun _ => ⟨fun _ hwrite h₀ => hw ⟨hwrite, h₀⟩, ?_, hsingle⟩⟩
      intro hns
      rw [hstall] at hns
      cases hns
  · next hstall =>
    split
    · exact ⟨_, _, rfl, by simp, by simp⟩
    · next hr =>
      refine ⟨_, _, rfl, by simp, fun _ => ⟨fun hs => absurd hs hstall, ?_, hsingle⟩⟩
      intro _ hread hmem
      by_contra hflag
      exact hr ⟨by simp [hread], hmem, by simpa using hflag⟩

end MshrTable

namespace Core

variable {cfg : Config} {c : Core} {mf : MemFetch}

/-- What `is_ready` guarantees when it says yes. -/
structure Ready (cfg : Config) (c : Core) (mf : MemFetch) : Prop where
  unknown : mf.isMembar = true ∨ mf.Bypasses cfg ∨ mf.blockAddr ∉ c.mshr.data →
    c.sequencer.outstandingCount < cfg.numSeqEntries
  miss : mf.isMembar = false → ¬ mf.Bypasses cfg → mf.blockAddr ∉ c.mshr.data →
    c.mshr.size < cfg.mshrCount
  room : mf.isMembar = false → ¬ mf.Bypasses cfg → mf.blockAddr ∈ c.mshr.data →
    (c.mshr.entry mf.blockAddr).list.length < cfg.mshrSize
  allowed : mf.isMembar = false → ¬ mf.Bypasses cfg → mf.blockAddr ∈ c.mshr.data →
    MshrTable.Allowed cfg (c.mshr.entry mf.blockAddr) mf.modifies mf.wid

theorem isReady_ready (h : c.isReady cfg mf = .ok true) : c.Ready cfg mf := by
  unfold isReady at h
  split at h
  · next hm =>
    have hlt := Sequencer.isReady_lt h
    exact ⟨fun _ => hlt, fun hn => by simp [hm] at hn, fun hn => by simp [hm] at hn,
      fun hn => by simp [hm] at hn⟩
  next hm =>
  obtain ⟨_, -, h⟩ := bind_eq_ok.mp h
  split at h
  · next hb =>
    have hlt := Sequencer.isReady_lt h
    exact ⟨fun _ => hlt, fun _ hn => absurd hb hn, fun _ hn => absurd hb hn,
      fun _ hn => absurd hb hn⟩
  next hb =>
  split at h
  · next hp =>
    have hmem : mf.blockAddr ∈ c.mshr.data := by simpa [MshrTable.probe] using hp
    obtain ⟨allowed, reason, ha, -, hallowed⟩ :=
      MshrTable.accessAllowed_spec cfg mf.modifies mf.wid hmem
    rw [ha, ok_bind] at h
    obtain ⟨_, -, h⟩ := bind_eq_ok.mp h
    simp only [Except.ok.injEq, Bool.and_eq_true, Bool.not_eq_true'] at h
    refine ⟨fun hu => ?_, fun _ _ hn => absurd hmem hn, fun _ _ _ => ?_, fun _ _ _ => hallowed h.2⟩
    · rcases hu with hu | hu | hu
      · exact absurd hu hm
      · exact absurd hu hb
      · exact absurd hmem hu
    · simpa [MshrTable.full, hmem] using h.1
  · next hp =>
    have hmem : mf.blockAddr ∉ c.mshr.data := by simpa [MshrTable.probe] using hp
    obtain ⟨ready, hr, h⟩ := bind_eq_ok.mp h
    simp only [Except.ok.injEq, Bool.and_eq_true, Bool.not_eq_true'] at h
    obtain ⟨rfl, hfull⟩ := h
    exact ⟨fun _ => Sequencer.isReady_lt hr, fun _ _ _ => by simpa [MshrTable.full, hmem] using hfull,
      fun _ _ hn => absurd hn hmem, fun _ _ hn => absurd hn hmem⟩

theorem isReady_error {e : Assertion} (h : c.isReady cfg mf = .error e) : e.ofTable = false := by
  unfold isReady at h
  split at h
  · rw [Sequencer.isReady_error h]
    rfl
  rcases bind_eq_error.mp h with h | ⟨_, -, h⟩
  · rw [← (assert_eq_error.mp h).2]
    rfl
  split at h
  · rw [Sequencer.isReady_error h]
    rfl
  split at h
  · next hp =>
    have hmem : mf.blockAddr ∈ c.mshr.data := by simpa [MshrTable.probe] using hp
    obtain ⟨allowed, reason, ha, -, -⟩ :=
      MshrTable.accessAllowed_spec cfg mf.modifies mf.wid hmem
    rw [ha, ok_bind] at h
    have h := bind_return_eq_error.mp h
    rw [← (assert_eq_error.mp h).2]
    rfl
  · have h := bind_return_eq_error.mp h
    rw [Sequencer.isReady_error h]
    rfl

end Core

/-! ## What `send_request` does -/

namespace World

variable (cfg : Config) (w : World) (access : Access)

/-- The `mem_fetch` of the attempt. -/
def alloc : MemFetch := { access with uid := w.core.nextUid }

/-- The core after the allocation. -/
def allocated : Core := { w.core with nextUid := w.core.nextUid + 1 }

/-- The entry of the block after it has taken the access. -/
def taken (mf : MemFetch) : MshrTable :=
  w.core.mshr.set mf.blockAddr ((w.core.mshr.entry mf.blockAddr).take cfg mf.modifies mf)

/-- How an attempt to issue an access ends. -/
inductive Issued : World → Prop
  | notReady : Issued { w with core := w.allocated }
  | fence (hm : (w.alloc access).isMembar = true) :
      Issued ⟨{ w.allocated with memfences := w.core.memfences ++ [access.wid] },
        .accepted (w.alloc access) .fence :: w.trace⟩
  | bypass (hm : (w.alloc access).isMembar = false) (hb : (w.alloc access).Bypasses cfg)
      (hready : w.core.Ready cfg (w.alloc access)) :
      Issued ⟨{ w.allocated with
          sequencer := w.core.sequencer.put cfg (w.alloc access).request },
        .accepted (w.alloc access) .bypass :: w.trace⟩
  | skipWrite (hm : (w.alloc access).isMembar = false) (hb : ¬ (w.alloc access).Bypasses cfg)
      (hw : (w.alloc access).modifies = true) (hmode : cfg.writesStallAtMshr = false)
      (hsize : (w.taken cfg (w.alloc access)).size ≤ cfg.mshrCount)
      (hready : w.core.Ready cfg (w.alloc access)) :
      Issued ⟨{ w.allocated with
          sequencer := w.core.sequencer.put cfg (w.alloc access).request
          mshr := w.taken cfg (w.alloc access) },
        .accepted (w.alloc access) .skipWrite :: w.trace⟩
  | request (hm : (w.alloc access).isMembar = false) (hb : ¬ (w.alloc access).Bypasses cfg)
      (hmode : (w.alloc access).modifies = true → cfg.writesStallAtMshr = true)
      (hsize : (w.taken cfg (w.alloc access)).size ≤ cfg.mshrCount)
      (hroom : (w.core.mshr.entry (w.alloc access).blockAddr).list.length < cfg.mshrSize)
      (hlist : (w.core.mshr.entry (w.alloc access).blockAddr).list = [])
      (hready : w.core.Ready cfg (w.alloc access)) :
      Issued ⟨{ w.allocated with
          sequencer := w.core.sequencer.put cfg (w.alloc access).request
          mshr := w.taken cfg (w.alloc access) },
        .accepted (w.alloc access) .request :: w.trace⟩
  | merge (hm : (w.alloc access).isMembar = false) (hb : ¬ (w.alloc access).Bypasses cfg)
      (hmode : (w.alloc access).modifies = true → cfg.writesStallAtMshr = true)
      (hsize : (w.taken cfg (w.alloc access)).size ≤ cfg.mshrCount)
      (hroom : (w.core.mshr.entry (w.alloc access).blockAddr).list.length < cfg.mshrSize)
      (hlist : (w.core.mshr.entry (w.alloc access).blockAddr).list ≠ [])
      (hready : w.core.Ready cfg (w.alloc access)) :
      Issued ⟨{ w.allocated with mshr := w.taken cfg (w.alloc access) },
        .accepted (w.alloc access) .merge :: w.trace⟩

variable {cfg w access} {mf : MemFetch}

/-- A block in order is held if and only if it has something queued or a write pending, so without
skipped writes an access finds no entry if and only if nothing is queued. -/
theorem doAccess_eq {b : RubyAddr} (h : BlockInv cfg b (w.view cfg b)) {isWrite : Bool}
    (hmode : isWrite = true → cfg.writesStallAtMshr = true) :
    w.core.mshr.doAccess cfg b isWrite = .ok (decide ((w.core.mshr.entry b).list = [])) := by
  have hheld : b ∈ w.core.mshr.data ↔
      (w.core.mshr.entry b).list ≠ [] ∨ (w.core.mshr.entry b).writeset ≠ 0 := h.held_iff
  have hreads : (w.core.mshr.entry b).readset = warps (readsOf (w.core.mshr.entry b).list) :=
    h.readset
  have hwrites : (w.core.mshr.entry b).writeset =
    warps (writesOf (w.core.mshr.entry b).list) + warps (w.skips cfg b) := h.writeset
  unfold MshrTable.doAccess
  cases hs : cfg.writesStallAtMshr with
  | true =>
    have hskips : w.skips cfg b = 0 := h.skips_stall hs
    rw [if_pos rfl]
    congr 1
    rw [decide_eq_decide, hheld, hwrites, hskips]
    by_cases hl : (w.core.mshr.entry b).list = []
    · simp [hl]
    · simp [hl]
  | false =>
    have hread : isWrite = false := by
      cases isWrite with
      | false => rfl
      | true =>
        rw [hmode rfl] at hs
        cases hs
    have honly : ∀ x ∈ (w.core.mshr.entry b).list, x.modifies = false := h.reads_only hs
    rw [if_neg (by simp), assert_pos hread, ok_bind]
    congr 1
    rw [Bool.eq_iff_iff, Bool.or_eq_true, decide_eq_true_eq, decide_eq_true_eq, decide_eq_true_eq,
      hheld, hreads]
    constructor
    · rintro (hno | h₀)
      · by_contra hl
        exact hno (.inl hl)
      · exact eq_nil_of_readsOf honly h₀
    · intro hl
      right
      rw [hl]
      rfl

section Ready

variable (h : w.Inv cfg) (hm : mf.isMembar = false) (hb : ¬ mf.Bypasses cfg)
  (hready : w.core.Ready cfg mf)
include h hm hb hready

theorem taken_size : (w.taken cfg mf).size ≤ cfg.mshrCount := by
  unfold taken
  by_cases hmem : mf.blockAddr ∈ w.core.mshr.data
  · rw [MshrTable.size_set_of_mem hmem]
    exact h.size
  · rw [MshrTable.size_set_of_not_mem hmem]
    exact hready.miss hm hb hmem

omit h in
theorem room (hcfg : cfg.EntriesHold) : (w.core.mshr.entry mf.blockAddr).list.length < cfg.mshrSize := by
  by_cases hmem : mf.blockAddr ∈ w.core.mshr.data
  · exact hready.room hm hb hmem
  · have hmiss := hready.miss hm hb hmem
    have hseq := hready.unknown (.inr (.inr hmem))
    rw [MshrTable.entry_of_not_mem hmem]
    rcases hcfg with hpos | hzero | hzero
    · exact hpos
    · omega
    · omega

omit h in
theorem addToMshr_write : cfg.writesStallAtMshr = true → mf.modifies = true →
      (w.core.mshr.entry mf.blockAddr).readset = 0 ∧ (w.core.mshr.entry mf.blockAddr).writeset = 0 ∨
        (w.core.mshr.entry mf.blockAddr).writeset ≠ 0 := by
  intro hs hw
  by_cases hmem : mf.blockAddr ∈ w.core.mshr.data
  · exact .inr ((hready.allowed hm hb hmem).1 hs hw)
  · rw [MshrTable.entry_of_not_mem hmem]
    exact .inl ⟨rfl, rfl⟩

theorem addToMshr_eq (hlen : ((w.core.mshr.entry mf.blockAddr).take cfg mf.modifies mf).list.length ≤
      cfg.mshrSize) {c : Core} (hc : c.mshr = w.core.mshr) :
    c.addToMshr cfg mf = .ok { c with mshr := w.taken cfg mf } := by
  have hwrite := addToMshr_write hm hb hready
  have hsize := taken_size h hm hb hready
  unfold taken at hsize
  simp only [Core.addToMshr, MshrTable.add, hc, assert_pos hwrite, assert_pos hsize,
    assert_pos hlen, ok_bind, taken]

theorem addToMshr_full (hmode : mf.modifies = true → cfg.writesStallAtMshr = true)
    (hroom : ¬ (w.core.mshr.entry mf.blockAddr).list.length < cfg.mshrSize) {c : Core}
    (hc : c.mshr = w.core.mshr) : c.addToMshr cfg mf = .error .addMaxMerged := by
  have hwrite := addToMshr_write hm hb hready
  have hsize := taken_size h hm hb hready
  have hlen : ¬ ((w.core.mshr.entry mf.blockAddr).take cfg mf.modifies mf).list.length ≤ cfg.mshrSize := by
    rw [take_list hmode, List.length_append]
    exact hroom
  unfold taken at hsize
  simp only [Core.addToMshr, MshrTable.add, hc, assert_pos hwrite, assert_pos hsize,
    assert_neg hlen, ok_bind, error_bind]

end Ready

theorem alloc_not_mem_skipped (h : w.Inv cfg) : w.alloc access ∉ w.core.sequencer.skipped := by
  intro hmem
  exact absurd (h.fresh _ hmem) (Nat.lt_irrefl _)

theorem address_ne_of_requests {b : RubyAddr} (h : w.requests b = 0) :
    ∀ r ∈ w.core.sequencer.writeRequestTable ++ w.core.sequencer.readRequestTable, r.address ≠ b := by
  intro r hr ha
  unfold requests at h
  rcases List.mem_append.mp hr with hr | hr
  · have : 0 < w.core.sequencer.writeRequestTable.countP (fun r => r.address = b) :=
      List.countP_pos_iff.mpr ⟨r, hr, by simp [ha]⟩
    omega
  · have : 0 < w.core.sequencer.readRequestTable.countP (fun r => r.address = b) :=
      List.countP_pos_iff.mpr ⟨r, hr, by simp [ha]⟩
    omega

theorem makeRequest_eq (h : w.Inv cfg)
    (hfree : ¬ (w.alloc access).request.SkipsL1 cfg → w.requests (w.alloc access).blockAddr = 0) :
    w.allocated.makeRequest cfg (w.alloc access) = (do
      assert ((w.alloc access).blockAddr ≠ 0) .addressZero
      .ok { w.allocated with sequencer := w.core.sequencer.put cfg (w.alloc access).request }) := by
  have heq := Sequencer.makeRequest_eq cfg (r := (w.alloc access).request) h.sequencer.count
    (alloc_not_mem_skipped h) (fun hskip => address_ne_of_requests (hfree hskip))
  unfold Core.makeRequest
  show (do let sequencer ← w.core.sequencer.makeRequest cfg _; _) = _
  rw [heq]
  by_cases ha : (w.alloc access).blockAddr = 0
  · rw [assert_neg (by simpa [MemFetch.request] using ha), assert_neg (by simpa using ha)]
    rfl
  · rw [assert_pos (by simpa [MemFetch.request] using ha), assert_pos (by simpa using ha)]
    rfl

/-- What a computation with an outcome of its own may end in: no assertion of the table stops it,
unless the entries have no room. -/
def Ends (cfg : Config) {α : Type} (x : Except Assertion α) (P : α → Prop) : Prop :=
  (∃ e, x = .error e ∧ (cfg.EntriesHold → e.ofTable = false)) ∨ ∃ a, x = .ok a ∧ P a

theorem Ends.assert_bind {α : Type} {p : Prop} [Decidable p] {e : Assertion}
    {x : Except Assertion α} {P : α → Prop} (he : e.ofTable = false) (hx : p → Ends cfg x P) :
    Ends cfg (do assert p e; x) P := by
  by_cases hp : p
  · rw [assert_pos hp]
    exact hx hp
  · rw [assert_neg hp]
    exact .inl ⟨e, rfl, fun _ => he⟩

theorem Ends.of_ok {α : Type} {a : α} {P : α → Prop} (h : Ends cfg (.ok a) P) : P a := by
  rcases h with ⟨e, he, -⟩ | ⟨a', ha, hp⟩
  · cases he
  · obtain rfl := Except.ok.inj ha
    exact hp

/-- **`send_request`** after `is_ready` has said yes. -/
theorem sendRequest_ends (h : w.Inv cfg) (hready : w.core.Ready cfg (w.alloc access)) :
    Ends cfg (w.allocated.sendRequest cfg (w.alloc access)) fun out =>
      w.Issued cfg access ⟨out.1, .accepted (w.alloc access) out.2 :: w.trace⟩ := by
  unfold Core.sendRequest
  apply Ends.assert_bind rfl
  intro _
  split
  · next hm =>
    apply Ends.assert_bind rfl
    intro _
    exact .inr ⟨_, rfl, .fence hm⟩
  next hm =>
  have hm : (w.alloc access).isMembar = false := by simpa using hm
  split
  · next hb =>
    rw [makeRequest_eq h fun hskip => absurd ((skipsL1_request hm).mpr (.inl hb)) hskip]
    by_cases ha : (w.alloc access).blockAddr = 0
    · rw [assert_neg (by simpa using ha)]
      exact .inl ⟨_, rfl, fun _ => rfl⟩
    · rw [assert_pos ha]
      exact .inr ⟨_, rfl, .bypass hm hb hready⟩
  next hb =>
  have hsize := taken_size h hm hb hready
  split
  · next hskip =>
    obtain ⟨hw, hmode⟩ := hskip
    rw [makeRequest_eq h fun hns => absurd ((skipsL1_request hm).mpr (.inr ⟨hw, hmode⟩)) hns]
    by_cases ha : (w.alloc access).blockAddr = 0
    · rw [assert_neg (by simpa using ha)]
      exact .inl ⟨_, rfl, fun _ => rfl⟩
    · have hlen : ((w.core.mshr.entry (w.alloc access).blockAddr).take cfg
          (w.alloc access).modifies (w.alloc access)).list.length ≤ cfg.mshrSize := by
        rw [take_list_skip hw hmode]
        exact (h.block _).size
      rw [assert_pos ha, ok_bind, ok_bind, addToMshr_eq h hm hb hready hlen]
      · exact .inr ⟨_, rfl, .skipWrite hm hb hw hmode hsize hready⟩
      · rfl
  next hskip =>
  have hmode : (w.alloc access).modifies = true → cfg.writesStallAtMshr = true := by
    intro hw
    by_contra hs
    exact hskip ⟨hw, by simpa using hs⟩
  have hdo : w.allocated.mshr.doAccess cfg (w.alloc access).blockAddr (w.alloc access).modifies =
      .ok (decide ((w.core.mshr.entry (w.alloc access).blockAddr).list = [])) :=
    doAccess_eq (h.block _) hmode
  rw [hdo, ok_bind]
  have hnone : (w.core.mshr.entry (w.alloc access).blockAddr).list = [] →
      w.requests (w.alloc access).blockAddr = 0 := by
    intro hlist
    have := (h.block (w.alloc access).blockAddr).requests
    simpa [view, hlist] using this
  by_cases hroom : (w.core.mshr.entry (w.alloc access).blockAddr).list.length < cfg.mshrSize
  swap
  · have hno : cfg.EntriesHold → (Assertion.addMaxMerged).ofTable = false :=
      fun hcfg => absurd (room hm hb hready hcfg) hroom
    by_cases hlist : (w.core.mshr.entry (w.alloc access).blockAddr).list = []
    · rw [if_pos (by simpa using hlist), makeRequest_eq h fun _ => hnone hlist]
      by_cases ha : (w.alloc access).blockAddr = 0
      · rw [assert_neg (by simpa using ha)]
        exact .inl ⟨_, rfl, fun _ => rfl⟩
      · rw [assert_pos ha, ok_bind, ok_bind, addToMshr_full h hm hb hready hmode hroom]
        · exact .inl ⟨_, rfl, hno⟩
        · rfl
    · rw [if_neg (by simpa using hlist), addToMshr_full h hm hb hready hmode hroom]
      · exact .inl ⟨_, rfl, hno⟩
      · rfl
  have hlen : ((w.core.mshr.entry (w.alloc access).blockAddr).take cfg (w.alloc access).modifies
      (w.alloc access)).list.length ≤ cfg.mshrSize := by
    rw [take_list hmode, List.length_append]
    exact hroom
  by_cases hlist : (w.core.mshr.entry (w.alloc access).blockAddr).list = []
  · rw [if_pos (by simpa using hlist), makeRequest_eq h fun _ => hnone hlist]
    by_cases ha : (w.alloc access).blockAddr = 0
    · rw [assert_neg (by simpa using ha)]
      exact .inl ⟨_, rfl, fun _ => rfl⟩
    · rw [assert_pos ha, ok_bind, ok_bind, addToMshr_eq h hm hb hready hlen]
      · exact .inr ⟨_, rfl, .request hm hb hmode hsize hroom hlist hready⟩
      · rfl
  · rw [if_neg (by simpa using hlist), addToMshr_eq h hm hb hready hlen]
    · exact .inr ⟨_, rfl, .merge hm hb hmode hsize hroom hlist hready⟩
    · rfl

/-- **An attempt to issue an access** ends in one of the listed ways. -/
theorem issue_ends (access : Access) (h : w.Inv cfg) :
    Ends cfg (w.issue cfg access) (w.Issued cfg access) := by
  show Ends cfg (do
    if ← w.allocated.isReady cfg (w.alloc access) then do
      let r ← w.allocated.sendRequest cfg (w.alloc access)
      .ok (⟨r.1, .accepted (w.alloc access) r.2 :: w.trace⟩ : World)
    else .ok (⟨w.allocated, w.trace⟩ : World)) _
  cases hr : w.allocated.isReady cfg (w.alloc access) with
  | error e => exact .inl ⟨e, rfl, fun _ => Core.isReady_error hr⟩
  | ok ready =>
    rw [ok_bind]
    cases ready with
    | false => exact .inr ⟨_, rfl, .notReady⟩
    | true =>
      have hready := Core.isReady_ready hr
      rcases sendRequest_ends h ⟨hready.1, hready.2, hready.3, hready.4⟩ with
        ⟨e, he, hne⟩ | ⟨⟨c, how⟩, hc, hout⟩
      · refine .inl ⟨e, ?_, hne⟩
        rw [if_pos rfl, he]
        rfl
      · refine .inr ⟨_, ?_, hout⟩
        rw [if_pos rfl, hc]
        rfl

/-! ## An access that hits -/

/-- The entry takes an access, when writes skip the MSHRs: there is room, no write of the warp stands
against it, and a read of the warp need not wait for a write. -/
def Admitted (cfg : Config) (w : World) (mf : MemFetch) : Prop :=
  (w.core.mshr.entry mf.blockAddr).list.length < cfg.mshrSize ∧
    ¬ (cfg.singleWritePerWarp = true ∧ mf.wid ∈ (w.core.mshr.entry mf.blockAddr).writeset) ∧
    ¬ (mf.modifies = false ∧ mf.wid ∈ (w.core.mshr.entry mf.blockAddr).writeset ∧
      (w.core.mshr.entry mf.blockAddr).writeAfterRead = true)

instance (mf : MemFetch) : Decidable (w.Admitted cfg mf) := inferInstanceAs (Decidable (_ ∧ _))

theorem isReady_hit (hm : (w.alloc access).isMembar = false)
    (hb : ¬ (w.alloc access).Bypasses cfg) (hmem : (w.alloc access).blockAddr ∈ w.core.mshr.data)
    (hmode : cfg.writesStallAtMshr = false) (hadm : w.Admitted cfg (w.alloc access)) :
    w.allocated.isReady cfg (w.alloc access) = .ok true ∨
      w.allocated.isReady cfg (w.alloc access) = .error .dataSize := by
  obtain ⟨hroom, hsingle, hread⟩ := hadm
  have hmem : (w.alloc access).blockAddr ∈ w.allocated.mshr.data := hmem
  have hallowed : w.allocated.mshr.accessAllowed cfg (w.alloc access).blockAddr
      (w.alloc access).modifies (w.alloc access).wid = .ok (true, .rubyNoStall) := by
    unfold MshrTable.accessAllowed
    rw [assert_pos hmem, ok_bind]
    have hsingle : ¬ (cfg.singleWritePerWarp = true ∧ (w.alloc access).wid ∈
      (w.allocated.mshr.entry (w.alloc access).blockAddr).writeset) := hsingle
    show (if _ then _ else _) = _
    rw [if_neg hsingle, if_neg (by simp [hmode]), if_neg]
    intro h
    exact hread ⟨by simpa using h.1, h.2⟩
  have hspace : w.allocated.mshr.full cfg (w.alloc access).blockAddr = false := by
    unfold MshrTable.full
    rw [if_pos hmem]
    exact decide_eq_false (Nat.not_le.mpr hroom)
  by_cases hdata : (w.alloc access).dataSize ≤ rubyBlockSize.toNat
  · left
    unfold Core.isReady
    rw [if_neg (by simp [hm]), assert_pos hdata, ok_bind, if_neg hb,
      if_pos (show w.allocated.mshr.probe _ = true from decide_eq_true hmem), hallowed, ok_bind,
      hspace]
    rfl
  · right
    unfold Core.isReady
    rw [if_neg (by simp [hm]), assert_neg hdata, error_bind]

theorem accepted_of_ready {t : World} (hinv : w.Inv cfg)
    (hready : w.allocated.isReady cfg (w.alloc access) = .ok true ∨
      w.allocated.isReady cfg (w.alloc access) = .error .dataSize) (hs : w.issue cfg access = .ok t) :
    w.Issued cfg access t ∧ ∃ how, t.trace = .accepted (w.alloc access) how :: w.trace := by
  have hissue : w.issue cfg access = (do
      if ← w.allocated.isReady cfg (w.alloc access) then do
        let r ← w.allocated.sendRequest cfg (w.alloc access)
        .ok (⟨r.1, .accepted (w.alloc access) r.2 :: w.trace⟩ : World)
      else .ok (⟨w.allocated, w.trace⟩ : World)) := rfl
  rcases hready with hready | hready
  · rw [hissue, hready, ok_bind, if_pos rfl] at hs
    have hr := Core.isReady_ready hready
    rcases sendRequest_ends hinv ⟨hr.1, hr.2, hr.3, hr.4⟩ with ⟨e, he, -⟩ | ⟨⟨c, how⟩, hc, hi⟩
    · rw [he] at hs
      cases hs
    · rw [hc, ok_bind] at hs
      obtain rfl := Except.ok.inj hs
      exact ⟨hi, how, rfl⟩
  · rw [hissue, hready] at hs
    cases hs

end World

end GpgpuSimRuby.RubyWrapper
