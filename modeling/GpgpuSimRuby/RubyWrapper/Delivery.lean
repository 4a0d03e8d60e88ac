import GpgpuSimRuby.RubyWrapper.Steps

/-!
# No loss and no duplication

The MSHR table from the outside: what it holds at any time, what it gives back and in which order,
and that it gives everything back once Ruby has answered. All this needs room for one access in an
entry (`Config.EntriesHold`), and nothing else.
-/

namespace GpgpuSimRuby.RubyWrapper

open Ruby Library

namespace World

variable (cfg : Config) (w : World)

/-- The reads of a block that Ruby has been sent and has not answered. -/
def outstandingReads (b : RubyAddr) : Nat :=
  (w.core.sequencer.readRequestTable ++ w.core.sequencer.writeRequestTable ++
    w.core.sequencer.skipL1RequestTable).countP fun r => r.type = .LD ∧ r.address = b

/-- An action that carries something further on its way back. -/
def Completing : Act → Prop
  | .issue _ => False
  | .advanceTime => w.core.callbackQueue ≠ []
  | _ => True

/-- A step that carries something further on its way back. -/
def Completes (t : World) : Prop := ∃ act, w.Completing act ∧ w.step cfg act = some (.ok t)

/-- The steps it takes at most until everything is back. -/
def weight : Nat :=
  2 * w.core.sequencer.totalOutstanding + w.core.callbackQueue.length +
    w.core.skipL1CallbackQueue.length + 2 * w.core.memfences.length +
    w.core.memfenceCallbackQueue.length + ∑ b, (w.core.mshr.entry b).list.length

end World

/-- What the MSHR table promises, over all runs. -/
structure Delivers (cfg : Config) : Prop where
  /-- An entry exists exactly for what is queued or skipped and pending. -/
  held : ∀ w, (machine cfg).Reachable w → ∀ b,
    b ∈ w.core.mshr.data ↔ (w.core.mshr.entry b).list ≠ [] ∨ w.skips cfg b ≠ 0
  /-- A block is ready at most once, with something queued. -/
  ready : ∀ w, (machine cfg).Reachable w → w.core.mshr.currentResponse.Nodup ∧
    ∀ b ∈ w.core.mshr.currentResponse, (w.core.mshr.entry b).list ≠ []
  /-- Ruby works on at most one read of a block. -/
  oneRead : cfg.gmemSkipL1D = false → ∀ w, (machine cfg).Reachable w → ∀ b,
    w.outstandingReads b ≤ 1
  /-- No assertion of the table fails. -/
  asserts : ∀ w, (machine cfg).Reachable w → ∀ act e,
    w.step cfg act = some (.error e) → e.ofTable = false
  /-- An accepted read that does not bypass the table is queued in it. -/
  accepted : ∀ w, (machine cfg).Reachable w → ∀ mf how, .accepted mf how ∈ w.trace →
    mf.isMembar = false → ¬ mf.Bypasses cfg → mf.modifies = false → mf ∈ w.queued mf.blockAddr
  /-- What is queued is returned at most once, in the order of acceptance. -/
  order : ∀ w, (machine cfg).Reachable w → ∀ b, (w.queued b).Nodup ∧
    w.queued b = w.returned b ++ (w.core.mshr.entry b).list
  /-- The steps that bring something back come to an end, … -/
  drains : ∀ w, (machine cfg).Reachable w → Acc (fun t s => s.Completes cfg t) w
  /-- … and then everything has been returned and the table is empty. -/
  drained : ∀ w, (machine cfg).Reachable w → (∀ t, ¬ w.Completes cfg t) → ∀ b,
    w.returned b = w.queued b ∧ b ∉ w.core.mshr.data

namespace World

variable {cfg : Config} {w t : World} {b : RubyAddr} {mf : MemFetch}

/-! ## What the table holds -/

theorem Inv.held_skips (h : w.Inv cfg) (b : RubyAddr) :
    b ∈ w.core.mshr.data ↔ (w.core.mshr.entry b).list ≠ [] ∨ w.skips cfg b ≠ 0 := by
  have hheld : b ∈ w.core.mshr.data ↔
      (w.core.mshr.entry b).list ≠ [] ∨ (w.core.mshr.entry b).writeset ≠ 0 := (h.block b).held_iff
  have hwrites : (w.core.mshr.entry b).writeset =
      warps (writesOf (w.core.mshr.entry b).list) + warps (w.skips cfg b) := (h.block b).writeset
  rw [hheld, hwrites]
  by_cases hl : (w.core.mshr.entry b).list = []
  · simp [hl, warps]
  · simp [hl]

theorem Inv.responses (h : w.Inv cfg) : w.core.mshr.currentResponse.Nodup ∧
    ∀ b ∈ w.core.mshr.currentResponse, (w.core.mshr.entry b).list ≠ [] := by
  constructor
  · rw [List.nodup_iff_count_le_one]
    intro b
    have hle := h.requests_le b
    unfold requests at hle
    omega
  · intro b hb
    apply h.list_ne_nil
    have hpos := List.count_pos_iff.mpr hb
    unfold requests
    omega

theorem Inv.oneRead (h : w.Inv cfg) (hskip : cfg.gmemSkipL1D = false) (b : RubyAddr) :
    w.outstandingReads b ≤ 1 := by
  have hnone : w.core.sequencer.skipL1RequestTable.countP
      (fun r => r.type = .LD ∧ r.address = b) = 0 := by
    rw [List.countP_eq_zero]
    intro r hr
    have hs := h.sequencer.skipL1 r hr
    unfold Request.SkipsL1 at hs
    simp only [hskip, Bool.false_eq_true, and_false, false_or] at hs
    rcases hs.1 with ht | ht <;> simp [ht]
  have hreads : w.core.sequencer.readRequestTable.countP
      (fun r => r.type = .LD ∧ r.address = b) ≤
      w.core.sequencer.readRequestTable.countP fun r => r.address = b := by
    apply List.countP_mono_left
    intro r _ hr
    simp only [decide_eq_true_eq] at hr ⊢
    exact hr.2
  have hwrites : w.core.sequencer.writeRequestTable.countP
      (fun r => r.type = .LD ∧ r.address = b) ≤
      w.core.sequencer.writeRequestTable.countP fun r => r.address = b := by
    apply List.countP_mono_left
    intro r _ hr
    simp only [decide_eq_true_eq] at hr ⊢
    exact hr.2
  have hle := h.requests_le b
  unfold requests at hle
  unfold outstandingReads
  rw [List.countP_append, List.countP_append, hnone]
  omega

/-! ## What has been accepted -/

/-- Every accepted read that does not bypass the table has been queued. -/
def ReadsQueued (cfg : Config) (w : World) : Prop :=
  ∀ mf how, .accepted mf how ∈ w.trace → mf.isMembar = false → ¬ mf.Bypasses cfg →
    mf.modifies = false → how = .request ∨ how = .merge

theorem mem_queued {how : Handling} (h : .accepted mf how ∈ w.trace)
    (hhow : how = .request ∨ how = .merge) : mf ∈ w.queued mf.blockAddr := by
  unfold queued
  rw [List.mem_reverse, List.mem_filterMap]
  refine ⟨_, h, ?_⟩
  rcases hhow with rfl | rfl <;> exact if_pos rfl

theorem ReadsQueued.cons (h : w.ReadsQueued cfg) {c : Core} {e : Event}
    (he : ∀ mf how, e = .accepted mf how → mf.isMembar = false → ¬ mf.Bypasses cfg →
      mf.modifies = false → how = .request ∨ how = .merge) : ReadsQueued cfg ⟨c, e :: w.trace⟩ := by
  intro mf how hmem
  rcases List.mem_cons.mp hmem with heq | hmem
  · exact he mf how heq.symm
  · exact h mf how hmem

theorem ReadsQueued.issued {access : Access} (h : w.ReadsQueued cfg)
    (hi : w.Issued cfg access t) : t.ReadsQueued cfg := by
  cases hi with
  | notReady => exact h
  | fence hm =>
    apply h.cons
    rintro mf how heq hn
    obtain ⟨rfl, rfl⟩ := Event.accepted.inj heq
    rw [hm] at hn
    cases hn
  | bypass hm hb hready =>
    apply h.cons
    rintro mf how heq - hn
    obtain ⟨rfl, rfl⟩ := Event.accepted.inj heq
    exact absurd hb hn
  | skipWrite hm hb hw hmode hsize hready =>
    apply h.cons
    rintro mf how heq - - hn
    obtain ⟨rfl, rfl⟩ := Event.accepted.inj heq
    rw [hw] at hn
    cases hn
  | request hm hb hmode hsize hroom hlist hready =>
    apply h.cons
    rintro mf how heq - - -
    exact .inl (Event.accepted.inj heq).2.symm
  | merge hm hb hmode hsize hroom hlist hready =>
    apply h.cons
    rintro mf how heq - - -
    exact .inr (Event.accepted.inj heq).2.symm

theorem ReadsQueued.moved {act : Act} (h : w.ReadsQueued cfg) (hm : Moved cfg w act t) :
    t.ReadsQueued cfg := by
  cases hm with
  | answered | fenceAnswered | idle | ready | fenceDone => exact h
  | returned => exact h.cons fun _ _ heq => Event.noConfusion heq
  | skippedDone => exact h.cons fun _ _ heq => Event.noConfusion heq

theorem ReadsQueued.of_reachable (h : (machine cfg).Reachable w) : w.ReadsQueued cfg := by
  refine (reachable_induction (P := ReadsQueued cfg) ?_ ?_ h).2
  · intro _ _ hmem
    exact absurd hmem List.not_mem_nil
  · intro s act t hinv hs hstep
    rcases step_cases hinv hstep with ⟨access, -, hi⟩ | hm
    · exact hs.issued hi
    · exact hs.moved hm

/-! ## Everything comes back -/

theorem settled_list {t : MshrTable} {e : Entry}
    (h₀ : e.list = [] → e.writeset = 0 → e.readset = 0) (a : RubyAddr) :
    ((settled t b e).entry a).list = if a = b then e.list else (t.entry a).list := by
  split
  · next hab =>
    subst hab
    exact (settled_entry h₀).1
  · next hab => rw [(settled_of_ne hab).2]

theorem skipped_list (h : w.Inv cfg) (a : RubyAddr) :
    ((if mf.Bypasses cfg then w.core.mshr else settled w.core.mshr mf.blockAddr
      (struck (w.core.mshr.entry mf.blockAddr) mf)).entry a).list =
      (w.core.mshr.entry a).list := by
  split
  · rfl
  · rw [settled_list]
    · split
      · next hab =>
        rw [hab]
        rfl
      · rfl
    · intro hnil _
      have hreads : (w.core.mshr.entry mf.blockAddr).readset =
          warps (readsOf (w.core.mshr.entry mf.blockAddr).list) := (h.block mf.blockAddr).readset
      show (w.core.mshr.entry mf.blockAddr).readset = 0
      rw [hreads, show (w.core.mshr.entry mf.blockAddr).list = [] from hnil]
      rfl

theorem weight_answered {r : Request} (hr : r ∈ w.core.sequencer.tableOf cfg r) :
    (answered cfg w r).weight < w.weight := by
  obtain ⟨hdrop, hpos⟩ := Sequencer.totalOutstanding_drop hr
  by_cases hs : r.SkipsL1 cfg
  · simp only [weight, answered, Core.hitCallback, if_pos hs, hdrop, List.length_append,
      List.length_singleton]
    omega
  · simp only [weight, answered, Core.hitCallback, if_neg hs, hdrop, List.length_append,
      List.length_singleton]
    omega

/-- **Every move** on the way back makes the world lighter. -/
theorem weight_moved (h : w.Inv cfg) {act : Act} (hm : Moved cfg w act t)
    (hc : w.Completing act) : t.weight < w.weight := by
  cases hm with
  | answered _ hr => exact weight_answered hr
  | fenceAnswered hw =>
    have hpos := List.length_pos_of_mem hw
    simp only [weight, List.length_erase_of_mem hw, List.length_append, List.length_singleton]
    omega
  | idle hq => exact absurd hq hc
  | @ready addr q hq =>
    have hsame : ∀ b, ({ w.core.mshr with
        currentResponse := w.core.mshr.currentResponse ++ [addr] } : MshrTable).entry b =
        w.core.mshr.entry b := fun _ => rfl
    simp only [weight, hq, List.length_cons, hsame]
    omega
  | @returned b rs mf l hr hl hb =>
    obtain ⟨-, -, hreads, -⟩ := h.sets_shifted hl
    have hlist := settled_list (t := w.core.mshr) (b := b)
      (e := shifted (w.core.mshr.entry b) l mf) (by
        intro hnil _
        rw [hreads, show l = [] from hnil]
        rfl)
    have hsum : ∑ a, ((popped w.core.mshr b rs l mf).entry a).list.length <
        ∑ a, (w.core.mshr.entry a).list.length := by
      apply Finset.sum_lt_sum
      · intro a _
        rw [show ((popped w.core.mshr b rs l mf).entry a).list = _ from hlist a]
        split
        · next hab =>
          rw [hab, hl]
          exact Nat.le_succ _
        · exact le_rfl
      · refine ⟨b, Finset.mem_univ b, ?_⟩
        rw [show ((popped w.core.mshr b rs l mf).entry b).list = _ from hlist b, if_pos rfl, hl]
        exact Nat.lt_succ_self _
    simp only [weight]
    omega
  | @skippedDone mf q hq =>
    simp only [weight, hq, List.length_cons, skipped_list h]
    omega
  | fenceDone hq =>
    simp only [weight, hq, List.length_cons]
    omega

theorem weight_completes (h : w.Inv cfg) (hc : w.Completes cfg t) : t.weight < w.weight := by
  obtain ⟨act, hact, hs⟩ := hc
  rcases step_cases h hs with ⟨access, rfl, -⟩ | hm
  · exact absurd hact id
  · exact weight_moved h hm hact

/-- **No run of completions goes on for ever.** -/
theorem acc_completes (h : (machine cfg).Reachable w) : Acc (fun t s => s.Completes cfg t) w := by
  induction hn : w.weight using Nat.strong_induction_on generalizing w with
  | _ n ih =>
    apply Acc.intro
    intro t ht
    have hlt := weight_completes (.of_reachable h) ht
    obtain ⟨act, -, hs⟩ := ht
    exact ih t.weight (hn ▸ hlt) (h.step trivial hs) rfl

theorem quiet (h : w.Inv cfg) (hq : ∀ t, ¬ w.Completes cfg t) :
    w.core.sequencer.readRequestTable = [] ∧ w.core.sequencer.writeRequestTable = [] ∧
      w.core.sequencer.skipL1RequestTable = [] ∧ w.core.callbackQueue = [] ∧
      w.core.mshr.currentResponse = [] ∧ w.core.skipL1CallbackQueue = [] := by
  have hstuck : ∀ act r, w.Completing act → w.step cfg act = some r → ∃ e, r = .error e := by
    intro act r hc hs
    cases r with
    | error e => exact ⟨e, rfl⟩
    | ok t => exact absurd ⟨act, hc, hs⟩ (hq t)
  refine ⟨?_, ?_, ?_, ?_, ?_, ?_⟩
  · by_contra hne
    obtain ⟨r, l, hl⟩ := List.exists_cons_of_ne_nil hne
    have hfind : w.core.sequencer.oldestRead r.address = some r := by
      simp [Sequencer.oldestRead, hl]
    obtain ⟨hskip, hmem⟩ := oldestRead_spec h hfind
    obtain ⟨e, he⟩ := hstuck (.readCallback r.address) _ trivial
      (by simp only [step, hfind, Option.map_some]; rfl)
    rw [callback_eq h hskip hmem] at he
    cases he
  · by_contra hne
    obtain ⟨r, l, hl⟩ := List.exists_cons_of_ne_nil hne
    have hfind : w.core.sequencer.oldestWrite r.address = some r := by
      simp [Sequencer.oldestWrite, hl]
    obtain ⟨hskip, hmem⟩ := oldestWrite_spec h hfind
    obtain ⟨e, he⟩ := hstuck (.writeCallback r.address) _ trivial
      (by simp only [step, hfind, Option.map_some]; rfl)
    rw [callback_eq h hskip hmem] at he
    cases he
  · by_contra hne
    obtain ⟨r, l, hl⟩ := List.exists_cons_of_ne_nil hne
    have hfind : w.core.sequencer.skipL1Request r.memfetch = some r := by
      simp [Sequencer.skipL1Request, hl]
    obtain ⟨hskip, hmem⟩ := skipL1Request_spec h hfind
    obtain ⟨e, he⟩ := hstuck (.skipL1Callback r.memfetch) _ trivial
      (by simp only [step, hfind, Option.map_some]; rfl)
    rw [skipL1Callback_eq h hskip hmem] at he
    cases he
  · by_contra hne
    obtain ⟨addr, q, hl⟩ := List.exists_cons_of_ne_nil hne
    obtain ⟨e, he⟩ := hstuck .advanceTime _ hne rfl
    rw [advanceTime_eq h hl] at he
    cases he
  · by_contra hne
    obtain ⟨b, rs, hl⟩ := List.exists_cons_of_ne_nil hne
    obtain ⟨mf, l, hmf, -⟩ := h.head_list hl
    have hready : w.core.mshr.accessReady = true := by simp [MshrTable.accessReady, hl]
    obtain ⟨e, he⟩ := hstuck .writebackMshr _ trivial (by simp only [step, if_pos hready]; rfl)
    rw [nextAccess_eq h hl hmf] at he
    cases he
  · by_contra hne
    obtain ⟨mf, q, hl⟩ := List.exists_cons_of_ne_nil hne
    obtain ⟨e, he⟩ := hstuck .writebackSkipL1 _ trivial (by simp only [step, hl]; rfl)
    rw [writebackSkipL1_eq h hl] at he
    cases he

theorem drained (h : w.Inv cfg) (hq : ∀ t, ¬ w.Completes cfg t)
    (b : RubyAddr) : w.returned b = w.queued b ∧ b ∉ w.core.mshr.data := by
  obtain ⟨hreads, hwrites, hskips, hqueue, hresponses, hskipQueue⟩ := quiet h hq
  have hnone : w.requests b = 0 := by simp [requests, hreads, hwrites, hqueue, hresponses]
  have hskip : w.skips cfg b = 0 := by simp [skips, Sequencer.skipped, hskips, hskipQueue]
  have hlist : (w.core.mshr.entry b).list = [] := by
    have hreq : w.requests b = if (w.core.mshr.entry b).list = [] then 0 else 1 :=
      (h.block b).requests
    by_contra hne
    rw [hnone, if_neg hne] at hreq
    cases hreq
  have horder : w.queued b = w.returned b ++ (w.core.mshr.entry b).list := (h.block b).order
  constructor
  · rw [horder, hlist, List.append_nil]
  · rw [h.held_skips]
    simp [hlist, hskip]

end World

/-! ## The promise -/

theorem delivers_of_entriesHold {cfg : Config} (hcfg : cfg.EntriesHold) : Delivers cfg where
  held _ hw := (World.Inv.of_reachable hw).held_skips
  ready _ hw := (World.Inv.of_reachable hw).responses
  oneRead hskip _ hw := (World.Inv.of_reachable hw).oneRead hskip
  asserts w hw act e hs := by
    rcases World.step_ends (.of_reachable hw) hs with ⟨e', he, hne⟩ | ⟨t, ht, -⟩
    · obtain rfl := Except.error.inj he
      exact hne hcfg
    · cases ht
  accepted _ hw mf how hmem hm hb hr :=
    World.mem_queued hmem (World.ReadsQueued.of_reachable hw mf how hmem hm hb hr)
  order _ hw b := ⟨(World.Inv.of_reachable hw).queuedNodup b,
    ((World.Inv.of_reachable hw).block b).order⟩
  drains _ hw := World.acc_completes hw
  drained _ hw := World.drained (.of_reachable hw)

/-- A read of local memory. -/
def localRead : Access where
  addr := 128#64
  dataSize := 4
  wid := 0
  isWrite := false
  isAtomic := false
  isMembar := false
  space := .local

/-- The `mem_fetch` of the first attempt to issue it. -/
def firstFetch : MemFetch := { localRead with uid := 1 }

theorem add_init {cfg : Config} (hsize : cfg.mshrSize = 0) (hcount : 1 ≤ cfg.mshrCount)
    {b : RubyAddr} {mf : MemFetch} : MshrTable.init.add cfg b false mf = .error .addMaxMerged := by
  have hentries : (MshrTable.init.set b ((MshrTable.init.entry b).take cfg false mf)).size ≤
      cfg.mshrCount := by
    rw [MshrTable.size_set_of_not_mem (by simp [MshrTable.init])]
    exact hcount
  have hfull : ¬ ((MshrTable.init.entry b).take cfg false mf).list.length ≤ cfg.mshrSize := by
    simp [Entry.take, hsize]
  unfold MshrTable.add
  simp only [assert_pos hentries, assert_neg hfull, ok_bind, error_bind, Bool.false_eq_true,
    false_implies, implies_true, assert_pos]

/-- Without room for an access the first one already trips an assertion of `add`: on a miss `full`
does not look at the size of the entries. -/
theorem issue_localRead {cfg : Config} (hcfg : ¬ cfg.EntriesHold) :
    World.init.step cfg (.issue localRead) = some (.error .addMaxMerged) := by
  unfold Config.EntriesHold at hcfg
  simp only [not_or, Nat.not_lt] at hcfg
  obtain ⟨hsize, hcount, hseq⟩ := hcfg
  have hroom : ¬ cfg.mshrCount ≤ 0 := by omega
  have hentries : ¬ cfg.numSeqEntries ≤ World.init.allocated.sequencer.outstandingCount := by
    show ¬ cfg.numSeqEntries ≤ 0
    omega
  have hmiss : firstFetch.blockAddr ∉ World.init.allocated.mshr.data := AList.notMem_empty _
  have hread : ¬ (firstFetch.modifies = true ∧ cfg.writesStallAtMshr = false) := by
    rintro ⟨h, -⟩
    cases h
  have hb : ¬ firstFetch.Bypasses cfg := fun h => RubyMemorySpace.noConfusion h.2
  have hskip : ¬ firstFetch.request.SkipsL1 cfg := by
    rw [skipsL1_request rfl]
    rintro (h | ⟨h, -⟩)
    · exact hb h
    · cases h
  have hdata : firstFetch.dataSize ≤ rubyBlockSize.toNat := by decide
  have hready : World.init.allocated.isReady cfg firstFetch = .ok true := by
    have hseqReady : World.init.allocated.sequencer.isReady cfg firstFetch.request = .ok true := by
      unfold Sequencer.isReady
      rw [if_neg hentries, if_neg (by decide), if_neg hskip, assert_pos (by decide)]
      rfl
    have hspace : World.init.allocated.mshr.full cfg firstFetch.blockAddr = false := by
      unfold MshrTable.full
      rw [if_neg hmiss]
      exact decide_eq_false hroom
    unfold Core.isReady
    rw [if_neg (by decide), assert_pos hdata, ok_bind, if_neg hb, if_neg (by decide), hseqReady,
      ok_bind, hspace]
    rfl
  have hsend : World.init.allocated.sendRequest cfg firstFetch = .error .addMaxMerged := by
    have hmake : World.init.allocated.sequencer.makeRequest cfg firstFetch.request =
        .ok (World.init.allocated.sequencer.put cfg firstFetch.request) := by
      rw [Sequencer.makeRequest_eq cfg rfl (by decide) (fun _ => by decide), assert_pos (by decide)]
      rfl
    have hdo : World.init.allocated.mshr.doAccess cfg firstFetch.blockAddr firstFetch.modifies =
        .ok true := by
      cases hs : cfg.writesStallAtMshr <;> simp [MshrTable.doAccess, hs] <;> decide
    have hadd : ∀ c : Core, c.mshr = .init → c.addToMshr cfg firstFetch = .error .addMaxMerged := by
      intro c hc
      unfold Core.addToMshr
      rw [hc, show firstFetch.modifies = false from rfl, add_init (by omega) (by omega)]
      rfl
    unfold Core.sendRequest
    rw [assert_pos hdata, ok_bind, if_neg (by decide), if_neg hb, if_neg hread, hdo, ok_bind,
      if_pos rfl]
    unfold Core.makeRequest
    rw [hmake, ok_bind, ok_bind, hadd _ rfl]
    rfl
  show some (do
    if ← World.init.allocated.isReady cfg firstFetch then do
      let r ← World.init.allocated.sendRequest cfg firstFetch
      .ok (⟨r.1, [.accepted firstFetch r.2]⟩ : World)
    else .ok (⟨World.init.allocated, []⟩ : World)) = _
  rw [hready, ok_bind, if_pos rfl, hsend]
  rfl

/-- **The MSHR table** loses nothing and duplicates nothing, in every run, exactly when its entries
have room for an access. -/
theorem mshr_delivers (cfg : Config) : Delivers cfg ↔ cfg.EntriesHold := by
  constructor
  · intro h
    by_contra hcfg
    have hfault := h.asserts _ .init (.issue localRead) _ (issue_localRead hcfg)
    cases hfault
  · exact delivers_of_entriesHold

/-- With no room at all, the first read of a run fails an assertion of the table. -/
theorem mshr_delivers_size_zero : ¬ Delivers { mshrSize := 0 } := by
  intro h
  have hfault := h.asserts _ .init (.issue localRead) .addMaxMerged (by rfl)
  cases hfault

end GpgpuSimRuby.RubyWrapper
