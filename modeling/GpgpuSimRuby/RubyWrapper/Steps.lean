import GpgpuSimRuby.RubyWrapper.Issue

/-!
# Every step keeps the invariant

First what the parts of a view make of each change: a request that is put into the sequencer, an
entry that is overwritten, an event that is recorded. Then the steps, one by one.
-/

namespace GpgpuSimRuby.RubyWrapper

open Ruby Library

namespace World

variable {cfg : Config} {w : World} {a b : RubyAddr} {mf : MemFetch} {u : Nat}

/-! ## Events -/

section Events

variable {c : Core} {t : List Event}

/-- What is queued for a block grows when an access to it is taken. -/
theorem queued_accepted (mf : MemFetch) {k : Handling} (h : k = .request ∨ k = .merge) :
    (⟨c, .accepted mf k :: t⟩ : World).queued a =
      if mf.blockAddr = a then (⟨c, t⟩ : World).queued a ++ [mf]
      else (⟨c, t⟩ : World).queued a := by
  rcases h with rfl | rfl <;> by_cases hb : mf.blockAddr = a <;>
    simp [queued, Event.queuedIn, hb]

theorem queued_other {e : Event} (h : ∀ b, e.queuedIn b = none) :
    (⟨c, e :: t⟩ : World).queued a = (⟨c, t⟩ : World).queued a := by
  simp [queued, h]

theorem returned_returned (mf : MemFetch) :
    (⟨c, .returned mf :: t⟩ : World).returned a =
      if mf.blockAddr = a then (⟨c, t⟩ : World).returned a ++ [mf]
      else (⟨c, t⟩ : World).returned a := by
  by_cases hb : mf.blockAddr = a <;> simp [returned, Event.returnedIn, hb]

theorem returned_other {e : Event} (h : ∀ b, e.returnedIn b = none) :
    (⟨c, e :: t⟩ : World).returned a = (⟨c, t⟩ : World).returned a := by
  simp [returned, h]

end Events

/-! ## The view of a block -/

/-- A block of which a step changes nothing that its invariant is about. -/
theorem Inv.block_of_same {w' : World} (h : w.Inv cfg)
    (hheld : a ∈ w'.core.mshr.data ↔ a ∈ w.core.mshr.data)
    (hentry : w'.core.mshr.entry a = w.core.mshr.entry a) (hrequests : w'.requests a = w.requests a)
    (hskips : w'.skips cfg a = w.skips cfg a) (hqueued : w'.queued a = w.queued a)
    (hreturned : w'.returned a = w.returned a) : BlockInv cfg a (w'.view cfg a) := by
  have hinv := h.block a
  unfold view at hinv ⊢
  rw [hentry, hrequests, hskips, hqueued, hreturned]
  simp only [hheld]
  exact hinv

/-! ## Requests and skipped writes -/

/-- The core after the request has been put into the sequencer. -/
abbrev putRequest (cfg : Config) (w : World) (r : Request) (t : MshrTable) (u : Nat) : Core :=
  { w.core with sequencer := w.core.sequencer.put cfg r, mshr := t, nextUid := u }

section Put

variable {r : Request} {t : MshrTable} {l : List Event}

theorem requests_put_skip (h : r.SkipsL1 cfg) (ht : t.currentResponse = w.core.mshr.currentResponse) :
    requests ⟨putRequest cfg w r t u, l⟩ a = w.requests a := by
  simp [requests, Sequencer.put, h, ht]

/-- The requests of a block grow by the one that is put, if it does not skip the L1. -/
theorem requests_put (h : ¬ r.SkipsL1 cfg) (ht : t.currentResponse = w.core.mshr.currentResponse) :
    requests ⟨putRequest cfg w r t u, l⟩ a = w.requests a + if r.address = a then 1 else 0 := by
  by_cases hw : r.IsWrite
  · simp only [requests, Sequencer.put, if_neg h, if_pos hw, List.countP_append,
      List.countP_singleton, decide_eq_true_eq, ht]
    omega
  · simp only [requests, Sequencer.put, if_neg h, if_neg hw, List.countP_append,
      List.countP_singleton, decide_eq_true_eq, ht]
    omega

/-- What skips the L1 grows by a request that does. -/
theorem skips_put_skip (h : r.SkipsL1 cfg) : skips cfg ⟨putRequest cfg w r t u, l⟩ a =
    if r.memfetch.blockAddr = a ∧ ¬ r.memfetch.Bypasses cfg
      then r.memfetch ::ₘ w.skips cfg a else w.skips cfg a := by
  have hperm : ((w.core.sequencer.skipped ++ [r.memfetch] ++ w.core.skipL1CallbackQueue :
      List MemFetch) : Multiset MemFetch) =
      r.memfetch ::ₘ (w.core.sequencer.skipped ++ w.core.skipL1CallbackQueue : List MemFetch) := by
    rw [Multiset.cons_coe, Multiset.coe_eq_coe, List.append_assoc, List.singleton_append]
    exact List.perm_middle
  simp only [skips, Sequencer.skipped_put_skip h, hperm, Multiset.filter_cons]
  split
  · rw [Multiset.singleton_add]
  · rw [zero_add]

theorem skips_put (h : ¬ r.SkipsL1 cfg) :
    skips cfg ⟨putRequest cfg w r t u, l⟩ a = w.skips cfg a := by
  simp only [skips, Sequencer.skipped_put h]

/-- The view of every other block is what it was. -/
theorem Inv.block_put_of_ne (h : w.Inv cfg) {e : Event} (ha : a ≠ r.address)
    (hmem : r.memfetch.blockAddr = r.address) (hheld : a ∈ t.data ↔ a ∈ w.core.mshr.data)
    (hentry : t.entry a = w.core.mshr.entry a)
    (ht : t.currentResponse = w.core.mshr.currentResponse) (hq : e.queuedIn a = none)
    (hr : e.returnedIn a = none) :
    BlockInv cfg a (view cfg ⟨putRequest cfg w r t u, e :: w.trace⟩ a) := by
  have hne : r.address ≠ a := fun h => ha h.symm
  apply h.block_of_same hheld hentry
  · by_cases hs : r.SkipsL1 cfg
    · exact requests_put_skip hs ht
    · rw [requests_put hs ht, if_neg hne, Nat.add_zero]
  · by_cases hs : r.SkipsL1 cfg
    · rw [skips_put_skip hs, hmem, if_neg fun h => hne h.1]
    · exact skips_put hs
  · simp [queued, hq]
  · simp [returned, hr]

end Put

/-! ## Issue -/

section Issued

variable {access : Access} {w' : World}

/-- The next access is younger than all that is queued. -/
theorem Inv.fresh_le (h : w.Inv cfg) (b : RubyAddr) : ∀ x ∈ w.queued b, x.uid < w.core.nextUid + 1 := by
  intro x hx
  have := h.queuedFresh b x hx
  omega

theorem mem_taken : mf.blockAddr ∈ (w.taken cfg mf).data := by
  simp [taken, MshrTable.mem_set]

theorem entry_taken : (w.taken cfg mf).entry mf.blockAddr =
    (w.core.mshr.entry mf.blockAddr).take cfg mf.modifies mf := by
  simp [taken]

/-- An access joins the list of its block, and is the request if it is the first. -/
theorem blockInv_queue (h : w.Inv cfg) (hb : mf.blockAddr = b)
    (hmode : mf.modifies = true → cfg.writesStallAtMshr = true)
    (hroom : (w.core.mshr.entry b).list.length < cfg.mshrSize) (hmshr : w'.core.mshr = w.taken cfg mf)
    (hrequests : w'.requests b =
      if (w.core.mshr.entry b).list = [] then w.requests b + 1 else w.requests b)
    (hskips : w'.skips cfg b = w.skips cfg b) (hqueued : w'.queued b = w.queued b ++ [mf])
    (hreturned : w'.returned b = w.returned b) : BlockInv cfg b (w'.view cfg b) := by
  have hinv := (h.block b).queue hb hmode hroom
  subst hb
  unfold view
  rw [hmshr, hrequests, hskips, hqueued, hreturned]
  rw [eq_true mem_taken, entry_taken]
  exact hinv

/-- A write does not wait in the list of its block: it skips the MSHRs. -/
theorem blockInv_skip (h : w.Inv cfg) (hb : mf.blockAddr = b) (hw : mf.modifies = true)
    (hmode : cfg.writesStallAtMshr = false)
    (hmshr : w'.core.mshr = w.taken cfg mf) (hrequests : w'.requests b = w.requests b)
    (hskips : w'.skips cfg b = mf ::ₘ w.skips cfg b) (hqueued : w'.queued b = w.queued b)
    (hreturned : w'.returned b = w.returned b) : BlockInv cfg b (w'.view cfg b) := by
  have hinv := (h.block b).skip hw hmode
  subst hb
  unfold view
  rw [hmshr, hrequests, hskips, hqueued, hreturned]
  rw [eq_true mem_taken, entry_taken]
  exact hinv

theorem taken_of_ne (cfg : Config) (w : World) (ha : a ≠ mf.blockAddr) :
    (a ∈ (w.taken cfg mf).data ↔ a ∈ w.core.mshr.data) ∧ (w.taken cfg mf).entry a = w.core.mshr.entry a := by
  refine ⟨?_, MshrTable.entry_set_of_ne ha⟩
  simp [taken, MshrTable.mem_set, ha]

theorem mem_skipped_put {s : Sequencer} {r : Request} :
    mf ∈ (s.put cfg r).skipped ↔ mf ∈ s.skipped ∨ mf = r.memfetch ∧ r.SkipsL1 cfg := by
  by_cases hs : r.SkipsL1 cfg
  · simp [Sequencer.skipped_put_skip hs, hs]
  · simp [Sequencer.skipped_put hs, hs]

/-- What skips the L1 without bypassing it is a write, and the new request is the youngest. -/
theorem Inv.skipped_put (h : w.Inv cfg) (hm : (w.alloc access).isMembar = false) :
    (∀ x ∈ (w.core.sequencer.put cfg (w.alloc access).request).skipped ++
        w.core.skipL1CallbackQueue, ¬ x.Bypasses cfg → x.modifies = true) ∧
      ∀ x ∈ (w.core.sequencer.put cfg (w.alloc access).request).skipped, x.uid < w.core.nextUid + 1 := by
  constructor
  · intro x hx hb
    rcases List.mem_append.mp hx with hx | hx
    · rcases mem_skipped_put.mp hx with hx | ⟨rfl, hs⟩
      · exact h.modifies x (List.mem_append_left _ hx) hb
      · rcases (skipsL1_request hm).mp hs with hb' | ⟨hw, -⟩
        · exact absurd hb' hb
        · exact hw
    · exact h.modifies x (List.mem_append_right _ hx) hb
  · intro x hx
    rcases mem_skipped_put.mp hx with hx | ⟨rfl, -⟩
    · have := h.fresh x hx
      omega
    · exact Nat.lt_succ_self _

/-- The access that is taken is new. -/
theorem Inv.queued_accepted (h : w.Inv cfg) {c : Core} {how : Handling}
    (hhow : how = .request ∨ how = .merge) (b : RubyAddr) :
    (∀ x ∈ queued ⟨c, .accepted (w.alloc access) how :: w.trace⟩ b, x.uid < w.core.nextUid + 1) ∧
      (queued ⟨c, .accepted (w.alloc access) how :: w.trace⟩ b).Nodup := by
  have hold : queued ⟨c, w.trace⟩ b = w.queued b := rfl
  rw [World.queued_accepted _ hhow, hold]
  split
  · refine ⟨fun x hx => ?_, ?_⟩
    · rcases List.mem_append.mp hx with hx | hx
      · exact h.fresh_le b x hx
      · obtain rfl := List.mem_singleton.mp hx
        exact Nat.lt_succ_self _
    · apply List.Nodup.append (h.queuedNodup b) (List.nodup_singleton _)
      rw [List.disjoint_singleton]
      intro hmem
      exact absurd (h.queuedFresh b _ hmem) (Nat.lt_irrefl _)
  · exact ⟨h.fresh_le b, h.queuedNodup b⟩

theorem Inv.queued_same (h : w.Inv cfg) {c : Core} {e : Event} (he : ∀ b, e.queuedIn b = none)
    (b : RubyAddr) : (∀ x ∈ queued ⟨c, e :: w.trace⟩ b, x.uid < w.core.nextUid + 1) ∧
      (queued ⟨c, e :: w.trace⟩ b).Nodup := by
  have hold : queued ⟨c, w.trace⟩ b = w.queued b := rfl
  rw [queued_other he, hold]
  exact ⟨h.fresh_le b, h.queuedNodup b⟩

/-- **An access that is issued** keeps the invariant. -/
theorem Inv.issued (h : w.Inv cfg) (hi : w.Issued cfg access w') : w'.Inv cfg := by
  have hfresh : ∀ x ∈ w.core.sequencer.skipped, x.uid < w.core.nextUid + 1 := by
    intro x hx
    have := h.fresh x hx
    omega
  cases hi with
  | notReady =>
    exact ⟨h.block, h.size, h.sequencer, h.modifies, hfresh, h.fresh_le, h.queuedNodup⟩
  | fence hm =>
    exact ⟨h.block, h.size, h.sequencer, h.modifies, hfresh,
      fun b => (h.queued_same (fun _ => rfl) b).1, fun b => (h.queued_same (fun _ => rfl) b).2⟩
  | bypass hm hb hready =>
    have hs : (w.alloc access).request.SkipsL1 cfg := (skipsL1_request hm).mpr (.inl hb)
    refine ⟨fun b => ?_, h.size, h.sequencer.put, (h.skipped_put hm).1, (h.skipped_put hm).2,
      fun b => (h.queued_same (fun _ => rfl) b).1, fun b => (h.queued_same (fun _ => rfl) b).2⟩
    refine h.block_of_same Iff.rfl rfl (requests_put_skip hs rfl) ?_ (queued_other fun _ => rfl)
      (returned_other fun _ => rfl)
    exact (skips_put_skip hs).trans (if_neg fun h => h.2 hb)
  | skipWrite hm hb hw hmode hsize hready =>
    have hs : (w.alloc access).request.SkipsL1 cfg := (skipsL1_request hm).mpr (.inr ⟨hw, hmode⟩)
    refine ⟨fun b => ?_, hsize, h.sequencer.put, (h.skipped_put hm).1, (h.skipped_put hm).2,
      fun b => (h.queued_same (fun _ => rfl) b).1, fun b => (h.queued_same (fun _ => rfl) b).2⟩
    by_cases hab : b = (w.alloc access).blockAddr
    · apply blockInv_skip h hab.symm hw hmode rfl
      · exact requests_put_skip hs rfl
      · exact (skips_put_skip hs).trans (if_pos ⟨hab.symm, hb⟩)
      · exact queued_other fun _ => rfl
      · exact returned_other fun _ => rfl
    · obtain ⟨hheld, hentry⟩ := taken_of_ne cfg w hab
      exact h.block_put_of_ne hab rfl hheld hentry rfl rfl rfl
  | request hm hb hmode hsize hroom hlist hready =>
    have hs : ¬ (w.alloc access).request.SkipsL1 cfg := by
      rw [skipsL1_request hm]
      rintro (hb' | ⟨hw, hns⟩)
      · exact hb hb'
      · rw [hmode hw] at hns
        cases hns
    refine ⟨fun b => ?_, hsize, h.sequencer.put, (h.skipped_put hm).1, (h.skipped_put hm).2,
      fun b => (h.queued_accepted (.inl rfl) b).1, fun b => (h.queued_accepted (.inl rfl) b).2⟩
    by_cases hab : b = (w.alloc access).blockAddr
    · apply blockInv_queue h hab.symm hmode (hab ▸ hroom) rfl
      · rw [if_pos (hab ▸ hlist)]
        refine (requests_put hs ?_).trans (congrArg (w.requests b + ·) (if_pos hab.symm))
        rfl
      · exact skips_put hs
      · exact (World.queued_accepted _ (.inl rfl)).trans (if_pos hab.symm)
      · exact returned_other fun _ => rfl
    · obtain ⟨hheld, hentry⟩ := taken_of_ne cfg w hab
      exact h.block_put_of_ne hab rfl hheld hentry rfl (if_neg fun h => hab h.symm) rfl
  | merge hm hb hmode hsize hroom hlist hready =>
    refine ⟨fun b => ?_, hsize, h.sequencer, h.modifies, hfresh,
      fun b => (h.queued_accepted (.inr rfl) b).1, fun b => (h.queued_accepted (.inr rfl) b).2⟩
    by_cases hab : b = (w.alloc access).blockAddr
    · apply blockInv_queue h hab.symm hmode (hab ▸ hroom) rfl
      · rw [if_neg (hab ▸ hlist)]
        rfl
      · rfl
      · exact (World.queued_accepted _ (.inr rfl)).trans (if_pos hab.symm)
      · exact returned_other fun _ => rfl
    · obtain ⟨hheld, hentry⟩ := taken_of_ne cfg w hab
      refine h.block_of_same hheld hentry rfl rfl ?_ (returned_other fun _ => rfl)
      exact (World.queued_accepted _ (.inr rfl)).trans (if_neg fun h => hab h.symm)

end Issued

/-! ## Callbacks of Ruby -/

section Callback

variable {r : Request}

/-- The world after a request has been answered. -/
def answered (cfg : Config) (w : World) (r : Request) : World :=
  { w with core := ({ w.core with sequencer := w.core.sequencer.drop cfg r }).hitCallback cfg r }

/-- An answer moves a request from the sequencer to the callback queue. -/
theorem requests_answered (hr : r ∈ w.core.sequencer.tableOf cfg r) (a : RubyAddr) :
    (answered cfg w r).requests a = w.requests a := by
  by_cases hs : r.SkipsL1 cfg
  · simp [answered, requests, Sequencer.drop, Core.hitCallback, hs]
  · simp only [Sequencer.tableOf, if_neg hs] at hr
    simp only [answered, requests, Sequencer.drop, Core.hitCallback, if_neg hs]
    by_cases hw : r.IsWrite
    · rw [if_pos hw] at hr
      have herase := (List.perm_cons_erase hr).countP_eq (fun r => decide (r.address = a))
      simp only [if_pos hw, List.count_append, List.count_singleton, herase, List.countP_cons,
        decide_eq_true_eq, beq_iff_eq]
      omega
    · rw [if_neg hw] at hr
      have herase := (List.perm_cons_erase hr).countP_eq (fun r => decide (r.address = a))
      simp only [if_neg hw, List.count_append, List.count_singleton, herase, List.countP_cons,
        decide_eq_true_eq, beq_iff_eq]
      omega

/-- So it does with a request that skips the L1, to a queue of its own. -/
theorem skipped_answered (hr : r ∈ w.core.sequencer.tableOf cfg r) :
    ((answered cfg w r).core.sequencer.skipped ++ (answered cfg w r).core.skipL1CallbackQueue).Perm
      (w.core.sequencer.skipped ++ w.core.skipL1CallbackQueue) := by
  by_cases hs : r.SkipsL1 cfg
  · simp only [Sequencer.tableOf, if_pos hs] at hr
    simp only [answered, Sequencer.drop, Core.hitCallback, if_pos hs, Sequencer.skipped]
    have hperm := (List.perm_cons_erase hr).map Request.memfetch
    refine List.Perm.trans ?_ (hperm.symm.append_right _)
    rw [← List.append_assoc]
    exact List.perm_append_singleton ..
  · simp only [answered, Sequencer.drop, Core.hitCallback, if_neg hs]
    split <;> exact List.Perm.refl _

/-- An answer of Ruby keeps the invariant. -/
theorem Inv.answer (h : w.Inv cfg) (hr : r ∈ w.core.sequencer.tableOf cfg r) :
    (answered cfg w r).Inv cfg := by
  have hmshr : (answered cfg w r).core.mshr = w.core.mshr := by
    unfold answered Core.hitCallback
    split <;> rfl
  have huid : (answered cfg w r).core.nextUid = w.core.nextUid := by
    unfold answered Core.hitCallback
    split <;> rfl
  have hseq : (answered cfg w r).core.sequencer = w.core.sequencer.drop cfg r := by
    unfold answered Core.hitCallback
    split <;> rfl
  have hskips : ∀ b, (answered cfg w r).skips cfg b = w.skips cfg b := by
    intro b
    unfold skips
    rw [Multiset.coe_eq_coe.mpr (skipped_answered hr)]
  refine ⟨fun b => ?_, hmshr ▸ h.size, hseq ▸ h.sequencer.drop hr, ?_, ?_,
    fun b => huid ▸ h.queuedFresh b, h.queuedNodup⟩
  · exact h.block_of_same (by rw [hmshr]) (by rw [hmshr]) (requests_answered hr b) (hskips b) rfl rfl
  · intro x hx
    exact h.modifies x ((skipped_answered hr).mem_iff.mp hx)
  · intro x hx
    rw [huid]
    rw [hseq] at hx
    apply h.fresh
    unfold Sequencer.skipped Sequencer.drop at hx
    split at hx
    · obtain ⟨r', hr', rfl⟩ := List.mem_map.mp hx
      exact List.mem_map_of_mem (List.mem_of_mem_erase hr')
    · split at hx <;> exact hx

/-- The callback of a request the sequencer has fails no assertion. -/
theorem callback_eq (h : w.Inv cfg) (hs : ¬ r.SkipsL1 cfg) (hr : r ∈ w.core.sequencer.tableOf cfg r) :
    w.core.callback cfg r = .ok (answered cfg w r).core := by
  unfold Core.callback
  rw [Sequencer.removeRequest_eq h.sequencer hs hr]
  rfl

theorem skipL1Callback_eq (h : w.Inv cfg) (hs : r.SkipsL1 cfg) (hr : r ∈ w.core.sequencer.tableOf cfg r) :
    w.core.skipL1Callback cfg r = .ok (answered cfg w r).core := by
  unfold Core.skipL1Callback
  rw [Sequencer.removeSkipL1Request_eq h.sequencer hs hr]
  rfl

/-- The oldest read of a block is in its table, and does not skip the L1. -/
theorem oldestRead_spec (h : w.Inv cfg) (hr : w.core.sequencer.oldestRead a = some r) :
    ¬ r.SkipsL1 cfg ∧ r ∈ w.core.sequencer.tableOf cfg r := by
  have hmem := List.mem_of_find?_eq_some hr
  obtain ⟨hw, hs⟩ := h.sequencer.reads r hmem
  exact ⟨hs, by simpa [Sequencer.tableOf, hs, hw] using hmem⟩

theorem oldestWrite_spec (h : w.Inv cfg) (hr : w.core.sequencer.oldestWrite a = some r) :
    ¬ r.SkipsL1 cfg ∧ r ∈ w.core.sequencer.tableOf cfg r := by
  have hmem := List.mem_of_find?_eq_some hr
  obtain ⟨hw, hs⟩ := h.sequencer.writes r hmem
  exact ⟨hs, by simpa [Sequencer.tableOf, hs, hw] using hmem⟩

theorem skipL1Request_spec (h : w.Inv cfg) (hr : w.core.sequencer.skipL1Request mf = some r) :
    r.SkipsL1 cfg ∧ r ∈ w.core.sequencer.tableOf cfg r := by
  have hmem := List.mem_of_find?_eq_some hr
  have hs := h.sequencer.skipL1 r hmem
  exact ⟨hs, by simpa [Sequencer.tableOf, hs] using hmem⟩

end Callback

/-! ## From the callback queue to the responses -/

theorem Inv.list_ne_nil (h : w.Inv cfg) (hreq : w.requests b ≠ 0) : (w.core.mshr.entry b).list ≠ [] := by
  intro hl
  apply hreq
  have hinv : w.requests b = if (w.core.mshr.entry b).list = [] then 0 else 1 :=
    (h.block b).requests
  rw [hinv, if_pos hl]

/-- At most one request is under way for a block. -/
theorem Inv.requests_le (h : w.Inv cfg) (b : RubyAddr) : w.requests b ≤ 1 := by
  have hinv : w.requests b = if (w.core.mshr.entry b).list = [] then 0 else 1 :=
    (h.block b).requests
  rw [hinv]
  split <;> omega

theorem Inv.mem_of_list (h : w.Inv cfg) (hl : (w.core.mshr.entry b).list ≠ []) : b ∈ w.core.mshr.data :=
  (h.block b).held_iff.mpr (.inl hl)

/-- The core after the callback for a block. -/
abbrev advanced (w : World) (addr : RubyAddr) (q : List RubyAddr) : Core :=
  { w.core with
    mshr := { w.core.mshr with currentResponse := w.core.mshr.currentResponse ++ [addr] }
    callbackQueue := q }

section Advance

variable {addr : RubyAddr} {q : List RubyAddr}

/-- The front of the callback queue is a block with accesses that wait. -/
theorem advanceTime_eq (h : w.Inv cfg) (hq : w.core.callbackQueue = addr :: q) :
    w.core.advanceTime = .ok (w.advanced addr q) := by
  have hcount : ∀ b, (w.core.mshr.currentResponse ++ [addr]).count b ≤ w.requests b := by
    intro b
    simp only [requests, hq, List.count_append, List.count_cons, List.count_nil]
    omega
  have hmem : ∀ b ∈ w.core.mshr.currentResponse ++ [addr], b ∈ w.core.mshr.data := by
    intro b hb
    apply h.mem_of_list
    apply h.list_ne_nil
    have := List.count_pos_iff.mpr hb
    have := hcount b
    omega
  have hnd : (w.core.mshr.currentResponse ++ [addr]).Nodup := by
    rw [List.nodup_iff_count_le_one]
    intro b
    exact (hcount b).trans (h.requests_le b)
  have hsize : (w.core.mshr.currentResponse ++ [addr]).length ≤ (w.advanced addr q).mshr.size :=
    MshrTable.length_le_size hnd hmem
  unfold Core.advanceTime
  rw [hq]
  simp only [MshrTable.markReady, assert_pos (hmem addr (by simp)), ok_bind, assert_pos hsize]

theorem Inv.advanceTime (h : w.Inv cfg) (hq : w.core.callbackQueue = addr :: q) :
    Inv cfg { w with core := w.advanced addr q } := by
  refine ⟨fun b => ?_, h.size, h.sequencer, h.modifies, h.fresh, h.queuedFresh, h.queuedNodup⟩
  refine h.block_of_same Iff.rfl rfl ?_ rfl rfl rfl
  simp only [requests, hq, List.count_append, List.count_cons, List.count_nil]
  omega

end Advance

/-! ## Writeback -/

/-- The table after the entry of a block has become `e`: the entry is erased once it holds nothing. -/
def settled (t : MshrTable) (b : RubyAddr) (e : Entry) : MshrTable :=
  if e.list = [] ∧ e.writeset = 0 then t.release b else t.set b e

section Settled

variable {t : MshrTable} {e : Entry}

/-- An entry that is given up was empty, so it reads the same. -/
theorem settled_entry (h₀ : e.list = [] → e.writeset = 0 → e.readset = 0) :
    ((settled t b e).entry b).list = e.list ∧ ((settled t b e).entry b).readset = e.readset ∧
      ((settled t b e).entry b).writeset = e.writeset := by
  unfold settled
  split
  · next hnone =>
    rw [MshrTable.entry_release_self]
    exact ⟨hnone.1.symm, (h₀ hnone.1 hnone.2).symm, hnone.2.symm⟩
  · rw [MshrTable.entry_set_self]
    exact ⟨rfl, rfl, rfl⟩

theorem settled_flag (h : e.list ≠ []) : ((settled t b e).entry b).writeAfterRead = e.writeAfterRead := by
  unfold settled
  rw [if_neg fun hnone => h hnone.1, MshrTable.entry_set_self]

theorem mem_settled : b ∈ (settled t b e).data ↔ e.list ≠ [] ∨ e.writeset ≠ 0 := by
  unfold settled
  split
  · next hnone => simp [MshrTable.mem_release, hnone.1, hnone.2]
  · next hsome =>
    simp only [MshrTable.mem_set, true_or, true_iff]
    by_cases hl : e.list = []
    · exact .inr fun hw => hsome ⟨hl, hw⟩
    · exact .inl hl

theorem settled_of_ne (ha : a ≠ b) :
    (a ∈ (settled t b e).data ↔ a ∈ t.data) ∧ (settled t b e).entry a = t.entry a := by
  unfold settled
  split
  · exact ⟨by simp [MshrTable.mem_release, ha], MshrTable.entry_release_of_ne ha⟩
  · exact ⟨by simp [MshrTable.mem_set, ha], MshrTable.entry_set_of_ne ha⟩

/-- To settle an entry adds none. -/
theorem size_settled_le (hb : b ∈ t.data) : (settled t b e).size ≤ t.size := by
  unfold settled
  split
  · exact MshrTable.size_release_le
  · exact (MshrTable.size_set_of_mem hb).le

@[simp]
theorem currentResponse_settled : (settled t b e).currentResponse = t.currentResponse := by
  unfold settled
  split <;> rfl

end Settled

/-- The entry of a block without the first access of its queue. -/
def shifted (e : Entry) (l : List MemFetch) (mf : MemFetch) : Entry where
  readset := if mf.modifies then e.readset else e.readset.erase mf.wid
  writeset := if mf.modifies then e.writeset.erase mf.wid else e.writeset
  writeAfterRead := e.writeAfterRead
  list := l

/-- The table after the first access of the queue of a block has left. -/
def popped (t : MshrTable) (b : RubyAddr) (rs : List RubyAddr) (l : List MemFetch)
    (mf : MemFetch) : MshrTable :=
  { settled t b (shifted (t.entry b) l mf) with
    currentResponse := if l = [] then rs else t.currentResponse }

section Pop

variable {rs : List RubyAddr} {l : List MemFetch}

/-- The block whose accesses are returned has one left. -/
theorem Inv.head_list (h : w.Inv cfg) (hr : w.core.mshr.currentResponse = b :: rs) :
    ∃ mf l, (w.core.mshr.entry b).list = mf :: l ∧ mf.blockAddr = b := by
  have hreq : w.requests b ≠ 0 := by
    simp only [requests, hr, List.count_cons_self]
    omega
  obtain ⟨mf, l, hl⟩ := List.exists_cons_of_ne_nil (h.list_ne_nil hreq)
  exact ⟨mf, l, hl, (h.block b).block mf (hl ▸ List.mem_cons_self)⟩

/-- The sets of warps count the accesses that are left. -/
theorem Inv.sets_shifted (h : w.Inv cfg) (hl : (w.core.mshr.entry b).list = mf :: l) :
    (mf.modifies = true → cfg.writesStallAtMshr = true ∧ mf.wid ∈ (w.core.mshr.entry b).writeset) ∧
      (mf.modifies = false → mf.wid ∈ (w.core.mshr.entry b).readset) ∧
      (shifted (w.core.mshr.entry b) l mf).readset = warps (readsOf l) ∧
      (shifted (w.core.mshr.entry b) l mf).writeset = warps (writesOf l) + warps (w.skips cfg b) := by
  have hreads : (w.core.mshr.entry b).readset = warps (readsOf (w.core.mshr.entry b).list) :=
    (h.block b).readset
  have hwrites : (w.core.mshr.entry b).writeset =
      warps (writesOf (w.core.mshr.entry b).list) + warps (w.skips cfg b) := (h.block b).writeset
  rw [hl] at hreads hwrites
  cases hm : mf.modifies with
  | false =>
    rw [readsOf_cons_read hm, warps_cons] at hreads
    rw [writesOf_cons_read hm] at hwrites
    refine ⟨by simp, fun _ => ?_, ?_, ?_⟩
    · rw [hreads]
      exact Multiset.mem_cons_self _ _
    · simp [shifted, hm, hreads]
    · simp [shifted, hm, hwrites]
  | true =>
    rw [readsOf_cons_write hm] at hreads
    rw [writesOf_cons_write hm, warps_cons, Multiset.cons_add] at hwrites
    refine ⟨fun _ => ⟨?_, ?_⟩, by simp, ?_, ?_⟩
    · by_contra hs
      have hread := (h.block b).reads_only (by simpa using hs) mf (hl ▸ List.mem_cons_self)
      rw [hm] at hread
      cases hread
    · rw [hwrites]
      exact Multiset.mem_cons_self _ _
    · simp [shifted, hm, hreads]
    · simp [shifted, hm, hwrites]

/-- Taking the next access fails no assertion. -/
theorem nextAccess_eq (h : w.Inv cfg) (hr : w.core.mshr.currentResponse = b :: rs)
    (hl : (w.core.mshr.entry b).list = mf :: l) :
    w.core.mshr.nextAccess cfg = .ok (mf, popped w.core.mshr b rs l mf) := by
  obtain ⟨hwrite, hread, hreads, hwrites⟩ := h.sets_shifted hl
  unfold popped
  set e := shifted (w.core.mshr.entry b) l mf with he
  -- the two ways to strike the access off the entry make the same of it
  have hstart : w.core.mshr.nextAccess cfg =
      if l = [] then do
        assert (e.readset = 0) .nextAccessReadsLeft
        .ok (mf, { (if cfg.writesStallAtMshr ∨ e.writeset = 0 then w.core.mshr.release b
          else w.core.mshr.set b e) with currentResponse := rs })
      else .ok (mf, w.core.mshr.set b e) := by
    unfold MshrTable.nextAccess
    simp only [hr, hl]
    cases hm : mf.modifies with
    | false =>
      rw [if_neg (by simp), assert_pos (hread hm)]
      simp only [he, shifted, hm]
      rfl
    | true =>
      rw [if_pos ⟨(hwrite hm).1, rfl⟩, assert_pos (hwrite hm).2]
      simp only [he, shifted, hm]
      rfl
  rw [hstart]
  by_cases hnil : l = []
  · have h₀ : e.readset = 0 := by
      rw [hreads, hnil]
      rfl
    have hstall : (cfg.writesStallAtMshr = true ∨ e.writeset = 0) ↔ e.writeset = 0 := by
      refine or_iff_right_of_imp fun hs => ?_
      have hskips : w.skips cfg b = 0 := (h.block b).skips_stall hs
      rw [hwrites, hnil, hskips]
      rfl
    rw [if_pos hnil, assert_pos h₀, ok_bind]
    simp only [settled, show e.list = [] from hnil, true_and, hstall, if_pos hnil]
  · simp only [settled, show ¬ e.list = [] from hnil, false_and, if_false, if_neg hnil]
    rfl

/-- The access that is returned leaves the list of its block. -/
theorem Inv.pop (h : w.Inv cfg) (hr : w.core.mshr.currentResponse = b :: rs)
    (hl : (w.core.mshr.entry b).list = mf :: l) (hb : mf.blockAddr = b) :
    Inv cfg ⟨{ w.core with mshr := popped w.core.mshr b rs l mf }, .returned mf :: w.trace⟩ := by
  obtain ⟨-, -, hreads, hwrites⟩ := h.sets_shifted hl
  have hmem : b ∈ w.core.mshr.data := h.mem_of_list (by simp [hl])
  have hqueued : ∀ a, queued ⟨{ w.core with mshr := popped w.core.mshr b rs l mf },
      .returned mf :: w.trace⟩ a = w.queued a := fun a => queued_other fun _ => rfl
  refine ⟨fun a => ?_, (size_settled_le hmem).trans h.size, h.sequencer, h.modifies, h.fresh,
    fun a => hqueued a ▸ h.queuedFresh a, fun a => hqueued a ▸ h.queuedNodup a⟩
  by_cases hab : a = b
  · subst hab
    unfold popped
    set e := shifted (w.core.mshr.entry a) l mf
    have h₀ : e.list = [] → e.writeset = 0 → e.readset = 0 := by
      intro hnil _
      rw [hreads, show l = [] from hnil]
      rfl
    obtain ⟨hlist, hread, hwrite⟩ := settled_entry (t := w.core.mshr) (b := a) h₀
    have hinv := (h.block a).next hl hlist (hread.trans hreads) (hwrite.trans hwrites)
    have hheld : (a ∈ (settled w.core.mshr a e).data) =
        (l ≠ [] ∨ ((settled w.core.mshr a e).entry a).writeset ≠ 0) := by
      rw [hwrite]
      exact propext mem_settled
    have hreq : requests ⟨{ w.core with mshr := { settled w.core.mshr a e with
          currentResponse := if l = [] then rs else w.core.mshr.currentResponse } },
        .returned mf :: w.trace⟩ a = if l = [] then w.requests a - 1 else w.requests a := by
      simp only [requests]
      split
      · rw [hr, List.count_cons_self]
        omega
      · rfl
    unfold view
    rw [hreq, queued_other fun _ => rfl, (returned_returned mf).trans (if_pos hb)]
    simp only [hheld]
    exact hinv
  · obtain ⟨hheld, hentry⟩ := settled_of_ne (t := w.core.mshr)
      (e := shifted (w.core.mshr.entry b) l mf) hab
    refine h.block_of_same hheld hentry ?_ rfl (hqueued a)
      ((returned_returned mf).trans (if_neg fun h => hab (h.symm.trans hb)))
    simp only [requests, popped]
    split
    · rw [hr, List.count_cons_of_ne fun h => hab h.symm]
    · rfl

end Pop

/-! ## Writeback of what skipped the MSHRs -/

section Skipped

variable {q : List MemFetch}

theorem skips_cons (cfg : Config) (hq : w.core.skipL1CallbackQueue = mf :: q) {t : MshrTable}
    {l : List Event} (b : RubyAddr) :
    w.skips cfg b = if mf.blockAddr = b ∧ ¬ mf.Bypasses cfg
      then mf ::ₘ skips cfg ⟨{ w.core with mshr := t, skipL1CallbackQueue := q }, l⟩ b
      else skips cfg ⟨{ w.core with mshr := t, skipL1CallbackQueue := q }, l⟩ b := by
  have hperm : ((w.core.sequencer.skipped ++ mf :: q : List MemFetch) : Multiset MemFetch) =
      mf ::ₘ (w.core.sequencer.skipped ++ q : List MemFetch) := by
    rw [Multiset.cons_coe, Multiset.coe_eq_coe]
    exact List.perm_middle
  simp only [skips, hq, hperm, Multiset.filter_cons]
  split
  · rw [Multiset.singleton_add]
  · rw [zero_add]

/-- The entry of a block without a write that skipped it. -/
def struck (e : Entry) (mf : MemFetch) : Entry := { e with writeset := e.writeset.erase mf.wid }

/-- A write that is done was in the set of writers, where nothing else stands for its warp. -/
theorem Inv.sets_struck (h : w.Inv cfg) (hq : w.core.skipL1CallbackQueue = mf :: q)
    (hb : ¬ mf.Bypasses cfg) {t : MshrTable} {l : List Event} :
    cfg.writesStallAtMshr = false ∧ mf.wid ∈ (w.core.mshr.entry mf.blockAddr).writeset ∧
      mf.blockAddr ∈ w.core.mshr.data ∧ (struck (w.core.mshr.entry mf.blockAddr) mf).writeset =
        warps (writesOf (w.core.mshr.entry mf.blockAddr).list) +
          warps (skips cfg ⟨{ w.core with mshr := t, skipL1CallbackQueue := q }, l⟩ mf.blockAddr) := by
  have hskips := skips_cons cfg (t := t) (l := l) hq mf.blockAddr
  rw [if_pos ⟨rfl, hb⟩] at hskips
  have hwrites : (w.core.mshr.entry mf.blockAddr).writeset =
      warps (writesOf (w.core.mshr.entry mf.blockAddr).list) + warps (w.skips cfg mf.blockAddr) :=
    (h.block mf.blockAddr).writeset
  rw [hskips, warps_cons, Multiset.add_cons] at hwrites
  have hmem : mf.wid ∈ (w.core.mshr.entry mf.blockAddr).writeset := by
    rw [hwrites]
    exact Multiset.mem_cons_self _ _
  refine ⟨?_, hmem, ?_, ?_⟩
  · by_contra hs
    have hnone : w.skips cfg mf.blockAddr = 0 := (h.block mf.blockAddr).skips_stall (by simpa using hs)
    rw [hskips] at hnone
    exact absurd hnone Multiset.cons_ne_zero
  · apply (h.block mf.blockAddr).held_iff.mpr
    right
    intro hnone
    have hzero : (w.core.mshr.entry mf.blockAddr).writeset = 0 := hnone
    rw [hzero] at hmem
    exact absurd hmem (Multiset.notMem_zero _)
  · show (w.core.mshr.entry mf.blockAddr).writeset.erase mf.wid = _
    rw [hwrites, Multiset.erase_cons_head]

/-- Marking it done fails no assertion. -/
theorem markSkippedWriteDone_eq (h : w.Inv cfg) (hq : w.core.skipL1CallbackQueue = mf :: q)
    (hb : ¬ mf.Bypasses cfg) : w.core.mshr.markSkippedWriteDone cfg mf.blockAddr mf.wid =
      .ok (settled w.core.mshr mf.blockAddr (struck (w.core.mshr.entry mf.blockAddr) mf)) := by
  obtain ⟨hmode, hwid, hmem, -⟩ := h.sets_struck hq hb (t := w.core.mshr) (l := w.trace)
  have hreads : (w.core.mshr.entry mf.blockAddr).readset =
      warps (readsOf (w.core.mshr.entry mf.blockAddr).list) := (h.block mf.blockAddr).readset
  unfold MshrTable.markSkippedWriteDone
  simp only [assert_pos hmode, assert_pos hmem, assert_pos hwid, ok_bind]
  unfold settled struck
  split
  · next hnone =>
    have h₀ : (w.core.mshr.entry mf.blockAddr).readset = 0 := by
      rw [hreads, hnone.1]
      rfl
    rw [assert_pos h₀, ok_bind]
  · rfl

theorem writebackSkipL1_eq (h : w.Inv cfg) (hq : w.core.skipL1CallbackQueue = mf :: q) :
    w.core.writebackSkipL1 cfg mf q = .ok { w.core with
      skipL1CallbackQueue := q
      mshr := if mf.Bypasses cfg then w.core.mshr
        else settled w.core.mshr mf.blockAddr
          (struck (w.core.mshr.entry mf.blockAddr) mf) } := by
  unfold Core.writebackSkipL1
  by_cases hb : mf.Bypasses cfg
  · simp only [if_pos hb]
  · obtain ⟨hmode, -⟩ := h.sets_struck hq hb (t := w.core.mshr) (l := w.trace)
    have hw : mf.modifies = true := by
      apply h.modifies mf _ hb
      rw [hq]
      exact List.mem_append_right _ List.mem_cons_self
    simp only [if_neg hb, if_pos hmode, assert_pos hw, ok_bind, markSkippedWriteDone_eq h hq hb]

/-- A write that skipped the MSHRs is done. -/
theorem Inv.skippedDone (h : w.Inv cfg) (hq : w.core.skipL1CallbackQueue = mf :: q) :
    Inv cfg ⟨{ w.core with
      skipL1CallbackQueue := q
      mshr := if mf.Bypasses cfg then w.core.mshr
        else settled w.core.mshr mf.blockAddr
          (struck (w.core.mshr.entry mf.blockAddr) mf) }, .skippedDone mf :: w.trace⟩ := by
  have hmodifies : ∀ x ∈ w.core.sequencer.skipped ++ q, ¬ x.Bypasses cfg → x.modifies = true := by
    intro x hx
    apply h.modifies
    rw [hq]
    rcases List.mem_append.mp hx with hx | hx
    · exact List.mem_append_left _ hx
    · exact List.mem_append_right _ (List.mem_cons_of_mem _ hx)
  have hqueued : ∀ (c : Core) b, queued ⟨c, .skippedDone mf :: w.trace⟩ b = w.queued b :=
    fun _ _ => queued_other fun _ => rfl
  have hret : ∀ (c : Core) b, returned ⟨c, .skippedDone mf :: w.trace⟩ b = w.returned b :=
    fun _ _ => returned_other fun _ => rfl
  by_cases hb : mf.Bypasses cfg
  · simp only [if_pos hb]
    refine ⟨fun b => ?_, h.size, h.sequencer, hmodifies, h.fresh,
      fun b => hqueued w.core b ▸ h.queuedFresh b, fun b => hqueued w.core b ▸ h.queuedNodup b⟩
    refine h.block_of_same Iff.rfl rfl rfl ?_ (hqueued _ b) (hret _ b)
    exact ((skips_cons cfg hq b).trans (if_neg fun hn => hn.2 hb)).symm
  · simp only [if_neg hb]
    set e := struck (w.core.mshr.entry mf.blockAddr) mf
    obtain ⟨-, -, hmem, hwrites⟩ := h.sets_struck hq hb (t := settled w.core.mshr mf.blockAddr e)
      (l := .skippedDone mf :: w.trace)
    have hreq : ∀ b, requests ⟨{ w.core with
        skipL1CallbackQueue := q, mshr := settled w.core.mshr mf.blockAddr e },
        .skippedDone mf :: w.trace⟩ b = w.requests b :=
      fun b => by simp only [requests, currentResponse_settled]
    refine ⟨fun b => ?_, (size_settled_le hmem).trans h.size, h.sequencer, hmodifies, h.fresh,
      fun b => hqueued w.core b ▸ h.queuedFresh b, fun b => hqueued w.core b ▸ h.queuedNodup b⟩
    by_cases hab : b = mf.blockAddr
    · subst hab
      have hskips := (skips_cons cfg (t := settled w.core.mshr mf.blockAddr e)
        (l := .skippedDone mf :: w.trace) hq mf.blockAddr).trans (if_pos ⟨rfl, hb⟩)
      have hreads : (w.core.mshr.entry mf.blockAddr).readset =
          warps (readsOf (w.core.mshr.entry mf.blockAddr).list) := (h.block mf.blockAddr).readset
      obtain ⟨hlist, hread, hwrite⟩ := settled_entry (t := w.core.mshr) (b := mf.blockAddr)
        (e := e) (by
          intro hnil _
          show (w.core.mshr.entry mf.blockAddr).readset = 0
          rw [hreads, show (w.core.mshr.entry mf.blockAddr).list = [] from hnil]
          rfl)
      have hinv := (h.block mf.blockAddr).skipDone hskips hlist hread (hwrite.trans hwrites)
      have hheld := propext (mem_settled (t := w.core.mshr) (b := mf.blockAddr) (e := e))
      rw [← hwrite] at hheld
      unfold view
      rw [hqueued, hret, hreq]
      simp only [hheld]
      exact hinv
    · obtain ⟨hheld, hentry⟩ := settled_of_ne (t := w.core.mshr) (e := e) hab
      refine h.block_of_same hheld hentry (hreq b) ?_ (hqueued _ b) (hret _ b)
      exact ((skips_cons cfg hq b).trans (if_neg fun hn => hab hn.1.symm)).symm

end Skipped

/-! ## The way back -/

/-- What a step other than an attempt to issue an access does to a world in order. -/
inductive Moved (cfg : Config) (w : World) : Act → World → Prop
  | answered {act : Act} {r : Request} (hact : ∀ access, act ≠ .issue access)
      (hr : r ∈ w.core.sequencer.tableOf cfg r) :
      Moved cfg w act (answered cfg w r)
  | fenceAnswered {wid : Nat} (hw : wid ∈ w.core.memfences) :
      Moved cfg w (.memfenceCallback wid) { w with core := { w.core with
        memfences := w.core.memfences.erase wid
        memfenceCallbackQueue := w.core.memfenceCallbackQueue ++ [wid] } }
  | idle (hq : w.core.callbackQueue = []) : Moved cfg w .advanceTime w
  | ready {addr : RubyAddr} {q : List RubyAddr} (hq : w.core.callbackQueue = addr :: q) :
      Moved cfg w .advanceTime { w with core := w.advanced addr q }
  | returned {b : RubyAddr} {rs : List RubyAddr} {mf : MemFetch} {l : List MemFetch}
      (hr : w.core.mshr.currentResponse = b :: rs)
      (hl : (w.core.mshr.entry b).list = mf :: l) (hb : mf.blockAddr = b) :
      Moved cfg w .writebackMshr ⟨{ w.core with mshr := popped w.core.mshr b rs l mf },
        .returned mf :: w.trace⟩
  | skippedDone {mf : MemFetch} {q : List MemFetch}
      (hq : w.core.skipL1CallbackQueue = mf :: q) :
      Moved cfg w .writebackSkipL1 ⟨{ w.core with
        skipL1CallbackQueue := q
        mshr := if mf.Bypasses cfg then w.core.mshr
          else settled w.core.mshr mf.blockAddr (struck (w.core.mshr.entry mf.blockAddr) mf) },
        .skippedDone mf :: w.trace⟩
  | fenceDone {wid : Nat} {q : List Nat} (hq : w.core.memfenceCallbackQueue = wid :: q) :
      Moved cfg w .writebackMemfence
        { w with core := { w.core with memfenceCallbackQueue := q } }

variable {act : Act} {t : World}

/-- Every step on the way back keeps the invariant. -/
theorem Moved.inv (h : w.Inv cfg) (hm : Moved cfg w act t) : t.Inv cfg := by
  cases hm with
  | answered _ hr => exact h.answer hr
  | fenceAnswered | fenceDone =>
    exact ⟨h.block, h.size, h.sequencer, h.modifies, h.fresh, h.queuedFresh, h.queuedNodup⟩
  | idle => exact h
  | ready hq => exact h.advanceTime hq
  | returned hr hl hb => exact h.pop hr hl hb
  | skippedDone hq => exact h.skippedDone hq

/-! ## All steps -/

/-- **A step** from a world in order is an attempt to issue an access, or one of the listed moves. -/
theorem step_ends (h : w.Inv cfg) {r : Except Assertion World} (hs : w.step cfg act = some r) :
    Ends cfg r fun t => (∃ access, act = .issue access ∧ w.Issued cfg access t) ∨ Moved cfg w act t := by
  cases act with
  | issue access =>
    obtain rfl := Option.some.inj hs
    rcases issue_ends access h with ⟨e, he, hne⟩ | ⟨w', hw', hi⟩
    · exact .inl ⟨e, he, hne⟩
    · exact .inr ⟨w', hw', .inl ⟨access, rfl, hi⟩⟩
  | readCallback addr =>
    obtain ⟨r', hr', rfl⟩ := Option.map_eq_some_iff.mp hs
    obtain ⟨hskip, hmem⟩ := oldestRead_spec h hr'
    rw [callback_eq h hskip hmem]
    exact .inr ⟨_, rfl, .inr (.answered (fun _ h => Act.noConfusion h) hmem)⟩
  | writeCallback addr =>
    obtain ⟨r', hr', rfl⟩ := Option.map_eq_some_iff.mp hs
    obtain ⟨hskip, hmem⟩ := oldestWrite_spec h hr'
    rw [callback_eq h hskip hmem]
    exact .inr ⟨_, rfl, .inr (.answered (fun _ h => Act.noConfusion h) hmem)⟩
  | skipL1Callback mf =>
    obtain ⟨r', hr', rfl⟩ := Option.map_eq_some_iff.mp hs
    obtain ⟨hskip, hmem⟩ := skipL1Request_spec h hr'
    rw [skipL1Callback_eq h hskip hmem]
    exact .inr ⟨_, rfl, .inr (.answered (fun _ h => Act.noConfusion h) hmem)⟩
  | memfenceCallback wid =>
    simp only [step] at hs
    split at hs
    · next hmem =>
      obtain rfl := Option.some.inj hs
      exact .inr ⟨_, rfl, .inr (.fenceAnswered hmem)⟩
    · cases hs
  | advanceTime =>
    obtain rfl := Option.some.inj hs
    cases hq : w.core.callbackQueue with
    | nil =>
      refine .inr ⟨w, ?_, .inr (.idle hq)⟩
      simp [Core.advanceTime, hq]
    | cons addr q =>
      rw [advanceTime_eq h hq]
      exact .inr ⟨_, rfl, .inr (.ready hq)⟩
  | writebackMshr =>
    simp only [step] at hs
    split at hs
    · next hready =>
      obtain rfl := Option.some.inj hs
      cases hr : w.core.mshr.currentResponse with
      | nil => simp [MshrTable.accessReady, hr] at hready
      | cons b rs =>
        obtain ⟨mf, l, hl, hb⟩ := h.head_list hr
        rw [nextAccess_eq h hr hl]
        exact .inr ⟨_, rfl, .inr (.returned hr hl hb)⟩
    · cases hs
  | writebackSkipL1 =>
    simp only [step] at hs
    split at hs
    · cases hs
    · next mf q hq =>
      obtain rfl := Option.some.inj hs
      rw [writebackSkipL1_eq h hq]
      exact .inr ⟨_, rfl, .inr (.skippedDone hq)⟩
  | writebackMemfence =>
    simp only [step] at hs
    split at hs
    · cases hs
    · next wid q hq =>
      obtain rfl := Option.some.inj hs
      exact .inr ⟨_, rfl, .inr (.fenceDone hq)⟩

/-- A step issues an access or moves one on its way back. -/
theorem step_cases (h : w.Inv cfg) (hs : w.step cfg act = some (.ok t)) :
    (∃ access, act = .issue access ∧ w.Issued cfg access t) ∨ Moved cfg w act t :=
  (step_ends h hs).of_ok

theorem Inv.step (h : w.Inv cfg) (hs : w.step cfg act = some (.ok t)) : t.Inv cfg := by
  rcases step_cases h hs with ⟨access, -, hi⟩ | hm
  · exact h.issued hi
  · exact hm.inv h

/-- What every step from a sound world keeps holds of every reachable one. -/
theorem reachable_induction {P : World → Prop} (hinit : P .init)
    (hstep : ∀ s act t, s.Inv cfg → P s → World.step cfg s act = some (.ok t) → P t)
    (h : (machine cfg).Reachable w) : w.Inv cfg ∧ P w := by
  induction h with
  | init => exact ⟨inv_init cfg, hinit⟩
  | @step s act t _ _ hs ih => exact ⟨ih.1.step hs, hstep s act t ih.1 ih.2 hs⟩

theorem Inv.of_reachable (h : (machine cfg).Reachable w) : w.Inv cfg :=
  (reachable_induction (P := fun _ => True) trivial (fun _ _ _ _ _ _ => trivial) h).1

end World

end GpgpuSimRuby.RubyWrapper
