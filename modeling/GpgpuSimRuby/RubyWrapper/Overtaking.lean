import GpgpuSimRuby.RubyWrapper.Delivery

/-!
# Reads after writes of the same warp

Reads and writes of a block travel on different ways when writes skip the MSHRs, so a warp that
writes a block and reads it again must not be given the answer to a read request that is older than
its write. `access_allowed` denies such a read while the entry lists the write. Once the write has
been written back the entry knows nothing of it any more, although the older read request may still
be pending.
-/

namespace GpgpuSimRuby.RubyWrapper

open Ruby Library

/-! ## Reads and requests on record -/

/-- Is a request of the block sent to Ruby in this event? -/
def Event.isRequestOf (b : RubyAddr) : Event → Bool
  | .accepted mf .request => mf.blockAddr = b
  | _ => false

/-- Does the warp write the block in this event? Writes that bypass the MSHRs go to global memory, and
then so do all reads of global memory: none of them is merged. -/
def Event.isWriteOf (b : RubyAddr) (warp : Nat) : Event → Bool
  | .accepted mf .skipWrite | .accepted mf .request | .accepted mf .merge =>
    mf.blockAddr = b && mf.wid = warp && mf.modifies
  | _ => false

/-- The access whose request was the last of a block that went to Ruby; events are listed the latest
first. -/
def pendingRequest (b : RubyAddr) : List Event → Option MemFetch
  | [] => none
  | .accepted mf .request :: t => if mf.blockAddr = b then some mf else pendingRequest b t
  | _ :: t => pendingRequest b t

/-- The events since then. -/
def since (b : RubyAddr) (t : List Event) : List Event := t.takeWhile fun e => !e.isRequestOf b

/-- A read request of the block is older than a write of the warp. -/
def Overtaken (b : RubyAddr) (warp : Nat) (t : List Event) : Prop :=
  (∃ r ∈ pendingRequest b t, r.modifies = false) ∧ ∃ e ∈ since b t, e.isWriteOf b warp = true

instance (b : RubyAddr) (warp : Nat) (t : List Event) : Decidable (Overtaken b warp t) :=
  inferInstanceAs (Decidable ((∃ r ∈ pendingRequest b t, _) ∧ ∃ e ∈ since b t, _))

/-- No read has been merged with a read request that is older than a write of the same warp. -/
def InOrder : List Event → Prop
  | [] => True
  | e :: t => InOrder t ∧ ∀ mf, e = .accepted mf .merge → mf.modifies = false →
      ¬ Overtaken mf.blockAddr mf.wid t

section Record

variable {b : RubyAddr} {e : Event} {t : List Event}

theorem since_cons (h : e.isRequestOf b = false) : since b (e :: t) = e :: since b t := by
  unfold since
  rw [List.takeWhile_cons_of_pos (by simp [h])]

theorem since_request (h : e.isRequestOf b = true) : since b (e :: t) = [] := by
  unfold since
  rw [List.takeWhile_cons_of_neg (by simp [h])]

theorem pendingRequest_cons (h : e.isRequestOf b = false) :
    pendingRequest b (e :: t) = pendingRequest b t := by
  cases e with
  | accepted mf how =>
    cases how with
    | request => exact if_neg (by simpa [Event.isRequestOf] using h)
    | fence | bypass | skipWrite | merge => rfl
  | returned mf => rfl
  | skippedDone mf => rfl

theorem mem_of_mem_since (h : e ∈ since b t) : e ∈ t := List.takeWhile_subset _ h

end Record

namespace World

variable (cfg : Config) (w : World)

/-- A read whose block has accesses queued, with room for one more. -/
def Merging (mf : MemFetch) : Prop :=
  mf.isMembar = false ∧ ¬ mf.Bypasses cfg ∧ mf.modifies = false ∧
    (w.core.mshr.entry mf.blockAddr).list ≠ [] ∧
    (w.core.mshr.entry mf.blockAddr).list.length < cfg.mshrSize

instance (mf : MemFetch) : Decidable (w.Merging cfg mf) := inferInstanceAs (Decidable (_ ∧ _))

/-- When a warp has written a block since the pending read request and reads it again, a write of the
warp to the block is still on its way. -/
def Shielded : Act → Prop
  | .issue access => w.Merging cfg (w.alloc access) →
    Overtaken (w.alloc access).blockAddr access.wid w.trace →
      access.wid ∈ warps (w.skips cfg (w.alloc access).blockAddr)
  | _ => True

instance : ∀ act, Decidable (w.Shielded cfg act)
  | .issue _ => inferInstanceAs (Decidable (_ → _ → _))
  | .readCallback _ | .writeCallback _ | .skipL1Callback _ | .memfenceCallback _ | .advanceTime
  | .writebackMshr | .writebackSkipL1 | .writebackMemfence => .isTrue trivial

/-! ## What the entry knows of the writes since the request -/

/-- The record and the entry of a block agree. -/
structure Watched (b : RubyAddr) : Prop where
  flag : cfg.writesStallAtMshr = false → (w.core.mshr.entry b).list ≠ [] →
    (∃ mf, .accepted mf .skipWrite ∈ since b w.trace ∧ mf.blockAddr = b) →
      (w.core.mshr.entry b).writeAfterRead = true
  reads : cfg.writesStallAtMshr = true → (∃ r ∈ pendingRequest b w.trace, r.modifies = false) →
    ∀ mf ∈ (w.core.mshr.entry b).list, mf.modifies = false
  merges : cfg.writesStallAtMshr = true → (∃ r ∈ pendingRequest b w.trace, r.modifies = false) →
    ∀ mf, .accepted mf .merge ∈ since b w.trace → mf.blockAddr = b → mf.modifies = false

/-- Writes skip the MSHRs or are queued there, depending on the configuration. -/
structure Moded : Prop where
  skip : ∀ mf, .accepted mf .skipWrite ∈ w.trace → cfg.writesStallAtMshr = false
  merge : ∀ mf, .accepted mf .merge ∈ w.trace → mf.modifies = true → cfg.writesStallAtMshr = true

variable {cfg w} {t : World} {b : RubyAddr} {act : Act} {access : Access}

theorem Moded.cons (h : w.Moded cfg) {c : Core} {e : Event}
    (hskip : ∀ mf, e = .accepted mf .skipWrite → cfg.writesStallAtMshr = false)
    (hmerge : ∀ mf, e = .accepted mf .merge → mf.modifies = true →
      cfg.writesStallAtMshr = true) : Moded cfg ⟨c, e :: w.trace⟩ where
  skip mf hmf := (List.mem_cons.mp hmf).elim (fun heq => hskip mf heq.symm) (h.skip mf)
  merge mf hmf := (List.mem_cons.mp hmf).elim (fun heq => hmerge mf heq.symm) (h.merge mf)

theorem Moded.issued (h : w.Moded cfg) (hi : w.Issued cfg access t) : t.Moded cfg := by
  cases hi with
  | notReady => exact ⟨h.skip, h.merge⟩
  | fence | bypass | request =>
    apply h.cons
    · intro mf heq
      exact Handling.noConfusion (Event.accepted.inj heq).2
    · intro mf heq
      exact Handling.noConfusion (Event.accepted.inj heq).2
  | skipWrite hm hb hw hmode hsize hready =>
    apply h.cons
    · intro mf _
      exact hmode
    · intro mf heq
      exact Handling.noConfusion (Event.accepted.inj heq).2
  | merge hm hb hmode hsize hroom hlist hready =>
    apply h.cons
    · intro mf heq
      exact Handling.noConfusion (Event.accepted.inj heq).2
    · intro mf heq
      obtain ⟨rfl, -⟩ := Event.accepted.inj heq
      exact hmode

theorem Moded.moved (h : w.Moded cfg) (hm : Moved cfg w act t) : t.Moded cfg := by
  cases hm with
  | answered | fenceAnswered | idle | ready | fenceDone => exact ⟨h.skip, h.merge⟩
  | returned => exact h.cons (fun _ heq => Event.noConfusion heq) fun _ heq => Event.noConfusion heq
  | skippedDone =>
    exact h.cons (fun _ heq => Event.noConfusion heq) fun _ heq => Event.noConfusion heq

theorem Watched.frame (h : w.Watched cfg b)
    (hlist : ∀ mf ∈ (t.core.mshr.entry b).list, mf ∈ (w.core.mshr.entry b).list)
    (hflag : (t.core.mshr.entry b).list ≠ [] →
      (t.core.mshr.entry b).writeAfterRead = (w.core.mshr.entry b).writeAfterRead)
    (htrace : t.trace = w.trace ∨ ∃ e, t.trace = e :: w.trace ∧ e.isRequestOf b = false ∧
      ∀ mf how, e = .accepted mf how → mf.blockAddr = b → how ≠ .skipWrite ∧ how ≠ .merge) :
    t.Watched cfg b := by
  have hne : (t.core.mshr.entry b).list ≠ [] → (w.core.mshr.entry b).list ≠ [] := by
    intro hl hnil
    obtain ⟨mf, l, hmf⟩ := List.exists_cons_of_ne_nil hl
    have := hlist mf (hmf ▸ List.mem_cons_self)
    rw [hnil] at this
    exact absurd this List.not_mem_nil
  rcases htrace with htr | ⟨e, htr, hreq, hskip⟩
  · constructor
    · intro hs hl hw
      rw [hflag hl]
      exact h.flag hs (hne hl) (htr ▸ hw)
    · intro hs hp mf hmf
      exact h.reads hs (htr ▸ hp) mf (hlist mf hmf)
    · intro hs hp mf hmf
      exact h.merges hs (htr ▸ hp) mf (htr ▸ hmf)
  · constructor
    · rintro hs hl ⟨mf, hmem, hb⟩
      rw [htr, since_cons hreq] at hmem
      rw [hflag hl]
      rcases List.mem_cons.mp hmem with heq | hmem
      · exact absurd rfl (hskip mf _ heq.symm hb).1
      · exact h.flag hs (hne hl) ⟨mf, hmem, hb⟩
    · intro hs hp mf hmf
      rw [htr, pendingRequest_cons hreq] at hp
      exact h.reads hs hp mf (hlist mf hmf)
    · intro hs hp mf hmf hb
      rw [htr, pendingRequest_cons hreq] at hp
      rw [htr, since_cons hreq] at hmf
      rcases List.mem_cons.mp hmf with heq | hmf
      · exact absurd rfl (hskip mf _ heq.symm hb).2
      · exact h.merges hs hp mf hmf hb

theorem Watched.elsewhere (h : w.Watched cfg b) {mf : MemFetch} {how : Handling} (hb : b ≠ mf.blockAddr)
    (hentry : t.core.mshr.entry b = w.core.mshr.entry b)
    (htrace : t.trace = .accepted mf how :: w.trace) : t.Watched cfg b := by
  apply h.frame
  · intro x hx
    exact hentry ▸ hx
  · intro _
    exact congrArg Entry.writeAfterRead hentry
  · refine .inr ⟨_, htrace, ?_, ?_⟩
    · cases how <;> simp [Event.isRequestOf, hb.symm]
    · intro x how heq hx
      obtain ⟨rfl, -⟩ := Event.accepted.inj heq
      exact absurd hx.symm hb

theorem watched_init : (init : World).Watched cfg b where
  flag _ hl := absurd rfl hl
  reads _ _ _ hmf := absurd hmf List.not_mem_nil
  merges _ _ _ hmf := absurd hmf List.not_mem_nil

theorem Watched.issued (hinv : w.Inv cfg) (h : w.Watched cfg b)
    (hi : w.Issued cfg access t) : t.Watched cfg b := by
  have hreads : (w.core.mshr.entry b).readset = warps (readsOf (w.core.mshr.entry b).list) :=
    (hinv.block b).readset
  cases hi with
  | notReady => exact h.frame (fun _ hx => hx) (fun _ => rfl) (.inl rfl)
  | fence hm =>
    refine h.frame (fun _ hx => hx) (fun _ => rfl) (.inr ⟨_, rfl, rfl, ?_⟩)
    rintro mf how heq -
    rw [← (Event.accepted.inj heq).2]
    exact ⟨by decide, by decide⟩
  | bypass hm hb hready =>
    refine h.frame (fun _ hx => hx) (fun _ => rfl) (.inr ⟨_, rfl, rfl, ?_⟩)
    rintro mf how heq -
    rw [← (Event.accepted.inj heq).2]
    exact ⟨by decide, by decide⟩
  | skipWrite hm hb hw hmode hsize hready =>
    generalize w.alloc access = g at *
    by_cases hab : b = g.blockAddr
    · subst hab
      constructor
      · intro _ hl _
        -- whatever is queued is a read, so the entry remembers the write
        simp only [taken, MshrTable.entry_set_self] at hl ⊢
        rw [take_list_skip hw hmode] at hl
        have hne : (w.core.mshr.entry g.blockAddr).readset ≠ 0 := by
          intro h₀
          exact hl (eq_nil_of_readsOf ((hinv.block _).reads_only hmode) (hreads ▸ h₀))
        simp [Entry.take, hw, hne]
      · intro hs
        rw [hmode] at hs
        cases hs
      · intro hs
        rw [hmode] at hs
        cases hs
    · exact h.elsewhere hab (taken_of_ne cfg w hab).2 rfl
  | request hm hb hmode hsize hroom hlist hready =>
    generalize w.alloc access = g at *
    by_cases hab : b = g.blockAddr
    · subst hab
      have hreq : (Event.accepted g .request).isRequestOf g.blockAddr = true := by
        simp [Event.isRequestOf]
      constructor
      · rintro - - ⟨mf, hmem, -⟩
        rw [since_request hreq] at hmem
        exact absurd hmem List.not_mem_nil
      · rintro - ⟨r, hr, hread⟩ mf hmf
        rw [show pendingRequest g.blockAddr (.accepted g .request :: w.trace) = some g from
          if_pos rfl] at hr
        obtain rfl := Option.some.inj hr
        simp only [taken, MshrTable.entry_set_self] at hmf
        rw [take_list hmode, hlist, List.nil_append, List.mem_singleton] at hmf
        rw [hmf]
        exact hread
      · rintro - - mf hmem
        rw [since_request hreq] at hmem
        exact absurd hmem List.not_mem_nil
    · exact h.elsewhere hab (taken_of_ne cfg w hab).2 rfl
  | merge hm hb hmode hsize hroom hlist hready =>
    generalize w.alloc access = g at *
    by_cases hab : b = g.blockAddr
    · subst hab
      have hreq : (Event.accepted g .merge).isRequestOf g.blockAddr = false := rfl
      -- a write is merged only with a write, and there is none
      have hread : cfg.writesStallAtMshr = true →
          (∃ r ∈ pendingRequest g.blockAddr w.trace, r.modifies = false) → g.modifies = false := by
        intro hs hp
        by_contra hw
        have hwrites : (w.core.mshr.entry g.blockAddr).writeset =
            warps (writesOf (w.core.mshr.entry g.blockAddr).list) +
              warps (w.skips cfg g.blockAddr) := (hinv.block _).writeset
        have hskips : w.skips cfg g.blockAddr = 0 := (hinv.block _).skips_stall hs
        rw [hskips, writesOf_eq_zero (h.reads hs hp)] at hwrites
        exact (hready.allowed hm hb (hinv.mem_of_list hlist)).1 hs (by simpa using hw) hwrites
      constructor
      · rintro hs hl ⟨mf, hmem, hmb⟩
        rw [since_cons hreq] at hmem
        simp only [taken, MshrTable.entry_set_self, Entry.take, Bool.or_eq_true]
        left
        rcases List.mem_cons.mp hmem with heq | hmem
        · exact Handling.noConfusion (Event.accepted.inj heq).2
        · exact h.flag hs hlist ⟨mf, hmem, hmb⟩
      · intro hs hp mf hmf
        rw [pendingRequest_cons hreq] at hp
        simp only [taken, MshrTable.entry_set_self] at hmf
        rw [take_list hmode] at hmf
        rcases List.mem_append.mp hmf with hmf | hmf
        · exact h.reads hs hp mf hmf
        · obtain rfl := List.mem_singleton.mp hmf
          exact hread hs hp
      · intro hs hp mf hmf hmb
        rw [pendingRequest_cons hreq] at hp
        rw [since_cons hreq] at hmf
        rcases List.mem_cons.mp hmf with heq | hmf
        · obtain ⟨rfl, -⟩ := Event.accepted.inj heq
          exact hread hs hp
        · exact h.merges hs hp mf hmf hmb
    · exact h.elsewhere hab (taken_of_ne cfg w hab).2 rfl

theorem Watched.moved (hinv : w.Inv cfg) (h : w.Watched cfg b)
    (hm : Moved cfg w act t) : t.Watched cfg b := by
  cases hm with
  | answered _ hr =>
    have hmshr : ∀ r, (answered cfg w r).core.mshr = w.core.mshr := by
      intro r
      unfold answered Core.hitCallback
      split <;> rfl
    apply h.frame
    · intro mf hmf
      exact hmshr _ ▸ hmf
    · intro _
      rw [hmshr]
    · exact .inl rfl
  | fenceAnswered | idle | ready | fenceDone =>
    exact h.frame (fun _ hx => hx) (fun _ => rfl) (.inl rfl)
  | @returned b' rs mf l hr hl hb =>
    obtain ⟨-, -, hreads, -⟩ := hinv.sets_shifted hl
    have hnone : (shifted (w.core.mshr.entry b') l mf).list = [] →
        (shifted (w.core.mshr.entry b') l mf).writeset = 0 →
        (shifted (w.core.mshr.entry b') l mf).readset = 0 := by
      intro hnil _
      rw [hreads, show l = [] from hnil]
      rfl
    have hentry : (popped w.core.mshr b' rs l mf).entry b =
        (settled w.core.mshr b' (shifted (w.core.mshr.entry b') l mf)).entry b := rfl
    apply h.frame
    · intro x hx
      show x ∈ (w.core.mshr.entry b).list
      have hx : x ∈ ((popped w.core.mshr b' rs l mf).entry b).list := hx
      rw [hentry, settled_list hnone] at hx
      split at hx
      · next hab =>
        rw [hab, hl]
        exact List.mem_cons_of_mem _ hx
      · exact hx
    · intro hne
      have hne : ((popped w.core.mshr b' rs l mf).entry b).list ≠ [] := hne
      show ((popped w.core.mshr b' rs l mf).entry b).writeAfterRead = _
      rw [hentry] at hne ⊢
      by_cases hab : b = b'
      · subst hab
        rw [settled_list hnone, if_pos rfl] at hne
        exact settled_flag hne
      · rw [(settled_of_ne hab).2]
    · exact .inr ⟨_, rfl, rfl, fun _ _ heq => Event.noConfusion heq⟩
  | @skippedDone mf q hq =>
    have hlist : ((if mf.Bypasses cfg then w.core.mshr else settled w.core.mshr mf.blockAddr
        (struck (w.core.mshr.entry mf.blockAddr) mf)).entry b).list =
        (w.core.mshr.entry b).list := skipped_list hinv b
    apply h.frame
    · intro x hx
      exact hlist ▸ hx
    · intro hne
      rw [hlist] at hne
      show ((if mf.Bypasses cfg then w.core.mshr else settled w.core.mshr mf.blockAddr
        (struck (w.core.mshr.entry mf.blockAddr) mf)).entry b).writeAfterRead = _
      split
      · rfl
      · by_cases hab : b = mf.blockAddr
        · subst hab
          exact settled_flag (e := struck (w.core.mshr.entry mf.blockAddr) mf) hne
        · rw [(settled_of_ne hab).2]
    · exact .inr ⟨_, rfl, rfl, fun _ _ heq => Event.noConfusion heq⟩

theorem watched_of_reachable (h : (machine cfg).Reachable w) :
    w.Inv cfg ∧ w.Moded cfg ∧ ∀ b, w.Watched cfg b := by
  refine reachable_induction (P := fun w => w.Moded cfg ∧ ∀ b, w.Watched cfg b) ?_ ?_ h
  · refine ⟨⟨?_, ?_⟩, fun b => watched_init⟩
    · intro mf hmem
      exact absurd hmem List.not_mem_nil
    · intro mf hmem
      exact absurd hmem List.not_mem_nil
  · intro s act t hinv hs hstep
    rcases step_cases hinv hstep with ⟨access, -, hi⟩ | hm
    · exact ⟨hs.1.issued hi, fun b => (hs.2 b).issued hinv hi⟩
    · exact ⟨hs.1.moved hm, fun b => (hs.2 b).moved hinv hm⟩

theorem flag_of_overtaken {warp : Nat} (hmoded : w.Moded cfg) (hw : w.Watched cfg b)
    (ho : Overtaken b warp w.trace) (hl : (w.core.mshr.entry b).list ≠ []) :
    cfg.writesStallAtMshr = false ∧ (w.core.mshr.entry b).writeAfterRead = true := by
  obtain ⟨hread, e, he, hwrite⟩ := ho
  cases e with
  | returned mf => cases hwrite
  | skippedDone mf => cases hwrite
  | accepted mf how =>
    cases how with
    | fence => cases hwrite
    | bypass => cases hwrite
    | skipWrite =>
      have hmode := hmoded.skip mf (mem_of_mem_since he)
      simp only [Event.isWriteOf, Bool.and_eq_true, decide_eq_true_eq] at hwrite
      exact ⟨hmode, hw.flag hmode hl ⟨mf, he, hwrite.1.1⟩⟩
    | request =>
      simp only [Event.isWriteOf, Bool.and_eq_true, decide_eq_true_eq] at hwrite
      have hreq := List.mem_takeWhile_imp he
      simp [Event.isRequestOf, hwrite.1.1] at hreq
    | merge =>
      simp only [Event.isWriteOf, Bool.and_eq_true, decide_eq_true_eq] at hwrite
      have hmode := hmoded.merge mf (mem_of_mem_since he) hwrite.2
      have hnone := hw.merges hmode hread mf he hwrite.1.1
      rw [hwrite.2] at hnone
      cases hnone

theorem Inv.writeset_skips (h : w.Inv cfg) (hmode : cfg.writesStallAtMshr = false)
    (b : RubyAddr) : (w.core.mshr.entry b).writeset = warps (w.skips cfg b) := by
  have hwrites : (w.core.mshr.entry b).writeset =
      warps (writesOf (w.core.mshr.entry b).list) + warps (w.skips cfg b) := (h.block b).writeset
  have hnone : writesOf (w.core.mshr.entry b).list = 0 :=
    writesOf_eq_zero ((h.block b).reads_only hmode)
  rw [hwrites, hnone, warps_zero, zero_add]

/-! ## When reads stay in order -/

theorem inOrder_cons {e : Event} {l : List Event} (h : InOrder l)
    (he : ∀ mf, e ≠ .accepted mf .merge) : InOrder (e :: l) :=
  ⟨h, fun mf heq => absurd heq (he mf)⟩

theorem inOrder_issued (hinv : w.Inv cfg) (hmoded : w.Moded cfg)
    (hw : ∀ b, w.Watched cfg b) (hord : InOrder w.trace) (hi : w.Issued cfg access t)
    (hs : w.Shielded cfg (.issue access)) : InOrder t.trace := by
  cases hi with
  | notReady => exact hord
  | fence | bypass | skipWrite | request =>
    apply inOrder_cons hord
    intro mf heq
    exact Handling.noConfusion (Event.accepted.inj heq).2
  | merge hm hb hmode hsize hroom hlist hready =>
    refine ⟨hord, ?_⟩
    intro mf heq hread ho
    obtain ⟨rfl, -⟩ := Event.accepted.inj heq
    obtain ⟨hskip, hflag⟩ := flag_of_overtaken hmoded (hw _) ho hlist
    have hpending := hs ⟨hm, hb, hread, hlist, hroom⟩ ho
    rw [← hinv.writeset_skips hskip] at hpending
    -- so the entry lists a write of the warp, for which it withholds the read
    have hno := (hready.allowed hm hb (hinv.mem_of_list hlist)).2.1 hskip hread hpending
    rw [hflag] at hno
    cases hno

theorem merged_of_merging (hinv : w.Inv cfg)
    (hm : w.Merging cfg (w.alloc access)) (hmode : cfg.writesStallAtMshr = false)
    (hnone : access.wid ∉ warps (w.skips cfg (w.alloc access).blockAddr)) (hs : w.issue cfg access = .ok t) :
    t.trace = .accepted (w.alloc access) .merge :: w.trace := by
  obtain ⟨hfence, hb, hread, hlist, hroom⟩ := hm
  have hwarp : access.wid ∉ (w.core.mshr.entry (w.alloc access).blockAddr).writeset := by
    rw [hinv.writeset_skips hmode]
    exact hnone
  have hadm : w.Admitted cfg (w.alloc access) := ⟨hroom, fun h => hwarp h.2, fun h => hwarp h.2.1⟩
  obtain ⟨hi, how, htrace⟩ := accepted_of_ready hinv
    (isReady_hit hfence hb (hinv.mem_of_list hlist) hmode hadm) hs
  cases hi with
  | notReady => simp at htrace
  | fence hm =>
    rw [hfence] at hm
    cases hm
  | bypass _ hb' => exact absurd hb' hb
  | skipWrite _ _ hw =>
    rw [hread] at hw
    cases hw
  | request _ _ _ _ _ hnil => exact absurd hnil hlist
  | merge => rfl

theorem inOrder_moved (hord : InOrder w.trace) (hm : Moved cfg w act t) : InOrder t.trace := by
  cases hm with
  | answered | fenceAnswered | idle | ready | fenceDone => exact hord
  | returned => exact inOrder_cons hord fun _ heq => Event.noConfusion heq
  | skippedDone => exact inOrder_cons hord fun _ heq => Event.noConfusion heq

theorem shielded_moved (hm : Moved cfg w act t) : w.Shielded cfg act := by
  cases hm with
  | @answered act _ hact =>
    cases act with
    | issue access => exact absurd rfl (hact access)
    | _ => trivial
  | fenceAnswered | idle | ready | fenceDone | returned | skippedDone => trivial

/-- **A step** keeps reads in order exactly when it is shielded. -/
theorem inOrder_step (h : (machine cfg).Reachable w) (hord : InOrder w.trace)
    (hs : w.step cfg act = some (.ok t)) : InOrder t.trace ↔ w.Shielded cfg act := by
  obtain ⟨hinv, hmoded, hw⟩ := watched_of_reachable h
  rcases step_cases hinv hs with ⟨access, rfl, hi⟩ | hm
  · refine ⟨fun ht hm ho => ?_, inOrder_issued hinv hmoded hw hord hi⟩
    by_contra hnone
    obtain ⟨hmode, -⟩ := flag_of_overtaken hmoded (hw _) ho hm.2.2.2.1
    have htrace := merged_of_merging hinv hm hmode hnone (Option.some.inj hs)
    rw [htrace] at ht
    exact ht.2 _ rfl hm.2.2.1 ho
  · exact iff_of_true (inOrder_moved hord hm) (shielded_moved hm)

end World

/-- **Reads after writes of the same warp.** As long as every step is shielded no read is merged with
a read request that is older than a write of its warp, and a step that is not shielded merges one. -/
theorem reads_after_writes (cfg : Config) (w : World)
    (h : (machine cfg).ReachableUnder (World.Shielded cfg) w) :
    InOrder w.trace ∧ ∀ act t, w.step cfg act = some (.ok t) →
      (InOrder t.trace ↔ w.Shielded cfg act) := by
  have hord : InOrder w.trace := by
    induction h with
    | init => trivial
    | step hs hok hstep ih => exact (World.inOrder_step hs.reachable ih hstep).mpr hok
  exact ⟨hord, fun act t hs => World.inOrder_step h.reachable hord hs⟩

section Runs

/-- A read of a global block by warp `0`. -/
def globalRead : Access := { localRead with space := .global }

/-- A write of the block by the same warp. -/
def globalWrite : Access := { globalRead with isWrite := true }

/-- The `mem_fetch` of the write, if it is the second access that is issued. -/
def writeFetch : MemFetch := { globalWrite with uid := 2 }

/-- The write comes back before the read, and the warp reads again. -/
def readWriteRead : List Act :=
  [.issue globalRead, .issue globalWrite, .skipL1Callback writeFetch, .writebackSkipL1,
    .issue globalRead]

/-- A run whose steps are shielded: the warp reads again while its write is on its way. -/
theorem reads_after_writes_pending :
    ∃ w, (machine {}).Reachable w ∧ w.trace.length = 2 ∧ InOrder w.trace := by
  obtain ⟨w, -, hw, hlen⟩ := (machine {}).exists_reachableUnder_of_run (World.Shielded {})
    [.issue globalRead, .issue globalWrite, .issue globalRead] (fun w => w.trace.length) (y := 2)
    (by decide) (by rfl)
  exact ⟨w, hw.reachable, hlen, (reads_after_writes {} w hw).1⟩

/-- Once the write has been written back, the second read is merged with the first. -/
theorem reads_after_writes_merged : ∃ w, (machine {}).Reachable w ∧ ¬ InOrder w.trace := by
  obtain ⟨w, -, hw, htrace⟩ := (machine {}).exists_reachable_of_run readWriteRead
    (fun w => w.trace) (y := [.accepted { globalRead with uid := 3 } .merge,
      .skippedDone writeFetch, .accepted writeFetch .skipWrite,
      .accepted { globalRead with uid := 1 } .request]) (by rfl)
  refine ⟨w, hw, fun hord => ?_⟩
  rw [htrace] at hord
  exact hord.2 _ rfl rfl (by decide)

end Runs

end GpgpuSimRuby.RubyWrapper
