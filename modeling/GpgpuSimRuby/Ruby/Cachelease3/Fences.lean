import GpgpuSimRuby.Ruby.Cachelease3.Sharing

/-!
# cachelease3: fences

TC-Weak orders writes by fences. A write is performed while other L1s may still read older copies; the
global acknowledgement says until when, its L1 notes this time for the warp, and a fence of the warp
completes no earlier. `fence_law` says what this is for: once a fence has completed, no other L1 can hit
a copy without the acknowledged writes that the warp had issued before the fence.

* `Block.Stale b j w t` — the L1 of `j` has a lease until `t` on a copy without the write `w`. Once
  `w` has been performed, no step makes up such a lease (`Step.stale`); time can only end those that
  exist.
* `Block.AckInv`, `Sys.FenceInv` — the bounds on them: the completion time in an acknowledgement under
  way, then the time the L1 has noted for the warp, then the completion time of the fence.
* `Sys.KeepsFences` — the condition on a step under which the bounds are handed on.
-/

namespace GpgpuSimRuby.Ruby.Cachelease3

open Library Function

variable {ι : Type} [DecidableEq ι] {gw : GlobalWrites ι}

/-! ## Performed writes -/

section Line

variable {now delta : Nat} {space : MemorySpaceType} {g : MemFetch ι} {ℓ ℓ' : L1Line ι}
  {e' : L1Entry ι} {w : MemFetch ι}

omit [DecidableEq ι]

theorem CoreStep.own {sent : Option (RequestMsg ι)} (h : CoreStep now space g delta ℓ sent ℓ')
    (he' : ℓ'.entry = some e') (hw : w ∈ e'.own) : w = g ∨ ∃ e, ℓ.entry = some e ∧ w ∈ e.own := by
  cases h with
  | hit => exact .inr ⟨e', he', hw⟩
  | hitSM | loadMore | write | writeMore =>
    obtain ⟨e, he, rfl⟩ := Option.map_eq_some_iff.mp he'
    exact .inr ⟨e, he, hw⟩
  | loadMiss =>
    cases he'
    cases he : ℓ.entry with
    | none =>
      rw [he] at hw
      cases hw
    | some e =>
      rw [he] at hw
      exact .inr ⟨e, rfl, hw⟩
  | upgrade _ he =>
    cases he'
    rcases List.mem_cons.mp hw with rfl | hw
    · exact .inl rfl
    · exact .inr ⟨_, he, hw⟩
  | upgradeMore =>
    obtain ⟨e, he, rfl⟩ := Option.map_eq_some_iff.mp he'
    rcases List.mem_cons.mp hw with rfl | hw
    · exact .inl rfl
    · exact .inr ⟨e, he, hw⟩

theorem ResponseStep.own {m : ResponseMsg ι} (h : ResponseStep now m ℓ ℓ')
    (he' : ℓ'.entry = some e') (hw : w ∈ e'.own) : ∃ e, ℓ.entry = some e ∧ w ∈ e.own := by
  cases h with
  | install => cases he'; cases hw
  | discard | discardDone | ack | ackDone =>
    obtain ⟨e, he, rfl⟩ := Option.map_eq_some_iff.mp he'
    exact ⟨e, he, hw⟩
  | renew _ he => cases he'; exact ⟨_, he, hw⟩
  | renewDone _ he => cases he'; exact ⟨_, he, hw⟩

theorem ReplaceStep.own (h : ReplaceStep now ℓ ℓ') (he' : ℓ'.entry = some e') (hw : w ∈ e'.own) :
    ∃ e, ℓ.entry = some e ∧ w ∈ e.own := by
  cases h with
  | idle => cases he'
  | busy => cases he'
  | stall => exact ⟨e', he', hw⟩

end Line

namespace Block

/-- What is answered and acknowledged has been performed, and only an L1's own stores are in its copy
before they are. -/
structure HistoryInv (b : Block ι) : Prop where
  answered : ∀ i, ∀ m ∈ b.responseToL1 i, m.type ≠ .DATA →
    ∃ w, m.memfetch = some w ∧ w.sid = i ∧ w ∈ b.contents
  acked : ∀ w ∈ b.acked, w ∈ b.contents
  own : ∀ i e, (b.l1 i).entry = some e → ∀ w ∈ e.own, w.sid = i

variable {mode : L2.Mode} {space : MemorySpaceType} {b b' : Block ι} {a : BlockAct ι}
  {i j : ι} {t : Nat} {w : MemFetch ι}

omit [DecidableEq ι] in
theorem historyInv_init : ({} : Block ι).HistoryInv where
  answered _ _ := nofun
  acked _ := nofun
  own _ _ := nofun

theorem Step.contents (h : b.Step mode space a b') (hno : mode.predOracle = false)
    (hinv : b.Inv mode space) (hback : b.Backed) (hw : w ∈ b.contents) : w ∈ b'.contents := by
  cases h with
  | core | l1Replace | l1Response | l1Reset | arrive => exact hw
  | bank h =>
    cases h.effect hno hinv hback with
    | quiet _ hcont => exact (hcont w).mpr hw
    | read _ _ _ _ _ hcont => exact (hcont w).mpr hw
    | write _ _ _ _ _ _ _ _ _ _ hcont => exact (hcont w).mpr (.inr hw)

theorem own_update {ℓ : L1Line ι} (hh : b.HistoryInv)
    (hℓ : ∀ e, ℓ.entry = some e → ∀ w ∈ e.own, w.sid = i) (j : ι) (e : L1Entry ι)
    (he : (update b.l1 i ℓ j).entry = some e) : ∀ w ∈ e.own, w.sid = j := by
  by_cases hj : j = i
  · subst hj
    rw [update_self] at he
    exact hℓ e he
  · rw [update_of_ne hj] at he
    exact hh.own j e he

omit [DecidableEq ι] in
variable {m : ResponseMsg ι}

theorem HistoryInv.completes (hh : b.HistoryInv)
    (hm : m ∈ b.responseToL1 i) (hw : w ∈ m.completes) :
    m.type ≠ .DATA ∧ m.memfetch = some w ∧ w.sid = i ∧ w ∈ b.contents := by
  unfold ResponseMsg.completes at hw
  split at hw
  · cases hw
  · next htype =>
    obtain ⟨w', hmf, hsid, hcont⟩ := hh.answered i m hm htype
    rw [hmf, Option.toList_some, List.mem_singleton] at hw
    subst hw
    exact ⟨htype, hmf, hsid, hcont⟩

theorem Step.historyInv (h : b.Step mode space a b') (hno : mode.predOracle = false)
    (hinv : b.Inv mode space) (hback : b.Backed) (hh : b.HistoryInv) : b'.HistoryInv := by
  have hcont := fun w => h.contents (w := w) hno hinv hback
  cases h with
  | arrive => exact ⟨hh.answered, hh.acked, hh.own⟩
  | @l1Reset i _ hq => exact absurd (hinv.ideal hno i) hq
  | @core i type wid delta sent ℓ hmshr hstep =>
    refine ⟨hh.answered, hh.acked, own_update hh fun e he w hw => ?_⟩
    rcases hstep.own he hw with rfl | ⟨e₀, he₀, hw⟩
    · rfl
    · exact hh.own i e₀ he₀ w hw
  | @l1Replace i ℓ hstep =>
    refine ⟨hh.answered, hh.acked, own_update hh fun e he w hw => ?_⟩
    obtain ⟨e₀, he₀, hw⟩ := hstep.own he hw
    exact hh.own i e₀ he₀ w hw
  | @l1Response i k m ℓ hm hstep =>
    refine ⟨fun j x hx => hh.answered j x (mem_of_mem_erased hx), fun w hw => ?_,
      own_update hh fun e he w hw => ?_⟩
    · rcases List.mem_append.mp hw with hw | hw
      · exact hh.acked w hw
      · exact (hh.completes (mem_of_getElem?_eq_some hm) hw).2.2.2
    · obtain ⟨e₀, he₀, hw⟩ := hstep.own he hw
      exact hh.own i e₀ he₀ w hw
  | bank h =>
    obtain ⟨-, hl1, -, hacked, -⟩ := h.frame
    refine ⟨fun i m hm htype => ?_, fun w hw => hcont w (hh.acked w (hacked ▸ hw)), hl1 ▸ hh.own⟩
    have hold : m ∈ b.responseToL1 i → ∃ w, m.memfetch = some w ∧ w.sid = i ∧ w ∈ b'.contents := by
      intro hm
      obtain ⟨w, hmf, hsid, hw⟩ := hh.answered i m hm htype
      exact ⟨w, hmf, hsid, hcont w hw⟩
    cases h.effect hno hinv hback with
    | quiet hresp => exact hold (hresp ▸ hm)
    | read m₀ hresp hdata =>
      rw [hresp] at hm
      rcases L2.mem_send.mp hm with hm | ⟨rfl, -⟩
      · exact hold hm
      · exact absurd hdata htype
    | write m₀ r w hresp hdest hmf hsid _ _ _ hcont' =>
      rw [hresp] at hm
      rcases L2.mem_send.mp hm with hm | ⟨rfl, hi⟩
      · exact hold hm
      · rw [hdest, Finset.mem_singleton] at hi
        exact ⟨w, hmf, hi ▸ hsid, (hcont' w).mpr (.inl rfl)⟩

/-! ## Stale copies -/

/-- The L1 of `j` has, or is being sent, a lease until `t` on a copy without the write `w`. -/
def Stale (b : Block ι) (j : ι) (w : MemFetch ι) (t : Nat) : Prop := ∃ D, b.Copy j t D ∧ w ∉ D

theorem BankStep.copy_fresh (h : BankStep mode b a b') (hno : mode.predOracle = false)
    (hinv : b.Inv mode space) (hback : b.Backed) {D : DataBlock ι} (hj : b'.Copy j t D) :
    b.Copy j t D ∨ ∀ w ∈ b.contents, w ∈ D := by
  obtain ⟨hnow, hl1, -, -, -⟩ := h.frame
  cases h.effect hno hinv hback with
  | quiet hresp =>
    refine .inl (hj.of_frame hnow.ge ?_ ?_ ?_)
    · rw [hl1]
      exact fun _ _ => id
    · rw [hl1]
      exact fun _ => id
    · rw [hresp]
      exact fun _ => id
  | read m₀ hresp htype hdata =>
    rcases copy_send hl1 hnow hresp hj with hj | ⟨-, ⟨-, -, rfl⟩ | ⟨hne, -⟩⟩
    · exact .inl hj
    · exact .inr fun w hw => (hdata w).mpr hw
    · exact absurd htype hne
  | write m₀ r w₀ hresp hdest hmf hsid hans hperf hdata =>
    rcases copy_send hl1 hnow hresp hj with hj | ⟨-, ⟨htype, -⟩ | ⟨-, τ, e, -, -, h⟩⟩
    · exact .inl hj
    · exact absurd htype hans.type_ne_data
    · right
      intro w hw
      rcases h with ⟨-, rfl⟩ | ⟨hG, -, rfl⟩
      · unfold ResponseMsg.brings
        split
        · next hG => exact (hdata hG w).mpr hw
        · exact (hperf w).mpr (.inr hw)
      · exact (hdata hG w).mpr hw

/-- **Stale copies are not made.** Once a write has been performed, a step leaves no L1 but the
writer's with a lease on a copy without it that it did not have before. -/
theorem Step.stale (h : b.Step mode space a b') (hno : mode.predOracle = false)
    (hinv : b.Inv mode space) (hback : b.Backed) (hf : ∀ i, b.FreshInv i) (hh : b.HistoryInv)
    (hw : w ∈ b.contents) (hj : j ≠ w.sid) (hst : b'.Stale j w t) : b.Stale j w t := by
  obtain ⟨D, hc, hD⟩ := hst
  cases h with
  | bank h =>
    rcases BankStep.copy_fresh h hno hinv hback hc with hc | hfresh
    · exact ⟨D, hc, hD⟩
    · exact absurd (hfresh w hw) hD
  | core _ hstep => exact ⟨D, copy_core hinv hstep hc, hD⟩
  | l1Replace hstep => exact ⟨D, copy_replace hstep hc, hD⟩
  | arrive => exact ⟨D, copy_arrive hc, hD⟩
  | @l1Reset i _ hq => exact absurd (hinv.ideal hno i) hq
  | l1Response hm hstep =>
    obtain ⟨D₀, hc₀, hsub⟩ := copy_response hm hstep hc
    refine ⟨D₀, hc₀, fun hw₀ => ?_⟩
    rcases hsub (hf j) w hw₀ with hw | ⟨e, he, hown⟩
    · exact hD hw
    · exact hj (hh.own j e he w hown).symm

omit [DecidableEq ι] in
theorem stale_tick (h : b.tick.Stale j w t) : b.Stale j w t := by
  obtain ⟨D, hc, hD⟩ := h
  exact ⟨D, copy_tick hc, hD⟩

/-! ## Acknowledgements under way -/

/-- The bound an acknowledgement under way brings: a lease of another L1 on a copy without the write is
over, or the acknowledgement is global and its completion time is not before the end of the lease. -/
def AckInv (b : Block ι) : Prop :=
  ∀ i, ∀ m ∈ b.responseToL1 i, m.type ≠ .DATA → ∀ w, m.memfetch = some w →
    ∀ j t, j ≠ i → b.Stale j w t → t < b.now ∨ m.isGlobal = true ∧ t ≤ m.gwct

omit [DecidableEq ι] in
theorem ackInv_init : ({} : Block ι).AckInv := fun _ _ => nofun

omit [DecidableEq ι] in
theorem AckInv.tick (ha : b.AckInv) : b.tick.AckInv := by
  intro i m hm htype w hw j t hj hst
  exact (ha i m hm htype w hw j t hj (stale_tick hst)).imp Nat.lt_succ_of_lt id

omit [DecidableEq ι] in
theorem Answers.isGlobal {r : ι} (hans : b.Answers r w m a)
    (hne : m.type ≠ .ACK) : m.isGlobal = true := by
  unfold ResponseMsg.isGlobal
  cases hans with
  | @request m₀ rest e hq ht he hm₀ hr hw htype =>
    rcases e.answerType_cases b.now m₀ with h | h | h | h
    · exact absurd (htype.trans h) hne
    · simp [htype, h]
    · simp [htype, h]
    · simp [htype, h]
  | waiting ht hs hr hw htype =>
    rw [htype]
    split <;> rfl

theorem Step.ackInv (h : b.Step mode space a b') (hno : mode.predOracle = false)
    (hinv : b.Inv mode space) (hl : b.LeaseInv) (hf : ∀ i, b.FreshInv i) (hs : b.Sole)
    (hh : b.HistoryInv) (ha : b.AckInv) : b'.AckInv := by
  intro i m hm htype w hw j t hj hst
  rw [h.now_eq]
  -- an acknowledgement that was under way before
  have hold : m ∈ b.responseToL1 i → t < b.now ∨ m.isGlobal = true ∧ t ≤ m.gwct := by
    intro hm
    obtain ⟨w', hw', hsid, hcont⟩ := hh.answered i m hm htype
    obtain rfl : w = w' := Option.some.inj (hw.symm.trans hw')
    refine ha i m hm htype w hw j t hj ?_
    exact h.stale hno hinv hl.backed hf hh hcont (by rw [hsid]; exact hj) hst
  cases h with
  | core | l1Replace | l1Reset | arrive => exact hold hm
  | l1Response => exact hold (mem_of_mem_erased hm)
  | bank h =>
    obtain ⟨hnow, hl1, -, -, -⟩ := h.frame
    cases h.effect hno hinv hl.backed with
    | quiet hresp => exact hold (hresp ▸ hm)
    | read m₀ hresp hdata =>
      rw [hresp] at hm
      rcases L2.mem_send.mp hm with hm | ⟨rfl, -⟩
      · exact hold hm
      · exact absurd hdata htype
    | write m₀ r w₀ hresp hdest _ _ hans _ _ _ _ _ _ hgwct =>
      rw [hresp] at hm
      rcases L2.mem_send.mp hm with hm | ⟨rfl, hi⟩
      · exact hold hm
      · rw [hdest, Finset.mem_singleton] at hi
        subst hi
        obtain ⟨D, hc, -⟩ := hst
        have hc := copy_of_answer hl1 hnow hresp hdest hj hc
        by_cases hlive : b.now ≤ t
        · have hne := hans.classified hinv hl hs hj hc hlive
          exact .inr ⟨hans.isGlobal hne, (hl.le_recordedTime hc.lease hlive).trans hgwct⟩
        · exact .inl (not_le.mp hlive)

/-- Taking in a global acknowledgement, the L1 notes the completion time for the warp of the write, and
does not lose a later one that is still to come. -/
def NotesWarp (b : Block ι) (gw : GlobalWrites ι) : BlockAct ι → Prop
  | .l1Response i k =>
    match (b.responseToL1 i)[k]?, (b.l1 i).tbe with
    | some m, some t =>
      match m.memfetch with
      | some w => m.isGlobal = true →
          t.threadID = w.wid ∧ (gw i w.wid ≤ b.now ∨ gw i w.wid ≤ m.gwct)
      | none => True
    | _, _ => True
  | _ => True

instance decidableNotesWarp (b : Block ι) (gw : GlobalWrites ι) : ∀ act, Decidable (b.NotesWarp gw act)
  | .l1Response i k =>
    show Decidable (match (b.responseToL1 i)[k]?, (b.l1 i).tbe with
      | some m, some t =>
        match m.memfetch with
        | some w => m.isGlobal = true →
            t.threadID = w.wid ∧ (gw i w.wid ≤ b.now ∨ gw i w.wid ≤ m.gwct)
        | none => True
      | _, _ => True) from
    match (b.responseToL1 i)[k]?, (b.l1 i).tbe with
    | some m, some t =>
      show Decidable (match m.memfetch with
        | some w => m.isGlobal = true →
            t.threadID = w.wid ∧ (gw i w.wid ≤ b.now ∨ gw i w.wid ≤ m.gwct)
        | none => True) from
      match m.memfetch with
      | some w => inferInstanceAs (Decidable (m.isGlobal = true →
          t.threadID = w.wid ∧ (gw i w.wid ≤ b.now ∨ gw i w.wid ≤ m.gwct)))
      | none => .isTrue trivial
    | none, _ => .isTrue trivial
    | some _, none => .isTrue trivial
  | .core .. => .isTrue trivial
  | .l1Replace _ => .isTrue trivial
  | .l1Reset _ => .isTrue trivial
  | .arrive _ => .isTrue trivial
  | .l2Request => .isTrue trivial
  | .l2Replace => .isTrue trivial
  | .l2Expire _ => .isTrue trivial
  | .l2Memory => .isTrue trivial

/-- A bound on the end of a lease that holds before the step still holds with the times noted in it. -/
theorem NotesWarp.le_noted (hn : b.NotesWarp gw a) (hh : b.HistoryInv)
    {wid : Nat} (ht : t ≤ b.now ∨ t ≤ gw i wid) : t ≤ b.now ∨ t ≤ b.noted gw a i wid := by
  cases a with
  | l1Response r k =>
    simp only [noted]
    cases hm : (b.responseToL1 r)[k]? with
    | none => exact ht
    | some m =>
      by_cases hi : i = r
      · subst hi
        simp only [update_self, ResponseMsg.note]
        cases htbe : (b.l1 i).tbe with
        | none => exact ht
        | some τ =>
          by_cases hglob : m.isGlobal = true
          · simp only [hglob, if_true]
            by_cases hwid : wid = τ.threadID
            · -- the entry of the warp is overwritten
              have htype : m.type ≠ .DATA := by
                intro h
                simp [ResponseMsg.isGlobal, h] at hglob
              obtain ⟨w, hw, -⟩ := hh.answered i m (mem_of_getElem?_eq_some hm) htype
              simp only [NotesWarp, hm, htbe, hw] at hn
              obtain ⟨hthread, hlate⟩ := hn hglob
              subst hwid
              rw [update_self]
              rw [hthread] at ht
              omega
            · rw [update_of_ne hwid]
              exact ht
          · simp only [hglob, Bool.false_eq_true, if_false]
            exact ht
      · simp only [update_of_ne hi]
        exact ht
  | _ => exact ht

theorem Inv.tbe_of_response (hinv : b.Inv mode space)
    (hm : m ∈ b.responseToL1 i) : ∃ τ, (b.l1 i).tbe = some τ := by
  cases h : (b.l1 i).tbe with
  | some τ => exact ⟨τ, rfl⟩
  | none =>
    have := (hinv.line i).tbe_eq_none_iff.mp h m.kind
    exact absurd this (outstanding_pos hm).ne'

theorem NotesWarp.gwct_le_noted {k : Nat}
    (hn : b.NotesWarp gw (.l1Response i k)) (hinv : b.Inv mode space)
    (hm : (b.responseToL1 i)[k]? = some m) (hw : m.memfetch = some w) (hglob : m.isGlobal = true) :
    m.gwct ≤ b.noted gw (.l1Response i k) i w.wid := by
  obtain ⟨τ, hτ⟩ := hinv.tbe_of_response (mem_of_getElem?_eq_some hm)
  simp only [NotesWarp, hm, hτ, hw] at hn
  simp [noted, hm, ResponseMsg.note, hτ, hglob, (hn hglob).1]

/-! ## Acknowledged writes -/

/-- The bound the L1 of a write has noted when it is acknowledged. -/
def Noted (b : Block ι) (gw : GlobalWrites ι) : Prop :=
  ∀ w ∈ b.acked, ∀ j t, j ≠ w.sid → b.Stale j w t → t ≤ b.now ∨ t ≤ gw w.sid w.wid

theorem Step.mem_acked (h : b.Step mode space a b') (hw : w ∈ b'.acked) :
    w ∈ b.acked ∨ ∃ i k m, a = .l1Response i k ∧ (b.responseToL1 i)[k]? = some m ∧ w ∈ m.completes := by
  cases h with
  | core | l1Replace | l1Reset | arrive => exact .inl hw
  | bank h => exact .inl (h.frame.2.2.2.1 ▸ hw)
  | @l1Response i k m ℓ hm hstep =>
    rcases List.mem_append.mp hw with hw | hw
    · exact .inl hw
    · exact .inr ⟨i, k, m, rfl, hm, hw⟩

theorem Step.acked_subset (h : b.Step mode space a b') : b.acked ⊆ b'.acked := by
  cases h with
  | core | l1Replace | l1Reset | arrive => exact List.Subset.refl _
  | bank h => exact h.frame.2.2.2.1 ▸ List.Subset.refl _
  | l1Response => exact List.subset_append_left _ _

/-- **The step lemma of the noted times.** -/
theorem Step.noted_bound (h : b.Step mode space a b') (hno : mode.predOracle = false)
    (hinv : b.Inv mode space) (hback : b.Backed) (hf : ∀ i, b.FreshInv i) (hh : b.HistoryInv)
    (ha : b.AckInv) (hn : b.NotesWarp gw a) (hP : b.Noted gw) : b'.Noted (b.noted gw a) := by
  intro w hw j t hj hst
  rw [h.now_eq]
  rcases h.mem_acked hw with hw | ⟨i, k, m, rfl, hm, hw⟩
  · have hst := h.stale hno hinv hback hf hh (hh.acked w hw) hj hst
    exact hn.le_noted hh (hP w hw j t hj hst)
  · -- the write is acknowledged by this step
    have hmem := mem_of_getElem?_eq_some hm
    obtain ⟨htype, hmf, rfl, hcont⟩ := hh.completes hmem hw
    have hst := h.stale hno hinv hback hf hh hcont hj hst
    rcases ha w.sid m hmem htype w hmf j t hj hst with hover | ⟨hglob, hle⟩
    · exact .inl hover.le
    · exact .inr (hle.trans (hn.gwct_le_noted hinv hm hmf hglob))

end Block

/-! ## Fences -/

section System

variable {α : Type} [DecidableEq α] {mode : L2.Mode} {space : α → MemorySpaceType} {s s' : Sys α ι}

namespace Sys

/-- The bound on a lease is handed on. The steps of the blocks are those of `renewed_copy_fresh` and
`acks_classified`, and the completion times are noted for the right warp; a fence that waits for the
noted time finds no lease that ends exactly then: at the completion time such a lease is still live. -/
def KeepsFences (s : Sys α ι) : SysAct α ι → Prop
  | .block a act => (s.block a).MatchesInMI act ∧ (s.block a).KeepsSole act ∧
      (s.block a).NotesWarp s.globalWrites act
  | .fence i wid => s.now < s.globalWrites i wid → ∀ a, ∀ w ∈ s.ackedBy i wid a, ∀ j, j ≠ i →
      ∀ p ∈ (s.block a).copies j, w ∉ p.2 → p.1 ≠ s.globalWrites i wid
  | _ => True

instance decidableKeepsFences [Fintype α] [Fintype ι] (s : Sys α ι) :
    ∀ act, Decidable (s.KeepsFences act)
  | .block a act => inferInstanceAs (Decidable ((s.block a).MatchesInMI act ∧
      (s.block a).KeepsSole act ∧ (s.block a).NotesWarp s.globalWrites act))
  | .fence i wid => inferInstanceAs (Decidable (s.now < s.globalWrites i wid →
      ∀ a, ∀ w ∈ s.ackedBy i wid a, ∀ j, j ≠ i →
        ∀ p ∈ (s.block a).copies j, w ∉ p.2 → p.1 ≠ s.globalWrites i wid))
  | .tick => .isTrue trivial
  | .fenceAck _ _ => .isTrue trivial

/-- The bounds on the stale copies of an acknowledged write: the time noted for its warp, and the
completion time of every fence issued since. -/
structure FenceInv (s : Sys α ι) : Prop where
  noted : ∀ a, (s.block a).Noted s.globalWrites
  fences : ∀ f ∈ s.fences, ∀ a, ∀ w ∈ f.before a, w.sid = f.sid ∧ w ∈ (s.block a).acked ∧
    ∀ j t, j ≠ f.sid → (s.block a).Stale j w t → t < f.completeTime

omit [DecidableEq ι] [DecidableEq α] in
theorem fenceInv_init : ({} : Sys α ι).FenceInv where
  noted _ _ := nofun
  fences _ := nofun

omit [DecidableEq α] in
theorem FenceInv.issue (hinv : s.Inv mode space) (hP : s.FenceInv) {i j : ι} {wid t : Nat}
    (hkeep : s.KeepsFences (.fence i wid)) {a : α} {w : MemFetch ι} (hw : w ∈ s.ackedBy i wid a)
    (hj : j ≠ i) (hst : (s.block a).Stale j w t) : t < s.completeTime i wid := by
  obtain ⟨hacked, hwarp⟩ := List.mem_filter.mp hw
  obtain ⟨rfl, rfl⟩ : w.sid = i ∧ w.wid = wid := by simpa using hwarp
  have hbound := hP.noted a w hacked j t hj hst
  rw [hinv.now a] at hbound
  have hne : s.now < s.globalWrites w.sid w.wid → t ≠ s.globalWrites w.sid w.wid := by
    intro hlate
    obtain ⟨D, hc, hD⟩ := hst
    exact hkeep hlate a w hw j hj _ hc.mem_copies hD
  unfold completeTime
  omega

/-- **The step lemma of fences.** -/
theorem Step.fenceInv {act : SysAct α ι} (h : s.Step mode space act s')
    (hno : mode.predOracle = false) (hinv : s.Inv mode space) (hl : ∀ a, (s.block a).LeaseInv)
    (hf : ∀ a i, (s.block a).FreshInv i) (hh : ∀ a, (s.block a).HistoryInv)
    (ha : ∀ a, (s.block a).AckInv) (hkeep : s.KeepsFences act) (hP : s.FenceInv) : s'.FenceInv := by
  cases h with
  | fenceAck => exact ⟨hP.noted, hP.fences⟩
  | tick =>
    refine ⟨fun a w hw j t hj hst => ?_, fun f hf a w hw => ?_⟩
    · exact (hP.noted a w hw j t hj (Block.stale_tick hst)).imp Nat.le_succ_of_le id
    · obtain ⟨hsid, hacked, hover⟩ := hP.fences f hf a w hw
      exact ⟨hsid, hacked, fun j t hj hst => hover j t hj (Block.stale_tick hst)⟩
  | @fence i wid =>
    refine ⟨hP.noted, fun f hf a w hw => ?_⟩
    rcases List.mem_append.mp hf with hf | hf
    · exact hP.fences f hf a w hw
    · obtain rfl := List.mem_singleton.mp hf
      obtain ⟨hacked, hwarp⟩ := List.mem_filter.mp hw
      have hsid : w.sid = i := (of_decide_eq_true hwarp).1
      exact ⟨hsid, hacked, fun j t hj hst => hP.issue hinv hkeep hw hj hst⟩
  | @block a act b hstep =>
    obtain ⟨-, -, hnotes⟩ := hkeep
    refine ⟨fun a' => ?_, fun f hfen a' w hw => ?_⟩
    · by_cases haa : a' = a
      · subst haa
        simp only [update_self]
        exact hstep.noted_bound hno (hinv.block a') (hl a').backed (hf a') (hh a') (ha a') hnotes
          (hP.noted a')
      · -- the other blocks see the new times as well
        simp only [update_of_ne haa]
        intro w hw j t hj hst
        have hbound := hP.noted a' w hw j t hj hst
        rw [hinv.now a', ← hinv.now a] at hbound
        rw [hinv.now a', ← hinv.now a]
        exact hnotes.le_noted (hh a) hbound
    · obtain ⟨hsid, hacked, hover⟩ := hP.fences f hfen a' w hw
      by_cases haa : a' = a
      · subst haa
        simp only [update_self]
        refine ⟨hsid, hstep.acked_subset hacked, fun j t hj hst => hover j t hj ?_⟩
        exact hstep.stale hno (hinv.block a') (hl a').backed (hf a') (hh a') ((hh a').acked w hacked)
          (hsid ▸ hj) hst
      · simp only [update_of_ne haa]
        exact ⟨hsid, hacked, hover⟩

end Sys

theorem system_historyInv {ok : Sys α ι → SysAct α ι → Prop} (hno : mode.predOracle = false)
    (h : (system ι mode space).ReachableUnder ok s) (a : α) : (s.block a).HistoryInv :=
  system_block_invariant (fun _ b => b.HistoryInv) (fun _ => Block.historyInv_init)
    (fun _ _ hh => ⟨hh.answered, hh.acked, hh.own⟩)
    (fun _ a _ _ hs _ hstep hh => hstep.historyInv hno ((system_reachable_inv hs).block a)
      (system_leaseInv hno hs a).backed hh) h a

theorem system_ackInv (hno : mode.predOracle = false)
    (h : (system ι mode space).ReachableUnder Sys.KeepsFences s) (a : α) : (s.block a).AckInv := by
  refine system_block_invariant (fun _ b => b.AckInv) (fun _ => Block.ackInv_init)
    (fun _ _ ha => ha.tick) ?_ h a
  intro s a act b' hs hact hstep ha
  exact hstep.ackInv hno ((system_reachable_inv hs).block a) (system_leaseInv hno hs a)
    (system_freshInv hno (fun _ _ _ h => h.1) hs a) (system_sole hno (fun _ _ _ h => h.2.1) hs a)
    (system_historyInv hno hs a) ha

theorem system_fenceInv (hno : mode.predOracle = false)
    (h : (system ι mode space).ReachableUnder Sys.KeepsFences s) : s.FenceInv := by
  refine system_invariant Sys.fenceInv_init ?_ h
  intro s act s' hs hact hstep hP
  exact hstep.fenceInv hno (system_reachable_inv hs) (system_leaseInv hno hs)
    (system_freshInv hno (fun _ _ _ h => h.1) hs) (system_historyInv hno hs)
    (system_ackInv hno hs) hact hP

omit [DecidableEq α] in
variable {e : L1Entry ι}

theorem copy_of_hit {a : α} {i : ι} (hinv : (s.block a).Inv mode (space a))
    (hstate : L1.getState ((s.block a).l1Ctx gw i) = .S ∨ L1.getState ((s.block a).l1Ctx gw i) = .SM)
    (he : ((s.block a).l1 i).entry = some e) : ∃ t, (s.block a).Copy i t e.dataBlk ∧ (s.block a).now ≤ t := by
  rcases hstate with hS | hSM
  · cases ht : ((s.block a).l1 i).tbe with
    | none =>
      rcases L1.getState_idle (c := (s.block a).l1Ctx gw i) ht ((hinv.line i).idleEntry ht) with
        h | ⟨-, e', he', hes, hlive⟩
      · rw [hS] at h
        cases h
      · obtain rfl : e = e' := Option.some.inj (he.symm.trans he')
        exact ⟨_, .held ⟨ht, he, hes⟩, hlive⟩
    | some τ =>
      have hstate : τ.stateAt (s.block a).now = .S :=
        (L1.getState_tbe (c := (s.block a).l1Ctx gw i) ht).symm.trans hS
      rcases (hinv.line i).stateAt_cases ht (s.block a).now with ⟨h, -⟩ | h | h
      · rw [hstate] at h
        cases h
      · rw [hstate] at h
        cases h
      · rw [hstate] at h
        cases h
  · obtain ⟨τ, hup, hlive⟩ := L1Line.upgrading_of_getState hinv hSM he
    exact ⟨_, .upgrading hup, hlive⟩

/-- **The fence law.** In a run whose steps keep the bounds: once the completion time of a fence has
come, the copy that a load of another L1 hits contains every write of the warp that had been
acknowledged when the fence was issued. -/
theorem fence_law (hno : mode.predOracle = false)
    (hs : (system ι mode space).ReachableUnder Sys.KeepsFences s) {f : Fence α ι} (hf : f ∈ s.fences)
    (hdone : f.completeTime ≤ s.now) {a : α} {w : MemFetch ι} (hw : w ∈ f.before a) {j : ι}
    (hj : j ≠ f.sid)
    (hstate : L1.getState ((s.block a).l1Ctx s.globalWrites j) = .S ∨
      L1.getState ((s.block a).l1Ctx s.globalWrites j) = .SM)
    (he : ((s.block a).l1 j).entry = some e) : w ∈ e.dataBlk := by
  have hinv := system_reachable_inv hs
  obtain ⟨-, -, hover⟩ := (system_fenceInv hno hs).fences f hf a w hw
  obtain ⟨t, hc, hlive⟩ := copy_of_hit (hinv.block a) hstate he
  rw [hinv.now a] at hlive
  by_contra hmiss
  have := hover j t hj ⟨_, hc, hmiss⟩
  omega

end System

/-- The time, what the L1 of `false` has, and the first fence. -/
def Sys.afterFence (s : Sys Unit Bool) :=
  (s.now, L1.getState ((s.block ()).l1Ctx s.globalWrites false), ((s.block ()).l1 false).entry,
    s.fences.head?.map fun f => (f.sid, f.completeTime, f.before ()), s.fenceTriggerQueue true)

/-- Both L1s have a lease when `true`, which has given up its copy, stores. The fence waits until both
leases would be over; in the meantime `false` has loaded the block again. -/
theorem fence_law_reload :
    ∃ s f e, twoL1s.ReachableUnder Sys.KeepsFences s ∧ f ∈ s.fences ∧ f.completeTime = 37 ∧
      s.now = 37 ∧ f.before () = [⟨2, true, 0⟩] ∧
      L1.getState ((s.block ()).l1Ctx s.globalWrites false) = .S ∧
      ((s.block ()).l1 false).entry = some e ∧ ⟨2, true, 0⟩ ∈ e.dataBlk := by
  obtain ⟨s, -, hs, hf⟩ := Machine.exists_reachableUnder_of_run twoL1s Sys.KeepsFences
    (loadFirst 20 ++ [.block () (.core true .LD 0 30), .tick, .block () (.arrive true), .tick,
      .block () .l2Request, .tick, .block () (.l1Response true 0), .block () (.l1Replace true),
      .block () (.core true .ST 0 0), .tick, .block () (.arrive true), .tick, .block () .l2Request,
      .tick, .block () (.l1Response true 0), .fence true 0] ++ List.replicate 23 .tick ++
      [.block () (.core false .LD 1 20), .tick, .block () (.arrive false), .tick, .block () .l2Request,
        .tick, .block () (.l1Response false 0)])
    Sys.afterFence
    (y := (37, .S, some { cacheState := .S, liveUntilTime := 56, dataBlk := [⟨2, true, 0⟩] },
      some (true, 37, [⟨2, true, 0⟩]), [⟨.FENCE, 0, 37⟩])) (by decide) rfl
  simp only [Sys.afterFence, Prod.mk.injEq, Option.map_eq_some_iff] at hf
  obtain ⟨hnow, hstate, he, ⟨f, hhead, hsid, hdone, hbefore⟩, -⟩ := hf
  have hmem := List.mem_of_mem_head? hhead
  refine ⟨s, f, _, hs, hmem, hdone, hnow, hbefore, hstate, he, ?_⟩
  exact fence_law rfl hs hmem (by rw [hdone, hnow]) (by rw [hbefore]; exact List.mem_singleton_self _)
    (by rw [hsid]; decide) (.inl hstate) he

/-- **A fence completes one cycle too early.** The store of `true` is acknowledged while `false` has a
lease until 24, and the fence completes at 24, when this lease is still live: `false` hits a copy
without the store. -/
theorem fence_completes_early :
    ∃ s f e w, twoL1s.Reachable s ∧ f ∈ s.fences ∧ f.sid = true ∧ f.completeTime ≤ s.now ∧
      s.fenceTriggerQueue true = [] ∧ w ∈ f.before () ∧
      L1.getState ((s.block ()).l1Ctx s.globalWrites false) = .S ∧
      L1.isLive ((s.block ()).l1Ctx s.globalWrites false) = true ∧
      ((s.block ()).l1 false).entry = some e ∧ w ∉ e.dataBlk := by
  obtain ⟨s, -, hs, hf⟩ := Machine.exists_reachable_of_run twoL1s
    (loadFirst 20 ++ [.block () (.core true .ST 0 0), .tick, .block () (.arrive true), .tick,
      .block () .l2Request, .tick, .block () (.l1Response true 0), .fence true 0] ++
      List.replicate 16 .tick ++ [.fenceAck true 0])
    (fun s => (s.afterFence, L1.isLive ((s.block ()).l1Ctx s.globalWrites false)))
    (y := ((24, .S, some { cacheState := .S, liveUntilTime := 24 },
      some (true, 24, [⟨1, true, 0⟩]), []), true)) rfl
  simp only [Sys.afterFence, Prod.mk.injEq, Option.map_eq_some_iff] at hf
  obtain ⟨⟨hnow, hstate, he, ⟨f, hhead, hsid, hdone, hbefore⟩, hqueue⟩, hlive⟩ := hf
  refine ⟨s, f, _, ⟨1, true, 0⟩, hs, List.mem_of_mem_head? hhead, hsid, ?_, hqueue, ?_, hstate, hlive,
    he, List.not_mem_nil⟩
  · rw [hdone, hnow]
  · rw [hbefore]
    exact List.mem_singleton_self _

end GpgpuSimRuby.Ruby.Cachelease3
