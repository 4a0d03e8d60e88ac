import GpgpuSimRuby.Ruby.Cachelease3.Freshness

/-!
# cachelease3: sharing

The L2 knows no sharers. It takes `S` to mean that a single L1 has a lease that ends with the time on
record, and answers an upgrade of that L1 with a plain acknowledgement: nobody else can read an older
copy.

* `Block.Copy b i t D` — the L1 of `i` has, or is being sent, a lease until `t` on a copy with the
  contents `D`.
* `Block.Sole` — the meaning of `S`: a lease that ends with the time on record has no live rival.
* `Block.KeepsSole` — the condition on a step under which the L2 does not go to `S` and give out a
  lease while another L1 still has one.
-/

namespace GpgpuSimRuby.Ruby.Cachelease3

open Library Function

variable {ι : Type} [DecidableEq ι]

/-! ## Copies -/

/-- What the copy of an L1 in `SM` contains for certain once it has taken in the response: the data of
the response, or what the L2 had performed. -/
def ResponseMsg.brings (m : ResponseMsg ι) : DataBlock ι :=
  if m.type = .DATA_GLOBAL then m.dataBlk else m.performed

namespace Block

/-- The leases the L1 of `i` has, or is being sent, on a copy that a load can hit, with what is in the
copy. In a live `SM` a response in flight renews the lease (`grant`), and one with data replaces the
copy under the lease it already has (`refresh`). -/
inductive Copy (b : Block ι) (i : ι) : Nat → DataBlock ι → Prop
  | held {e} (h : (b.l1 i).Holds e) : Copy b i e.liveUntilTime e.dataBlk
  | upgrading {t e} (h : (b.l1 i).Upgrading t e) : Copy b i t.liveUntilTime e.dataBlk
  | data {m} (hm : m ∈ b.responseToL1 i) (htype : m.type = .DATA) :
      Copy b i m.liveUntilTime m.dataBlk
  | grant {t e m} (h : (b.l1 i).Upgrading t e) (hlive : b.now ≤ t.liveUntilTime)
      (hm : m ∈ b.responseToL1 i) (htype : m.type ≠ .DATA) : Copy b i m.liveUntilTime m.brings
  | refresh {t e m} (h : (b.l1 i).Upgrading t e) (hlive : b.now ≤ t.liveUntilTime)
      (hm : m ∈ b.responseToL1 i) (htype : m.type = .DATA_GLOBAL) :
      Copy b i t.liveUntilTime m.dataBlk

variable {mode : L2.Mode} {space : MemorySpaceType} {b b' : Block ι} {a : BlockAct ι}
  {i j : ι} {t : Nat} {D : DataBlock ι} {r : ι} {ℓ : L1Line ι}

omit [DecidableEq ι] in
theorem Copy.lease (h : b.Copy i t D) : b.Lease i t := by
  cases h with
  | held h => exact .line (.entry h.entry rfl)
  | upgrading h => exact .line (.tbe h.tbe rfl)
  | data hm => exact .response hm
  | grant _ _ hm => exact .response hm
  | refresh h => exact .line (.tbe h.tbe rfl)

omit [DecidableEq ι] in
theorem Copy.of_frame (h : b'.Copy i t D) (hnow : b.now ≤ b'.now)
    (hup : ∀ τ e, (b'.l1 i).Upgrading τ e → (b.l1 i).Upgrading τ e)
    (hheld : ∀ e, (b'.l1 i).Holds e → (b.l1 i).Holds e)
    (hresp : ∀ m ∈ b'.responseToL1 i, m ∈ b.responseToL1 i) : b.Copy i t D := by
  cases h with
  | held h => exact .held (hheld _ h)
  | upgrading h => exact .upgrading (hup _ _ h)
  | data hm htype => exact .data (hresp _ hm) htype
  | grant h hlive hm htype => exact .grant (hup _ _ h) (hnow.trans hlive) (hresp _ hm) htype
  | refresh h hlive hm htype => exact .refresh (hup _ _ h) (hnow.trans hlive) (hresp _ hm) htype

theorem copy_core (hinv : b.Inv mode space) {wid delta : Nat} {sent : Option (RequestMsg ι)}
    (hstep : CoreStep b.now space ⟨b.nextUid, i, wid⟩ delta (b.l1 i) sent ℓ)
    (h : { b.setLine i ℓ sent with nextUid := b.nextUid + 1 }.Copy j t D) : b.Copy j t D := by
  by_cases hj : j = i
  · subst hj
    have hℓ : { b.setLine j ℓ sent with nextUid := b.nextUid + 1 }.l1 j = ℓ := by simp [setLine]
    -- with a response in flight the line was in `SM` before
    have hsame : ∀ {τ e m}, ℓ.Upgrading τ e → m ∈ b.responseToL1 j →
        ∃ τ₀ e₀, (b.l1 j).Upgrading τ₀ e₀ ∧ τ.liveUntilTime = τ₀.liveUntilTime := by
      intro τ e m hup hm
      rcases hstep.upgrading hup with ⟨-, τ₀, e₀, h, htime, -⟩ | ⟨-, e₀, -, -, -, h⟩
      · exact ⟨τ₀, e₀, h, htime⟩
      · rcases h with ⟨h, -⟩ | ⟨τ₀, h, htime⟩
        · exact absurd hm ((hinv.idle h.tbe).2.2 m)
        · exact ⟨τ₀, e₀, h, htime⟩
    cases h with
    | held h =>
      rw [hℓ] at h
      exact .held (hstep.holds h)
    | upgrading h =>
      rw [hℓ] at h
      rcases hstep.upgrading h with ⟨-, τ₀, e₀, h, htime, hdata, -⟩ | ⟨-, e₀, -, hdata, -, h⟩
      · rw [htime, hdata]
        exact .upgrading h
      · rw [hdata]
        rcases h with ⟨h, htime⟩ | ⟨τ₀, h, htime⟩
        · rw [htime]
          exact .held h
        · rw [htime]
          exact .upgrading h
    | data hm htype => exact .data hm htype
    | grant h hlive hm htype =>
      rw [hℓ] at h
      obtain ⟨τ₀, e₀, h, htime⟩ := hsame h hm
      rw [htime] at hlive
      exact .grant h hlive hm htype
    | refresh h hlive hm htype =>
      rw [hℓ] at h
      obtain ⟨τ₀, e₀, h, htime⟩ := hsame h hm
      rw [htime] at hlive ⊢
      exact .refresh h hlive hm htype
  · refine h.of_frame le_rfl ?_ ?_ fun _ => id
    · simp only [setLine, update_of_ne hj]
      exact fun _ _ => id
    · simp only [setLine, update_of_ne hj]
      exact fun _ => id

theorem copy_replace (hstep : ReplaceStep b.now (b.l1 i) ℓ)
    (h : { b with l1 := update b.l1 i ℓ }.Copy j t D) : b.Copy j t D := by
  by_cases hj : j = i
  · subst hj
    refine h.of_frame le_rfl ?_ ?_ fun _ => id
    · simp only [update_self]
      exact fun _ _ => hstep.upgrading
    · simp only [update_self]
      exact fun _ => hstep.holds
  · refine h.of_frame le_rfl ?_ ?_ fun _ => id
    · simp only [update_of_ne hj]
      exact fun _ _ => id
    · simp only [update_of_ne hj]
      exact fun _ => id

theorem copy_arrive {m : RequestMsg ι} {rest : List (RequestMsg ι)}
    (h : { b with toL2 := update b.toL2 i rest
                  l1RequestToL2Cache := b.l1RequestToL2Cache ++ [m] }.Copy j t D) : b.Copy j t D :=
  h.of_frame le_rfl (fun _ _ => id) (fun _ => id) fun _ => id

omit [DecidableEq ι] in
theorem copy_tick (h : b.tick.Copy i t D) : b.Copy i t D :=
  h.of_frame (Nat.le_succ _) (fun _ _ => id) (fun _ => id) fun _ => id

/-- Taking in a response makes up no lease; if the copies are fresh, it loses no store of another
L1 either. -/
theorem copy_response {k : Nat} {m : ResponseMsg ι}
    (hm : (b.responseToL1 i)[k]? = some m) (hstep : ResponseStep b.now m (b.l1 i) ℓ)
    (h : { b with l1 := update b.l1 i ℓ
                  responseToL1 := update b.responseToL1 i ((b.responseToL1 i).eraseIdx k)
                  acked := b.acked ++ m.completes }.Copy j t D) :
    ∃ D₀, b.Copy j t D₀ ∧ (b.FreshInv j → ∀ w ∈ D₀,
      w ∈ D ∨ ∃ e, (b.l1 j).entry = some e ∧ w ∈ e.own) := by
  have hsub : ∀ {x}, x ∈ update b.responseToL1 i ((b.responseToL1 i).eraseIdx k) j →
      x ∈ b.responseToL1 j := mem_of_mem_erased
  have hsame : ∀ {D}, b.Copy j t D → ∃ D₀, b.Copy j t D₀ ∧ (b.FreshInv j → ∀ w ∈ D₀,
      w ∈ D ∨ ∃ e, (b.l1 j).entry = some e ∧ w ∈ e.own) :=
    fun {D} h => ⟨D, h, fun _ w hw => .inl hw⟩
  by_cases hj : j = i
  · subst hj
    have hmem := mem_of_getElem?_eq_some hm
    have hℓ : update b.l1 j ℓ j = ℓ := update_self ..
    -- the data of a copy after the response
    have hrenewed : ∀ e : L1Entry ι, (e.renewed m).dataBlk =
        if m.type = .DATA_GLOBAL then m.dataBlk else e.dataBlk := fun _ => rfl
    cases h with
    | held h =>
      simp only [hℓ] at h
      obtain ⟨htime, h⟩ := hstep.holds h
      rw [htime]
      rcases h with ⟨htype, hdata, -⟩ | ⟨τ, e, hup, hlive, htype, hdata, -⟩
      · rw [hdata]
        exact ⟨_, .data hmem htype, fun _ w hw => .inl hw⟩
      · refine ⟨_, .grant hup hlive hmem htype, fun hf w hw => ?_⟩
        rw [hdata, hrenewed]
        unfold ResponseMsg.brings at hw
        by_cases hG : m.type = .DATA_GLOBAL
        · rw [if_pos hG] at hw ⊢
          exact .inl hw
        · rw [if_neg hG] at hw ⊢
          exact (hf.ack τ e hup hlive m hmem hG w hw).imp id fun h => ⟨e, hup.entry, h⟩
    | upgrading h =>
      simp only [hℓ] at h
      obtain ⟨τ, e, hup, hlive, htime, hdata, -⟩ := hstep.upgrading h
      rw [htime, hdata, hrenewed]
      by_cases hG : m.type = .DATA_GLOBAL
      · rw [if_pos hG]
        exact ⟨_, .refresh hup hlive hmem hG, fun _ w hw => .inl hw⟩
      · rw [if_neg hG]
        exact ⟨_, .upgrading hup, fun _ w hw => .inl hw⟩
    | data hx htype => exact hsame (.data (hsub hx) htype)
    | grant h _ hx htype =>
      simp only [hℓ] at h
      obtain ⟨τ, e, hup, hlive, -⟩ := hstep.upgrading h
      exact hsame (.grant hup hlive (hsub hx) htype)
    | refresh h _ hx htype =>
      simp only [hℓ] at h
      obtain ⟨τ, e, hup, hlive, htime, -⟩ := hstep.upgrading h
      rw [htime] at hsame ⊢
      exact hsame (.refresh hup hlive (hsub hx) htype)
  · refine hsame (h.of_frame le_rfl ?_ ?_ fun _ => hsub)
    · simp only [update_of_ne hj]
      exact fun _ _ => id
    · simp only [update_of_ne hj]
      exact fun _ => id

theorem copy_send {m : ResponseMsg ι} (hl1 : b'.l1 = b.l1) (hnow : b'.now = b.now)
    (hresp : b'.responseToL1 = (L2.send m b).responseToL1) (h : b'.Copy i t D) :
    b.Copy i t D ∨ i ∈ m.destination ∧ (m.type = .DATA ∧ t = m.liveUntilTime ∧ D = m.dataBlk ∨
        m.type ≠ .DATA ∧ ∃ τ e, (b.l1 i).Upgrading τ e ∧ b.now ≤ τ.liveUntilTime ∧
          (t = m.liveUntilTime ∧ D = m.brings ∨
            m.type = .DATA_GLOBAL ∧ t = τ.liveUntilTime ∧ D = m.dataBlk)) := by
  cases h with
  | held h => exact .inl (.held (hl1 ▸ h))
  | upgrading h => exact .inl (.upgrading (hl1 ▸ h))
  | data hx htype =>
    rw [hresp] at hx
    rcases L2.mem_send.mp hx with hx | ⟨rfl, hi⟩
    · exact .inl (.data hx htype)
    · exact .inr ⟨hi, .inl ⟨htype, rfl, rfl⟩⟩
  | grant h hlive hx htype =>
    rw [hl1] at h
    rw [hnow] at hlive
    rw [hresp] at hx
    rcases L2.mem_send.mp hx with hx | ⟨rfl, hi⟩
    · exact .inl (.grant h hlive hx htype)
    · exact .inr ⟨hi, .inr ⟨htype, _, _, h, hlive, .inl ⟨rfl, rfl⟩⟩⟩
  | refresh h hlive hx htype =>
    rw [hl1] at h
    rw [hnow] at hlive
    rw [hresp] at hx
    rcases L2.mem_send.mp hx with hx | ⟨rfl, hi⟩
    · exact .inl (.refresh h hlive hx htype)
    · exact .inr ⟨hi, .inr ⟨by rw [htype]; nofun, _, _, h, hlive, .inr ⟨htype, rfl, rfl⟩⟩⟩

/-! ## The meaning of `S` -/

/-- The L1 of `i` can have an upgrade with the time `t` at the L2: it has a copy with that lease, or an
upgrade under way. -/
inductive Entitled (b : Block ι) (i : ι) (t : Nat) : Prop
  | copy {D : DataBlock ι} (h : b.Copy i t D)
  | upgrade {m} (hm : b.InTransit m) (hi : m.requestor = i) (htype : m.type = .DATA_UPGRADE)
      (htime : m.liveUntilTime = t)

omit [DecidableEq ι] in
theorem Entitled.lease (h : b.Entitled i t) : b.Lease i t := by
  cases h with
  | copy h => exact h.lease
  | upgrade hm hi htype htime => exact htime ▸ .upgrade hm hi htype

/-- In an unexpired `S`, whoever is entitled to the time on record has no rival with a live lease. -/
def Sole (b : Block ι) : Prop :=
  b.tbe = none → ∀ e ∈ b.entry, e.cacheState = .S → b.now ≤ e.liveUntilTime →
    ∀ i, b.Entitled i e.liveUntilTime → ∀ j t D, j ≠ i → b.Copy j t D → t < b.now

/-- The copies of `i`, each with its lease. -/
def copies (b : Block ι) (i : ι) : List (Nat × DataBlock ι) :=
  ((b.responseToL1 i).filter (·.type = .DATA)).map (fun m => (m.liveUntilTime, m.dataBlk)) ++
  match (b.l1 i).tbe, (b.l1 i).entry with
  | none, some e => if e.cacheState = .S then [(e.liveUntilTime, e.dataBlk)] else []
  | some t, some e =>
    if t.tbeState = .SM then
      (t.liveUntilTime, e.dataBlk) ::
        if b.now ≤ t.liveUntilTime then
          ((b.responseToL1 i).filter (·.type ≠ .DATA)).map (fun m => (m.liveUntilTime, m.brings)) ++
            ((b.responseToL1 i).filter (·.type = .DATA_GLOBAL)).map
              fun m => (t.liveUntilTime, m.dataBlk)
        else []
    else []
  | _, none => []

omit [DecidableEq ι] in
theorem Copy.mem_copies (h : b.Copy i t D) : (t, D) ∈ b.copies i := by
  unfold copies
  rw [List.mem_append]
  cases h with
  | held h => right; simp [h.tbe, h.entry, h.state]
  | upgrading h => right; simp [h.tbe, h.entry, h.state]
  | data hm htype => exact .inl (List.mem_map.mpr ⟨_, by simp [hm, htype], rfl⟩)
  | @grant τ e m h hlive hm htype =>
    right
    simp only [h.tbe, h.entry, h.state, hlive, if_true, List.mem_cons, List.mem_append, List.mem_map,
      List.mem_filter, decide_eq_true_eq]
    exact .inr (.inl ⟨m, ⟨hm, htype⟩, rfl⟩)
  | @refresh τ e m h hlive hm htype =>
    right
    simp only [h.tbe, h.entry, h.state, hlive, if_true, List.mem_cons, List.mem_append, List.mem_map,
      List.mem_filter, decide_eq_true_eq]
    exact .inr (.inr ⟨m, ⟨hm, htype⟩, rfl⟩)

/-- No L1 but `r` has a copy with a live lease. -/
def Alone (b : Block ι) (r : ι) : Prop := ∀ j, j ≠ r → ∀ p ∈ b.copies j, p.1 < b.now

/-- No L1 but `r` has an upgrade under way whose time is not over. -/
def NoUpgrade (b : Block ι) (r : ι) : Prop :=
  (∀ j, j ≠ r → ∀ m ∈ b.toL2 j, m.type = .DATA_UPGRADE → m.liveUntilTime < b.now) ∧
    ∀ m ∈ b.l1RequestToL2Cache, m.requestor ≠ r → m.type = .DATA_UPGRADE → m.liveUntilTime < b.now

instance [Fintype ι] (b : Block ι) (r : ι) : Decidable (b.Alone r) :=
  inferInstanceAs (Decidable (∀ j, j ≠ r → ∀ p ∈ b.copies j, p.1 < b.now))

instance [Fintype ι] (b : Block ι) (r : ι) : Decidable (b.NoUpgrade r) := by
  unfold NoUpgrade
  infer_instance

/-- The step does not leave the block in `S` with a new lease while another L1 still has one: an
upgrade of a live copy in `SS` or with another time than the one on record, or the end of a fetch for
a single reader or for the upgrade of a live copy, finds all other leases over. -/
def KeepsSole (b : Block ι) : BlockAct ι → Prop
  | .l2Request =>
    match b.l1RequestToL2Cache, b.tbe, b.entry with
    | m :: _, none, some e => m.type = .DATA_UPGRADE → b.now ≤ e.liveUntilTime →
        (e.cacheState = .SS ∨ e.liveUntilTime ≠ m.liveUntilTime) → b.inSM m.requestor = true →
        b.Alone m.requestor
    | _, _, _ => True
  | .l2Memory =>
    match b.tbe with
    | some t =>
      (t.tbeState = .IS → t.l1GetSIDs.card ≤ 1 → ∀ r ∈ t.l1GetSIDs, b.Alone r ∧ b.NoUpgrade r) ∧
        (t.tbeState = .IM → ∀ r, t.l1WBAckID = some r → b.inSM r = true → b.Alone r)
    | none => True
  | _ => True

instance decidableKeepsSole [Fintype ι] (b : Block ι) : ∀ act, Decidable (b.KeepsSole act)
  | .l2Request =>
    show Decidable (match b.l1RequestToL2Cache, b.tbe, b.entry with
      | m :: _, none, some e => m.type = .DATA_UPGRADE → b.now ≤ e.liveUntilTime →
          (e.cacheState = .SS ∨ e.liveUntilTime ≠ m.liveUntilTime) → b.inSM m.requestor = true →
          b.Alone m.requestor
      | _, _, _ => True) from
    match b.l1RequestToL2Cache, b.tbe, b.entry with
    | m :: _, none, some e => inferInstanceAs (Decidable (m.type = .DATA_UPGRADE →
        b.now ≤ e.liveUntilTime → (e.cacheState = .SS ∨ e.liveUntilTime ≠ m.liveUntilTime) →
        b.inSM m.requestor = true → b.Alone m.requestor))
    | [], _, _ => .isTrue trivial
    | _ :: _, some _, _ => .isTrue trivial
    | _ :: _, none, none => .isTrue trivial
  | .l2Memory =>
    show Decidable (match b.tbe with
      | some t =>
        (t.tbeState = .IS → t.l1GetSIDs.card ≤ 1 → ∀ r ∈ t.l1GetSIDs, b.Alone r ∧ b.NoUpgrade r) ∧
          (t.tbeState = .IM → ∀ r, t.l1WBAckID = some r → b.inSM r = true → b.Alone r)
      | none => True) from
    match b.tbe with
    | some t => @instDecidableAnd _ _
        (inferInstanceAs (Decidable (t.tbeState = .IS → t.l1GetSIDs.card ≤ 1 →
          ∀ r ∈ t.l1GetSIDs, b.Alone r ∧ b.NoUpgrade r)))
        (inferInstanceAs (Decidable (t.tbeState = .IM → ∀ r, t.l1WBAckID = some r →
          b.inSM r = true → b.Alone r)))
    | none => .isTrue trivial
  | .core .. => .isTrue trivial
  | .l1Replace _ => .isTrue trivial
  | .l1Response .. => .isTrue trivial
  | .l1Reset _ => .isTrue trivial
  | .arrive _ => .isTrue trivial
  | .l2Replace => .isTrue trivial
  | .l2Expire _ => .isTrue trivial

omit [DecidableEq ι] in
theorem sole_init : ({} : Block ι).Sole := fun _ _ => nofun

omit [DecidableEq ι] in
theorem Sole.of_frame (hs : b.Sole) (ht : b'.tbe = b.tbe) (he : b'.entry = b.entry)
    (hnow : b.now ≤ b'.now) (hent : ∀ i t, b'.Entitled i t → b.Entitled i t)
    (hcopy : ∀ i t D, b'.Copy i t D → ∃ D₀, b.Copy i t D₀) : b'.Sole := by
  intro ht' e he' hS hlive i hi j t D hji hj
  obtain ⟨D₀, hj⟩ := hcopy j t D hj
  have := hs (ht ▸ ht') e (he ▸ he') hS (hnow.trans hlive) i (hent i _ hi) j t D₀ hji hj
  omega

omit [DecidableEq ι] in
theorem Sole.tick (hs : b.Sole) : b.tick.Sole := by
  refine hs.of_frame rfl rfl (Nat.le_succ _) (fun i t h => ?_) fun i t D h => ⟨D, copy_tick h⟩
  cases h with
  | copy h => exact .copy (copy_tick h)
  | upgrade hm hi htype htime => exact .upgrade hm hi htype htime

theorem CoreStep.entitled (hinv : b.Inv mode space) {wid delta : Nat} {m : RequestMsg ι}
    (h : CoreStep b.now space ⟨b.nextUid, i, wid⟩ delta (b.l1 i) (some m) ℓ)
    (htype : m.type = .DATA_UPGRADE) : ∃ D, b.Copy i m.liveUntilTime D := by
  cases h with
  | loadMiss => cases htype
  | loadMore => cases htype
  | upgrade ht he hs => exact ⟨_, .held ⟨ht, he, hs⟩⟩
  | @upgradeMore t ht hs =>
    obtain ⟨e, he⟩ := (hinv.line i).entry_isSome ht b.now (by rw [hs]; nofun)
    exact ⟨_, .upgrading ⟨ht, he, (L1TBE.stateAt_SM hs).1⟩⟩
  | write _ h => rcases h with rfl | rfl <;> cases htype
  | writeMore _ h => rcases h with rfl | rfl <;> cases htype

omit [DecidableEq ι] in
theorem Alone.over (ha : b.Alone i) (hji : j ≠ i) (hj : b.Copy j t D) : t < b.now :=
  ha j hji (t, D) hj.mem_copies

omit [DecidableEq ι] in
theorem NoUpgrade.over (hn : b.NoUpgrade i) {m : RequestMsg ι}
    (hm : b.InTransit m) (hne : m.requestor ≠ i) (htype : m.type = .DATA_UPGRADE) :
    m.liveUntilTime < b.now := by
  rcases hm with hm | hm
  · exact hn.1 m.requestor hne m hm htype
  · exact hn.2 m hm hne htype

/-- After a write is performed, only the requester can be entitled to the new time, and only if it
is in a live `SM`. -/
theorem entitled_of_write {b' : Block ι} {m : ResponseMsg ι} (hl : b.LeaseInv)
    (hl1 : b'.l1 = b.l1) (hnow : b'.now = b.now) (htransit : ∀ m, b'.InTransit m → b.InTransit m)
    (hresp : b'.responseToL1 = (L2.send m b).responseToL1) (hdest : m.destination = {r})
    (htype : m.type ≠ .DATA) (hrec : b.recordedTime < b'.recordedTime)
    (hlive : b.now ≤ b'.recordedTime) (h : b'.Entitled i b'.recordedTime) :
    i = r ∧ ∃ τ e, (b.l1 r).Upgrading τ e ∧ b.now ≤ τ.liveUntilTime := by
  have hold : ¬ b.Lease i b'.recordedTime := by
    intro hlease
    have := hl.le_recordedTime hlease hlive
    omega
  cases h with
  | upgrade hm hi hup htime => exact absurd (htime ▸ .upgrade (htransit _ hm) hi hup) hold
  | copy h =>
    rcases copy_send hl1 hnow hresp h with h | ⟨hi, h⟩
    · exact absurd h.lease hold
    · rw [hdest, Finset.mem_singleton] at hi
      subst hi
      rcases h with ⟨hdata, -⟩ | ⟨-, τ, e, hup, hτ, -⟩
      · exact absurd hdata htype
      · exact ⟨rfl, τ, e, hup, hτ⟩

theorem copy_of_answer {b' : Block ι} {m : ResponseMsg ι} (hl1 : b'.l1 = b.l1)
    (hnow : b'.now = b.now) (hresp : b'.responseToL1 = (L2.send m b).responseToL1)
    (hdest : m.destination = {r}) (hjr : j ≠ r) (h : b'.Copy j t D) : b.Copy j t D := by
  rcases copy_send hl1 hnow hresp h with h | ⟨hi, -⟩
  · exact h
  · rw [hdest, Finset.mem_singleton] at hi
    exact absurd hi hjr

theorem alone_of_answers (hinv : b.Inv mode space) (hl : b.LeaseInv) (hu : b.Upgrades i)
    (hkeep : b.KeepsSole a) (hs : b.Sole) {w : MemFetch ι} {m : ResponseMsg ι} {τ : L1TBE}
    {e : L1Entry ι} (hans : b.Answers i w m a) (hatomic : m.type ≠ .DATA_ATOMIC)
    (hup : (b.l1 i).Upgrading τ e) (hlive : b.now ≤ τ.liveUntilTime) (hji : j ≠ i)
    (hj : b.Copy j t D) : t < b.now := by
  have hSM := inSM_of_upgrading hup hlive
  cases hans with
  | @request m₀ rest e₂ hq ht he _ hr hw htype =>
    subst hr
    have hm₀ : b.InTransit m₀ := .inr (by simp [hq])
    obtain ⟨hup₀, htime, -⟩ := hu τ e hup m₀ hm₀ rfl
    have hle := hl.upgrading_le hup hlive
    rw [recordedTime_entry ht he] at hle
    by_cases hmatch : e₂.cacheState = .SS ∨ e₂.liveUntilTime ≠ m₀.liveUntilTime
    · simp only [KeepsSole, hq, ht, he] at hkeep
      exact (hkeep hup₀ (hlive.trans hle) hmatch hSM).over hji hj
    · -- the copy's lease ends with the time on record, in `S`
      rw [not_or, not_not] at hmatch
      have hS : e₂.cacheState = .S := by
        cases hinv.shape with
        | @held e₃ _ he₃ _ hstate =>
          obtain rfl : e₂ = e₃ := Option.some.inj (he.symm.trans he₃)
          exact hstate.resolve_right hmatch.1
        | _ => simp_all
      exact hs ht e₂ he hS (hlive.trans hle) _ (.upgrade hm₀ rfl hup₀ hmatch.2.symm) j t D hji hj
  | waiting ht hstate hr hw htype =>
    rcases hstate with hIM | hIMA
    · simp only [KeepsSole, ht] at hkeep
      exact (hkeep.2 hIM i hr hSM).over hji hj
    · rw [if_pos hIMA] at htype
      exact absurd htype hatomic

theorem sole_bank (h : BankStep mode b a b') (hno : mode.predOracle = false)
    (hinv : b.Inv mode space) (hl : b.LeaseInv) (hu : ∀ i, b.Upgrades i) (hkeep : b.KeepsSole a)
    (hs : b.Sole) : b'.Sole := by
  have hinv' := h.inv hinv
  obtain ⟨hnow, hl1, -, -, -⟩ := h.frame
  intro ht' e' he' hS hlive i hi j t D hji hj
  have hrec' : b'.recordedTime = e'.liveUntilTime := recordedTime_entry ht' he'
  rw [hnow] at hlive ⊢
  cases h.effect hno hinv hl.backed with
  | quiet hresp hcont hrec hheld =>
    obtain ⟨ht, he⟩ := hheld ht' e' he'
    have hcopy : ∀ {i t D}, b'.Copy i t D → b.Copy i t D := by
      intro i t D h
      refine h.of_frame hnow.ge ?_ ?_ ?_
      · rw [hl1]
        exact fun _ _ => id
      · rw [hl1]
        exact fun _ => id
      · rw [hresp]
        exact fun _ => id
    refine hs ht e' he hS hlive i ?_ j t D hji (hcopy hj)
    cases hi with
    | copy hi => exact .copy (hcopy hi)
    | upgrade hm hi htype htime => exact .upgrade (h.inTransit hm) hi htype htime
  | read m₀ hresp htype hdata hperf hcont hrec hle hnow' hsole =>
    obtain ⟨hcard, hcase⟩ := hsole e' he' hS
    rw [Finset.card_le_one] at hcard
    -- who is entitled to the new time gets the data, or was entitled to it before
    have hent : i ∈ m₀.destination ∨ b.Entitled i e'.liveUntilTime := by
      cases hi with
      | upgrade hm hi htype htime => exact .inr (.upgrade (h.inTransit hm) hi htype htime)
      | copy hi =>
        rcases copy_send hl1 hnow hresp hi with hi | ⟨hi, -⟩
        · exact .inr (.copy hi)
        · exact .inl hi
    have hold : j ∉ m₀.destination → b.Copy j t D := by
      intro hj'
      rcases copy_send hl1 hnow hresp hj with hj | ⟨hmem, -⟩
      · exact hj
      · exact absurd hmem hj'
    rcases hcase with hover | ⟨rfl, τ, hτ, hIS, hdest⟩
    · have hi' : i ∈ m₀.destination := by
        rcases hent with hi | hi
        · exact hi
        · have := hl.over hover hi.lease
          omega
      exact hl.over hover (hold fun hj' => hji (hcard j hj' i hi')).lease
    · obtain ⟨r, hr⟩ : τ.l1GetSIDs.Nonempty := by
        cases hinv.shape <;> simp_all
      have hcard' : τ.l1GetSIDs.card ≤ 1 := by
        rw [← hdest, Finset.card_le_one]
        exact hcard
      simp only [KeepsSole, hτ] at hkeep
      obtain ⟨halone, hnoup⟩ := hkeep.1 hIS hcard' r hr
      rw [hdest] at hent hold hcard
      have hir : i = r := by
        by_contra hne
        rcases hent with hi | hi
        · exact hne (hcard i hi r hr)
        · cases hi with
          | copy hi =>
            have := halone.over hne hi
            omega
          | upgrade hm hi htype htime =>
            have := hnoup.over hm (hi ▸ hne) htype
            omega
      subst hir
      exact halone.over hji (hold fun hj' => hji (hcard j hj' i hr))
  | write m₀ r w₀ hresp hdest hmf hsid hans hperf hdata hcont hrec hnow' htime hgwct =>
    rw [← hrec'] at hi
    obtain ⟨rfl, τ, e, hup, hτ⟩ := entitled_of_write hl hl1 hnow (fun _ => h.inTransit) hresp hdest
      hans.type_ne_data hrec hnow' hi
    have hatomic : m₀.type ≠ .DATA_ATOMIC := by
      intro hA
      have hm₀ : m₀ ∈ b'.responseToL1 i := by
        rw [hresp]
        exact L2.mem_send.mpr (.inr ⟨rfl, by simp [hdest]⟩)
      have hk := hinv'.response_in_SM (hl1 ▸ hup) hm₀
      simp [ResponseMsg.kind, hA] at hk
    exact alone_of_answers hinv hl (hu i) hkeep hs hans hatomic hup hτ hji
      (copy_of_answer hl1 hnow hresp hdest hji hj)

/-- **The step lemma of `S`.** -/
theorem Step.sole (h : b.Step mode space a b') (hno : mode.predOracle = false)
    (hinv : b.Inv mode space) (hl : b.LeaseInv) (hu : ∀ i, b.Upgrades i) (hkeep : b.KeepsSole a)
    (hs : b.Sole) : b'.Sole := by
  cases h with
  | bank h => exact sole_bank h hno hinv hl hu hkeep hs
  | @l1Reset i _ hq => exact absurd (hinv.ideal hno i) hq
  | @core i type wid delta sent ℓ hmshr hstep =>
    refine hs.of_frame rfl rfl le_rfl (fun j t hj => ?_) fun j t D hj => ⟨D, copy_core hinv hstep hj⟩
    cases hj with
    | copy hj => exact .copy (copy_core hinv hstep hj)
    | @upgrade m hm hj htype htime =>
      rcases inTransit_setLine hm with hm | ⟨hreq, hsent⟩
      · exact .upgrade hm hj htype htime
      · obtain rfl : j = i := hj.symm.trans hreq
        obtain rfl : sent = some m := hsent
        obtain ⟨D, hD⟩ := CoreStep.entitled hinv hstep htype
        exact .copy (htime ▸ hD)
  | @l1Replace i ℓ hstep =>
    refine hs.of_frame rfl rfl le_rfl (fun j t hj => ?_) fun j t D hj => ⟨D, copy_replace hstep hj⟩
    cases hj with
    | copy hj => exact .copy (copy_replace hstep hj)
    | upgrade hm hj htype htime => exact .upgrade hm hj htype htime
  | @l1Response i k m ℓ hm hstep =>
    refine hs.of_frame rfl rfl le_rfl (fun j t hj => ?_) fun j t D hj => ?_
    · cases hj with
      | copy hj =>
        obtain ⟨D₀, hD₀, -⟩ := copy_response hm hstep hj
        exact .copy hD₀
      | upgrade hm hj htype htime => exact .upgrade hm hj htype htime
    · obtain ⟨D₀, hD₀, -⟩ := copy_response hm hstep hj
      exact ⟨D₀, hD₀⟩
  | arrive hm =>
    refine hs.of_frame rfl rfl le_rfl (fun j t hj => ?_) fun j t D hj => ⟨D, copy_arrive hj⟩
    cases hj with
    | copy hj => exact .copy (copy_arrive hj)
    | upgrade hm' hj htype htime => exact .upgrade (inTransit_arrive hinv hm hm') hj htype htime

/-! ## Acknowledgements -/

omit [DecidableEq ι] in
theorem answerType_eq_ack {e : L2Entry ι} {m : RequestMsg ι} {now : Nat} (h : e.answerType now m = .ACK) :
    e.stateAt now = .E ∨ e.stateAt now = .S ∧ m.type = .DATA_UPGRADE ∧ e.liveUntilTime = m.liveUntilTime := by
  unfold L2Entry.answerType at h
  by_cases hE : e.stateAt now = .E
  · exact .inl hE
  · split at h
    · cases h
    · next hm =>
      rw [if_neg hE] at h
      split at h
      · cases h
      · next htime =>
        split at h
        · next hS => exact .inr ⟨hS, hm, not_not.mp htime⟩
        · cases h
    · rw [if_neg hE] at h
      cases h

/-- A live lease of another L1: the answer to a write is not plain, and its completion time is not
before the end of the lease. -/
theorem Answers.classified (hinv : b.Inv mode space) (hl : b.LeaseInv) (hs : b.Sole)
    {w : MemFetch ι} {m : ResponseMsg ι} (hans : b.Answers r w m a) (hjr : j ≠ r)
    (hj : b.Copy j t D) (hlive : b.now ≤ t) : m.type ≠ .ACK := by
  intro hA
  cases hans with
  | @request m₀ rest e hq ht he _ hr hw htype =>
    rcases answerType_eq_ack (htype.symm.trans hA) with hE | ⟨hS, hup, htime⟩
    · have hexp := hinv.shape.expired_of_stateAt ht he hE
      rw [← recordedTime_entry ht he] at hexp
      have := hl.over hexp hj.lease
      omega
    · obtain ⟨hstate, hlive'⟩ := L2Entry.stateAt_live (.inl hS)
      rw [hS] at hstate
      have := hs ht e he hstate hlive' r (.upgrade (.inr (by simp [hq])) hr hup htime.symm) j t D hjr hj
      omega
  | waiting ht hstate hr hw htype =>
    rw [htype] at hA
    split at hA <;> cases hA

theorem Step.answers (h : b.Step mode space a b') (hno : mode.predOracle = false)
    (hinv : b.Inv mode space) (hback : b.Backed) {m : ResponseMsg ι}
    (hsend : b'.responseToL1 r = b.responseToL1 r ++ [m]) (htype : m.type ≠ .DATA) :
    (∃ w, b.Answers r w m a) ∧ b'.l1 = b.l1 ∧ b'.now = b.now ∧
      b'.responseToL1 = (L2.send m b).responseToL1 ∧ m.destination = {r} ∧ b.recordedTime ≤ m.gwct := by
  have hlen := congrArg List.length hsend
  rw [List.length_append, List.length_singleton] at hlen
  cases h with
  | core | l1Replace | l1Reset | arrive =>
    exact absurd hlen (Nat.ne_of_lt (Nat.lt_succ_self _))
  | @l1Response i k m ℓ hm hstep =>
    by_cases hr : r = i
    · subst hr
      simp only [update_self] at hlen
      have := List.length_eraseIdx_le (b.responseToL1 r) k
      omega
    · simp only [update_of_ne hr] at hlen
      omega
  | bank h =>
    have hsent : ∀ {m₀ : ResponseMsg ι}, b'.responseToL1 = (L2.send m₀ b).responseToL1 →
        r ∈ m₀.destination ∧ m = m₀ := by
      intro m₀ hresp
      rw [hresp, L2.send] at hsend
      by_cases hr : r ∈ m₀.destination
      · simp only [hr, if_true, List.append_cancel_left_eq, List.cons.injEq, and_true] at hsend
        exact ⟨hr, hsend.symm⟩
      · simp [hr] at hsend
    obtain ⟨hnow, hl1, -, -, -⟩ := h.frame
    cases h.effect hno hinv hback with
    | quiet hresp =>
      rw [hresp] at hlen
      omega
    | read m₀ hresp hdata =>
      obtain ⟨-, rfl⟩ := hsent hresp
      exact absurd hdata htype
    | write m₀ r' w hresp hdest hmf hsid hans hperf hdata hcont hrec hnow' htime hgwct =>
      obtain ⟨hr, rfl⟩ := hsent hresp
      rw [hdest, Finset.mem_singleton] at hr
      subst hr
      exact ⟨⟨w, hans⟩, hl1, hnow, hresp, hdest, hgwct⟩

end Block

section System

variable {α : Type} [DecidableEq α] {mode : L2.Mode} {space : α → MemorySpaceType} {s s' : Sys α ι}

theorem system_sole {ok : Sys α ι → SysAct α ι → Prop} (hno : mode.predOracle = false)
    (hok : ∀ s a act, ok s (.block a act) → (s.block a).KeepsSole act)
    (h : (system ι mode space).ReachableUnder ok s) (a : α) : (s.block a).Sole := by
  refine system_block_invariant (fun _ b => b.Sole) (fun _ => Block.sole_init)
    (fun _ _ hs => hs.tick) ?_ h a
  intro s a act b' hs hact hstep hsole
  exact hstep.sole hno ((system_reachable_inv hs).block a) (system_leaseInv hno hs a)
    (system_upgrades hno hs a) (hok s a act hact) hsole

/-- **Acknowledgements are classified correctly.** In a run in which the L2 does not leave a block in
`S` with a new lease while another L1 still has one: when the L2 answers a write of `r`, and another L1
holds or is being sent a lease that is live, then the answer is not the plain acknowledgement, and the
completion time it carries is not before the end of that lease. -/
theorem acks_classified (hno : mode.predOracle = false)
    (hs : (system ι mode space).ReachableUnder (Sys.EachBlock Block.KeepsSole) s) {a : α}
    {act : BlockAct ι} {r j : ι} {m : ResponseMsg ι} {t : Nat} {D : DataBlock ι}
    (hstep : (system ι mode space).step s (.block a act) = some (.ok s'))
    (hsend : (s'.block a).responseToL1 r = (s.block a).responseToL1 r ++ [m])
    (hwrite : m.type ≠ .DATA) (hj : j ≠ r) (hcopy : (s'.block a).Copy j t D) (hlive : s.now ≤ t) :
    m.type ≠ .ACK ∧ t ≤ m.gwct := by
  have hinv := system_reachable_inv hs
  have hl := system_leaseInv hno hs a
  have hact : s.step mode space (.block a act) = some (.ok s') := hstep
  obtain ⟨_, hs', hstep⟩ := Sys.step_spec hinv hact
  cases hs'
  cases hstep with
  | block hb =>
    simp only [update_self] at hsend hcopy
    obtain ⟨⟨w, hans⟩, hl1, hnow, hresp, hdest, hgwct⟩ :=
      hb.answers hno (hinv.block a) hl.backed hsend hwrite
    have hold := Block.copy_of_answer hl1 hnow hresp hdest hj hcopy
    rw [← hinv.now a] at hlive
    refine ⟨?_, (hl.le_recordedTime hold.lease hlive).trans hgwct⟩
    exact hans.classified (hinv.block a) hl (system_sole hno (fun _ _ _ h => h) hs a) hj hold hlive

end System

/-- The L1 of `true` stores while `false` has a live lease: the answer is global. -/
theorem acks_classified_store :
    ∃ s s' m, twoL1s.ReachableUnder (Sys.EachBlock Block.KeepsSole) s ∧
      twoL1s.step s (.block () .l2Request) = some (.ok s') ∧
      (s'.block ()).responseToL1 true = (s.block ()).responseToL1 true ++ [m] ∧
      (s'.block ()).Copy false 24 [] ∧ s.now = 7 ∧ m.type ≠ .ACK ∧ 24 ≤ m.gwct := by
  obtain ⟨s, -, hs, hf⟩ := Machine.exists_reachableUnder_of_run twoL1s
    (Sys.EachBlock Block.KeepsSole)
    (loadFirst 20 ++ [.block () (.core true .ST 0 0), .tick, .block () (.arrive true), .tick])
    (fun s => (s.now, (s.block ()).responseToL1 true, (twoL1s.run [.block () .l2Request] s).map
      fun s' => ((s'.block ()).responseToL1 true, (s'.block ()).l1 false)))
    (y := (7, [], some ([{ type := .ACK_GLOBAL, destination := {true}, liveUntilTime := 25
                           gwct := 24, memfetch := some ⟨1, true, 0⟩
                           performed := [⟨1, true, 0⟩] }],
      { entry := some { cacheState := .S, liveUntilTime := 24 } }))) (by decide) rfl
  simp only [Prod.mk.injEq, Option.map_eq_some_iff] at hf
  obtain ⟨hnow, hempty, s', hrun, hsend, hline⟩ := hf
  have hstep := Machine.step_of_run hrun
  have hcopy : (s'.block ()).Copy false 24 [] := .held ⟨by rw [hline], by rw [hline], rfl⟩
  have hsend' : (s'.block ()).responseToL1 true = (s.block ()).responseToL1 true ++ _ :=
    hsend.trans (by rw [hempty]; rfl)
  obtain ⟨hack, hgwct⟩ := acks_classified rfl hs hstep hsend' (by decide) Bool.false_ne_true hcopy
    (by rw [hnow]; decide)
  exact ⟨s, s', _, hs, hstep, hsend', hcopy, hnow, hack, hgwct⟩

/-- **A plain acknowledgement while another L1 has a live lease.** Both L1s have loaded the block
(`SS`). The first upgrade of `false` leaves it in `S`, so that the second one, with the renewed time, is
answered as if nobody else had a copy. -/
theorem plain_ack_while_shared :
    ∃ s s' m w t D, twoL1s.Reachable s ∧ twoL1s.step s (.block () .l2Request) = some (.ok s') ∧
      (s'.block ()).responseToL1 false = (s.block ()).responseToL1 false ++ [m] ∧
      m.type = .ACK ∧ m.memfetch = some w ∧ (s'.block ()).Copy true t D ∧ w ∉ D ∧ s.now ≤ t := by
  obtain ⟨s, -, hs, hf⟩ := Machine.exists_reachable_of_run twoL1s
    (loadFirst 20 ++ [.block () (.core true .LD 0 10), .tick, .block () (.arrive true), .tick,
      .block () .l2Request, .tick, .block () (.l1Response true 0),
      .block () (.core false .ST 1 0), .tick, .block () (.arrive false), .tick, .block () .l2Request,
      .tick, .block () (.l1Response false 0),
      .block () (.core false .ST 1 0), .tick, .block () (.arrive false), .tick])
    (fun s => (s.now, (s.block ()).responseToL1 false, (twoL1s.run [.block () .l2Request] s).map
      fun s' => ((s'.block ()).responseToL1 false, (s'.block ()).l1 true)))
    (y := (13, [], some ([{ type := .ACK, destination := {false}, liveUntilTime := 26, gwct := 25
                            memfetch := some ⟨3, false, 1⟩
                            performed := [⟨3, false, 1⟩, ⟨2, false, 1⟩] }],
      { entry := some { cacheState := .S, liveUntilTime := 24 } }))) rfl
  simp only [Prod.mk.injEq, Option.map_eq_some_iff] at hf
  obtain ⟨hnow, hempty, s', hrun, hsend, hline⟩ := hf
  have hcopy : (s'.block ()).Copy true 24 [] := .held ⟨by rw [hline], by rw [hline], rfl⟩
  have hsend' : (s'.block ()).responseToL1 false = (s.block ()).responseToL1 false ++ _ :=
    hsend.trans (by rw [hempty]; rfl)
  exact ⟨s, s', _, _, 24, [], hs, Machine.step_of_run hrun, hsend', rfl, rfl, hcopy,
    List.not_mem_nil, by rw [hnow]; decide⟩

end GpgpuSimRuby.Ruby.Cachelease3
