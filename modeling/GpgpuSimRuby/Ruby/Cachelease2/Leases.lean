import GpgpuSimRuby.Ruby.Cachelease2.Invariant

/-!
# cachelease2: leases

Nobody invalidates a copy in these protocols; what keeps a write from being seen too early is that
the L2 knows, with a single time per block, when the last lease on it is over.

* `Block.Lease b i t` — `i` has, or may still be given, a lease until `t`.
* `Block.Covered b t` — a lease until `t` is accounted for by what the L2 remembers.
* `Block.LeaseInv` — every lease is covered, and in an unexpired `S` (cachelease2, cachelease2oo) a
  lease that ends with the entry has no rival that is still live.

An L1 only copies leases it has (`Step.lease_l1`), so the work is in the steps of the L2.
-/

namespace GpgpuSimRuby.Ruby.Cachelease2

open Library Function

variable {ι : Type} [DecidableEq ι] {sent : Option (RequestMsg ι)}

/-! ## The times of a line -/

/-- The times an L1 has on record for the block. -/
inductive L1Line.Time (ℓ : L1Line ι) : Nat → Prop
  | none : Time ℓ 0
  | entry {e t} (he : ℓ.entry = some e) (h : e.liveUntilTime = t) : Time ℓ t
  | tbe {τ t} (hτ : ℓ.tbe = some τ) (h : τ.liveUntilTime = t) : Time ℓ t

/-- The line is in `SM` and its lease is not over. -/
def L1Line.InSM (ℓ : L1Line ι) (now : Nat) : Prop := ∃ t, ℓ.tbe = some t ∧ t.stateAt now = .SM

section Line

variable {cfg : Config} {now : Nat} {space : MemorySpaceType} {g : MemFetch ι} {ℓ ℓ' : L1Line ι}

omit [DecidableEq ι]

theorem L1Line.Time.of_map {f : L1Entry ι → L1Entry ι} {tbe : Option L1TBE} {rp : Bool} {t : Nat}
    (h : L1Line.Time ⟨ℓ.entry.map f, tbe, rp⟩ t) (hf : ∀ e, (f e).liveUntilTime = e.liveUntilTime)
    (htbe : ∀ τ, tbe = some τ → ℓ.Time τ.liveUntilTime) : ℓ.Time t := by
  cases h with
  | none => exact .none
  | entry he h =>
    obtain ⟨e, he', rfl⟩ := Option.map_eq_some_iff.mp he
    exact .entry he' ((hf e).symm.trans h)
  | tbe hτ h => exact h ▸ htbe _ hτ

theorem CoreStep.time (h : CoreStep cfg now space g ℓ sent ℓ') {t : Nat} (ht : ℓ'.Time t) : ℓ.Time t := by
  cases h with
  | hit => exact ht
  | loadMiss =>
    cases ht with
    | none => exact .none
    | entry he' h =>
      cases he'
      cases he : ℓ.entry with
      | none =>
        simp only [he, Option.getD_none] at h
        exact h ▸ .none
      | some e => exact .entry he (by simpa [he] using h)
    | tbe hτ h => cases hτ; exact h ▸ .none
  | loadMore _ hτ => exact ht.of_map (fun _ => rfl) (by rintro _ ⟨⟩; exact .tbe hτ rfl)
  | upgrade _ he =>
    cases ht with
    | none => exact .none
    | entry he' h => cases he'; exact .entry he h
    | tbe hτ h => cases hτ; exact .entry he h
  | upgradeMore hτ => exact ht.of_map (fun _ => rfl) (by rintro _ ⟨⟩; exact .tbe hτ rfl)
  | write _ _ htime =>
    refine ht.of_map (fun _ => rfl) ?_
    rintro _ ⟨⟩
    rcases htime with rfl | ⟨e, he, rfl⟩
    · exact .none
    · exact .entry he rfl
  | writeMore hτ => exact ht.of_map (fun _ => rfl) (by rintro _ ⟨⟩; exact .tbe hτ rfl)

theorem CoreStep.time_sent {m : RequestMsg ι} (h : CoreStep cfg now space g ℓ (some m) ℓ')
    (hm : m.type = .DATA_UPGRADE) : ℓ.Time m.liveUntilTime := by
  cases h with
  | loadMiss => cases hm
  | loadMore => cases hm
  | upgrade _ he => exact .entry he rfl
  | upgradeMore hτ => exact .tbe hτ rfl
  | write _ htype => rcases htype with rfl | rfl <;> cases hm
  | writeMore _ htype => rcases htype with rfl | rfl <;> cases hm

theorem CoreStep.inSM (h : CoreStep cfg now space g ℓ sent ℓ')
    (hSM : ℓ'.InSM now) : ℓ.tbe = none ∨ ℓ.InSM now := by
  obtain ⟨t', ht', hs'⟩ := hSM
  cases h with
  | hit => exact .inr ⟨t', ht', hs'⟩
  | loadMiss _ ht => exact .inl ht
  | @loadMore t _ ht _ =>
    cases ht'
    exact .inr ⟨t, ht, (L1TBE.stateAt_SM hs').1⟩
  | upgrade ht => exact .inl ht
  | upgradeMore ht hs => exact .inr ⟨_, ht, hs⟩
  | write ht => exact .inl ht
  | writeMore => cases ht'; simp [L1TBE.stateAt] at hs'

/-- Taking in a response, the line records no time but that of data, or of an acknowledgement in a
live `SM`. -/
theorem ResponseStep.time [DecidableEq ι] {i : ι} {m : ResponseMsg ι}
    (h : ResponseStep now i m ℓ ℓ') {t : Nat}
    (ht : ℓ'.Time t) : ℓ.Time t ∨ t = m.liveUntilTime ∧ (m.type = .DATA ∨ m.type = .ACK ∧ ℓ.InSM now) := by
  cases h with
  | install _ hm =>
    cases ht with
    | none => exact .inl .none
    | entry he h => cases he; exact .inr ⟨h.symm, .inl hm⟩
    | tbe hτ => cases hτ
  | discard hτ => exact .inl (ht.of_map (fun _ => rfl) (by rintro _ ⟨⟩; exact .tbe hτ rfl))
  | discardDone => exact .inl (ht.of_map (fun _ => rfl) nofun)
  | renew hτ he hm hs =>
    cases ht with
    | none => exact .inl .none
    | entry he h => cases he; exact .inr ⟨h.symm, .inr ⟨hm, _, hτ, hs⟩⟩
    | tbe hτ' h => cases hτ'; exact .inl (.tbe hτ h)
  | renewDone hτ he hm hs =>
    cases ht with
    | none => exact .inl .none
    | entry he h => cases he; exact .inr ⟨h.symm, .inr ⟨hm, _, hτ, hs⟩⟩
    | tbe hτ' => cases hτ'
  | ack hτ => exact .inl (ht.of_map (fun _ => rfl) (by rintro _ ⟨⟩; exact .tbe hτ rfl))
  | ackDone => exact .inl (ht.of_map (fun _ => rfl) nofun)

theorem ResponseStep.inSM [DecidableEq ι] {i : ι} {m : ResponseMsg ι} (h : ResponseStep now i m ℓ ℓ')
    (hSM : ℓ'.InSM now) : ℓ.InSM now := by
  obtain ⟨t', ht', hs'⟩ := hSM
  cases h with
  | install => cases ht'
  | @discard t ht _ =>
    cases ht'
    exact ⟨t, ht, (L1TBE.stateAt_SM hs').1⟩
  | discardDone => cases ht'
  | renew ht _ _ hs => exact ⟨_, ht, hs⟩
  | renewDone => cases ht'
  | ack => cases ht'; simp [L1TBE.stateAt] at hs'
  | ackDone => cases ht'

end Line

/-! ## Leases -/

namespace Block

/-- The times until which `i` holds the block or may still come to hold it: those on its line, of
the data in flight to it, of the upgrades it has sent (the L2 matches them), and of the
acknowledgements that would renew its lease in a live `SM`. -/
inductive Lease (b : Block ι) (i : ι) : Nat → Prop
  | line {t} (ht : (b.l1 i).Time t) : Lease b i t
  | data {m} (hm : m ∈ b.responseToL1 i) (htype : m.type = .DATA) : Lease b i m.liveUntilTime
  | upgrade {m} (hm : b.InTransit m) (hi : m.requestor = i) (htype : m.type = .DATA_UPGRADE) :
      Lease b i m.liveUntilTime
  | ack {m} (hSM : (b.l1 i).InSM b.now) (hm : m ∈ b.responseToL1 i) (htype : m.type = .ACK) :
      Lease b i m.liveUntilTime

/-- What the L2 remembers accounts for a lease until `t`. -/
def Covered (b : Block ι) (t : Nat) : Prop :=
  match b.tbe, b.entry with
  | some τ, _ => if τ.tbeState = .MI then t ≤ τ.liveUntilTime else t < b.now
  | none, some e => if e.cacheState = .E then t < e.liveUntilTime else t ≤ e.liveUntilTime
  | none, none => t < b.now

/-- The lease invariant of a block. -/
structure LeaseInv (cfg : Config) (b : Block ι) : Prop where
  covered : ∀ i t, b.Lease i t → b.Covered t
  storedE : b.tbe = none → ∀ e ∈ b.entry, e.cacheState = .E →
    0 < e.liveUntilTime ∧ e.liveUntilTime ≤ b.now
  exclusive : cfg.variant ≠ .cachelease2uo → b.tbe = none → ∀ e ∈ b.entry, e.cacheState = .S →
    b.now ≤ e.liveUntilTime → ∀ i j t, i ≠ j → b.Lease i e.liveUntilTime → b.Lease j t → t < b.now

variable {cfg : Config} {space : MemorySpaceType} {b b' : Block ι} {a : BlockAct ι}

omit [DecidableEq ι] in
theorem leaseInv_init (cfg : Config) : ({} : Block ι).LeaseInv cfg where
  covered i t h := by
    cases h with
    | line ht =>
      cases ht with
      | none => exact Nat.one_pos
      | entry he => cases he
      | tbe hτ => cases hτ
    | data hm => cases hm
    | upgrade hm => rcases hm with h | h | ⟨_, h⟩ <;> cases h
    | ack _ hm => cases hm
  storedE _ _ := nofun
  exclusive _ _ _ := nofun

/-! ## Steps of the L1s and of the networks -/

omit [DecidableEq ι] in
variable {t : Nat} {i : ι} {m : ResponseMsg ι}

theorem Lease.of_frame (h : b'.Lease i t) (hnow : b'.now = b.now)
    (hl : b'.l1 i = b.l1 i) (hr : ∀ m ∈ b'.responseToL1 i, m ∈ b.responseToL1 i)
    (hq : ∀ m, b'.InTransit m → m.requestor = i → b.InTransit m) : b.Lease i t := by
  cases h with
  | line ht => exact .line (hl ▸ ht)
  | data hm htype => exact .data (hr _ hm) htype
  | upgrade hm hi htype => exact .upgrade (hq _ hm hi) hi htype
  | ack hSM hm htype => exact .ack (hl ▸ hnow ▸ hSM) (hr _ hm) htype

theorem inTransit_setLine {ℓ : L1Line ι} {uid : Nat}
    {m : RequestMsg ι} (h : { b.setLine i ℓ sent with nextUid := uid }.InTransit m) :
    b.InTransit m ∨ m ∈ sent ∧ m.requestor = i := by
  rcases h with h | h
  · by_cases hj : m.requestor = i
    · simp only [setLine, hj, update_self, List.mem_append, Option.mem_toList] at h
      rcases h with h | h
      · exact .inl (.inl (hj ▸ h))
      · exact .inr ⟨h, hj⟩
    · simp only [setLine, update_of_ne hj] at h
      exact .inl (.inl h)
  · exact .inl (.inr h)

theorem Inv.no_ack (hinv : b.Inv cfg space) (ht : (b.l1 i).tbe = none)
    (hm : m ∈ b.responseToL1 i) : m.type ≠ .ACK := by
  intro htype
  have hpos := outstanding_pos hm
  have hzero := ((hinv.line i).idle ht).1
  simp only [ResponseMsg.kind, htype] at hpos
  omega

theorem lease_core {i₀ : ι} {wid uid : Nat} {ℓ : L1Line ι}
    (hstep : CoreStep cfg b.now space ⟨b.nextUid, i₀, wid⟩ (b.l1 i₀) sent ℓ)
    (hinv : b.Inv cfg space)
    (ht : { b.setLine i₀ ℓ sent with nextUid := uid }.Lease i t) : b.Lease i t := by
  by_cases hi : i = i₀
  · subst hi
    cases ht with
    | line ht =>
      simp only [setLine, update_self] at ht
      exact .line (hstep.time ht)
    | data hm htype => exact .data hm htype
    | upgrade hm hi htype =>
      rcases inTransit_setLine hm with hm | ⟨hm, -⟩
      · exact .upgrade hm hi htype
      · cases hm
        exact .line (hstep.time_sent htype)
    | ack hSM hm htype =>
      simp only [setLine, update_self] at hSM
      rcases hstep.inSM hSM with hidle | hSM
      · exact absurd htype (hinv.no_ack hidle hm)
      · exact .ack hSM hm htype
  · refine ht.of_frame rfl (by simp [setLine, hi]) (fun _ h => h) fun m hm hmi => ?_
    rcases inTransit_setLine hm with hm | ⟨-, hm⟩
    · exact hm
    · exact absurd (hmi.symm.trans hm) hi

theorem lease_response {i₀ : ι} {n : Nat} {ℓ : L1Line ι}
    (hm : m ∈ b.responseToL1 i₀) (hstep : ResponseStep b.now i₀ m (b.l1 i₀) ℓ)
    (ht : { b with l1 := update b.l1 i₀ ℓ
                   responseToL1 := update b.responseToL1 i₀
                     ((b.responseToL1 i₀).eraseIdx n) }.Lease i t) : b.Lease i t := by
  by_cases hi : i = i₀
  · subst hi
    cases ht with
    | line ht =>
      simp only [update_self] at ht
      rcases hstep.time ht with ht | ⟨rfl, htype | ⟨htype, hSM⟩⟩
      · exact .line ht
      · exact .data hm htype
      · exact .ack hSM hm htype
    | data hm' htype =>
      simp only [update_self] at hm'
      exact .data (List.mem_of_mem_eraseIdx hm') htype
    | upgrade hm' hi htype => exact .upgrade hm' hi htype
    | ack hSM hm' htype =>
      simp only [update_self] at hSM hm'
      exact .ack (hstep.inSM hSM) (List.mem_of_mem_eraseIdx hm') htype
  · refine ht.of_frame rfl (by simp [hi]) (fun m' h => ?_) fun _ h _ => h
    simpa [hi] using h

/-- **L1s and networks make up no lease.** -/
theorem Step.lease (h : b.Step cfg space a b') (hbank : ¬ BankStep cfg b a b')
    (hinv : b.Inv cfg space) (ht : b'.Lease i t) : b.Lease i t := by
  cases h with
  | bank h => exact absurd h hbank
  | l1Stall => exact ht
  | core _ hstep => exact lease_core hstep hinv ht
  | @l1Replace i₀ hτ =>
    by_cases hi : i = i₀
    · subst hi
      cases ht with
      | line ht =>
        simp only [update_self] at ht
        cases ht with
        | none => exact .line .none
        | entry he => cases he
        | tbe hτ' => cases hτ.symm.trans hτ'
      | data hm htype => exact .data hm htype
      | upgrade hm hi htype => exact .upgrade hm hi htype
      | ack hSM hm htype => exact absurd htype (hinv.no_ack hτ hm)
    · exact ht.of_frame rfl (by simp [hi]) (fun _ h => h) fun _ h _ => h
  | l1Response hm hstep => exact lease_response (mem_of_getElem?_eq_some hm) hstep ht
  | @arrive i₀ m rest hm =>
    refine ht.of_frame rfl rfl (fun _ h => h) fun m' hm' _ => ?_
    exact inTransit_arrive hinv hm hm'
  | requeue hm =>
    refine ht.of_frame rfl rfl (fun _ h => h) fun m' hm' _ => ?_
    exact inTransit_requeue hm hm'

/-! ## Steps of the L2 -/

section Bank

omit [DecidableEq ι]

theorem LeaseInv.of_old (hl : b.LeaseInv cfg) (hnow : b'.now = b.now) (ht : b'.tbe = b.tbe)
    (he : b'.entry = b.entry) (hold : ∀ i t, b'.Lease i t → b.Lease i t) : b'.LeaseInv cfg := by
  have hcov : ∀ t, b.Covered t → b'.Covered t := by
    intro t h
    unfold Covered at h ⊢
    rwa [hnow, ht, he]
  refine ⟨fun i t h => hcov t (hl.covered i t (hold i t h)), ?_, ?_⟩
  · rw [hnow, ht, he]
    exact hl.storedE
  · rw [hnow, ht, he]
    exact fun hv ht e he hs hlive i j t hij hi hj =>
      hl.exclusive hv ht e he hs hlive i j t hij (hold _ _ hi) (hold _ _ hj)

theorem InSM.lease (h : (b.l1 i).InSM b.now) : ∃ t, b.Lease i t ∧ b.now ≤ t := by
  obtain ⟨τ, hτ, hs⟩ := h
  exact ⟨_, .line (.tbe hτ rfl), (L1TBE.stateAt_SM hs).2⟩

/-- **Expired means over.** In `E` no lease is live. -/
theorem LeaseInv.over_of_expired (hl : b.LeaseInv cfg) (ht : b.tbe = none) {e : L2Entry ι}
    (he : b.entry = some e) (hs : e.stateAt b.now = .E) (h : b.Lease i t) : t < b.now := by
  have hcov := hl.covered i t h
  simp only [Covered, ht, he] at hcov
  unfold L2Entry.stateAt at hs
  split at hs
  · next hdead => split at hcov <;> omega
  · rw [if_pos hs] at hcov
    have := (hl.storedE ht e he hs).2
    omega

theorem LeaseInv.over_of_no_entry (hl : b.LeaseInv cfg)
    (hno : (b.tbe = none ∧ b.entry = none) ∨ ∃ τ, b.tbe = some τ ∧ τ.tbeState ≠ .MI)
    (h : b.Lease i t) : t < b.now := by
  have hcov := hl.covered i t h
  rcases hno with ⟨ht, he⟩ | ⟨τ, ht, hs⟩
  · simpa [Covered, ht, he] using hcov
  · simpa [Covered, ht, hs] using hcov

end Bank

theorem lease_send {c : Block ι}
    (h : (L2.send m c).Lease i t) (hnow : c.now = b.now) (hl1 : c.l1 = b.l1)
    (hr : c.responseToL1 = b.responseToL1) (hq : ∀ m, c.InTransit m → b.InTransit m) :
    b.Lease i t ∨ i ∈ m.destination ∧ t = m.liveUntilTime ∧
      (m.type = .DATA ∨ m.type = .ACK ∧ (b.l1 i).InSM b.now) := by
  have hsend : ∀ {m'}, m' ∈ (L2.send m c).responseToL1 i →
      m' ∈ b.responseToL1 i ∨ i ∈ m.destination ∧ m' = m := by
    intro m' hm'
    simp only [L2.send, hr] at hm'
    split at hm'
    · next hi => simpa [hi] using hm'
    · exact .inl hm'
  cases h with
  | line ht => exact .inl (.line (hl1 ▸ ht))
  | data hm htype =>
    rcases hsend hm with hm | ⟨hi, rfl⟩
    · exact .inl (.data hm htype)
    · exact .inr ⟨hi, rfl, .inl htype⟩
  | upgrade hm hi htype => exact .inl (.upgrade (hq _ hm) hi htype)
  | ack hSM hm htype =>
    have hSM' : (b.l1 i).InSM b.now := hl1 ▸ hnow ▸ hSM
    rcases hsend hm with hm | ⟨hi, rfl⟩
    · exact .inl (.ack hSM' hm htype)
    · exact .inr ⟨hi, rfl, .inr ⟨htype, hSM'⟩⟩

theorem BankStep.leaseInv (h : BankStep cfg b a b') (hinv : b.Inv cfg space)
    (hl : b.LeaseInv cfg) : b'.LeaseInv cfg := by
  have htransit := fun m => h.inTransit (m := m)
  cases h with
  | stall => exact hl
  | recycle =>
    exact hl.of_old rfl rfl rfl fun i t h =>
      h.of_frame rfl rfl (fun _ h => h) fun m hm _ => htransit m hm
  | fetchRead hq ht he hm =>
    refine ⟨fun i t h => ?_, nofun, nofun⟩
    have h' : b.Lease i t := h.of_frame rfl rfl (fun _ h => h) fun m hm _ => htransit m hm
    simpa [Covered] using hl.over_of_no_entry (.inl ⟨ht, he⟩) h'
  | @mergeRead m rest τ hq ht hs hm =>
    refine ⟨fun i t h => ?_, nofun, nofun⟩
    have h' : b.Lease i t := h.of_frame rfl rfl (fun _ h => h) fun m hm _ => htransit m hm
    simpa [Covered, hs] using hl.over_of_no_entry (.inr ⟨τ, ht, by simp [hs]⟩) h'
  | @fetchWrite m rest s hq ht he hm hs =>
    refine ⟨fun i t h => ?_, nofun, nofun⟩
    have h' : b.Lease i t := h.of_frame rfl rfl (fun _ h => h) fun m hm _ => htransit m hm
    have hs' : s ≠ .MI := by
      rw [hs]
      split <;> decide
    simpa [Covered, hs'] using hl.over_of_no_entry (.inl ⟨ht, he⟩) h'
  | @evict e ht he hlive hs hv =>
    refine ⟨fun i t h => ?_, nofun, nofun⟩
    have h' : b.Lease i t := h.of_frame rfl rfl (fun _ h => h) fun m hm _ => htransit m hm
    have hcov := hl.covered i t h'
    have hne : e.cacheState ≠ .E := by
      rw [(L2Entry.stateAt_live hs).1]
      rcases hs with hs | hs <;> simp [hs]
    simpa [Covered, ht, he, hne] using hcov
  | drop ht he hs =>
    refine ⟨fun i t h => ?_, fun _ _ => nofun, fun _ _ _ => nofun⟩
    have h' : b.Lease i t := h.of_frame rfl rfl (fun _ h => h) fun m hm _ => htransit m hm
    simpa [Covered, ht] using hl.over_of_expired ht he hs h'
  | @expire τ ht hs hdue =>
    have he : b.entry = none := by
      cases hinv.shape <;> simp_all
    refine ⟨fun i t h => ?_, fun _ e he' => by simp [he] at he', fun _ _ e he' => by simp [he] at he'⟩
    have h' : b.Lease i t := h.of_frame rfl rfl (fun _ h => h) fun m hm _ => htransit m hm
    have hcov := hl.covered i t h'
    simp only [Covered, ht, hs, if_true] at hcov
    simp only [Covered, he]
    omega
  | @read m rest e hq ht he hm =>
    have hne : (e.afterRead cfg b.now m.deltaRequested).cacheState ≠ .E := by
      simp only [L2Entry.afterRead, Config.readNext]
      split <;> decide
    have hle : e.liveUntilTime ≤ (e.afterRead cfg b.now m.deltaRequested).liveUntilTime :=
      Nat.le_max_right _ _
    refine ⟨fun i t h => ?_, ?_, ?_⟩
    · simp only [Covered, L2.send, ht, hne, if_false]
      rcases lease_send (b := b) h rfl rfl rfl htransit with h | ⟨-, rfl, -⟩
      · have hcov := hl.covered i t h
        simp only [Covered, ht, he] at hcov
        split at hcov <;> omega
      · exact le_rfl
    · rintro - _ ⟨⟩ hs
      exact absurd hs hne
    · rintro hv - _ ⟨⟩ hs - i j t hij hi hj
      have hE : e.stateAt b.now = .E := by
        simp only [L2Entry.afterRead, Config.readNext] at hs
        split at hs
        · next h => exact h.resolve_right hv
        · cases hs
      -- only the reader holds a lease that ends with the entry
      rcases lease_send (b := b) hi rfl rfl rfl htransit with hi | ⟨hi, -, -⟩
      · have := hl.over_of_expired ht he hE hi
        simp only [L2Entry.afterRead] at this
        omega
      · rcases lease_send (b := b) hj rfl rfl rfl htransit with hj | ⟨hj, -, -⟩
        · exact hl.over_of_expired ht he hE hj
        · simp only [Finset.mem_singleton] at hi hj
          exact absurd (hi.trans hj.symm) hij
  | @write m rest e hq ht he hm hs =>
    have hdest : (writeResponse m e.dataBlk (e.liveUntilTime + 1)).destination = {m.requestor} ∧
        (writeResponse m e.dataBlk (e.liveUntilTime + 1)).liveUntilTime = e.liveUntilTime + 1 ∧
        (writeResponse m e.dataBlk (e.liveUntilTime + 1)).type ≠ .DATA := by
      unfold writeResponse
      split <;> simp
    refine ⟨fun i t h => ?_, ?_, ?_⟩
    · simp only [Covered, L2.send, ht, L2Entry.afterWrite, reduceCtorEq, if_false]
      rcases lease_send (b := b) h rfl rfl rfl htransit with h | ⟨-, rfl, -⟩
      · have hcov := hl.covered i t h
        simp only [Covered, ht, he] at hcov
        split at hcov <;> omega
      · exact hdest.2.1.le
    · rintro - _ ⟨⟩ hs
      cases hs
    · rintro hv - _ ⟨⟩ - hlive i j t hij hi hj
      rcases hs with hs | ⟨hs, hup, hlive', htime, -⟩
      · -- every lease was over, and the acknowledgement renews none
        rcases lease_send (b := b) hj rfl rfl rfl htransit with hj | ⟨-, -, htype | ⟨-, hSM⟩⟩
        · exact hl.over_of_expired ht he hs hj
        · exact absurd htype hdest.2.2
        · obtain ⟨t', ht', hge⟩ := InSM.lease hSM
          have := hl.over_of_expired ht he hs ht'
          omega
      · -- the writer holds a lease that ends with the entry, so nobody else holds a live one
        have hstored := (L2Entry.stateAt_live (.inl hs)).1.trans hs
        have hown : b.Lease m.requestor e.liveUntilTime :=
          htime ▸ .upgrade (.inr (.inl (by simp [hq]))) rfl hup
        rcases lease_send (b := b) hi rfl rfl rfl htransit with hi | ⟨hi, -, -⟩
        · have hcov := hl.covered i _ hi
          simp only [Covered, ht, he, hstored, L2Entry.afterWrite, reduceCtorEq, if_false] at hcov
          omega
        · rw [hdest.1, Finset.mem_singleton] at hi
          rcases lease_send (b := b) hj rfl rfl rfl htransit with hj | ⟨hj, -, -⟩
          · exact hl.exclusive hv ht e he hstored hlive' i j t hij (hi ▸ hown) hj
          · rw [hdest.1, Finset.mem_singleton] at hj
            exact absurd (hi.trans hj.symm) hij
  | @fillRead τ s ht hts hs =>
    have hover : ∀ {i t}, b.Lease i t → t < b.now :=
      hl.over_of_no_entry (.inr ⟨τ, ht, by simp [hts]⟩)
    have hne : s = .S ∨ s = .SS := by
      rw [hs]
      split <;> simp
    refine ⟨fun i t h => ?_, ?_, ?_⟩
    · have hcov : t ≤ b.now + τ.deltaRequested := by
        rcases lease_send (b := b) h rfl rfl rfl htransit with h | ⟨-, rfl, -⟩
        · have := hover h
          omega
        · exact le_rfl
      rcases hne with hne | hne <;> simpa [Covered, L2.send, hne] using hcov
    · rintro - _ ⟨⟩ hE
      rcases hne with hne | hne <;> cases hne.symm.trans hE
    · rintro hv - _ ⟨⟩ hS - i j t hij hi hj
      have hcard : τ.l1GetSIDs.card ≤ 1 := by
        by_contra hc
        rw [if_pos ⟨by omega, hv⟩] at hs
        cases hs.symm.trans hS
      rcases lease_send (b := b) hi rfl rfl rfl htransit with hi | ⟨hi, -, -⟩
      · have : b.now + τ.deltaRequested < b.now := hover hi
        omega
      · rcases lease_send (b := b) hj rfl rfl rfl htransit with hj | ⟨hj, -, -⟩
        · exact hover hj
        · exact absurd (Finset.card_le_one.mp hcard i hi j hj) hij
  | @fillWrite τ r g ht hts hr hg =>
    have hover : ∀ {i t}, b.Lease i t → t < b.now :=
      hl.over_of_no_entry (.inr ⟨τ, ht, by rcases hts with h | h <;> simp [h]⟩)
    have hold : ∀ {i t}, Lease (L2.send (fillResponse τ.tbeState r g (g :: b.memory) b.now)
        { b with tbe := none, memReads := b.memReads - 1
                 entry := some { cacheState := .E, dataBlk := g :: b.memory, dirty := true
                                 liveUntilTime := b.now } }) i t → b.Lease i t := by
      intro i t h
      rcases lease_send (b := b) h rfl rfl rfl htransit with h | ⟨-, -, htype | ⟨-, hSM⟩⟩
      · exact h
      · unfold fillResponse at htype
        split at htype <;> cases htype
      · obtain ⟨t', ht', hge⟩ := InSM.lease hSM
        have := hover ht'
        omega
    refine ⟨fun i t h => ?_, ?_, ?_⟩
    · simpa [Covered, L2.send] using hover (hold h)
    · rintro - _ ⟨⟩ -
      exact ⟨hinv.now_pos, le_rfl⟩
    · rintro hv - _ ⟨⟩ hS
      cases hS

/-- **The step lemma of the leases.** -/
theorem Step.leaseInv (h : b.Step cfg space a b') (hinv : b.Inv cfg space)
    (hl : b.LeaseInv cfg) : b'.LeaseInv cfg := by
  by_cases hbank : BankStep cfg b a b'
  · exact BankStep.leaseInv hbank hinv hl
  · have hold := fun i t => h.lease hbank hinv (i := i) (t := t)
    cases h with
    | bank h => exact absurd h hbank
    | l1Stall => exact hl
    | core => exact hl.of_old rfl rfl rfl hold
    | l1Replace => exact hl.of_old rfl rfl rfl hold
    | l1Response => exact hl.of_old rfl rfl rfl hold
    | arrive => exact hl.of_old rfl rfl rfl hold
    | requeue => exact hl.of_old rfl rfl rfl hold

omit [DecidableEq ι] in
theorem LeaseInv.tick (hl : b.LeaseInv cfg) : b.tick.LeaseInv cfg := by
  have hold : ∀ i t, b.tick.Lease i t → b.Lease i t := by
    intro i t h
    cases h with
    | line ht => exact .line ht
    | data hm htype => exact .data hm htype
    | upgrade hm hi htype => exact .upgrade hm hi htype
    | ack hSM hm htype =>
      obtain ⟨τ, hτ, hs⟩ := hSM
      obtain ⟨hst, hlive⟩ := L1TBE.stateAt_SM hs
      refine .ack ⟨τ, hτ, ?_⟩ hm htype
      have hlive' : b.now + 1 ≤ τ.liveUntilTime := hlive
      rw [L1TBE.stateAt, if_neg (by omega), hst]
  refine ⟨fun i t h => ?_, ?_, ?_⟩
  · have hcov := hl.covered i t (hold i t h)
    unfold Covered at hcov ⊢
    simp only [Block.tick]
    split <;> simp_all
    · split at hcov <;> split <;> simp_all; omega
    · omega
  · intro ht e he hs
    have := hl.storedE ht e he hs
    simp only [Block.tick]
    omega
  · intro hv ht e he hs hlive i j t hij hi hj
    simp only [Block.tick] at hlive ⊢
    have := hl.exclusive hv ht e he hs (by omega) i j t hij (hold _ _ hi) (hold _ _ hj)
    omega

theorem LeaseInv.noMatchInE (hl : b.LeaseInv cfg) (hinv : b.Inv cfg space) : b.NoMatchInE := by
  intro m hm htype e he hs
  have ht : b.tbe = none := by
    cases hinv.shape with
    | absent ht => exact ht
    | held ht => exact ht
    | reading _ he' =>
      cases he'.symm.trans he
      cases hs
    | writing _ he' _ _ hs' =>
      cases he'.symm.trans he
      rcases hs' with h | h <;> cases h.symm.trans hs
    | evicted _ he' => cases he'.symm.trans he
  have hcov := hl.covered _ _ (.upgrade hm rfl htype)
  simp only [Covered, ht, Option.mem_def.mp he, if_pos hs] at hcov
  omega

end Block

end GpgpuSimRuby.Ruby.Cachelease2
