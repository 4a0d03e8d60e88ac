import GpgpuSimRuby.Ruby.Cachelease3.Invariant

/-!
# cachelease3: leases

Nobody invalidates a copy: an L1 uses one until its lease is over. The L2 keeps a single time per
block, in the cache entry or in the TBE, and everything rests on that time being at least as large as
every lease it has given out.

* `Block.recorded` — the time the L2 has on record.
* `Block.Lease b i t` — `t` is a lease of `i`: in its cache entry or its TBE, in a response in flight
  to it, or in an upgrade it has sent.
* `Block.Dominated b t` — what the L2 has on record accounts for a lease until `t`.
* `Block.LeaseInv` — every lease is dominated.

What a step of the L2 does to its time, to the contents of the block and to the responses in flight
is one of three things, `Effect.quiet`, `Effect.read` and `Effect.write`; `BankStep.effect` says so,
and the invariants of the following modules are proved from it.

The oracle predictor is left out throughout (`mode.predOracle = false`): it lets the L2 set its time
back at once, while the leases of the L1s are still to be reset.
-/

namespace GpgpuSimRuby.Ruby.Cachelease3

open Library Function

variable {ι : Type} [DecidableEq ι]

/-! ## The times of a line -/

/-- The times an L1 has on record for the block. -/
inductive L1Line.Time (ℓ : L1Line ι) : Nat → Prop
  | none : Time ℓ 0
  | entry {e t} (he : ℓ.entry = some e) (h : e.liveUntilTime = t) : Time ℓ t
  | tbe {τ t} (hτ : ℓ.tbe = some τ) (h : τ.liveUntilTime = t) : Time ℓ t

section Line

variable {now delta : Nat} {space : MemorySpaceType} {g : MemFetch ι} {ℓ ℓ' : L1Line ι}

omit [DecidableEq ι]

theorem L1Line.Time.of_map {f : L1Entry ι → L1Entry ι} {tbe : Option L1TBE} {rp : Bool} {t : Nat}
    (h : L1Line.Time ⟨ℓ.entry.map f, tbe, rp⟩ t) (hf : ∀ e, (f e).liveUntilTime = e.liveUntilTime)
    (htbe : ∀ τ, tbe = some τ → ℓ.Time τ.liveUntilTime) : ℓ.Time t := by
  cases h with
  | none => exact .none
  | entry he h =>
    obtain ⟨e, he', rfl⟩ := Option.map_eq_some_iff.mp he
    exact .entry he' ((hf e).symm.trans h)
  | tbe hτ h => exact h ▸ htbe _ hτ

theorem CoreStep.time {sent : Option (RequestMsg ι)} (h : CoreStep now space g delta ℓ sent ℓ')
    {t : Nat} (ht : ℓ'.Time t) : ℓ.Time t := by
  cases h with
  | hit => exact ht
  | hitSM _ hτ => exact ht.of_map (fun _ => rfl) (by rintro _ ⟨⟩; exact .tbe hτ rfl)
  | loadMiss =>
    cases ht with
    | none => exact .none
    | entry he' h =>
      cases he'
      cases he : ℓ.entry with
      | none =>
        simp only [he, Option.getD_none] at h
        exact h ▸ .none
      | some e => exact .entry he (by simpa [he] using h)
    | tbe hτ h => cases hτ; exact h ▸ .none
  | loadMore _ hτ => exact ht.of_map (fun _ => rfl) (by rintro _ ⟨⟩; exact .tbe hτ rfl)
  | upgrade _ he =>
    cases ht with
    | none => exact .none
    | entry he' h => cases he'; exact .entry he h
    | tbe hτ h => cases hτ; exact .entry he h
  | upgradeMore hτ => exact ht.of_map (fun _ => rfl) (by rintro _ ⟨⟩; exact .tbe hτ rfl)
  | write _ _ htime =>
    refine ht.of_map (fun _ => rfl) ?_
    rintro _ ⟨⟩
    rcases htime with rfl | ⟨e, he, rfl⟩
    · exact .none
    · exact .entry he rfl
  | writeMore hτ => exact ht.of_map (fun _ => rfl) (by rintro _ ⟨⟩; exact .tbe hτ rfl)

theorem CoreStep.time_sent {m : RequestMsg ι} (h : CoreStep now space g delta ℓ (some m) ℓ')
    (hm : m.type = .DATA_UPGRADE) : ℓ.Time m.liveUntilTime := by
  cases h with
  | loadMiss => cases hm
  | loadMore => cases hm
  | upgrade _ he => exact .entry he rfl
  | upgradeMore hτ => exact .tbe hτ rfl
  | write _ htype => rcases htype with rfl | rfl <;> cases hm
  | writeMore _ htype => rcases htype with rfl | rfl <;> cases hm

theorem ResponseStep.time {m : ResponseMsg ι} (h : ResponseStep now m ℓ ℓ') {t : Nat}
    (ht : ℓ'.Time t) : ℓ.Time t ∨ t = m.liveUntilTime := by
  cases h with
  | install =>
    cases ht with
    | none => exact .inl .none
    | entry he h => cases he; exact .inr h.symm
    | tbe hτ => cases hτ
  | discard hτ => exact .inl (ht.of_map (fun _ => rfl) (by rintro _ ⟨⟩; exact .tbe hτ rfl))
  | discardDone => exact .inl (ht.of_map (fun _ => rfl) nofun)
  | renew hτ =>
    cases ht with
    | none => exact .inl .none
    | entry he h => cases he; exact .inr h.symm
    | tbe hτ' h => cases hτ'; exact .inl (.tbe hτ h)
  | renewDone =>
    cases ht with
    | none => exact .inl .none
    | entry he h => cases he; exact .inr h.symm
    | tbe hτ' => cases hτ'
  | ack hτ => exact .inl (ht.of_map (fun _ => rfl) (by rintro _ ⟨⟩; exact .tbe hτ rfl))
  | ackDone => exact .inl (ht.of_map (fun _ => rfl) nofun)

theorem ReplaceStep.time (h : ReplaceStep now ℓ ℓ') {t : Nat} (ht : ℓ'.Time t) : ℓ.Time t := by
  cases h with
  | idle =>
    cases ht with
    | none => exact .none
    | entry he => cases he
    | tbe hτ h => exact .tbe hτ h
  | busy hτ =>
    cases ht with
    | none => exact .none
    | entry he => cases he
    | tbe hτ' h => cases hτ'; exact .tbe hτ h
  | stall => exact ht

end Line

/-! ## What the L2 has on record -/

namespace Block

/-- The time the L2 has on record for the block: that of the TBE if there is one, else that of the
cache entry. -/
def recorded (b : Block ι) : Option Nat :=
  match b.tbe, b.entry with
  | some t, _ => some t.liveUntilTime
  | none, some e => some e.liveUntilTime
  | none, none => none

/-- The time on record, `0` if there is none. -/
def recordedTime (b : Block ι) : Nat := b.recorded.getD 0

/-- The stores the L2 has performed: what the cache entry contains, or the memory while the block is
not in the cache. -/
def contents (b : Block ι) : DataBlock ι :=
  match b.tbe, b.entry with
  | none, some e => e.dataBlk
  | _, _ => b.memory

/-- The entry contains what the memory does, and no more if it is clean. -/
def Backed (b : Block ι) : Prop :=
  b.tbe = none → ∀ e ∈ b.entry, b.memory ⊆ e.dataBlk ∧ (e.dirty = false → e.dataBlk ⊆ b.memory)

section Record

variable {b : Block ι} {e : L2Entry ι} {t : L2TBE ι}

omit [DecidableEq ι]

theorem recorded_tbe (ht : b.tbe = some t) : b.recorded = some t.liveUntilTime := by
  simp [recorded, ht]

theorem recorded_entry (ht : b.tbe = none) (he : b.entry = some e) : b.recorded = some e.liveUntilTime := by
  simp [recorded, ht, he]

theorem recordedTime_tbe (ht : b.tbe = some t) : b.recordedTime = t.liveUntilTime := by
  simp [recordedTime, recorded_tbe ht]

theorem recordedTime_entry (ht : b.tbe = none) (he : b.entry = some e) :
    b.recordedTime = e.liveUntilTime := by
  simp [recordedTime, recorded_entry ht he]

theorem contents_tbe (ht : b.tbe = some t) : b.contents = b.memory := by simp [contents, ht]

theorem contents_entry (ht : b.tbe = none) (he : b.entry = some e) : b.contents = e.dataBlk := by
  simp [contents, ht, he]

theorem Vacant.recordedTime_eq {τ : Nat} (hvac : b.Vacant τ) : b.recordedTime = τ := by
  cases hvac with
  | absent ht he hτ => simp [recordedTime, recorded, ht, he, hτ]
  | evicted ht _ _ hτ => rw [recordedTime_tbe ht, hτ]

theorem Vacant.contents_eq {τ : Nat} (hvac : b.Vacant τ) : b.contents = b.memory := by
  cases hvac with
  | absent ht he => simp [contents, ht, he]
  | evicted ht => exact contents_tbe ht

theorem Backed.mem_writeBack (hb : b.Backed) (ht : b.tbe = none) (he : b.entry = some e)
    (w : MemFetch ι) : w ∈ e.writeBack b.memory ↔ w ∈ e.dataBlk := by
  obtain ⟨hsub, hclean⟩ := hb ht e he
  unfold L2Entry.writeBack
  cases hd : e.dirty with
  | true => simp
  | false => exact ⟨fun h => hsub h, fun h => hclean hd h⟩

end Record

end Block

/-! ## The effect of a step of the L2 -/

/-- What a write response answers: the request at the head of the queue, or the write in the TBE. -/
inductive Block.Answers (b : Block ι) (r : ι) (w : MemFetch ι) (m : ResponseMsg ι) :
    BlockAct ι → Prop
  | request {m₀ rest e} (hq : b.l1RequestToL2Cache = m₀ :: rest) (ht : b.tbe = none)
      (he : b.entry = some e) (hm₀ : m₀.type ≠ .GETS) (hr : m₀.requestor = r)
      (hw : m₀.memfetch = w) (htype : m.type = e.answerType b.now m₀) : Answers b r w m .l2Request
  | waiting {t} (ht : b.tbe = some t) (hs : t.tbeState = .IM ∨ t.tbeState = .IMA)
      (hr : t.l1WBAckID = some r) (hw : t.memfetch = some w)
      (htype : m.type = if t.tbeState = .IMA then .DATA_ATOMIC else .ACK_GLOBAL) :
      Answers b r w m .l2Memory

/-- What a step of the L2 does to the time on record, to the contents and to the responses in
flight. -/
inductive Effect (b : Block ι) (a : BlockAct ι) (b' : Block ι) : Prop
  /-- No response; the time is kept, or dropped once it is over. -/
  | quiet (hresp : b'.responseToL1 = b.responseToL1)
      (hcont : ∀ w, w ∈ b'.contents ↔ w ∈ b.contents)
      (hrec : b'.recordedTime = b.recordedTime ∨
        b.recordedTime < b.now ∧ b'.recordedTime = 0)
      (hheld : b'.tbe = none → ∀ e ∈ b'.entry, b.tbe = none ∧ b.entry = some e)
  /-- Data for readers, with a lease. The block is in `S` afterwards only if there is one reader, and
  every lease was over or the data comes from a fetch. -/
  | read (m : ResponseMsg ι) (hresp : b'.responseToL1 = (L2.send m b).responseToL1)
      (htype : m.type = .DATA) (hdata : ∀ w, w ∈ m.dataBlk ↔ w ∈ b.contents)
      (hperf : m.performed = m.dataBlk)
      (hcont : ∀ w, w ∈ b'.contents ↔ w ∈ b.contents)
      (hrec : b'.recordedTime = m.liveUntilTime) (hle : b.recordedTime ≤ m.liveUntilTime)
      (hnow : b.now ≤ m.liveUntilTime)
      (hsole : ∀ e ∈ b'.entry, e.cacheState = .S → m.destination.card ≤ 1 ∧
        (b.recordedTime < b.now ∨ a = .l2Memory ∧
          ∃ t, b.tbe = some t ∧ t.tbeState = .IS ∧ m.destination = t.l1GetSIDs))
  /-- The write `w` of `r` is performed and answered. -/
  | write (m : ResponseMsg ι) (r : ι) (w : MemFetch ι)
      (hresp : b'.responseToL1 = (L2.send m b).responseToL1) (hdest : m.destination = {r})
      (hmf : m.memfetch = some w) (hsid : w.sid = r) (hans : b.Answers r w m a)
      (hperf : ∀ x, x ∈ m.performed ↔ x = w ∨ x ∈ b.contents)
      (hdata : m.type = .DATA_GLOBAL → ∀ x, x ∈ m.dataBlk ↔ x ∈ b.contents)
      (hcont : ∀ x, x ∈ b'.contents ↔ x = w ∨ x ∈ b.contents)
      (hrec : b.recordedTime < b'.recordedTime) (hnow : b.now ≤ b'.recordedTime)
      (htime : m.liveUntilTime ≤ b'.recordedTime) (hgwct : b.recordedTime ≤ m.gwct)

section BankStep

variable {mode : L2.Mode} {space : MemorySpaceType} {b b' : Block ι} {a : BlockAct ι}

omit [DecidableEq ι] in
theorem Block.Shape.expired_of_stateAt (hshape : b.Shape space) {e : L2Entry ι}
    (ht : b.tbe = none) (he : b.entry = some e) (hs : e.stateAt b.now = .E) : e.liveUntilTime < b.now := by
  cases hshape with
  | @held e' _ he' _ hstored =>
    obtain rfl : e = e' := Option.some.inj (he.symm.trans he')
    rcases L2Entry.stateAt_cases b.now hstored with ⟨-, h⟩ | ⟨h, -⟩
    · exact h
    · rw [hs] at h
      rcases hstored with h' | h' <;> rw [h'] at h <;> cases h
  | _ => simp_all

/-- **The effect of a step of the L2.** -/
theorem BankStep.effect (h : BankStep mode b a b') (hno : mode.predOracle = false)
    (hinv : b.Inv mode space) (hback : b.Backed) : Effect b a b' := by
  have hwf : ∀ {m rest}, b.l1RequestToL2Cache = m :: rest → m.WellFormed space :=
    fun {m rest} hq => hinv.request m (.inr (by simp [hq]))
  cases h with
  | stall => exact .quiet rfl (fun _ => Iff.rfl) (.inl rfl) fun ht _ he => ⟨ht, he⟩
  | @fetchRead _ m rest τ hq hvac hm =>
    refine .quiet rfl (fun _ => ?_) (.inl ?_) nofun
    · rw [hvac.contents_eq]
      rfl
    · rw [hvac.recordedTime_eq]
      rfl
  | @mergeRead _ m rest t hq ht hs hm =>
    refine .quiet rfl (fun _ => ?_) (.inl ?_) nofun
    · rw [Block.contents_tbe ht]
      rfl
    · rw [Block.recordedTime_tbe ht]
      rfl
  | @fetchWrite m rest s τ hq hvac hm hs =>
    refine .quiet rfl (fun _ => ?_) (.inl ?_) nofun
    · rw [hvac.contents_eq]
      rfl
    · rw [hvac.recordedTime_eq]
      rfl
  | @read _ m rest e time hq ht he hm htime =>
    have hc := Block.contents_entry ht he
    have hr := Block.recordedTime_entry ht he
    refine .read _ rfl rfl (fun w => by rw [hc]) rfl ?_ ?_ ?_ ?_ ?_
    · simp [Block.contents, L2.send, ht, he]
    · simp [Block.recordedTime, Block.recorded, L2.send, ht]
    · rw [hr, htime]
      exact Nat.le_max_right _ _
    · rw [htime]
      exact (Nat.le_add_right _ _).trans (Nat.le_max_left _ _)
    · rintro _ ⟨⟩ hS
      refine ⟨(Finset.card_singleton _).le, .inl ?_⟩
      rw [hr]
      refine hinv.shape.expired_of_stateAt ht he ?_
      by_contra hne
      simp [L2State.afterRead, hne] at hS
  | @write τ sh q m rest e hq ht he hm hτ =>
    obtain ⟨rfl, rfl⟩ := hτ hno
    have hc := Block.contents_entry ht he
    have hr := Block.recordedTime_entry ht he
    have hmax : e.liveUntilTime < L2.globalTimeAfterWrite b.now 0 e.liveUntilTime ∧
        b.now ≤ L2.globalTimeAfterWrite b.now 0 e.liveUntilTime := by
      unfold L2.globalTimeAfterWrite
      omega
    refine .write _ m.requestor m.memfetch rfl rfl rfl (hwf hq).sid
      (.request hq ht he hm rfl rfl rfl) ?_ ?_ ?_ ?_ ?_ ?_ ?_
    · simp [writeResponse, hc]
    · intro htype
      simp only [writeResponse] at htype
      simp [writeResponse, htype, hc]
    · simp [Block.contents, L2.send, ht, he]
    · rw [hr]
      simp only [Block.recordedTime, Block.recorded, L2.send, ht, Option.getD_some]
      exact hmax.1
    · simp only [Block.recordedTime, Block.recorded, L2.send, ht, Option.getD_some]
      exact hmax.2
    · simp only [Block.recordedTime, Block.recorded, L2.send, ht, Option.getD_some, writeResponse]
      split
      · exact hmax.1.le
      · exact le_rfl
    · rw [hr]
      exact le_rfl
  | @fillRead _ t time ht hts htime =>
    have hc := Block.contents_tbe ht
    have hr := Block.recordedTime_tbe ht
    refine .read _ rfl rfl (fun w => by rw [hc]) rfl ?_ ?_ ?_ ?_ ?_
    · simp [Block.contents, L2.send, ht]
    · simp [Block.recordedTime, Block.recorded, L2.send]
    · rw [hr, htime]
      exact Nat.le_max_right _ _
    · rw [htime]
      exact (Nat.le_add_right _ _).trans (Nat.le_max_left _ _)
    · rintro _ ⟨⟩ hS
      refine ⟨?_, .inr ⟨rfl, t, ht, hts, rfl⟩⟩
      by_contra hlt
      simp [not_le.mp hlt] at hS
  | @fillWrite _ t r g time ht hts hwriter hg htime =>
    have hc := Block.contents_tbe ht
    have hr := Block.recordedTime_tbe ht
    have hmax : t.liveUntilTime < time ∧ b.now ≤ time := by
      rw [htime]
      unfold L2.globalTimeAfterWrite
      omega
    have hsid : g.sid = r := by
      cases hinv.shape <;> simp_all
    refine .write _ r g rfl rfl rfl hsid (.waiting ht hts hwriter hg rfl) ?_ ?_ ?_ ?_ ?_ ?_ ?_
    · simp [fillResponse, hc]
    · intro htype
      simp only [fillResponse] at htype
      split at htype <;> cases htype
    · simp [Block.contents, L2.send, ht]
    · rw [hr]
      simp only [Block.recordedTime, Block.recorded, L2.send, Option.getD_some]
      exact hmax.1
    · simp only [Block.recordedTime, Block.recorded, L2.send, Option.getD_some]
      exact hmax.2
    · simp [Block.recordedTime, Block.recorded, L2.send, fillResponse]
    · rw [hr]
      exact hmax.1.le
  | @evict τ q e ht he hs hlive hτ =>
    obtain ⟨rfl, rfl⟩ := hτ hno
    refine .quiet rfl (fun w => ?_) (.inl ?_) ?_
    · rw [Block.contents_entry ht he]
      exact hback.mem_writeBack ht he w
    · rw [Block.recordedTime_entry ht he]
      rfl
    · intro _ _ he'
      cases he'
  | @drop e ht he hs =>
    refine .quiet rfl (fun w => ?_) (.inr ⟨?_, ?_⟩) ?_
    · simp only [Block.contents, ht, he]
      exact hback.mem_writeBack ht he w
    · rw [Block.recordedTime_entry ht he]
      exact hinv.shape.expired_of_stateAt ht he hs
    · simp [Block.recordedTime, Block.recorded, ht]
    · intro _ _ he'
      cases he'
  | @expire t _ ht he hs hdue =>
    refine .quiet rfl (fun w => ?_) (.inr ⟨?_, ?_⟩) ?_
    · simp [Block.contents, ht, he]
    · rw [Block.recordedTime_tbe ht]
      exact hdue
    · simp [Block.recordedTime, Block.recorded, he]
    · intro _ e' he'
      rw [he] at he'
      cases he'
  | popExpire => exact .quiet rfl (fun _ => Iff.rfl) (.inl rfl) fun ht _ he => ⟨ht, he⟩

theorem BankStep.backed (h : BankStep mode b a b') (hback : b.Backed) : b'.Backed := by
  cases h with
  | stall => exact hback
  | fetchRead | mergeRead | fetchWrite | evict => nofun
  | drop | expire _ he => intro _ e' he'; simp_all
  | popExpire => exact hback
  | @read _ m rest e time hq ht he =>
    rintro - _ ⟨⟩
    exact hback ht e he
  | write _ _ _ _ ht he =>
    rintro - _ ⟨⟩
    exact ⟨fun w hw => List.mem_cons_of_mem _ ((hback ht _ he).1 hw), nofun⟩
  | fillRead =>
    rintro - _ ⟨⟩
    exact ⟨fun _ => id, fun _ _ => id⟩
  | fillWrite =>
    rintro - _ ⟨⟩
    exact ⟨fun w hw => List.mem_cons_of_mem _ hw, nofun⟩

theorem BankStep.zero (h : BankStep mode b a b') (hnow : 0 < b.now)
    (hz : b.recorded = some 0 → ∃ t, b.tbe = some t ∧ t.tbeState ≠ .MI)
    (h0 : b'.recorded = some 0) : ∃ t, b'.tbe = some t ∧ t.tbeState ≠ .MI := by
  cases h with
  | stall => exact hz h0
  | fetchRead => exact ⟨_, rfl, nofun⟩
  | mergeRead _ _ _ hs => exact ⟨_, rfl, by rw [hs]; nofun⟩
  | fetchWrite _ _ _ hs => exact ⟨_, rfl, by rw [hs]; split <;> nofun⟩
  | read _ _ ht _ _ htime =>
    simp [Block.recorded, L2.send, ht, htime, L2.globalTimeAfterRead] at h0
    omega
  | write _ _ _ _ ht => simp [Block.recorded, L2.send, ht, L2.globalTimeAfterWrite] at h0
  | fillRead _ _ _ htime =>
    simp [Block.recorded, L2.send, htime, L2.globalTimeAfterRead] at h0
    omega
  | fillWrite _ _ _ _ _ htime =>
    simp [Block.recorded, L2.send, htime, L2.globalTimeAfterWrite] at h0
  | evict _ _ _ _ _ hlive =>
    simp [Block.recorded] at h0
    omega
  | drop ht => simp [Block.recorded, ht] at h0
  | expire _ he => simp [Block.recorded, he] at h0
  | popExpire => exact hz h0

end BankStep

/-! ## Leases -/

namespace Block

/-- The leases of `i`: the times on its line, in the responses in flight to it, and in the upgrades
it has sent. -/
inductive Lease (b : Block ι) (i : ι) : Nat → Prop
  | line {t} (ht : (b.l1 i).Time t) : Lease b i t
  | response {m} (hm : m ∈ b.responseToL1 i) : Lease b i m.liveUntilTime
  | upgrade {m} (hm : b.InTransit m) (hi : m.requestor = i) (htype : m.type = .DATA_UPGRADE) :
      Lease b i m.liveUntilTime

/-- What the L2 has on record accounts for a lease until `t`: the lease ends no later than the time
on record, or it is over and the L2 has nothing on record. -/
def Dominated (b : Block ι) (t : Nat) : Prop :=
  t ≤ b.recordedTime ∨ t < b.now ∧ b.recordedTime = 0

/-- The lease invariant of a block. -/
structure LeaseInv (b : Block ι) : Prop where
  backed : b.Backed
  dominated : ∀ i t, b.Lease i t → b.Dominated t
  /-- Time `0` is only on record while the L2 fetches a block it had no record of. -/
  zero : b.recorded = some 0 → ∃ t, b.tbe = some t ∧ t.tbeState ≠ .MI

variable {mode : L2.Mode} {space : MemorySpaceType} {b b' : Block ι} {a : BlockAct ι} {i : ι} {j : ι}

omit [DecidableEq ι] in
theorem leaseInv_init : ({} : Block ι).LeaseInv where
  backed _ _ := nofun
  dominated i t h := by
    cases h with
    | line ht =>
      cases ht with
      | none => exact .inl le_rfl
      | entry he => cases he
      | tbe hτ => cases hτ
    | response hm => cases hm
    | upgrade hm => rcases hm with h | h <;> cases h
  zero := nofun

omit [DecidableEq ι] in
theorem LeaseInv.le_recordedTime (hl : b.LeaseInv) {t : Nat} (h : b.Lease i t)
    (hlive : b.now ≤ t) : t ≤ b.recordedTime := by
  rcases hl.dominated i t h with h | ⟨h, -⟩
  · exact h
  · omega

omit [DecidableEq ι] in
theorem LeaseInv.over (hl : b.LeaseInv) (hexp : b.recordedTime < b.now) {t : Nat}
    (h : b.Lease i t) : t < b.now := by
  rcases hl.dominated i t h with h | ⟨h, -⟩
  · omega
  · exact h

theorem lease_core {wid delta : Nat} {sent : Option (RequestMsg ι)} {ℓ : L1Line ι}
    (hstep : CoreStep b.now space ⟨b.nextUid, i, wid⟩ delta (b.l1 i) sent ℓ) {t : Nat}
    (h : { b.setLine i ℓ sent with nextUid := b.nextUid + 1 }.Lease j t) : b.Lease j t := by
  cases h with
  | line ht =>
    by_cases hj : j = i
    · subst hj
      simp only [setLine, update_self] at ht
      exact .line (hstep.time ht)
    · simp only [setLine, update_of_ne hj] at ht
      exact .line ht
  | response hm => exact .response hm
  | @upgrade m hm hi htype =>
    rcases inTransit_setLine hm with hm | ⟨hreq, hm⟩
    · exact .upgrade hm hi htype
    · obtain rfl : j = i := hi.symm.trans hreq
      obtain rfl : sent = some m := ‹m ∈ sent›
      exact .line (hstep.time_sent htype)

theorem lease_update {ℓ : L1Line ι} {responses : ι → List (ResponseMsg ι)}
    {acked : List (MemFetch ι)} (hℓ : ∀ t, ℓ.Time t → b.Lease i t)
    (hsub : ∀ j, ∀ m ∈ responses j, m ∈ b.responseToL1 j) {t : Nat}
    (h : { b with l1 := update b.l1 i ℓ, responseToL1 := responses
                  acked := acked }.Lease j t) : b.Lease j t := by
  cases h with
  | line ht =>
    by_cases hj : j = i
    · subst hj
      simp only [update_self] at ht
      exact hℓ t ht
    · simp only [update_of_ne hj] at ht
      exact .line ht
  | response hm => exact .response (hsub j _ hm)
  | upgrade hm hi htype => exact .upgrade hm hi htype

theorem mem_of_mem_erased {i j : ι} {k : Nat} {m : ResponseMsg ι}
    (h : m ∈ update b.responseToL1 i ((b.responseToL1 i).eraseIdx k) j) : m ∈ b.responseToL1 j := by
  by_cases hj : j = i
  · subst hj
    rw [update_self] at h
    exact List.mem_of_mem_eraseIdx h
  · rwa [update_of_ne hj] at h

section

variable (h : b.Step mode space a b')
include h

/-- **Only the L2 gives out leases.** After a step every lease is an old one, or one the L2 has just
sent, and then it is on record. -/
theorem Step.lease (hno : mode.predOracle = false)
    (hinv : b.Inv mode space) (hback : b.Backed) {t : Nat} (hl : b'.Lease j t) :
    b.Lease j t ∨ t ≤ b'.recordedTime := by
  cases h with
  | core _ hstep => exact .inl (lease_core hstep hl)
  | l1Replace hstep =>
    exact .inl (lease_update (fun _ ht => .line (hstep.time ht)) (fun _ _ => id) hl)
  | @l1Response i k m ℓ hm hstep =>
    refine .inl (lease_update (fun t ht => ?_) (fun _ _ => mem_of_mem_erased) hl)
    rcases hstep.time ht with ht | rfl
    · exact .line ht
    · exact .response (mem_of_getElem?_eq_some hm)
  | @l1Reset i _ hq => exact absurd (hinv.ideal hno i) hq
  | arrive hm =>
    cases hl with
    | line ht => exact .inl (.line ht)
    | response hm => exact .inl (.response hm)
    | upgrade hm' hi htype => exact .inl (.upgrade (inTransit_arrive hinv hm hm') hi htype)
  | bank h =>
    cases hl with
    | line ht =>
      rw [h.frame.2.1] at ht
      exact .inl (.line ht)
    | upgrade hm hi htype => exact .inl (.upgrade (h.inTransit hm) hi htype)
    | @response m hm =>
      cases h.effect hno hinv hback with
      | quiet hresp =>
        rw [hresp] at hm
        exact .inl (.response hm)
      | read m₀ hresp _ _ _ _ hrec =>
        rw [hresp] at hm
        rcases L2.mem_send.mp hm with hm | ⟨rfl, -⟩
        · exact .inl (.response hm)
        · exact .inr hrec.ge
      | write m₀ r w hresp _ _ _ _ _ _ _ _ _ htime =>
        rw [hresp] at hm
        rcases L2.mem_send.mp hm with hm | ⟨rfl, -⟩
        · exact .inl (.response hm)
        · exact .inr htime

theorem Step.recordedTime (hno : mode.predOracle = false)
    (hinv : b.Inv mode space) (hback : b.Backed) : b'.recordedTime = b.recordedTime ∨
    b.recordedTime ≤ b'.recordedTime ∧ b.now ≤ b'.recordedTime ∨
    b.recordedTime < b.now ∧ b'.recordedTime = 0 := by
  cases h with
  | core | l1Replace | l1Response | l1Reset | arrive => exact .inl rfl
  | bank h =>
    cases h.effect hno hinv hback with
    | quiet _ _ hrec => exact hrec.imp id .inr
    | read _ _ _ _ _ _ hrec hle hnow => exact .inr (.inl ⟨hrec ▸ hle, hrec ▸ hnow⟩)
    | write _ _ _ _ _ _ _ _ _ _ _ hrec hnow => exact .inr (.inl ⟨hrec.le, hnow⟩)

theorem Step.backed (hback : b.Backed) : b'.Backed := by
  cases h with
  | core | l1Replace | l1Response | l1Reset | arrive => exact hback
  | bank h => exact h.backed hback

/-- **The step lemma of the leases.** -/
theorem Step.leaseInv (hno : mode.predOracle = false)
    (hinv : b.Inv mode space) (hl : b.LeaseInv) : b'.LeaseInv where
  backed := h.backed hl.backed
  dominated j t hlease := by
    unfold Dominated
    rw [h.now_eq]
    rcases h.lease hno hinv hl.backed hlease with hold | hnew
    · have hdom := hl.dominated j t hold
      unfold Dominated at hdom
      have hrec := h.recordedTime hno hinv hl.backed
      omega
    · exact .inl hnew
  zero := by
    cases h with
    | core | l1Replace | l1Response | l1Reset | arrive => exact hl.zero
    | bank h => exact h.zero hinv.now_pos hl.zero

end

omit [DecidableEq ι] in
theorem LeaseInv.tick (hl : b.LeaseInv) : b.tick.LeaseInv where
  backed := hl.backed
  dominated i t h := by
    have hold : b.Lease i t := by
      cases h with
      | line ht => exact .line ht
      | response hm => exact .response hm
      | upgrade hm hi htype => exact .upgrade hm hi htype
    exact (hl.dominated i t hold).imp id fun h => ⟨Nat.lt_succ_of_lt h.1, h.2⟩
  zero := hl.zero

omit [DecidableEq ι] in
theorem recorded_of_pos (h : 0 < b.recordedTime) : b.recorded = some b.recordedTime := by
  unfold recordedTime at h ⊢
  cases hr : b.recorded with
  | none => simp [hr] at h
  | some r => rfl

theorem Step.recorded_mono (h : b.Step mode space a b') (hno : mode.predOracle = false)
    (hinv : b.Inv mode space) (hl : b.LeaseInv) {t : Nat} (hlease : b.Lease i t) (hlive : b.now ≤ t) :
    ∃ r r', b.recorded = some r ∧ b'.recorded = some r' ∧ r ≤ r' := by
  have hpos := hinv.now_pos
  have hle := hl.le_recordedTime hlease hlive
  have hrec := h.recordedTime hno hinv hl.backed
  have hmono : b.recordedTime ≤ b'.recordedTime := by omega
  exact ⟨_, _, recorded_of_pos (by omega), recorded_of_pos (by omega), hmono⟩

end Block

/-! ## Domination -/

section System

variable {α : Type} [DecidableEq α] {mode : L2.Mode} {space : α → MemorySpaceType} {s : Sys α ι}

theorem system_leaseInv {ok : Sys α ι → SysAct α ι → Prop} (hno : mode.predOracle = false)
    (h : (system ι mode space).ReachableUnder ok s) (a : α) : (s.block a).LeaseInv :=
  system_block_invariant (fun _ b => b.LeaseInv) (fun _ => Block.leaseInv_init)
    (fun _ _ hl => hl.tick)
    (fun _ a _ _ hs _ hstep hl => hstep.leaseInv hno ((system_reachable_inv hs).block a) hl) h a

/-- **Leases are dominated.** With any predictor but the oracle, in every reachable state, every lease
in an L1, in a response in flight, or in an upgrade under way is at most the time the L2 has on
record; the exceptions are over already, and the L2 has no record of the block or is fetching one
that it had no record of. While a lease is live, no step makes the time on record smaller. -/
theorem leases_dominated (hno : mode.predOracle = false) (hs : (system ι mode space).Reachable s) :
    (∀ a i t, (s.block a).Lease i t →
      (∃ r, (s.block a).recorded = some r ∧ t ≤ r) ∨
      t < s.now ∧ ((s.block a).recorded = none ∨
        ∃ tbe, (s.block a).tbe = some tbe ∧ tbe.tbeState ≠ .MI ∧ tbe.liveUntilTime = 0)) ∧
    ∀ act s', (system ι mode space).step s act = some (.ok s') →
      ∀ a i t, (s.block a).Lease i t → s.now ≤ t →
        ∃ r r', (s.block a).recorded = some r ∧ (s'.block a).recorded = some r' ∧ r ≤ r' := by
  have hinv := system_reachable_inv hs
  have hleases := system_leaseInv hno hs
  constructor
  · intro a i t hlease
    have hdom := (hleases a).dominated i t hlease
    have hnow := (hinv.block a).now_pos
    unfold Block.Dominated Block.recordedTime at hdom
    rw [← hinv.now a]
    cases hr : (s.block a).recorded with
    | none =>
      rw [hr, Option.getD_none] at hdom
      exact .inr ⟨by omega, .inl rfl⟩
    | some r =>
      rw [hr, Option.getD_some] at hdom
      rcases hdom with hdom | ⟨hover, rfl⟩
      · exact .inl ⟨r, rfl, hdom⟩
      · obtain ⟨tbe, htbe, hMI⟩ := (hleases a).zero hr
        rw [Block.recorded_tbe htbe, Option.some.injEq] at hr
        exact .inr ⟨hover, .inr ⟨tbe, htbe, hMI, hr⟩⟩
  · intro act s' hact a i t hlease hlive
    obtain ⟨_, hs', hstep⟩ := Sys.step_spec hinv hact
    cases hs'
    rw [← hinv.now a] at hlive
    -- the block itself moves, or keeps its record
    have hsame : ∃ r r', (s.block a).recorded = some r ∧ (s.block a).recorded = some r' ∧ r ≤ r' := by
      have hle := (hleases a).le_recordedTime hlease hlive
      have hpos := (hinv.block a).now_pos
      have hr := Block.recorded_of_pos (b := s.block a) (by omega)
      exact ⟨_, _, hr, hr, le_rfl⟩
    cases hstep with
    | tick => exact hsame
    | fence => exact hsame
    | fenceAck => exact hsame
    | @block a' act b hstep =>
      by_cases ha : a = a'
      · subst ha
        simp only [update_self]
        exact hstep.recorded_mono hno (hinv.block a) (hleases a) hlease hlive
      · simp only [update_of_ne ha]
        exact hsame

end System

/-- The L1 of `false` loads the block with a lease of `delta` cycles. -/
def loadFirst (delta : Nat) : List (SysAct Unit Bool) :=
  [.block () (.core false .LD 0 delta), .tick, .block () (.arrive false), .tick,
    .block () .l2Request, .tick, .block () .l2Memory, .tick, .block () (.l1Response false 0)]

/-- The lease of a copy that has just been filled is live, and is on record. -/
theorem leases_dominated_loaded :
    ∃ s, twoL1s.run (loadFirst 20) twoL1s.init = some s ∧ s.now = 5 ∧ (s.block ()).Lease false 24 ∧
      ∃ r, (s.block ()).recorded = some r ∧ 24 ≤ r := by
  obtain ⟨s, hrun, hs, hf⟩ := Machine.exists_reachable_of_run twoL1s (loadFirst 20)
    (fun s => (s.now, (((s.block ()).l1 false).entry.map (·.liveUntilTime)))) (y := (5, some 24)) rfl
  simp only [Prod.mk.injEq, Option.map_eq_some_iff] at hf
  obtain ⟨hnow, e, he, htime⟩ := hf
  have hlease : (s.block ()).Lease false 24 := .line (.entry he htime)
  refine ⟨s, hrun, hnow, hlease, ?_⟩
  rcases (leases_dominated rfl hs).1 () false 24 hlease with h | ⟨h, -⟩
  · exact h
  · omega

/-- **A lease above the time on record.** A lease that is over stays in the L1, while the L2 has
dropped the block and fetches it anew, with time `0` in its TBE. And with the oracle the L2 sets its
time back when it takes a write, while the lease of another L1 is still live. -/
theorem leases_above_record :
    (∃ s, twoL1s.Reachable s ∧ ∃ e t, ((s.block ()).l1 false).entry = some e ∧
      (s.block ()).recorded = some t ∧ t < e.liveUntilTime) ∧
    ∃ s, (system Bool { predOracle := true } fun _ : Unit => .GLOBAL).Reachable s ∧
      ∃ e t, ((s.block ()).l1 false).entry = some e ∧ (s.block ()).recorded = some t ∧
        t < e.liveUntilTime ∧ s.now ≤ e.liveUntilTime := by
  constructor
  · obtain ⟨s, -, hs, hf⟩ := Machine.exists_reachable_of_run twoL1s
      (loadFirst 1 ++ [.tick, .block () .l2Replace, .block () (.core true .LD 0 1), .tick,
        .block () (.arrive true), .tick, .block () .l2Request])
      (fun s => (((s.block ()).l1 false).entry.map (·.liveUntilTime), (s.block ()).recorded))
      (y := (some 5, some 0)) rfl
    simp only [Prod.mk.injEq, Option.map_eq_some_iff] at hf
    obtain ⟨⟨e, he, htime⟩, hrec⟩ := hf
    exact ⟨s, hs, e, 0, he, hrec, by omega⟩
  · obtain ⟨s, -, hs, hf⟩ := Machine.exists_reachable_of_run
      (system Bool { predOracle := true } fun _ : Unit => .GLOBAL)
      (loadFirst 20 ++ [.block () (.core true .ST 0 0), .tick, .block () (.arrive true), .tick,
        .block () .l2Request])
      (fun s => (s.now, ((s.block ()).l1 false).entry.map (·.liveUntilTime), (s.block ()).recorded))
      (y := (7, some 24, some 8)) rfl
    simp only [Prod.mk.injEq, Option.map_eq_some_iff] at hf
    obtain ⟨hnow, ⟨e, he, htime⟩, hrec⟩ := hf
    exact ⟨s, hs, e, 8, he, hrec, by omega, by omega⟩

end GpgpuSimRuby.Ruby.Cachelease3
