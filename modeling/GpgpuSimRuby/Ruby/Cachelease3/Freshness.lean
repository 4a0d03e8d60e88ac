import GpgpuSimRuby.Ruby.Cachelease3.Leases

/-!
# cachelease3: freshness

An upgrade that is answered without data renews the lease of the copy the L1 has. This is sound only
if the copy is as new as the block at the L2, which compares times to find out: a lease that ends
exactly at the time on record was given out after the last write (`FreshInv.held`,
`FreshInv.upgrading`), since every write moves the time on.

`Block.FreshInv` carries this through the messages: what an acknowledgement in flight to an L1 in
`SM` vouches for is in the copy of that L1, together with its own stores (`FreshInv.ack`). The L2 does
not compare the times when the block is evicted (`MI`); `Block.MatchesInMI` is the condition on a
step under which it could.
-/

namespace GpgpuSimRuby.Ruby.Cachelease3

open Library Function

variable {ι : Type} [DecidableEq ι] {sent : Option (RequestMsg ι)}

/-! ## Copies on a line -/

/-- The line is in `SM`: it has the copy `e`, the TBE `t` and upgrades under way. -/
structure L1Line.Upgrading (ℓ : L1Line ι) (t : L1TBE) (e : L1Entry ι) : Prop where
  tbe : ℓ.tbe = some t
  entry : ℓ.entry = some e
  state : t.tbeState = .SM

/-- The line is in `S`, with the copy `e` and nothing under way. -/
structure L1Line.Holds (ℓ : L1Line ι) (e : L1Entry ι) : Prop where
  tbe : ℓ.tbe = none
  entry : ℓ.entry = some e
  state : e.cacheState = .S

/-- The copy contains the store, or it is one of the L1's own stores to it. -/
def L1Entry.Sees (e : L1Entry ι) (w : MemFetch ι) : Prop := w ∈ e.dataBlk ∨ w ∈ e.own

omit [DecidableEq ι] in
theorem L1Entry.Sees.of_subset {e e' : L1Entry ι} {w : MemFetch ι} (h : e.Sees w)
    (hdata : e'.dataBlk = e.dataBlk) (hown : e.own ⊆ e'.own) : e'.Sees w := by
  rcases h with h | h
  · left
    rw [hdata]
    exact h
  · exact .inr (hown h)

section Line

variable {now delta : Nat} {space : MemorySpaceType} {g : MemFetch ι} {ℓ ℓ' : L1Line ι}
  {t' : L1TBE} {e' : L1Entry ι} {m : ResponseMsg ι}

omit [DecidableEq ι]

theorem L1TBE.stateAt_of_live {t : L1TBE} (hs : t.tbeState = .SM) (hlive : now ≤ t.liveUntilTime) :
    t.stateAt now = .SM := by
  unfold L1TBE.stateAt
  rw [if_neg]
  · exact hs
  · intro h
    omega

/-- A step of the core leaves a line in `SM` in two ways: nothing was sent and the copy is as
before, or an upgrade was sent for a live copy, whose time it carries. -/
theorem CoreStep.upgrading (h : CoreStep now space g delta ℓ sent ℓ') (hup : ℓ'.Upgrading t' e') :
    (sent = none ∧ ∃ t e, ℓ.Upgrading t e ∧ t'.liveUntilTime = t.liveUntilTime ∧
      e'.dataBlk = e.dataBlk ∧ e'.own = e.own) ∨
    (sent = some (upgradeMsg space g t'.liveUntilTime) ∧ ∃ e, now ≤ t'.liveUntilTime ∧
      e'.dataBlk = e.dataBlk ∧ e'.own = g :: e.own ∧ (ℓ.Holds e ∧ t'.liveUntilTime = e.liveUntilTime ∨
        ∃ t, ℓ.Upgrading t e ∧ t'.liveUntilTime = t.liveUntilTime)) := by
  obtain ⟨ht', he', hs'⟩ := hup
  cases h with
  | hit _ ht =>
    rw [ht] at ht'
    cases ht'
  | hitSM _ ht hs =>
    cases ht'
    obtain ⟨e, he, rfl⟩ := Option.map_eq_some_iff.mp he'
    exact .inl ⟨rfl, _, e, ⟨ht, he, (L1TBE.stateAt_SM hs).1⟩, rfl, rfl, rfl⟩
  | loadMiss => cases ht'; cases hs'
  | loadMore => cases ht'; cases hs'
  | @upgrade e ht he hs hlive =>
    cases ht'
    cases he'
    exact .inr ⟨rfl, e, hlive, rfl, rfl, .inl ⟨⟨ht, he, hs⟩, rfl⟩⟩
  | @upgradeMore t ht hs =>
    cases ht'
    obtain ⟨hSM, hlive⟩ := L1TBE.stateAt_SM hs
    obtain ⟨e, he, rfl⟩ := Option.map_eq_some_iff.mp he'
    exact .inr ⟨rfl, e, hlive, rfl, rfl, .inr ⟨t, ⟨ht, he, hSM⟩, rfl⟩⟩
  | write => cases ht'; cases hs'
  | writeMore => cases ht'; cases hs'

theorem CoreStep.holds (h : CoreStep now space g delta ℓ sent ℓ') (hold : ℓ'.Holds e') : ℓ.Holds e' := by
  cases h with
  | hit => exact hold
  | hitSM | loadMiss | loadMore | upgrade | upgradeMore | write | writeMore => cases hold.tbe

theorem ResponseStep.upgrading (h : ResponseStep now m ℓ ℓ') (hup : ℓ'.Upgrading t' e') :
    ∃ t e, ℓ.Upgrading t e ∧ now ≤ t.liveUntilTime ∧ t'.liveUntilTime = t.liveUntilTime ∧
      e'.dataBlk = (e.renewed m).dataBlk ∧ e'.own = e.own := by
  obtain ⟨ht', he', hs'⟩ := hup
  cases h with
  | install => cases ht'
  | discard => cases ht'; cases hs'
  | discardDone => cases ht'
  | @renew t e ht he hm hs =>
    cases ht'
    cases he'
    obtain ⟨hSM, hlive⟩ := L1TBE.stateAt_SM hs
    exact ⟨t, e, ⟨ht, he, hSM⟩, hlive, rfl, rfl, rfl⟩
  | renewDone => cases ht'
  | ack => cases ht'; cases hs'
  | ackDone => cases ht'

/-- A response leaves a line in `S` by filling it with data, or by renewing the lease of a live copy
in `SM`. -/
theorem ResponseStep.holds (h : ResponseStep now m ℓ ℓ') (hold : ℓ'.Holds e') :
    e'.liveUntilTime = m.liveUntilTime ∧ ((m.type = .DATA ∧ e'.dataBlk = m.dataBlk ∧ e'.own = []) ∨
    ∃ t e, ℓ.Upgrading t e ∧ now ≤ t.liveUntilTime ∧ m.type ≠ .DATA ∧
      e'.dataBlk = (e.renewed m).dataBlk ∧ e'.own = e.own) := by
  obtain ⟨ht', he', hs'⟩ := hold
  cases h with
  | install _ hm =>
    cases he'
    exact ⟨rfl, .inl ⟨hm, rfl, rfl⟩⟩
  | discard => cases ht'
  | discardDone =>
    obtain ⟨e, -, rfl⟩ := Option.map_eq_some_iff.mp he'
    cases hs'
  | renew => cases ht'
  | @renewDone t e ht he hm hs =>
    cases he'
    obtain ⟨hSM, hlive⟩ := L1TBE.stateAt_SM hs
    refine ⟨rfl, .inr ⟨t, e, ⟨ht, he, hSM⟩, hlive, ?_, rfl, rfl⟩⟩
    rcases hm with hm | hm | hm <;> rw [hm] <;> nofun
  | ack => cases ht'
  | ackDone =>
    obtain ⟨e, -, rfl⟩ := Option.map_eq_some_iff.mp he'
    cases hs'

theorem ReplaceStep.upgrading (h : ReplaceStep now ℓ ℓ') (hup : ℓ'.Upgrading t' e') : ℓ.Upgrading t' e' := by
  cases h with
  | stall => exact hup
  | idle => cases hup.entry
  | busy => cases hup.entry

theorem ReplaceStep.holds (h : ReplaceStep now ℓ ℓ') (hold : ℓ'.Holds e') : ℓ.Holds e' := by
  cases h with
  | stall => exact hold
  | idle => cases hold.entry
  | busy => cases hold.entry

end Line

theorem BankStep.writer {mode : L2.Mode} {b b' : Block ι} {a : BlockAct ι}
    (h : BankStep mode b a b') {τ : L2TBE ι} (hτ : b'.tbe = some τ) {i : ι} (hw : τ.l1WBAckID = some i) :
    (∃ τ₀, b.tbe = some τ₀ ∧ τ₀.l1WBAckID = some i ∧ τ₀.memfetch = τ.memfetch ∧
      τ₀.liveUntilTime = τ.liveUntilTime) ∨
    a = .l2Request ∧ ∃ m rest, b.l1RequestToL2Cache = m :: rest ∧ m.requestor = i ∧
      τ.memfetch = some m.memfetch ∧ b.Vacant τ.liveUntilTime := by
  cases h with
  | stall => exact .inl ⟨τ, hτ, hw, rfl, rfl⟩
  | fetchRead => cases hτ; cases hw
  | mergeRead _ _ ht => cases hτ; exact .inl ⟨_, ht, hw, rfl, rfl⟩
  | fetchWrite hq hvac =>
    cases hτ
    cases hw
    exact .inr ⟨rfl, _, _, hq, rfl, rfl, hvac⟩
  | read _ _ ht => exact absurd (ht.symm.trans hτ) nofun
  | write _ _ _ _ ht => exact absurd (ht.symm.trans hτ) nofun
  | fillRead => cases hτ
  | fillWrite => cases hτ
  | evict => cases hτ; cases hw
  | drop ht => exact absurd (ht.symm.trans hτ) nofun
  | expire => cases hτ
  | popExpire => exact .inl ⟨τ, hτ, hw, rfl, rfl⟩

/-! ## The invariant -/

namespace Block

/-- While the L1 of `i` is in `SM`, it has only upgrades under way to the L2; they carry the time of
its TBE, and their stores are in its copy. -/
def Upgrades (b : Block ι) (i : ι) : Prop :=
  ∀ t e, (b.l1 i).Upgrading t e → ∀ m, b.InTransit m → m.requestor = i →
    m.type = .DATA_UPGRADE ∧ m.liveUntilTime = t.liveUntilTime ∧ m.memfetch ∈ e.own

/-- The freshness invariant of a block, for the L1 of `i`. -/
structure FreshInv (b : Block ι) (i : ι) : Prop where
  /-- An upgrade that waits for a fetch came with the time on record. -/
  waiting : ∀ t e, (b.l1 i).Upgrading t e → ∀ τ ∈ b.tbe, τ.l1WBAckID = some i →
    (∀ w ∈ τ.memfetch, w ∈ e.own) ∧ (b.now ≤ t.liveUntilTime → t.liveUntilTime = τ.liveUntilTime)
  /-- Once the L2 has answered, the copy in `SM` is behind the time on record. -/
  behind : ∀ t e, (b.l1 i).Upgrading t e → b.now ≤ t.liveUntilTime →
    ∀ m ∈ b.responseToL1 i, t.liveUntilTime < b.recordedTime
  performed : ∀ m ∈ b.responseToL1 i, ∀ w ∈ m.performed, w ∈ b.contents
  dataBlk : ∀ m ∈ b.responseToL1 i, m.type = .DATA → m.performed = m.dataBlk
  /-- A lease that ends with the time on record is on a copy with all the contents. -/
  response : ∀ m ∈ b.responseToL1 i, b.now ≤ m.liveUntilTime →
    m.liveUntilTime = b.recordedTime → ∀ w ∈ b.contents, w ∈ m.performed
  held : ∀ e, (b.l1 i).Holds e → b.now ≤ e.liveUntilTime → e.liveUntilTime = b.recordedTime →
    ∀ w ∈ b.contents, e.Sees w
  upgrading : ∀ t e, (b.l1 i).Upgrading t e → b.now ≤ t.liveUntilTime →
    t.liveUntilTime = b.recordedTime → ∀ w ∈ b.contents, e.Sees w
  /-- What an acknowledgement vouches for is in the copy it renews, -/
  ack : ∀ t e, (b.l1 i).Upgrading t e → b.now ≤ t.liveUntilTime →
    ∀ m ∈ b.responseToL1 i, m.type ≠ .DATA_GLOBAL → ∀ w ∈ m.performed, e.Sees w
  /-- or in the data that comes along, -/
  dataGlobal : ∀ t e, (b.l1 i).Upgrading t e → b.now ≤ t.liveUntilTime →
    ∀ m ∈ b.responseToL1 i, m.type = .DATA_GLOBAL → ∀ w ∈ m.performed, w ∈ m.dataBlk ∨ w ∈ e.own
  /-- also when the data of another answer comes in between. -/
  overtaken : ∀ t e, (b.l1 i).Upgrading t e → b.now ≤ t.liveUntilTime →
    ∀ m ∈ b.responseToL1 i, m.type ≠ .DATA_GLOBAL →
      ∀ m' ∈ b.responseToL1 i, m'.type = .DATA_GLOBAL →
        ∀ w ∈ m.performed, w ∈ m'.dataBlk ∨ w ∈ e.own

/-- The L1 of `i` has its copy in a live `SM`. -/
def inSM (b : Block ι) (i : ι) : Bool := (b.l1 i).tbe.any fun t => t.stateAt b.now = .SM

/-- The step does not take up an upgrade of a live copy in `MI` unless its time is the one the TBE
has kept. -/
def MatchesInMI (b : Block ι) : BlockAct ι → Prop
  | .l2Request =>
    match b.l1RequestToL2Cache, b.tbe with
    | m :: _, some t => m.type = .DATA_UPGRADE → t.tbeState = .MI → b.inSM m.requestor = true →
        m.liveUntilTime = t.liveUntilTime
    | _, _ => True
  | _ => True

instance (b : Block ι) (act : BlockAct ι) : Decidable (b.MatchesInMI act) := by
  unfold MatchesInMI
  split
  · split <;> infer_instance
  · infer_instance

omit [DecidableEq ι] in
theorem freshInv_init (i : ι) : ({} : Block ι).FreshInv i where
  waiting _ _ h := nomatch h.tbe
  behind _ _ h := nomatch h.tbe
  performed _ := nofun
  dataBlk _ := nofun
  response _ := nofun
  held _ h := nomatch h.entry
  upgrading _ _ h := nomatch h.tbe
  ack _ _ h := nomatch h.tbe
  dataGlobal _ _ h := nomatch h.tbe
  overtaken _ _ h := nomatch h.tbe

variable {mode : L2.Mode} {space : MemorySpaceType} {b b' : Block ι} {a : BlockAct ι}

omit [DecidableEq ι] in
variable {e : L1Entry ι} {t : L1TBE} {i : ι} {w : MemFetch ι}

theorem inSM_of_upgrading (hup : (b.l1 i).Upgrading t e)
    (hlive : b.now ≤ t.liveUntilTime) : b.inSM i = true := by
  simp [inSM, hup.tbe, L1TBE.stateAt_of_live hup.state hlive]

theorem Inv.response_in_SM (hinv : b.Inv mode space)
    (hup : (b.l1 i).Upgrading t e) {m : ResponseMsg ι} (hm : m ∈ b.responseToL1 i) : m.kind = .write := by
  have hpos := outstanding_pos hm
  rcases (hinv.line i).state t hup.tbe with ⟨h, -⟩ | h | ⟨-, -, hr, ha⟩
  · rw [hup.state] at h
    cases h
  · rw [hup.state] at h
    cases h
  · cases hk : m.kind with
    | read => rw [hk] at hpos; omega
    | write => rfl
    | atomic => rw [hk] at hpos; omega

theorem Inv.idle (hinv : b.Inv mode space) (ht : (b.l1 i).tbe = none) :
    (∀ m, b.InTransit m → m.requestor ≠ i) ∧ (∀ τ ∈ b.tbe, τ.l1WBAckID ≠ some i) ∧
      ∀ m, m ∉ b.responseToL1 i := by
  have hzero := (hinv.line i).tbe_eq_none_iff.mp ht
  refine ⟨fun m hm hreq => ?_, fun τ hτ hwriter => ?_, fun m hm => ?_⟩
  · have h0 := hzero m.kind
    have hpos : 0 < b.inNetwork i m.kind := by
      unfold inNetwork
      rcases hm with hm | hm
      · rw [hreq] at hm
        have := List.countP_pos_iff (p := fun x : RequestMsg ι => x.kind = m.kind).mpr ⟨m, hm, by simp⟩
        omega
      · have := List.countP_pos_iff
          (p := fun x : RequestMsg ι => x.requestor = i ∧ x.kind = m.kind).mpr ⟨m, hm, by simp [hreq]⟩
        omega
    unfold outstanding at h0
    omega
  · cases hinv.shape with
    | @writing t r g sh ht _ _ hs =>
      obtain rfl : τ = t := Option.some.inj (hτ.symm.trans ht)
      rcases hs with hs | hs
      · have h0 := hzero .write
        simp [outstanding, waiting, ht, L2TBE.waiting, hs, hwriter] at h0
      · have h0 := hzero .atomic
        simp [outstanding, waiting, ht, L2TBE.waiting, hs, hwriter] at h0
    | _ => simp_all
  · have hpos := outstanding_pos hm
    have h0 := hzero m.kind
    omega

/-! ## Upgrades -/

omit [DecidableEq ι] in
theorem upgrades_init (i : ι) : ({} : Block ι).Upgrades i := fun _ _ h => nomatch h.tbe

omit [DecidableEq ι] in
theorem Upgrades.of_frame (hu : b.Upgrades i)
    (hup : ∀ t e, (b'.l1 i).Upgrading t e → (b.l1 i).Upgrading t e)
    (htransit : ∀ m, m.requestor = i → b'.InTransit m → b.InTransit m) : b'.Upgrades i :=
  fun t e h m hm hreq => hu t e (hup t e h) m (htransit m hreq hm) hreq

theorem upgrades_core (hinv : b.Inv mode space) (hu : b.Upgrades i) {wid delta : Nat}
    {ℓ : L1Line ι} (hstep : CoreStep b.now space ⟨b.nextUid, i, wid⟩ delta (b.l1 i) sent ℓ) :
    { b.setLine i ℓ sent with nextUid := b.nextUid + 1 }.Upgrades i := by
  intro t' e' hup m hm hreq
  simp only [setLine, update_self] at hup
  rcases hstep.upgrading hup with ⟨hsent, t, e, h, htime, -, hown⟩ | ⟨hsent, e, -, -, hown, h⟩
  · rw [htime, hown]
    rcases inTransit_setLine hm with hm | ⟨-, hm⟩
    · exact hu t e h m hm hreq
    · rw [hsent] at hm
      cases hm
  · rw [hown]
    rcases inTransit_setLine hm with hm | ⟨-, hm⟩
    · rcases h with ⟨h, -⟩ | ⟨t, h, htime⟩
      · -- an upgrade from `S` finds nothing under way
        exact absurd hreq ((hinv.idle h.tbe).1 m hm)
      · obtain ⟨h1, h2, h3⟩ := hu t e h m hm hreq
        exact ⟨h1, h2.trans htime.symm, List.mem_cons_of_mem _ h3⟩
    · rw [hsent] at hm
      cases hm
      exact ⟨rfl, rfl, List.mem_cons_self⟩

theorem Step.upgrades (h : b.Step mode space a b') (hno : mode.predOracle = false)
    (hinv : b.Inv mode space) (hu : ∀ i, b.Upgrades i) (j : ι) : b'.Upgrades j := by
  cases h with
  | bank h =>
    refine (hu j).of_frame ?_ fun _ _ => h.inTransit
    rw [h.frame.2.1]
    exact fun _ _ => id
  | @l1Reset i _ hq => exact absurd (hinv.ideal hno i) hq
  | arrive hm => exact (hu j).of_frame (fun _ _ => id) fun _ _ h => inTransit_arrive hinv hm h
  | @core i type wid delta sent ℓ hmshr hstep =>
    by_cases hj : j = i
    · subst hj
      exact upgrades_core hinv (hu j) hstep
    · refine (hu j).of_frame ?_ fun m hreq hm => ?_
      · simp only [setLine, update_of_ne hj]
        exact fun _ _ => id
      · rcases inTransit_setLine hm with hm | ⟨hi, -⟩
        · exact hm
        · exact absurd (hreq.symm.trans hi) hj
  | @l1Replace i ℓ hstep =>
    refine (hu j).of_frame (fun t e hup => ?_) fun _ _ => id
    by_cases hj : j = i
    · subst hj
      simp only [update_self] at hup
      exact hstep.upgrading hup
    · simp only [update_of_ne hj] at hup
      exact hup
  | @l1Response i k m ℓ hm hstep =>
    intro t' e' hup x hx hreq
    by_cases hj : j = i
    · subst hj
      simp only [update_self] at hup
      obtain ⟨t, e, h, -, htime, -, hown⟩ := hstep.upgrading hup
      rw [htime, hown]
      exact hu j t e h x hx hreq
    · simp only [update_of_ne hj] at hup
      exact hu j t' e' hup x hx hreq

/-! ## Steps of the L1s -/

omit [DecidableEq ι] in
theorem FreshInv.of_frame (hf : b.FreshInv i) (hnow : b.now ≤ b'.now)
    (hup : ∀ t e, (b'.l1 i).Upgrading t e → (b.l1 i).Upgrading t e)
    (hheld : ∀ e, (b'.l1 i).Holds e → (b.l1 i).Holds e)
    (hresp : ∀ m ∈ b'.responseToL1 i, m ∈ b.responseToL1 i) (htbe : b'.tbe = b.tbe)
    (hrec : b'.recordedTime = b.recordedTime) (hcont : b'.contents = b.contents) : b'.FreshInv i where
  waiting t e h τ hτ hw := by
    obtain ⟨h1, h2⟩ := hf.waiting t e (hup t e h) τ (htbe ▸ hτ) hw
    exact ⟨h1, fun hlive => h2 (hnow.trans hlive)⟩
  behind t e h hlive m hm := by
    rw [hrec]
    exact hf.behind t e (hup t e h) (hnow.trans hlive) m (hresp m hm)
  performed m hm := by
    rw [hcont]
    exact hf.performed m (hresp m hm)
  dataBlk m hm := hf.dataBlk m (hresp m hm)
  response m hm hlive := by
    rw [hrec, hcont]
    exact hf.response m (hresp m hm) (hnow.trans hlive)
  held e h hlive := by
    rw [hrec, hcont]
    exact hf.held e (hheld e h) (hnow.trans hlive)
  upgrading t e h hlive := by
    rw [hrec, hcont]
    exact hf.upgrading t e (hup t e h) (hnow.trans hlive)
  ack t e h hlive m hm := hf.ack t e (hup t e h) (hnow.trans hlive) m (hresp m hm)
  dataGlobal t e h hlive m hm := hf.dataGlobal t e (hup t e h) (hnow.trans hlive) m (hresp m hm)
  overtaken t e h hlive m hm hne m' hm' :=
    hf.overtaken t e (hup t e h) (hnow.trans hlive) m (hresp m hm) hne m' (hresp m' hm')

omit [DecidableEq ι] in
theorem FreshInv.tick (hf : b.FreshInv i) : b.tick.FreshInv i :=
  hf.of_frame (Nat.le_succ _) (fun _ _ => id) (fun _ => id) (fun _ => id) rfl rfl rfl

theorem freshInv_core (hinv : b.Inv mode space) (hf : b.FreshInv i) {wid delta : Nat}
    {ℓ : L1Line ι} (hstep : CoreStep b.now space ⟨b.nextUid, i, wid⟩ delta (b.l1 i) sent ℓ) :
    { b.setLine i ℓ sent with nextUid := b.nextUid + 1 }.FreshInv i := by
  have hℓ : { b.setLine i ℓ sent with nextUid := b.nextUid + 1 }.l1 i = ℓ := by simp [setLine]
  -- an upgrade from `S` finds nothing under way
  have hquiet : ∀ {e}, (b.l1 i).Holds e → _ := fun {e} h => hinv.idle h.tbe
  -- so with an answer in flight the line was in `SM` before
  have hsame : ∀ {t' e' m}, ℓ.Upgrading t' e' → m ∈ b.responseToL1 i →
      ∃ t e, (b.l1 i).Upgrading t e ∧ t'.liveUntilTime = t.liveUntilTime ∧
        e'.dataBlk = e.dataBlk ∧ e.own ⊆ e'.own := by
    intro t' e' m hup hm
    rcases hstep.upgrading hup with ⟨-, t, e, h, htime, hdata, hown⟩ | ⟨-, e, -, hdata, hown, h⟩
    · exact ⟨t, e, h, htime, hdata, by rw [hown]; exact fun _ => id⟩
    · rcases h with ⟨h, -⟩ | ⟨t, h, htime⟩
      · exact absurd hm ((hquiet h).2.2 m)
      · exact ⟨t, e, h, htime, hdata, by rw [hown]; exact List.subset_cons_self _ _⟩
  refine ⟨?_, ?_, hf.performed, hf.dataBlk, hf.response, ?_, ?_, ?_, ?_, ?_⟩
  · intro t' e' hup τ hτ hw
    rw [hℓ] at hup
    rcases hstep.upgrading hup with ⟨-, t, e, h, htime, -, hown⟩ | ⟨-, e, -, -, hown, h⟩
    · rw [htime, hown]
      exact hf.waiting t e h τ hτ hw
    · rcases h with ⟨h, -⟩ | ⟨t, h, htime⟩
      · exact absurd hw ((hquiet h).2.1 τ hτ)
      · rw [htime, hown]
        obtain ⟨h1, h2⟩ := hf.waiting t e h τ hτ hw
        exact ⟨fun w hw => List.mem_cons_of_mem _ (h1 w hw), h2⟩
  · intro t' e' hup hlive m hm
    rw [hℓ] at hup
    obtain ⟨t, e, h, htime, -⟩ := hsame hup hm
    rw [htime] at hlive ⊢
    exact hf.behind t e h hlive m hm
  · intro e' h
    rw [hℓ] at h
    exact hf.held e' (hstep.holds h)
  · intro t' e' hup hlive hrec w hw
    rw [hℓ] at hup
    rcases hstep.upgrading hup with ⟨-, t, e, h, htime, hdata, hown⟩ | ⟨-, e, -, hdata, hown, h⟩
    · rw [htime] at hlive hrec
      exact (hf.upgrading t e h hlive hrec w hw).of_subset hdata (by rw [hown]; exact fun _ => id)
    · have hsees : e.Sees w := by
        rcases h with ⟨h, htime⟩ | ⟨t, h, htime⟩
        · rw [htime] at hlive hrec
          exact hf.held e h hlive hrec w hw
        · rw [htime] at hlive hrec
          exact hf.upgrading t e h hlive hrec w hw
      exact hsees.of_subset hdata (by rw [hown]; exact List.subset_cons_self _ _)
  · intro t' e' hup hlive m hm hne w hw
    rw [hℓ] at hup
    obtain ⟨t, e, h, htime, hdata, hown⟩ := hsame hup hm
    rw [htime] at hlive
    exact (hf.ack t e h hlive m hm hne w hw).of_subset hdata hown
  · intro t' e' hup hlive m hm hG w hw
    rw [hℓ] at hup
    obtain ⟨t, e, h, htime, -, hown⟩ := hsame hup hm
    rw [htime] at hlive
    exact (hf.dataGlobal t e h hlive m hm hG w hw).imp id fun h => hown h
  · intro t' e' hup hlive m hm hne m' hm' hG w hw
    rw [hℓ] at hup
    obtain ⟨t, e, h, htime, -, hown⟩ := hsame hup hm
    rw [htime] at hlive
    exact (hf.overtaken t e h hlive m hm hne m' hm' hG w hw).imp id fun h => hown h

omit [DecidableEq ι] in
/-- After the response `m` the copy in `SM` has what the responses in flight that bring no data of
their own vouch for, and what `m` vouches for. -/
theorem FreshInv.sees_renewed (hf : b.FreshInv i) {e' : L1Entry ι}
    (h : (b.l1 i).Upgrading t e) (hlive : b.now ≤ t.liveUntilTime) {m x : ResponseMsg ι}
    (hm : m ∈ b.responseToL1 i) (hdata : e'.dataBlk = (e.renewed m).dataBlk) (hown : e'.own = e.own)
    (hx : x ∈ b.responseToL1 i) (hxm : x.type ≠ .DATA_GLOBAL ∨ x = m)
    (hw : w ∈ x.performed) : e'.Sees w := by
  unfold L1Entry.Sees
  rw [hdata, hown, L1Entry.renewed]
  by_cases hG : m.type = .DATA_GLOBAL
  · simp only [hG, if_true]
    by_cases hxG : x.type = .DATA_GLOBAL
    · obtain rfl : x = m := hxm.resolve_left fun hne => hne hxG
      exact hf.dataGlobal t e h hlive x hx hxG w hw
    · exact hf.overtaken t e h hlive x hx hxG m hm hG w hw
  · simp only [hG, if_false]
    have hxG : x.type ≠ .DATA_GLOBAL := by
      rcases hxm with hxm | rfl
      · exact hxm
      · exact hG
    exact hf.ack t e h hlive x hx hxG w hw

theorem freshInv_response (hf : b.FreshInv i) {k : Nat} {m : ResponseMsg ι} {ℓ : L1Line ι}
    (hm : (b.responseToL1 i)[k]? = some m) (hstep : ResponseStep b.now m (b.l1 i) ℓ) :
    { b with l1 := update b.l1 i ℓ
             responseToL1 := update b.responseToL1 i ((b.responseToL1 i).eraseIdx k)
             acked := b.acked ++ m.completes }.FreshInv i := by
  have hmem := mem_of_getElem?_eq_some hm
  have hℓ : update b.l1 i ℓ i = ℓ := update_self ..
  have hsub : ∀ {x}, x ∈ update b.responseToL1 i ((b.responseToL1 i).eraseIdx k) i →
      x ∈ b.responseToL1 i := mem_of_mem_erased
  refine ⟨?_, ?_, fun x hx => hf.performed x (hsub hx), fun x hx => hf.dataBlk x (hsub hx),
    fun x hx => hf.response x (hsub hx), ?_, ?_, ?_, ?_, ?_⟩
  · intro t' e' hup τ hτ hw
    simp only [hℓ] at hup
    obtain ⟨t, e, h, -, htime, -, hown⟩ := hstep.upgrading hup
    rw [htime, hown]
    exact hf.waiting t e h τ hτ hw
  · intro t' e' hup hlive x hx
    simp only [hℓ] at hup
    obtain ⟨t, e, h, hlive', htime, -⟩ := hstep.upgrading hup
    rw [htime]
    exact hf.behind t e h hlive' x (hsub hx)
  · -- the copy that is now in `S` got its data, or its lease, from the response
    intro e' h hlive hrec w hw
    simp only [hℓ] at h
    obtain ⟨htime, h⟩ := hstep.holds h
    rw [htime] at hlive hrec
    have hperf := hf.response m hmem hlive hrec w hw
    rcases h with ⟨htype, hdata, -⟩ | ⟨t, e, h, hlive', -, hdata, hown⟩
    · left
      rw [hdata, ← hf.dataBlk m hmem htype]
      exact hperf
    · exact hf.sees_renewed h hlive' hmem hdata hown hmem (.inr rfl) hperf
  · intro t' e' hup hlive hrec
    simp only [hℓ] at hup
    obtain ⟨t, e, h, hlive', htime, -⟩ := hstep.upgrading hup
    have hlt := hf.behind t e h hlive' m hmem
    rw [htime] at hrec
    exact absurd hrec hlt.ne
  · intro t' e' hup hlive x hx hne w hw
    simp only [hℓ] at hup
    obtain ⟨t, e, h, hlive', -, hdata, hown⟩ := hstep.upgrading hup
    exact hf.sees_renewed h hlive' hmem hdata hown (hsub hx) (.inl hne) hw
  · intro t' e' hup hlive x hx hG w hw
    simp only [hℓ] at hup
    obtain ⟨t, e, h, hlive', -, -, hown⟩ := hstep.upgrading hup
    rw [hown]
    exact hf.dataGlobal t e h hlive' x (hsub hx) hG w hw
  · intro t' e' hup hlive x hx hne x' hx' hG w hw
    simp only [hℓ] at hup
    obtain ⟨t, e, h, hlive', -, -, hown⟩ := hstep.upgrading hup
    rw [hown]
    exact hf.overtaken t e h hlive' x (hsub hx) hne x' (hsub hx') hG w hw

/-! ## Steps of the L2 -/

omit [DecidableEq ι] in
theorem LeaseInv.upgrading_le (hl : b.LeaseInv)
    (h : (b.l1 i).Upgrading t e) (hlive : b.now ≤ t.liveUntilTime) : t.liveUntilTime ≤ b.recordedTime :=
  hl.le_recordedTime (.line (.tbe h.tbe rfl)) hlive

omit [DecidableEq ι] in
theorem LeaseInv.held_le (hl : b.LeaseInv) (h : (b.l1 i).Holds e)
    (hlive : b.now ≤ e.liveUntilTime) : e.liveUntilTime ≤ b.recordedTime :=
  hl.le_recordedTime (.line (.entry h.entry rfl)) hlive

/-- The L2 answers a live copy in `SM`: the store is one of its own, and without data the copy's
lease ends with the time on record. -/
theorem FreshInv.answered (hf : b.FreshInv i) (hu : b.Upgrades i) (hinv : b.Inv mode space) (hl : b.LeaseInv)
    (h : (b.l1 i).Upgrading t e) (hlive : b.now ≤ t.liveUntilTime)
    {m : ResponseMsg ι} (hans : b.Answers i w m a) :
    w ∈ e.own ∧ (m.type = .DATA_GLOBAL ∨ t.liveUntilTime = b.recordedTime) := by
  cases hans with
  | @request m₀ rest e₂ hq ht he _ hr hw htype =>
    obtain ⟨hm₀, htime, hown⟩ := hu t e h m₀ (.inr (by simp [hq])) hr
    have hrec := recordedTime_entry ht he
    have hle := hl.upgrading_le h hlive
    have hE : e₂.stateAt b.now ≠ .E := by
      intro hE
      have := hinv.shape.expired_of_stateAt ht he hE
      omega
    refine ⟨hw ▸ hown, ?_⟩
    by_cases hmatch : e₂.liveUntilTime = m₀.liveUntilTime
    · right
      rw [← htime, ← hmatch, hrec]
    · left
      rw [htype]
      simp [L2Entry.answerType, hm₀, hE, hmatch]
  | waiting ht _ hr hw =>
    obtain ⟨hown, htime⟩ := hf.waiting t e h _ ht hr
    exact ⟨hown w hw, .inr ((htime hlive).trans (recordedTime_tbe ht).symm)⟩

omit [DecidableEq ι] in
theorem Answers.type_ne_data {m : ResponseMsg ι} (h : b.Answers i w m a) : m.type ≠ .DATA := by
  cases h with
  | @request m₀ rest e hq ht he hm₀ hr hw htype =>
    rw [htype]
    rcases e.answerType_cases b.now m₀ with h | h | h | h <;> rw [h] <;> nofun
  | waiting ht hs hr hw htype =>
    rw [htype]
    split <;> nofun

theorem freshInv_bank (h : BankStep mode b a b') (hno : mode.predOracle = false)
    (hinv : b.Inv mode space) (hl : b.LeaseInv) (hMI : b.MatchesInMI a)
    (hu : b.Upgrades i) (hf : b.FreshInv i) : b'.FreshInv i := by
  obtain ⟨hnow, hl1, -, -, -⟩ := h.frame
  have hpos := hinv.now_pos
  have hinv' := h.inv hinv
  have hwaiting : ∀ t e, (b.l1 i).Upgrading t e → ∀ τ ∈ b'.tbe, τ.l1WBAckID = some i →
      (∀ w ∈ τ.memfetch, w ∈ e.own) ∧ (b.now ≤ t.liveUntilTime → t.liveUntilTime = τ.liveUntilTime) := by
    intro t e hup τ hτ hw
    rcases h.writer hτ hw with ⟨τ₀, hτ₀, hw₀, hmf, htime⟩ | ⟨rfl, m, rest, hq, hr, hmf, hvac⟩
    · rw [← hmf, ← htime]
      exact hf.waiting t e hup τ₀ hτ₀ hw₀
    · obtain ⟨hm, htime, hown⟩ := hu t e hup m (.inr (by simp [hq])) hr
      refine ⟨fun w hw => ?_, fun hlive => ?_⟩
      · rw [hmf] at hw
        cases hw
        exact hown
      · cases hvac with
        | absent ht he hτ0 =>
          have hle := hl.upgrading_le hup hlive
          rw [(Vacant.absent ht he hτ0).recordedTime_eq] at hle
          omega
        | evicted ht _ hs hτt =>
          simp only [MatchesInMI, hq, ht] at hMI
          rw [← htime, hMI hm hs (hr ▸ inSM_of_upgrading hup hlive), hτt]
  cases h.effect hno hinv hl.backed with
  | quiet hresp hcont hrec =>
    refine ⟨?_, ?_, ?_, ?_, ?_, ?_, ?_, ?_, ?_, ?_⟩ <;> simp only [hl1, hnow, hresp, hcont]
    · exact hwaiting
    · intro t e hup hlive m hm
      have hlt := hf.behind t e hup hlive m hm
      omega
    · exact hf.performed
    · exact hf.dataBlk
    · intro m hm hlive heq
      exact hf.response m hm hlive (by omega)
    · intro e hheld hlive heq
      exact hf.held e hheld hlive (by omega)
    · intro t e hup hlive heq
      exact hf.upgrading t e hup hlive (by omega)
    · exact hf.ack
    · exact hf.dataGlobal
    · exact hf.overtaken
  | read m₀ hresp htype hdata hperf hcont hrec hle hnow' =>
    -- the data goes to readers, none of which is in `SM`
    have hold : ∀ {t e}, (b.l1 i).Upgrading t e → ∀ {m}, m ∈ (L2.send m₀ b).responseToL1 i →
        m ∈ b.responseToL1 i := by
      intro t e hup m hm
      rcases L2.mem_send.mp hm with hm' | ⟨rfl, -⟩
      · exact hm'
      · have hk := hinv'.response_in_SM (hl1 ▸ hup) (hresp ▸ hm)
        simp [ResponseMsg.kind, htype] at hk
    refine ⟨?_, ?_, ?_, ?_, ?_, ?_, ?_, ?_, ?_, ?_⟩ <;>
      simp only [hl1, hnow, hresp, hcont, hrec]
    · exact hwaiting
    · intro t e hup hlive m hm
      exact (hf.behind t e hup hlive m (hold hup hm)).trans_le hle
    · intro m hm w hw
      rcases L2.mem_send.mp hm with hm | ⟨rfl, -⟩
      · exact hf.performed m hm w hw
      · rw [hperf] at hw
        exact (hdata w).mp hw
    · intro m hm hd
      rcases L2.mem_send.mp hm with hm | ⟨rfl, -⟩
      · exact hf.dataBlk m hm hd
      · exact hperf
    · intro m hm hlive heq w hw
      rcases L2.mem_send.mp hm with hm | ⟨rfl, -⟩
      · have := hl.le_recordedTime (.response hm) hlive
        exact hf.response m hm hlive (by omega) w hw
      · rw [hperf]
        exact (hdata w).mpr hw
    · intro e hheld hlive heq
      have := hl.held_le hheld hlive
      exact hf.held e hheld hlive (by omega)
    · intro t e hup hlive heq
      have := hl.upgrading_le hup hlive
      exact hf.upgrading t e hup hlive (by omega)
    · intro t e hup hlive m hm
      exact hf.ack t e hup hlive m (hold hup hm)
    · intro t e hup hlive m hm
      exact hf.dataGlobal t e hup hlive m (hold hup hm)
    · intro t e hup hlive m hm hne m' hm'
      exact hf.overtaken t e hup hlive m (hold hup hm) hne m' (hold hup hm')
  | write m₀ r w₀ hresp hdest hmf hsid hans hperf hdata hcont hrec hnow' htime hgwct =>
    have hto : i ∈ m₀.destination → b.Answers i w₀ m₀ a := by
      intro hi
      rw [hdest, Finset.mem_singleton] at hi
      rw [hi]
      exact hans
    refine ⟨?_, ?_, ?_, ?_, ?_, ?_, ?_, ?_, ?_, ?_⟩ <;> simp only [hl1, hnow, hresp, hcont]
    · exact hwaiting
    · intro t e hup hlive m hm
      exact (hl.upgrading_le hup hlive).trans_lt hrec
    · intro m hm w hw
      rcases L2.mem_send.mp hm with hm | ⟨rfl, -⟩
      · exact .inr (hf.performed m hm w hw)
      · exact (hperf w).mp hw
    · intro m hm hd
      rcases L2.mem_send.mp hm with hm | ⟨rfl, -⟩
      · exact hf.dataBlk m hm hd
      · exact absurd hd hans.type_ne_data
    · intro m hm hlive heq w hw
      rcases L2.mem_send.mp hm with hm | ⟨rfl, -⟩
      · have := hl.le_recordedTime (.response hm) hlive
        omega
      · exact (hperf w).mpr hw
    · intro e hheld hlive heq
      have := hl.held_le hheld hlive
      omega
    · intro t e hup hlive heq
      have := hl.upgrading_le hup hlive
      omega
    · intro t e hup hlive m hm hne w hw
      rcases L2.mem_send.mp hm with hm | ⟨rfl, hi⟩
      · exact hf.ack t e hup hlive m hm hne w hw
      · obtain ⟨hown, hmatch⟩ := hf.answered hu hinv hl hup hlive (hto hi)
        rcases (hperf w).mp hw with rfl | hw
        · exact .inr hown
        · exact hf.upgrading t e hup hlive (hmatch.resolve_left hne) w hw
    · intro t e hup hlive m hm hG w hw
      rcases L2.mem_send.mp hm with hm | ⟨rfl, hi⟩
      · exact hf.dataGlobal t e hup hlive m hm hG w hw
      · rcases (hperf w).mp hw with rfl | hw
        · exact .inr (hf.answered hu hinv hl hup hlive (hto hi)).1
        · exact .inl ((hdata hG w).mpr hw)
    · intro t e hup hlive m hm hne m' hm' hG w hw
      rcases L2.mem_send.mp hm' with hold' | ⟨rfl, -⟩
      · rcases L2.mem_send.mp hm with hm | ⟨rfl, hi⟩
        · exact hf.overtaken t e hup hlive m hm hne m' hold' hG w hw
        · -- the L2 has answered before, so it sends data now
          have hbehind := hf.behind t e hup hlive m' hold'
          have hmatch := (hf.answered hu hinv hl hup hlive (hto hi)).2.resolve_left hne
          omega
      · rcases L2.mem_send.mp hm with hm | ⟨rfl, -⟩
        · exact .inl ((hdata hG w).mpr (hf.performed m hm w hw))
        · exact absurd hG hne

/-- **The step lemma of freshness.** -/
theorem Step.freshInv (h : b.Step mode space a b') (hno : mode.predOracle = false)
    (hinv : b.Inv mode space) (hl : b.LeaseInv) (hMI : b.MatchesInMI a)
    (hu : ∀ i, b.Upgrades i) (hf : ∀ i, b.FreshInv i) (j : ι) : b'.FreshInv j := by
  cases h with
  | bank h => exact freshInv_bank h hno hinv hl hMI (hu j) (hf j)
  | @l1Reset i _ hq => exact absurd (hinv.ideal hno i) hq
  | arrive hm =>
    exact (hf j).of_frame le_rfl (fun _ _ => id) (fun _ => id) (fun _ => id) rfl rfl rfl
  | @core i type wid delta sent ℓ hmshr hstep =>
    by_cases hj : j = i
    · subst hj
      exact freshInv_core hinv (hf j) hstep
    · refine (hf j).of_frame le_rfl ?_ ?_ (fun _ => id) rfl rfl rfl
      · simp only [setLine, update_of_ne hj]
        exact fun _ _ => id
      · simp only [setLine, update_of_ne hj]
        exact fun _ => id
  | @l1Replace i ℓ hstep =>
    refine (hf j).of_frame le_rfl ?_ ?_ (fun _ => id) rfl rfl rfl
    · intro t e hup
      by_cases hj : j = i
      · subst hj
        simp only [update_self] at hup
        exact hstep.upgrading hup
      · simp only [update_of_ne hj] at hup
        exact hup
    · intro e h
      by_cases hj : j = i
      · subst hj
        simp only [update_self] at h
        exact hstep.holds h
      · simp only [update_of_ne hj] at h
        exact h
  | @l1Response i k m ℓ hm hstep =>
    by_cases hj : j = i
    · subst hj
      exact freshInv_response (hf j) hm hstep
    · refine (hf j).of_frame le_rfl ?_ ?_ (fun _ => mem_of_mem_erased) rfl rfl rfl
      · simp only [update_of_ne hj]
        exact fun _ _ => id
      · simp only [update_of_ne hj]
        exact fun _ => id

end Block

/-! ## Renewed leases -/

section System

variable {α : Type} [DecidableEq α] {mode : L2.Mode} {space : α → MemorySpaceType} {s : Sys α ι}

theorem system_upgrades {ok : Sys α ι → SysAct α ι → Prop} (hno : mode.predOracle = false)
    (h : (system ι mode space).ReachableUnder ok s) (a : α) (i : ι) : (s.block a).Upgrades i :=
  system_block_invariant (fun _ b => ∀ i, b.Upgrades i) (fun _ => Block.upgrades_init)
    (fun _ _ hu => hu)
    (fun _ a _ _ hs _ hstep hu => hstep.upgrades hno ((system_reachable_inv hs).block a) hu) h a i

theorem system_freshInv {ok : Sys α ι → SysAct α ι → Prop} (hno : mode.predOracle = false)
    (hok : ∀ s a act, ok s (.block a act) → (s.block a).MatchesInMI act)
    (h : (system ι mode space).ReachableUnder ok s) (a : α) (i : ι) : (s.block a).FreshInv i := by
  refine system_block_invariant (fun _ b => ∀ i, b.FreshInv i) (fun _ => Block.freshInv_init)
    (fun _ _ hf i => (hf i).tick) ?_ h a i
  intro s a act b' hs hact hstep hf
  exact hstep.freshInv hno ((system_reachable_inv hs).block a) (system_leaseInv hno hs a)
    (hok s a act hact) (system_upgrades hno hs a) hf

omit [DecidableEq α] in
theorem L1Line.upgrading_of_getState {a : α} {i : ι} {gw : GlobalWrites ι} {e : L1Entry ι}
    (hinv : (s.block a).Inv mode (space a))
    (hs : L1.getState ((s.block a).l1Ctx gw i) = .SM) (he : ((s.block a).l1 i).entry = some e) :
    ∃ t, ((s.block a).l1 i).Upgrading t e ∧ (s.block a).now ≤ t.liveUntilTime := by
  cases ht : ((s.block a).l1 i).tbe with
  | none =>
    rcases L1.getState_idle (c := (s.block a).l1Ctx gw i) ht ((hinv.line i).idleEntry ht) with h | ⟨h, -⟩
    · rw [hs] at h
      cases h
    · rw [hs] at h
      cases h
  | some t =>
    have hstate : t.stateAt (s.block a).now = .SM :=
      (L1.getState_tbe (c := (s.block a).l1Ctx gw i) ht).symm.trans hs
    obtain ⟨hSM, hlive⟩ := L1TBE.stateAt_SM hstate
    exact ⟨t, ⟨ht, he, hSM⟩, hlive⟩

/-- **A renewed copy is fresh.** In a run in which the L2 takes up no upgrade of a live copy in `MI`
unless its time matches: whenever an acknowledgement without data is about to renew the lease of the
copy `e` of an L1 in `SM`, this copy, with the L1's own stores to it, contains every write the L2 had
performed when it sent the acknowledgement. -/
theorem renewed_copy_fresh (hno : mode.predOracle = false)
    (hs : (system ι mode space).ReachableUnder (Sys.EachBlock Block.MatchesInMI) s) {a : α} {i : ι}
    {m : ResponseMsg ι} {e : L1Entry ι} (hm : m ∈ (s.block a).responseToL1 i)
    (htype : m.type = .ACK ∨ m.type = .ACK_GLOBAL)
    (hstate : L1.getState ((s.block a).l1Ctx s.globalWrites i) = .SM)
    (he : ((s.block a).l1 i).entry = some e) : ∀ w ∈ m.performed, e.Sees w := by
  have hf := system_freshInv hno (fun _ _ _ h => h) hs a i
  obtain ⟨t, hup, hlive⟩ := L1Line.upgrading_of_getState ((system_reachable_inv hs).block a) hstate he
  refine hf.ack t e hup hlive m hm ?_
  rcases htype with h | h <;> rw [h] <;> nofun

end System

/-- What the L1 of `false` has, and the first response in flight to it. -/
def Sys.upgradeOfFirst (s : Sys Unit Bool) :=
  (L1.getState ((s.block ()).l1Ctx s.globalWrites false), ((s.block ()).l1 false).entry,
    ((s.block ()).responseToL1 false).head?.map fun m => (m.type, m.liveUntilTime, m.performed))

/-- The L1 of `false` stores to its copy, and the acknowledgement is under way. -/
theorem renewed_copy_fresh_upgrade :
    ∃ s e m, twoL1s.ReachableUnder (Sys.EachBlock Block.MatchesInMI) s ∧
      ((s.block ()).l1 false).entry = some e ∧ m ∈ (s.block ()).responseToL1 false ∧
      m.type = .ACK ∧ m.performed = [⟨1, false, 1⟩] ∧ ∀ w ∈ m.performed, e.Sees w := by
  obtain ⟨s, -, hs, hf⟩ := Machine.exists_reachableUnder_of_run twoL1s
    (Sys.EachBlock Block.MatchesInMI)
    (loadFirst 20 ++ [.block () (.core false .ST 1 0), .tick, .block () (.arrive false), .tick,
      .block () .l2Request])
    Sys.upgradeOfFirst
    (y := (.SM, some { cacheState := .SM, liveUntilTime := 24, own := [⟨1, false, 1⟩] },
      some (.ACK, 25, [⟨1, false, 1⟩]))) (by decide) rfl
  simp only [Sys.upgradeOfFirst, Prod.mk.injEq, Option.map_eq_some_iff] at hf
  obtain ⟨hstate, he, m, hm, htype, -, hperf⟩ := hf
  have hmem := List.mem_of_mem_head? hm
  exact ⟨s, _, m, hs, he, hmem, htype, hperf,
    renewed_copy_fresh rfl hs hmem (.inl htype) hstate he⟩

/-- **A renewed copy that is stale.** The L1 of `false` has loaded the block, the store of `true` has
been performed, and the L2 has evicted the block. The upgrade of `false` finds it in `MI`: the
acknowledgement that comes back brings no data and renews a copy without the store of `true`. -/
theorem renewed_copy_stale :
    ∃ s e m w, twoL1s.Reachable s ∧
      L1.getState ((s.block ()).l1Ctx s.globalWrites false) = .SM ∧
      ((s.block ()).l1 false).entry = some e ∧ m ∈ (s.block ()).responseToL1 false ∧
      m.type = .ACK_GLOBAL ∧ e.liveUntilTime < m.liveUntilTime ∧ w ∈ m.performed ∧ ¬ e.Sees w := by
  obtain ⟨s, -, hs, hf⟩ := Machine.exists_reachable_of_run twoL1s
    (loadFirst 20 ++ [.block () (.core true .ST 0 0), .tick, .block () (.arrive true), .tick,
      .block () .l2Request, .tick, .block () .l2Replace, .block () (.core false .ST 1 0), .tick,
      .block () (.arrive false), .tick, .block () .l2Request, .tick, .block () .l2Memory])
    Sys.upgradeOfFirst
    (y := (.SM, some { cacheState := .SM, liveUntilTime := 24, own := [⟨2, false, 1⟩] },
      some (.ACK_GLOBAL, 26, [⟨2, false, 1⟩, ⟨1, true, 0⟩]))) rfl
  simp only [Sys.upgradeOfFirst, Prod.mk.injEq, Option.map_eq_some_iff] at hf
  obtain ⟨hstate, he, m, hm, htype, htime, hperf⟩ := hf
  refine ⟨s, _, m, ⟨1, true, 0⟩, hs, hstate, he, List.mem_of_mem_head? hm, htype, ?_, ?_, ?_⟩
  · rw [htime]
    decide
  · rw [hperf]
    decide
  · unfold L1Entry.Sees
    decide

end GpgpuSimRuby.Ruby.Cachelease3
