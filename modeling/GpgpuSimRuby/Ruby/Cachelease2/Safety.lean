import GpgpuSimRuby.Ruby.Cachelease2.Leases

/-!
# cachelease2: safety of the system

The invariants of a block, carried over to every reachable state of the system.

* `counters_balance` — the counters of the L1s balance and no controller faults.
* `write_exclusive` — a store is performed only when no other L1 can still read the old copy.
* `blocking_evictions_safe` — cachelease2uo, which waits with evictions as it does with writes.
-/

namespace GpgpuSimRuby.Ruby.Cachelease2

open Library

variable {ι α : Type} [DecidableEq ι] [DecidableEq α] {cfg : Config} {space : α → MemorySpaceType}
  {s : α → Block ι} {i : ι} {t : Nat}

theorem Block.step_of_ok {sp : MemorySpaceType} {b b' : Block ι} {act : BlockAct ι}
    (hinv : b.Inv cfg sp) (hl : b.LeaseInv cfg) (h : b.step cfg sp act = some (.ok b')) :
    b.Step cfg sp act b' := by
  rcases Block.step_spec hinv (hl.noMatchInE hinv) h with ⟨b'', heq, hstep⟩ | ⟨_, _, _, heq⟩
  · cases heq
    exact hstep
  · cases heq

/-- **The invariants hold in every reachable state.** -/
theorem reachable_inv (hs : (system ι cfg space).Reachable s) (a : α) :
    (s a).Inv cfg (space a) ∧ (s a).LeaseInv cfg := by
  refine Component.family_reachable_invariant
    (fun a b => b.Inv cfg (space a) ∧ b.LeaseInv cfg) ?_ ?_ ?_ hs a
  · exact fun a => ⟨Block.inv_init cfg (space a), Block.leaseInv_init cfg⟩
  · exact fun a b h => ⟨h.1.tick, h.2.tick⟩
  · intro a b act b' ⟨hinv, hl⟩ hstep
    have h := Block.step_of_ok hinv hl hstep
    exact ⟨h.inv hinv, h.leaseInv hinv hl⟩

theorem fault_of_fence (hs : (system ι cfg space).Reachable s) {act : FamilyAct α (BlockAct ι)}
    {e : Fault} (he : (system ι cfg space).step s act = some (.error e)) :
    e = .error "Invalid CacheRequestType" ∧ ∃ a i wid, act = .at a (.core i .MEM_FENCE wid) := by
  obtain ⟨a, b, rfl, hb⟩ := Component.family_fault he
  obtain ⟨hinv, hl⟩ := reachable_inv hs a
  rcases Block.step_spec hinv (hl.noMatchInE hinv) hb with ⟨_, heq, _⟩ | ⟨i, wid, rfl, heq⟩
  · cases heq
  · cases heq
    exact ⟨rfl, a, i, wid, rfl⟩

/-! ## Counters -/

/-- **The counters balance, and no controller faults.** In every reachable state the pending reads
and writes of a TBE are the transactions of its L1 that are outstanding, the TBE exists exactly
while there are any, and no assertion fails and no event lacks a transition. The only fault is that
of a fence, which the mandatory port rejects. -/
theorem counters_balance (hs : (system ι cfg space).Reachable s) :
    (∀ a i t, ((s a).l1 i).tbe = some t →
      t.pendingReads = (s a).outstanding i .read ∧
      t.pendingWrites = (s a).outstanding i .write + (s a).outstanding i .atomic) ∧
    (∀ a i, ((s a).l1 i).tbe = none ↔ ∀ k, (s a).outstanding i k = 0) ∧
    ∀ act e, (system ι cfg space).step s act = some (.error e) →
      e = .error "Invalid CacheRequestType" ∧ ∃ a i wid, act = .at a (.core i .MEM_FENCE wid) := by
  refine ⟨fun a i t ht => ?_, fun a i => ?_, fun act e he => ?_⟩
  · have hbal := (reachable_inv hs a).1.line i
    exact ⟨hbal.reads t ht, hbal.writes t ht⟩
  · exact ((reachable_inv hs a).1.line i).tbe_eq_none_iff
  · exact fault_of_fence hs he

/-- Two L1s over one block. -/
abbrev twoL1s (variant : Variant) (fixedLease : Nat) :
    Machine (Unit → Block Bool) (FamilyAct Unit (BlockAct Bool)) Fault :=
  system Bool { variant := variant, fixedLease := fixedLease } fun _ => .GLOBAL

/-- A load and a store of one L1 under way: one read and one write are outstanding. -/
theorem counters_balance_load_store :
    ∃ s, (twoL1s .cachelease2 10).run
        [.at () (.core true .LD 0), .at () (.core true .ST 1)] (twoL1s .cachelease2 10).init = some s ∧
      (s ()).outstanding true .read = 1 ∧ (s ()).outstanding true .write = 1 ∧
      ∃ t, ((s ()).l1 true).tbe = some t ∧ t.pendingReads = 1 ∧ t.pendingWrites = 1 := by
  refine Machine.exists_run_of (twoL1s .cachelease2 10) _
    (fun s => (((s ()).l1 true).tbe.isSome, (s ()).outstanding true)) (Machine.runMeets_true ..) rfl
    fun s hs hf => ?_
  have hread : (s ()).outstanding true .read = 1 := congrFun (congrArg Prod.snd hf) .read
  have hwrite : (s ()).outstanding true .write = 1 := congrFun (congrArg Prod.snd hf) .write
  have hatomic : (s ()).outstanding true .atomic = 0 := congrFun (congrArg Prod.snd hf) .atomic
  obtain ⟨t, ht⟩ := Option.isSome_iff_exists.mp (congrArg Prod.fst hf)
  obtain ⟨hr, hw⟩ := (counters_balance hs).1 () true t ht
  exact ⟨hread, hwrite, t, ht, by omega, by omega⟩

/-! ## Exclusive writes -/

namespace Block

/-- The L1 whose store or atomic the L2 performs when it takes the action: `E L1_Write`,
`S L1_Upgrade_T`, `E L1_Upgrade_NT`, `E L2_Atomic`, `IM Mem_Data`, `IMA Mem_Data`. -/
def performs (cfg : Config) (b : Block ι) : BlockAct ι → Option ι
  | .l2Request =>
    match b.l1RequestToL2Cache with
    | [] => none
    | m :: _ =>
      match L2.getState b, cfg.requestEvent b m with
      | .E, .ok .l1Write | .S, .ok .l1UpgradeT | .E, .ok .l1UpgradeNT | .E, .ok .l2Atomic =>
        some m.requestor
      | _, _ => none
  | .l2Memory =>
    match b.tbe with
    | some t => if t.tbeState = .IM ∨ t.tbeState = .IMA then t.l1WBAckID else none
    | none => none
  | _ => none

/-- The L1 of `i` holds the block in `S` or `SM` with a lease that is not over. -/
def HoldsLive (b : Block ι) (i : ι) : Prop :=
  (L1.getState (b.l1Ctx i) = .S ∨ L1.getState (b.l1Ctx i) = .SM) ∧ L1.isLive (b.l1Ctx i) = true

/-- Data in flight to `i` carries a lease that is not over. -/
def LiveDataInFlight (b : Block ι) (i : ι) : Prop :=
  ∃ m ∈ b.responseToL1 i, m.type = .DATA ∧ b.now ≤ m.liveUntilTime

variable {space : MemorySpaceType} {b : Block ι} {act : BlockAct ι} {r : ι}

omit [DecidableEq ι] in
theorem HoldsLive.lease (h : b.HoldsLive i) : ∃ t, b.Lease i t ∧ b.now ≤ t := by
  have hlive := h.2
  simp only [L1.isLive, l1Ctx, L1Line.ctx] at hlive
  split at hlive
  · next t ht => exact ⟨_, .line (.tbe ht rfl), of_decide_eq_true hlive⟩
  · next e ht he => exact ⟨_, .line (.entry he rfl), of_decide_eq_true hlive⟩
  · cases hlive

/-- **When a write is performed, the leases of the others are over**; those of the writer too,
except when its upgrade matches in `S`. -/
theorem LeaseInv.over_of_performs (hl : b.LeaseInv cfg) (hinv : b.Inv cfg space)
    (hp : b.performs cfg act = some r) (h : b.Lease i t)
    (hi : i ≠ r ∨ cfg.variant = .cachelease2uo) : t < b.now := by
  cases act with
  | l2Memory =>
    simp only [performs] at hp
    split at hp
    · next τ ht =>
      split at hp
      · next hs =>
        refine hl.over_of_no_entry (.inr ⟨τ, ht, ?_⟩) h
        rcases hs with hs | hs <;> simp [hs]
      · cases hp
    · cases hp
  | l2Request =>
    simp only [performs] at hp
    split at hp
    · cases hp
    · next m rest hq =>
      have hover : L2.getState b = .E → t < b.now := by
        intro hE
        obtain ⟨ht, e, he, hs⟩ := hinv.shape.held_of_getState (.inl hE)
        exact hl.over_of_expired ht he (hs.trans hE) h
      split at hp
      · next hE _ => exact hover hE
      · next hS hT =>
        cases hp
        obtain ⟨hv, hup, e, he, hlive, htime⟩ := Config.match_of_requestEvent hT
        obtain ⟨ht, e', he', hs⟩ := hinv.shape.held_of_getState (.inr (.inl hS))
        cases he.symm.trans he'
        have hown : b.Lease m.requestor e.liveUntilTime :=
          htime ▸ .upgrade (.inr (.inl (by simp [hq]))) rfl hup
        have hstored := (L2Entry.stateAt_live (.inl (hs.trans hS))).1.trans (hs.trans hS)
        exact hl.exclusive hv ht e he hstored hlive _ i t (Ne.symm (hi.resolve_right hv)) hown h
      · next hE _ => exact hover hE
      · next hE _ => exact hover hE
      · cases hp
  | _ => cases hp

omit [DecidableEq ι] in
theorem not_holds_of_over (hover : ∀ t, b.Lease i t → t < b.now) :
    ¬ b.HoldsLive i ∧ ¬ b.LiveDataInFlight i := by
  constructor
  · intro h
    obtain ⟨t, ht, hge⟩ := h.lease
    have := hover t ht
    omega
  · rintro ⟨m, hm, htype, hge⟩
    have := hover _ (.data hm htype)
    omega

end Block

/-- **Writes are exclusive.** Whenever the L2 performs a store or an atomic of `r`, no other L1 holds
the block in `S` or `SM` with a live lease, and no data in flight to another L1 carries a lease that
is still live. -/
theorem write_exclusive (hs : (system ι cfg space).Reachable s) {a : α} {act : BlockAct ι} {r : ι}
    (hp : (s a).performs cfg act = some r) (i : ι) (hi : i ≠ r) :
    ¬ (s a).HoldsLive i ∧ ¬ (s a).LiveDataInFlight i := by
  obtain ⟨hinv, hl⟩ := reachable_inv hs a
  exact Block.not_holds_of_over fun t h => hl.over_of_performs hinv hp h (.inl hi)

/-- A write hit of the only reader: its upgrade matches and the store is performed in `S`. -/
theorem write_exclusive_upgrade :
    ∃ s, (twoL1s .cachelease2 10).run
        [.at () (.core true .LD 0), .at () (.arrive true), .at () .l2Request, .at () .l2Memory,
          .at () (.l1Response true 0), .at () (.core true .ST 0), .at () (.arrive true)]
        (twoL1s .cachelease2 10).init = some s ∧
      (s ()).performs { variant := .cachelease2, fixedLease := 10 } .l2Request = some true ∧
      ¬ (s ()).HoldsLive false ∧ ¬ (s ()).LiveDataInFlight false := by
  refine Machine.exists_run_of (twoL1s .cachelease2 10) _
    (fun s => (s ()).performs { variant := .cachelease2, fixedLease := 10 } .l2Request)
    (Machine.runMeets_true ..) rfl fun s hs hp => ?_
  exact ⟨hp, write_exclusive hs hp false (by decide)⟩

/-! ## cachelease2uo -/

/-- The line is not in `SM`, neither in its entry nor in its TBE. -/
def L1Line.NoSM (ℓ : L1Line ι) : Prop :=
  (∀ e ∈ ℓ.entry, e.cacheState ≠ .SM) ∧ ∀ t ∈ ℓ.tbe, t.tbeState ≠ .SM

section NoSM

omit [DecidableEq ι]

variable {now : Nat} {sp : MemorySpaceType} {g : MemFetch ι} {ℓ ℓ' : L1Line ι}

theorem L1TBE.stateAt_ne_SM {t : L1TBE} (h : t.tbeState ≠ .SM) : t.stateAt now ≠ .SM :=
  fun hs => h (L1TBE.stateAt_SM hs).1

theorem L1Line.noSM_of_map {st : L1State} {tbe : Option L1TBE} {rp : Bool} (h : st ≠ .SM)
    (ht : ∀ t ∈ tbe, t.tbeState = st) :
    L1Line.NoSM ⟨ℓ.entry.map fun e => { e with cacheState := st }, tbe, rp⟩ := by
  constructor
  · intro e he
    obtain ⟨e', -, rfl⟩ := Option.map_eq_some_iff.mp he
    exact h
  · intro t h'
    rw [ht t h']
    exact h

theorem CoreStep.noSM {sent : Option (RequestMsg ι)} (h : CoreStep cfg now sp g ℓ sent ℓ')
    (hv : cfg.variant = .cachelease2uo) (hℓ : ℓ.NoSM) : ℓ'.NoSM := by
  cases h with
  | hit => exact hℓ
  | loadMiss => constructor <;> rintro _ ⟨⟩ <;> nofun
  | loadMore _ ht =>
    exact L1Line.noSM_of_map (L1TBE.stateAt_ne_SM (hℓ.2 _ ht)) (by rintro _ ⟨⟩; rfl)
  | upgrade => constructor <;> rintro _ ⟨⟩ <;> simp [Config.wthruNext, hv]
  | upgradeMore ht hs => exact absurd (L1TBE.stateAt_SM hs).1 (hℓ.2 _ ht)
  | write => exact L1Line.noSM_of_map (by decide) (by rintro _ ⟨⟩; rfl)
  | writeMore => exact L1Line.noSM_of_map (by decide) (by rintro _ ⟨⟩; rfl)

theorem ResponseStep.noSM [DecidableEq ι] {m : ResponseMsg ι} (h : ResponseStep now i m ℓ ℓ') (hℓ : ℓ.NoSM) :
    ℓ'.NoSM := by
  cases h with
  | install => constructor <;> rintro _ ⟨⟩; nofun
  | discard ht =>
    exact L1Line.noSM_of_map (L1TBE.stateAt_ne_SM (hℓ.2 _ ht)) (by rintro _ ⟨⟩; rfl)
  | discardDone => exact L1Line.noSM_of_map nofun nofun
  | renew ht _ _ hs => exact absurd (L1TBE.stateAt_SM hs).1 (hℓ.2 _ ht)
  | renewDone ht _ _ hs => exact absurd (L1TBE.stateAt_SM hs).1 (hℓ.2 _ ht)
  | ack => exact L1Line.noSM_of_map (by decide) (by rintro _ ⟨⟩; rfl)
  | ackDone => exact L1Line.noSM_of_map nofun nofun

theorem L1Line.NoSM.getState_ne (h : ℓ.NoSM) (now : Nat) (i : ι) : L1.getState (ℓ.ctx now i) ≠ .SM := by
  cases ht : ℓ.tbe with
  | some t =>
    rw [L1.getState_tbe (c := ℓ.ctx now i) ht]
    exact L1TBE.stateAt_ne_SM (h.2 t ht)
  | none =>
    cases he : ℓ.entry with
    | none => simp [L1.getState, L1Line.ctx, ht, he]
    | some e =>
      have := h.1 e he
      simp only [L1.getState, L1Line.ctx, ht, he]
      split
      · decide
      · exact this

end NoSM

theorem Block.Step.noSM {sp : MemorySpaceType} {b b' : Block ι} {act : BlockAct ι}
    (h : b.Step cfg sp act b') (hv : cfg.variant = .cachelease2uo) (hb : ∀ i, (b.l1 i).NoSM)
    (i : ι) : (b'.l1 i).NoSM := by
  have hupd : ∀ {i₀ ℓ}, L1Line.NoSM ℓ → (Function.update b.l1 i₀ ℓ i).NoSM := by
    intro i₀ ℓ hℓ
    by_cases hi : i = i₀
    · rw [hi, Function.update_self]
      exact hℓ
    · rw [Function.update_of_ne hi]
      exact hb i
  cases h with
  | core _ hstep => exact hupd (hstep.noSM hv (hb _))
  | l1Replace => exact hupd ⟨nofun, (hb _).2⟩
  | l1Stall => exact hb i
  | l1Response _ hstep => exact hupd (hstep.noSM (hb _))
  | arrive => exact hb i
  | requeue => exact hb i
  | bank hstep =>
    rw [hstep.frame.2.1]
    exact hb i

theorem reachable_noSM (hv : cfg.variant = .cachelease2uo)
    (hs : (system ι cfg space).Reachable s) (a : α) (i : ι) : ((s a).l1 i).NoSM := by
  have h : (s a).Inv cfg (space a) ∧ (s a).LeaseInv cfg ∧ ∀ i, ((s a).l1 i).NoSM := by
    refine Component.family_reachable_invariant
      (fun a b => b.Inv cfg (space a) ∧ b.LeaseInv cfg ∧ ∀ i, (b.l1 i).NoSM) ?_ ?_ ?_ hs a
    · exact fun a => ⟨Block.inv_init cfg (space a), Block.leaseInv_init cfg, fun _ => ⟨nofun, nofun⟩⟩
    · exact fun a b h => ⟨h.1.tick, h.2.1.tick, h.2.2⟩
    · intro a b act b' ⟨hinv, hl, hno⟩ hstep
      have h := Block.step_of_ok hinv hl hstep
      exact ⟨h.inv hinv, h.leaseInv hinv hl, h.noSM hv hno⟩
  exact h.2.2 i

theorem Block.Step.over_of_drop {sp : MemorySpaceType} {b b' : Block ι} {act : BlockAct ι}
    (h : b.Step cfg sp act b') (hv : cfg.variant = .cachelease2uo) (hl : b.LeaseInv cfg)
    (he : b.entry ≠ none) (hdrop : b'.entry = none) (ht : b.Lease i t) : t < b.now := by
  cases h with
  | bank hstep =>
    cases hstep with
    | drop hτ he' hs => exact hl.over_of_expired hτ he' hs ht
    | evict _ _ _ _ hv' => exact absurd hv hv'
    | stall => exact absurd hdrop he
    | recycle => exact absurd hdrop he
    | mergeRead => exact absurd hdrop he
    | expire => exact absurd hdrop he
    | _ => cases hdrop
  | _ => exact absurd hdrop he

/-- What a lease can be when the L2 keeps no record of evicted blocks: it is over, or it is within
the time of the entry. -/
theorem Block.LeaseInv.le_entry {sp : MemorySpaceType} {b : Block ι} (hl : b.LeaseInv cfg)
    (hinv : b.Inv cfg sp) (hv : cfg.variant = .cachelease2uo) (h : b.Lease i t) :
    (b.now ≤ t → ∃ e, b.entry = some e ∧ t ≤ e.liveUntilTime) ∧
    (b.tbe = none → ∀ e, b.entry = some e → t ≤ e.liveUntilTime) := by
  have hcov := hl.covered i t h
  unfold Block.Covered at hcov
  cases hinv.shape with
  | absent ht he => simp_all
  | @held e ht he =>
    simp only [ht, he] at hcov
    have hle : t ≤ e.liveUntilTime := by split at hcov <;> omega
    refine ⟨fun _ => ⟨e, he, hle⟩, fun _ e' he' => ?_⟩
    cases he.symm.trans he'
    exact hle
  | reading ht _ _ _ hs => simp_all
  | writing ht _ _ _ hs => rcases hs with hs | hs <;> simp_all
  | evicted _ _ _ _ _ _ _ hv' => exact absurd hv hv'

/-- **cachelease2uo is safe.** A store or an atomic is performed, and a block is dropped, only when
every lease on it is over; a lease that is not over is within the time of the L2's entry, and while
the block is in the cache every lease on record is; `SM` is not used; no controller faults. -/
theorem blocking_evictions_safe (hv : cfg.variant = .cachelease2uo)
    (hs : (system ι cfg space).Reachable s) :
    (∀ a act r, (s a).performs cfg act = some r → ∀ i t, (s a).Lease i t → t < (s a).now) ∧
    (∀ a act b', (s a).step cfg (space a) act = some (.ok b') → (s a).entry ≠ none →
      b'.entry = none → ∀ i t, (s a).Lease i t → t < (s a).now) ∧
    (∀ a i t, (s a).Lease i t →
      ((s a).now ≤ t → ∃ e, (s a).entry = some e ∧ t ≤ e.liveUntilTime) ∧
      ((s a).tbe = none → ∀ e, (s a).entry = some e → t ≤ e.liveUntilTime)) ∧
    (∀ a i, L1.getState ((s a).l1Ctx i) ≠ .SM ∧ ((s a).l1 i).NoSM) ∧
    ∀ act e, (system ι cfg space).step s act = some (.error e) →
      e = .error "Invalid CacheRequestType" ∧ ∃ a i wid, act = .at a (.core i .MEM_FENCE wid) := by
  refine ⟨fun a act r hp i t h => ?_, fun a act b' hstep he hdrop i t h => ?_,
    fun a i t h => ?_, fun a i => ?_, fun act e he => fault_of_fence hs he⟩
  · obtain ⟨hinv, hl⟩ := reachable_inv hs a
    exact hl.over_of_performs hinv hp h (.inr hv)
  · obtain ⟨hinv, hl⟩ := reachable_inv hs a
    exact (Block.step_of_ok hinv hl hstep).over_of_drop hv hl he hdrop h
  · obtain ⟨hinv, hl⟩ := reachable_inv hs a
    exact hl.le_entry hinv hv h
  · have hno := reachable_noSM hv hs a i
    exact ⟨hno.getState_ne (s a).now i, hno⟩

/-- A reader's lease of three cycles is over when the store of the other L1 is performed. -/
theorem blocking_evictions_safe_store :
    ∃ s, (twoL1s .cachelease2uo 3).run
        [.at () (.core true .LD 0), .at () (.arrive true), .at () .l2Request, .at () .l2Memory,
          .at () (.l1Response true 0), .at () (.core false .ST 0), .at () (.arrive false),
          .at () .l2Request, .tick, .tick, .tick, .tick]
        (twoL1s .cachelease2uo 3).init = some s ∧
      (s ()).performs { variant := .cachelease2uo, fixedLease := 3 } .l2Request = some false ∧
      ∀ i t, (s ()).Lease i t → t < (s ()).now := by
  refine Machine.exists_run_of (twoL1s .cachelease2uo 3) _
    (fun s => (s ()).performs { variant := .cachelease2uo, fixedLease := 3 } .l2Request)
    (Machine.runMeets_true ..) rfl fun s hs hp => ?_
  exact ⟨hp, (blocking_evictions_safe rfl hs).1 () .l2Request false hp⟩

/-- **A lease above the time of the entry.** A lease that is over stays in its L1, while the L2 has
dropped the block and fetches it anew, with an entry whose time is still `0`. -/
theorem lease_above_entry :
    ∃ s, (twoL1s .cachelease2uo 3).Reachable s ∧
      ∃ e t, (s ()).entry = some e ∧ (s ()).Lease true t ∧ e.liveUntilTime < t ∧ t < (s ()).now := by
  obtain ⟨s, -, hs, hf⟩ := Machine.exists_reachable_of_run (twoL1s .cachelease2uo 3)
    [.at () (.core true .LD 0), .at () (.arrive true), .at () .l2Request, .at () .l2Memory,
      .at () (.l1Response true 0), .tick, .tick, .tick, .tick, .at () .l2Replace,
      .at () (.core false .LD 0), .at () (.arrive false), .at () .l2Request]
    (fun s => ((s ()).now, ((s ()).l1 true).entry.map (·.liveUntilTime),
      (s ()).entry.map (·.liveUntilTime)))
    (y := (5, some 4, some 0)) rfl
  simp only [Prod.mk.injEq, Option.map_eq_some_iff] at hf
  obtain ⟨hnow, ⟨c, hc, hlease⟩, e, he, htime⟩ := hf
  exact ⟨s, hs, e, 4, he, .line (.entry hc hlease), by omega, by omega⟩

end GpgpuSimRuby.Ruby.Cachelease2
