import GpgpuSimRuby.Partition.Invariant

/-!
# What a step of the partition does

Each part of `cache_cycle` and `dram_cycle` moves at most one request, answers one access of the L2, or
fills it; each keeps the accounts.
-/

namespace GpgpuSimRuby.Partition.MemoryPartitionUnit

open Library Cache

variable {cfg : Config} {m t : MemoryPartitionUnit} {mf : MemFetch} {rest : List MemFetch}

/-- An empty partition owes nobody anything. -/
theorem Inv.init : Inv cfg {} where
  accounts :=
    { ledger := rfl
      allowed := fun p mf h => by cases p <;> cases h
      tracker := fun mf => by simp
      entered := fun mf h => by cases h
      fromRuby := fun mf h => by cases h }
  pending := BaselineCache.Pending.init
  filed id e h := by cases h
  disabled _ _ := rfl

/-- A push that passes the assertion appends. -/
theorem pushFifo_ok {maxLen : Nat} {q q' : List MemFetch} (h : pushFifo maxLen q mf = .ok q') :
    q' = q ++ [mf] := by
  obtain ⟨_, -, h⟩ := bind_eq_ok.mp h
  cases h
  rfl

theorem reply_ok (h : m.reply cfg mf = .ok t) : t = { m with l2Icnt := m.l2Icnt ++ [mf] } := by
  obtain ⟨q, hq, h⟩ := bind_eq_ok.mp h
  cases h
  rw [pushFifo_ok hq]

theorem setReply_ok {u : Unit} (h : setReply mf = .ok u) : isWriteback mf.accessType = false :=
  assert_eq_ok.mp h

/-! ## Moves between queues -/

namespace Inv

variable (h : Inv cfg m) {time : Nat} {full : Bool}
include h

/-- What comes back from the DRAM and the L2 does not wait for goes to the core that sent it. -/
theorem entered_of_dramL2 (hdram : m.dramL2 = mf :: rest)
    (hno : ¬ (cfg.l2Disabled = false ∧ m.l2.waitingForFill mf.id = true)) :
    ¬ m.Waited mf ∧ isWriteback mf.accessType = false ∧ mf ∈ m.entered := by
  have hnot : ¬ m.Waited mf := by
    intro hw
    cases hdis : cfg.l2Disabled with
    | false => exact hno ⟨hdis, hw⟩
    | true =>
      unfold Waited BaselineCache.waitingForFill at hw
      rw [h.disabled hdis] at hw
      cases hw
  obtain ⟨hwb, hw | hentered⟩ := h.accounts.allowed .dramL2 mf (by simp [contents, hdram])
  · exact absurd hw hnot
  · exact ⟨hnot, hwb, hentered⟩

/-! ## `cache_cycle` -/

/-- An access that is done goes to the core, or is dropped if the L2 made it. -/
theorem l2Responses (hs : m.l2Responses cfg = .ok t) : Inv cfg t := by
  unfold MemoryPartitionUnit.l2Responses at hs
  split at hs
  · obtain ⟨⟨mf, mshrs⟩, hn, hs⟩ := bind_eq_ok.mp hs
    obtain ⟨l2, hl2, hs⟩ := bind_eq_ok.mp hs
    have hn := mapError_eq_ok.mp hn
    obtain ⟨r, hr, hl2⟩ := bind_eq_ok.mp (mapError_eq_ok.mp hl2)
    obtain rfl : r = (mf, mshrs) := Except.ok.inj (hr.symm.trans hn)
    cases hl2
    have hperm := Multiset.coe_eq_coe.mpr (h.mshrs_sound.waiting_nextAccess_perm hn)
    have hallowed : m.Allowed mf .mshrs := h.accounts.allowed .mshrs mf
      (Multiset.mem_coe.mpr ((h.mshrs_sound.waiting_nextAccess_perm hn).mem_iff.mpr List.mem_cons_self))
    have hnot := h.not_waited_nextAccess hn
    split at hs
    · next htype =>
      obtain ⟨_, -, hs⟩ := bind_eq_ok.mp hs
      rw [reply_ok hs]
      exact h.nextAccess (q := .l2Icnt) hn rfl
        ⟨.move (by decide) hperm rfl fun r _ _ => by cases r <;> trivial,
          rfl, rfl, rfl, rfl, rfl, rfl, hnot.elim⟩
        ⟨hallowed.1, hallowed.2.resolve_right htype⟩ rfl rfl
    · next htype =>
      cases hs
      exact h.nextAccess (q := .deleted) hn rfl
        ⟨.move (by decide) hperm rfl fun r _ _ => by cases r <;> trivial,
          rfl, rfl, rfl, rfl, rfl, rfl, hnot.elim⟩
        (.inr (not_not.mp htype)) rfl rfl
  · cases hs
    exact h

/-- What the L2 waits for fills it; all else goes on to the core. -/
theorem dramToL2 (hs : m.dramToL2 cfg time = .ok t) : Inv cfg t := by
  unfold MemoryPartitionUnit.dramToL2 at hs
  split at hs
  · cases hs
    exact h
  · next mf rest hdram =>
    split at hs
    · next hwait =>
      obtain ⟨l2, hl2, hs⟩ := bind_eq_ok.mp hs
      cases hs
      obtain ⟨e, lines, lines', mshrs, dataSize, hextra, -, hmshrs, -, rfl⟩ :=
        BaselineCache.fill_eq (mapError_eq_ok.mp hl2)
      exact h.fill hwait.1 hdram hextra hmshrs rfl rfl rfl rfl
    · next hwait =>
      obtain ⟨hnot, hwb, hentered⟩ := h.entered_of_dramL2 hdram hwait
      split at hs
      · rw [reply_ok hs]
        exact h.moved (p := .dramL2) (q := .l2Icnt)
          ⟨.move (by decide) (congrArg _ hdram) rfl fun r _ _ => by cases r <;> trivial,
            rfl, rfl, rfl, rfl, rfl, rfl, hnot.elim⟩ ⟨hwb, hentered⟩ (by decide) rfl
          h.pending.queue
      · cases hs
        exact h

/-- The front of the miss queue goes to the DRAM. -/
theorem l2Cycle (hs : m.l2Cycle cfg = .ok t) : Inv cfg t := by
  unfold MemoryPartitionUnit.l2Cycle at hs
  split at hs
  · cases hs
    exact h
  · next mf rest hqueue =>
    split at hs
    · obtain ⟨q, hq, hs⟩ := bind_eq_ok.mp hs
      cases hs
      rw [pushFifo_ok hq]
      have hcycle : m.l2.cycle false = { m.l2 with missQueue := rest, below := m.l2.below ++ [mf] } := by
        unfold BaselineCache.cycle
        rw [hqueue]
        rfl
      rw [hcycle]
      have hallowed := h.accounts.allowed .missQueue mf (by simp [contents, hqueue])
      refine h.moved (p := .missQueue) (q := .l2Dram)
        ⟨.move (by decide) (congrArg _ hqueue) rfl fun r _ _ => by cases r <;> trivial,
          rfl, rfl, rfl, rfl, rfl, rfl, fun _ => ⟨rfl, rfl⟩⟩ hallowed (by decide) rfl ?_
      have hlen := h.pending.queue
      rw [show m.cache.missQueue = mf :: rest from hqueue] at hlen
      exact Nat.le_of_succ_le hlen
    · cases hs
      exact h

/-! ### Accesses of the L2 -/

section Access

variable {l2 : BaselineCache} {status : CacheRequestStatus} (hfront : m.icntL2 = mf :: rest)

include hfront in
/-- A request in front of the L2 has entered, and is not one it waits for. -/
theorem entered_of_icntL2 : mf ∈ m.entered ∧ ¬ m.Waited mf := by
  have hmf : mf ∈ m.contents .icntL2 := by simp [contents, hfront]
  exact ⟨h.accounts.allowed .icntL2 mf hmf, h.not_waited hmf rfl (by decide)⟩

/-- The accounts do not look at the lines of the L2. -/
theorem lines (lines : Lines) (events : List CacheEvent) :
    Inv cfg { m with l2 := { m.l2 with lines, events } } where
  accounts := ⟨h.accounts.ledger, h.accounts.allowed, h.accounts.tracker, h.accounts.entered,
    h.accounts.fromRuby⟩
  pending := h.pending.of_outstanding rfl rfl h.pending.queue h.pending.ids h.pending.made
    fun _ hv _ => hv
  filed := h.filed
  disabled := h.disabled

include hfront in
/-- A write that the L2 sends on as it is. -/
theorem ownWrite (hroom : m.l2.missQueue.length < cfg.l2.missQueueSize) :
    Inv cfg { m with
      l2 := { m.l2 with missQueue := m.l2.missQueue ++ [mf] }
      icntL2 := rest } := by
  obtain ⟨hentered, hnot⟩ := h.entered_of_icntL2 hfront
  refine h.moved (p := .icntL2) (q := .missQueue)
    ⟨.move (by decide) (congrArg _ hfront) rfl fun r _ _ => by cases r <;> trivial,
      rfl, rfl, rfl, rfl, rfl, rfl, hnot.elim⟩ (.inr (.inl hentered)) (by decide)
    rfl ?_
  show (m.l2.missQueue ++ [mf]).length ≤ _
  rw [List.length_append]
  exact hroom

include hfront in
/-- A hit is answered; a write-back ends here. -/
theorem answered (hevents : m.l2.events = []) (hs : m.l2Answer cfg mf rest .hit = .ok t) : Inv cfg t := by
  obtain ⟨hentered, hnot⟩ := h.entered_of_icntL2 hfront
  simp only [MemoryPartitionUnit.l2Answer, hevents, List.not_mem_nil, if_false] at hs
  obtain ⟨_, -, hs⟩ := bind_eq_ok.mp hs
  split at hs
  · next htype =>
    cases hs
    have hwb : isWriteback mf.accessType = true := by rw [htype]; rfl
    exact h.moved (p := .icntL2) (q := .deleted)
      ⟨.move (by decide) (congrArg _ hfront) rfl fun r _ _ => by cases r <;> trivial,
        rfl, rfl, rfl, rfl, rfl, rfl, hnot.elim⟩ (.inl hwb) (by decide) rfl
      h.pending.queue
  · obtain ⟨_, hreply, hs⟩ := bind_eq_ok.mp hs
    rw [reply_ok hs]
    exact h.moved (p := .icntL2) (q := .l2Icnt)
      ⟨.move (by decide) (congrArg _ hfront) rfl fun r _ _ => by cases r <;> trivial,
        rfl, rfl, rfl, rfl, rfl, rfl, hnot.elim⟩ ⟨setReply_ok hreply, hentered⟩
      (by decide) rfl h.pending.queue

include hfront in
/-- Whatever the L2 says to an access, with its status. -/
theorem l2Answer {addr time : Nat} (hl2 : cfg.l2Disabled = false)
    (hans : BaselineCache.Answers .dataCache cfg.l2 { m.l2 with events := [] } addr time mf l2 status)
    (hs : { m with l2 }.l2Answer cfg mf rest status = .ok t) : Inv cfg t := by
  cases hans with
  | missed hmiss =>
    cases hs
    exact h.misses hmiss hl2 hfront
  | @quiet lines sent events status hsent hchange hstatus hsends =>
    have hlines := h.lines lines events
    rcases hsends with ⟨rfl, hevents⟩ | ⟨rfl, rfl⟩ | ⟨rfl, rfl⟩
    · rcases hsent with rfl | ⟨rfl, -, hroom⟩
      · rw [List.append_nil] at hs
        exact hlines.answered hfront hevents hs
      · have hin : .writeRequestSent ∈ events := by simp [hevents]
        simp only [MemoryPartitionUnit.l2Answer, hin, if_true] at hs
        cases hs
        exact hlines.ownWrite hfront hroom
    · obtain ⟨_, -, hs⟩ := bind_eq_ok.mp hs
      cases hs
      rw [List.append_nil]
      exact hlines
    · cases hs
      rcases hsent with hsent | ⟨-, -, hroom⟩
      · cases hsent
      · exact hlines.ownWrite hfront hroom

end Access

theorem l2Access (hs : m.l2Access cfg time = .ok t) : Inv cfg t := by
  unfold MemoryPartitionUnit.l2Access at hs
  split at hs
  · cases hs
    exact h
  · next mf rest hfront =>
    split at hs
    · cases hs
      exact h
    · split at hs
      · next hl2 =>
        split at hs
        · obtain ⟨⟨l2, status⟩, hl2', hs⟩ := bind_eq_ok.mp hs
          exact h.l2Answer hfront hl2.1 (BaselineCache.access_ok (mapError_eq_ok.mp hl2')) hs
        · cases hs
          exact h
      · obtain ⟨q, hq, hs⟩ := bind_eq_ok.mp hs
        cases hs
        rw [pushFifo_ok hq]
        obtain ⟨hentered, hnot⟩ := h.entered_of_icntL2 hfront
        exact h.moved (p := .icntL2) (q := .l2Dram)
          ⟨.move (by decide) (congrArg _ hfront) rfl fun r _ _ => by cases r <;> trivial,
            rfl, rfl, rfl, rfl, rfl, rfl, hnot.elim⟩ (.inr (.inl hentered))
          (by decide) rfl h.pending.queue

/-- A request that has waited long enough comes to the L2. -/
theorem ropDelay {cycle : Nat} (hs : m.ropDelay cfg cycle = .ok t) : Inv cfg t := by
  unfold MemoryPartitionUnit.ropDelay at hs
  split at hs
  · cases hs
    exact h
  · next d rest hrop =>
    split at hs
    · obtain ⟨q, hq, hs⟩ := bind_eq_ok.mp hs
      cases hs
      rw [pushFifo_ok hq]
      have hmf : d.req ∈ m.contents .rop := by simp [contents, hrop]
      have hnot := h.not_waited hmf rfl (by decide)
      refine h.moved (p := .rop) (q := .icntL2)
        ⟨.move (by decide) ?_ rfl fun r _ _ => by cases r <;> trivial,
          rfl, rfl, rfl, rfl, rfl, rfl, hnot.elim⟩
        (h.accounts.allowed .rop d.req hmf) (by decide) rfl h.pending.queue
      simp only [contents, hrop]
      rfl
    · cases hs
      exact h

theorem cacheCycle {cycle time : Nat} (hs : m.cacheCycle cfg cycle time = .ok t) : Inv cfg t := by
  obtain ⟨m₁, h₁, hs⟩ := bind_eq_ok.mp hs
  obtain ⟨m₂, h₂, hs⟩ := bind_eq_ok.mp hs
  obtain ⟨m₃, h₃, hs⟩ := bind_eq_ok.mp hs
  obtain ⟨m₄, h₄, hs⟩ := bind_eq_ok.mp hs
  exact ((((h.l2Responses h₁).dramToL2 h₂).l2Cycle h₃).l2Access h₄).ropDelay hs

/-! ## `dram_cycle` -/

/-- What looks like a request of Ruby is one, and the L2 does not wait for it. -/
theorem fromRuby_of_returnq (hreturn : m.returnq = mf :: rest) (hruby : isRuby mf.accessType = true) :
    mf ∈ m.fromRuby ∧ ¬ m.Waited mf := by
  have hcore : mf ∉ m.entered := by
    intro hentered
    rw [(h.accounts.entered mf hentered).1.1] at hruby
    cases hruby
  have hnot : ¬ m.Waited mf := by
    intro hw
    have hout : mf ∈ m.cache.outstanding := mem_outstanding.mpr ⟨.returnq, rfl, by simp [contents, hreturn]⟩
    obtain ⟨-, hentered | htype⟩ := h.accounts.allowed .mshrs mf (h.mshrs_of_waited hout hw)
    · exact hcore hentered
    · rw [htype] at hruby
      cases hruby
  obtain ⟨-, hw | hentered | hfrom⟩ := h.accounts.allowed .returnq mf (by simp [contents, hreturn])
  · exact absurd hw hnot
  · exact absurd hentered hcore
  · exact ⟨hfrom, hnot⟩

/-- What the DRAM returns goes to Ruby or towards the L2. -/
theorem dramReturn (hs : m.dramReturn cfg = .ok t) : Inv cfg t := by
  unfold MemoryPartitionUnit.dramReturn at hs
  split at hs
  · cases hs
    exact h
  · next mf rest hreturn =>
    have hallowed := h.accounts.allowed .returnq mf (by simp [contents, hreturn])
    split at hs
    · cases hs
      exact h
    · split at hs
      · next htype =>
        have hwb := hallowed.1
        rw [htype] at hwb
        cases hwb
      · split at hs
        · next hruby =>
          cases hs
          obtain ⟨hfrom, hnot⟩ := h.fromRuby_of_returnq hreturn hruby
          exact h.moved (p := .returnq) (q := .toRuby)
            ⟨.move (by decide) (congrArg _ hreturn) rfl fun r _ _ => by cases r <;> trivial,
              rfl, rfl, rfl, rfl, rfl, rfl, hnot.elim⟩ hfrom (by decide) rfl
            h.pending.queue
        · next hruby =>
          obtain ⟨q, hq, hs⟩ := bind_eq_ok.mp hs
          cases hs
          rw [pushFifo_ok hq]
          have hback : m.Allowed mf .dramL2 := by
            refine ⟨hallowed.1, hallowed.2.imp_right fun hin => hin.resolve_right fun hfrom => ?_⟩
            exact hruby (h.accounts.fromRuby mf hfrom).1
          exact h.moved (p := .returnq) (q := .dramL2)
            ⟨.move (by decide) (congrArg _ hreturn) rfl fun r _ _ => by cases r <;> trivial,
              rfl, rfl, rfl, rfl, rfl, rfl, fun _ => ⟨rfl, rfl⟩⟩ hback (by decide) rfl
            h.pending.queue

/-- The DRAM finishes a request: a write-back ends here. -/
theorem dramComplete {completes : Option Nat} (hs : m.dramComplete cfg completes = .ok t) : Inv cfg t := by
  unfold MemoryPartitionUnit.dramComplete at hs
  split at hs
  · cases hs
    exact h
  · next mf hmf =>
    obtain ⟨i, -, hi⟩ := Option.bind_eq_some_iff.mp hmf
    have hin : mf ∈ m.dram := List.mem_of_getElem? hi
    have hallowed := h.accounts.allowed .dram mf (by simpa [contents] using hin)
    have hleaves : (m.dram : Multiset MemFetch) = {mf} + (m.dram.erase mf : List MemFetch) := by
      rw [← Multiset.coe_erase, Multiset.singleton_add, Multiset.cons_erase (Multiset.mem_coe.mpr hin)]
    split at hs
    · cases hs
      exact h
    · split at hs
      · next hwb =>
        cases hs
        have hnot : ¬ m.Waited mf := by
          intro hw
          have hout : mf ∈ m.cache.outstanding :=
            mem_outstanding.mpr ⟨.dram, rfl, by simpa [contents] using hin⟩
          rw [(h.accounts.allowed .mshrs mf (h.mshrs_of_waited hout hw)).1] at hwb
          cases hwb
        exact h.moved (p := .dram) (q := .deleted)
          ⟨.move (by decide) hleaves rfl fun r _ _ => by cases r <;> trivial,
            rfl, rfl, rfl, rfl, rfl, rfl, hnot.elim⟩
          (.inl hwb) (by decide) rfl h.pending.queue
      · next hwb =>
        have hwb := Bool.eq_false_of_not_eq_true hwb
        obtain ⟨_, -, hs⟩ := bind_eq_ok.mp hs
        obtain ⟨q, hq, hs⟩ := bind_eq_ok.mp hs
        cases hs
        rw [pushFifo_ok hq]
        have hback : m.Allowed mf .returnq := by
          refine ⟨hwb, ?_⟩
          rcases hallowed with hw | hentered | hno | hfrom
          · exact .inl hw
          · exact .inr (.inl hentered)
          · rw [hwb] at hno
            cases hno
          · exact .inr (.inr hfrom)
        exact h.moved (p := .dram) (q := .returnq)
          ⟨.move (by decide) hleaves rfl fun r _ _ => by cases r <;> trivial,
            rfl, rfl, rfl, rfl, rfl, rfl, fun _ => ⟨rfl, rfl⟩⟩ hback
          (by decide) rfl h.pending.queue

theorem rubyToDram {ruby : Option Request} (hruby : ∀ r ∈ ruby, isRuby r.accessType = true) :
    Inv cfg (m.rubyToDram full ruby) := by
  unfold MemoryPartitionUnit.rubyToDram
  split
  · exact h
  · next r =>
    split
    · exact h
    · have htype := hruby r rfl
      refine h.created (q := .dram) ⟨.come rfl ?_, rfl, rfl, rfl, rfl, rfl⟩
        (.inr (.inr (.inr (by simp)))) (List.Subset.refl _) (List.subset_append_left _ _)
        h.accounts.tracker (fun v hv => .inl hv) ?_
      · intro p hp
        cases p <;> first | rfl | contradiction
      · intro v hv
        refine (List.mem_append.mp hv).imp_right fun hv => ?_
        rw [List.mem_singleton.mp hv]
        exact ⟨htype, rfl⟩

theorem l2DramToLatency : Inv cfg (m.l2DramToLatency cfg full time) := by
  unfold MemoryPartitionUnit.l2DramToLatency
  split
  · exact h
  · next mf rest hqueue =>
    split
    · exact h
    · have hallowed := h.accounts.allowed .l2Dram mf (by simp [contents, hqueue])
      refine h.moved (p := .l2Dram) (q := .dramLatency)
        ⟨.move (by decide) (congrArg _ hqueue) ?_ fun r _ _ => by cases r <;> trivial,
          rfl, rfl, rfl, rfl, rfl, rfl, fun _ => ⟨rfl, rfl⟩⟩ hallowed (by decide) rfl h.pending.queue
      simp only [contents, List.map_append]
      rfl

theorem latencyToDram : Inv cfg (m.latencyToDram full time) := by
  unfold MemoryPartitionUnit.latencyToDram
  split
  · exact h
  · next d rest hqueue =>
    split
    · have hallowed := h.accounts.allowed .dramLatency d.req (by simp [contents, hqueue])
      refine h.moved (p := .dramLatency) (q := .dram)
        ⟨.move (by decide) ?_ rfl fun r _ _ => by cases r <;> trivial,
          rfl, rfl, rfl, rfl, rfl, rfl, fun _ => ⟨rfl, rfl⟩⟩
        (hallowed.imp_right (Or.imp_right .inl)) (by decide) rfl h.pending.queue
      simp only [contents, hqueue]
      rfl
    · exact h

theorem dramCycle {c : DramCycle} (hruby : ∀ r ∈ c.ruby, isRuby r.accessType = true)
    (hs : m.dramCycle cfg c time = .ok t) : Inv cfg t := by
  obtain ⟨m₁, h₁, hs⟩ := bind_eq_ok.mp hs
  obtain ⟨m₂, h₂, hs⟩ := bind_eq_ok.mp hs
  cases hs
  exact (((h.dramReturn h₁).dramComplete h₂).rubyToDram hruby).l2DramToLatency.latencyToDram

/-! ## `push`, `pop` and `top` -/

/-- A request enters with a number of its own. -/
theorem push {r : Request} {texture : Bool} {cycle : Nat} (hcore : FromCore r.accessType r.isWrite)
    (hs : m.push cfg r texture cycle = .ok t) : Inv cfg t := by
  have hout {p : Place} (hp : p.beyondL2 = false) : m.newMf r ∉ m.contents p := by
    intro hmf
    exact Nat.lt_irrefl _ (h.id_lt hmf hp)
  have htracker : ∀ v, v ∈ insert (m.newMf r) m.requestTracker ↔
      v ∈ m.entered ++ [m.newMf r] ∧ v ∉ m.popped ∧ v ∉ m.deleted := by
    intro v
    rw [Finset.mem_insert, List.mem_append, List.mem_singleton, h.accounts.tracker]
    by_cases hv : v = m.newMf r
    · subst hv
      have hpopped : m.newMf r ∉ m.popped := hout (p := .popped) rfl
      have hdeleted : m.newMf r ∉ m.deleted := hout (p := .deleted) rfl
      simp [hpopped, hdeleted]
    · simp [hv]
  have henter : ∀ v ∈ m.entered ++ [m.newMf r],
      v ∈ m.entered ∨ FromCore v.accessType v.isWrite ∧ v = m.newMf r := by
    intro v hv
    refine (List.mem_append.mp hv).imp_right fun hv => ?_
    rw [List.mem_singleton.mp hv]
    exact ⟨hcore, rfl⟩
  have hself : m.newMf r ∈ m.entered ++ [m.newMf r] := by simp
  unfold MemoryPartitionUnit.push at hs
  dsimp only at hs
  split at hs
  · obtain ⟨q, hq, hs⟩ := bind_eq_ok.mp hs
    cases hs
    rw [pushFifo_ok hq]
    refine h.created (q := .icntL2) ⟨.come rfl ?_, rfl, rfl, rfl, rfl, rfl⟩ hself
      (List.subset_append_left _ _) (List.Subset.refl _) htracker henter fun v hv => .inl hv
    intro p hp
    cases p <;> first | rfl | contradiction
  · cases hs
    refine h.created (q := .rop) ⟨.come ?_ ?_, rfl, rfl, rfl, rfl, rfl⟩ hself
      (List.subset_append_left _ _) (List.Subset.refl _) htracker henter fun v hv => .inl hv
    · simp only [contents, List.map_append]
      rfl
    · intro p hp
      cases p <;> first | rfl | contradiction

theorem reply_of_l2Icnt (hfront : m.l2Icnt = mf :: rest) :
    isWriteback mf.accessType = false ∧ mf ∈ m.entered ∧ ¬ m.Waited mf := by
  have hmf : mf ∈ m.contents .l2Icnt := by simp [contents, hfront]
  obtain ⟨hwb, hentered⟩ := h.accounts.allowed .l2Icnt mf hmf
  exact ⟨hwb, hentered, h.not_waited hmf rfl (by decide)⟩

theorem pop : Inv cfg m.pop := by
  unfold MemoryPartitionUnit.pop
  split
  · exact h
  · next mf rest hfront =>
    obtain ⟨hwb, hentered, hnot⟩ := h.reply_of_l2Icnt hfront
    simp only [hwb, Bool.false_eq_true, if_false]
    exact h.moved (p := .l2Icnt) (q := .popped)
      ⟨.move (by decide) (congrArg _ hfront) rfl fun r _ _ => by cases r <;> trivial,
        rfl, rfl, rfl, rfl, rfl, rfl, hnot.elim⟩ ⟨hwb, hentered⟩ (by decide) rfl
      h.pending.queue

theorem top : m.top = m := by
  unfold MemoryPartitionUnit.top
  split
  · rfl
  · next mf rest hfront =>
    rw [(h.reply_of_l2Icnt hfront).1]
    rfl

end Inv

/-- **Every step keeps the accounts.** -/
theorem Inv.step (h : Inv cfg m) {a : Act} (hs : MemoryPartitionUnit.step cfg m a = some (.ok t)) :
    Inv cfg t := by
  cases a with
  | push r texture cycle =>
    simp only [MemoryPartitionUnit.step] at hs
    split at hs
    · next hcore => exact h.push hcore.2 (Option.some.inj hs)
    · cases hs
  | cacheCycle cycle time => exact h.cacheCycle (Option.some.inj hs)
  | dramCycle c time =>
    simp only [MemoryPartitionUnit.step] at hs
    split at hs
    · next hruby => exact h.dramCycle hruby (Option.some.inj hs)
    · cases hs
  | pop =>
    cases hs
    exact h.pop
  | top =>
    cases hs
    exact h.top.symm ▸ h

theorem inv_of_reachable (h : (machine cfg).Reachable m) : Inv cfg m :=
  h.invariant .init fun _ _ _ hi _ hs => hi.step hs

end GpgpuSimRuby.Partition.MemoryPartitionUnit
