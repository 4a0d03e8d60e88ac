import GpgpuSimRuby.Shader.CollectorInvariant
import GpgpuSimRuby.Shader.RegisterWriteback

/-!
# The calls of the operand collector

Each part of `step` keeps the invariant and passes its assertions, but for the one on `output` in the
arbiter, which fails with more banks than collector units. So does every run.
-/

namespace GpgpuSimRuby.Shader.OperandCollector

open Library Function

variable {d : Dims} {cfg : Config d} {s s' : Rfu d} {c : Fin d.numCollectors} {w : WarpInst}
variable {e : Event d} {log : List (Event d)}

/-! ## Queues -/

section Queues

variable {queue : Fin d.numBanks → List (Op d)} {pending : Fin d.numCollectors → OperandIdx → Option (Op d)}

theorem QueueInv.add (h : QueueInv queue pending) (hnone : ∀ i, pending c i = none)
    {ops : OperandIdx → Option (Op d)} (hkey : ∀ i op, ops i = some op → op.ocId = c ∧ op.operand = i) :
    QueueInv
      (fun b => queue b ++ (List.finRange _).filterMap fun i => (ops i).filter fun op => op.bank = b)
      (update pending c ops) where
  nodup b := by
    apply List.nodup_append.mpr
    refine ⟨h.nodup b, ?_, ?_⟩
    · apply (List.nodup_finRange _).filterMap
      intro i i' op hi hi'
      have hi := Option.eq_some_of_filter_eq_some (Option.mem_def.mp hi)
      have hi' := Option.eq_some_of_filter_eq_some (Option.mem_def.mp hi')
      exact (hkey i op hi).2.symm.trans (hkey i' op hi').2
    · -- what is queued already belongs to other units
      rintro op hop _ hnew rfl
      obtain ⟨i, -, hi⟩ := List.mem_filterMap.mp hnew
      have hc := (hkey i op (Option.eq_some_of_filter_eq_some hi)).1
      have hp := ((h.mem_iff b op).mp hop).2
      rw [hc, hnone] at hp
      cases hp
  mem_iff b op := by
    rw [List.mem_append, h.mem_iff, List.mem_filterMap]
    by_cases hc : op.ocId = c
    · subst hc
      rw [update_self, hnone]
      constructor
      · rintro (⟨-, hp⟩ | ⟨i, -, hi⟩)
        · cases hp
        · obtain ⟨hop, hb⟩ := Option.filter_eq_some_iff.mp hi
          rw [(hkey i op hop).2]
          exact ⟨of_decide_eq_true hb, hop⟩
      · rintro ⟨hb, hop⟩
        exact .inr ⟨op.operand, List.mem_finRange _, Option.filter_eq_some_iff.mpr ⟨hop, by simp [hb]⟩⟩
    · rw [update_of_ne hc]
      constructor
      · rintro (hp | ⟨i, -, hi⟩)
        · exact hp
        · exact absurd (hkey i op (Option.eq_some_of_filter_eq_some hi)).1 hc
      · exact .inl
  key c' i op hp := by
    by_cases hc : c' = c
    · subst hc
      rw [update_self] at hp
      exact hkey i op hp
    · rw [update_of_ne hc] at hp
      exact h.key c' i op hp

variable {a a' : Arbiter d} {winner : Fin d.numBanks → Bool} {grants : List (Op d)}

/-- The operand of a bank that is granted. -/
def won (a : Arbiter d) (winner : Fin d.numBanks → Bool) (b : Fin d.numBanks) : Option (Op d) :=
  if winner b then (a.queue b).head? else none

variable {op : Op d}

theorem won_eq_some {b : Fin d.numBanks} :
    won a winner b = some op ↔ winner b = true ∧ (a.queue b).head? = some op := by
  unfold won
  split <;> simp [*]

theorem Arbiter.Arbitrated.grants_eq_filterMap (h : a.Arbitrated winner grants a') :
    grants = (List.finRange d.numBanks).filterMap (won a winner) := by
  rw [h.grants_eq, List.filterMap_eq_flatMap_toList]
  congr 1
  funext b
  unfold won
  split <;> rfl

theorem Arbiter.Arbitrated.mem_grants (h : a.Arbitrated winner grants a') :
    op ∈ grants ↔ ∃ b, winner b = true ∧ (a.queue b).head? = some op := by
  rw [h.grants_eq_filterMap, List.mem_filterMap]
  constructor
  · rintro ⟨b, -, hb⟩
    exact ⟨b, won_eq_some.mp hb⟩
  · rintro ⟨b, hb⟩
    exact ⟨b, List.mem_finRange b, won_eq_some.mpr hb⟩

/-- The operands that wait after some have been granted. -/
def ungranted (grants : List (Op d)) (pending : Fin d.numCollectors → OperandIdx → Option (Op d))
    (c : Fin d.numCollectors) (i : OperandIdx) : Option (Op d) :=
  if ∃ op ∈ grants, op.ocId = c ∧ op.operand = i then none else pending c i

theorem QueueInv.grant (h : QueueInv a.queue pending) (ha : a.Arbitrated winner grants a') :
    QueueInv a'.queue (ungranted grants pending) := by
  have hhead : ∀ b op, (a.queue b).head? = some op → op.bank = b ∧ pending op.ocId op.operand = some op :=
    fun b op hop => (h.mem_iff b op).mp (List.mem_of_mem_head? hop)
  -- a granted operand with the key of one that waits is that one
  have hungranted : ∀ op, ungranted grants pending op.ocId op.operand = some op ↔
      pending op.ocId op.operand = some op ∧ op ∉ grants := by
    intro op
    unfold ungranted
    split
    · rename_i hex
      obtain ⟨g, hg, hc, hi⟩ := hex
      refine ⟨fun hnone => (by cases hnone), ?_⟩
      rintro ⟨hp, hnot⟩
      obtain ⟨b, -, hgb⟩ := ha.mem_grants.mp hg
      have hpg := (hhead b g hgb).2
      rw [hc, hi, hp] at hpg
      rw [Option.some.inj hpg] at hnot
      exact absurd hg hnot
    · rename_i hno
      refine ⟨fun hp => ⟨hp, fun hop => hno ⟨op, hop, rfl, rfl⟩⟩, And.left⟩
  refine ⟨?_, ?_, ?_⟩
  · intro b
    rw [ha.queue_eq]
    split
    · exact (h.nodup b).sublist (List.tail_sublist _)
    · exact h.nodup b
  · intro b op
    rw [hungranted, ha.queue_eq]
    split
    · rename_i hw
      cases hq : a.queue b with
      | nil => exact absurd (by rw [hq]; rfl) (ha.head b hw)
      | cons g rest =>
        have hmem : op ∈ g :: rest ↔ op.bank = b ∧ pending op.ocId op.operand = some op := by
          rw [← hq]
          exact h.mem_iff b op
        have hnodup := h.nodup b
        rw [hq, List.nodup_cons] at hnodup
        have hg : g ∈ grants := ha.mem_grants.mpr ⟨b, hw, by rw [hq]; rfl⟩
        rw [List.tail_cons]
        constructor
        · intro hop
          obtain ⟨hb, hp⟩ := hmem.mp (List.mem_cons_of_mem _ hop)
          refine ⟨hb, hp, ?_⟩
          intro hgrant
          obtain ⟨b', -, hop'⟩ := ha.mem_grants.mp hgrant
          obtain rfl : b' = b := (hhead b' op hop').1.symm.trans hb
          rw [hq] at hop'
          obtain rfl := Option.some.inj hop'
          exact hnodup.1 hop
        · rintro ⟨hb, hp, hnot⟩
          rcases List.mem_cons.mp (hmem.mpr ⟨hb, hp⟩) with rfl | hop
          · exact absurd hg hnot
          · exact hop
    · rename_i hw
      rw [h.mem_iff]
      constructor
      · rintro ⟨hb, hp⟩
        refine ⟨hb, hp, ?_⟩
        intro hgrant
        obtain ⟨b', hw', hop'⟩ := ha.mem_grants.mp hgrant
        obtain rfl : b' = b := (hhead b' op hop').1.symm.trans hb
        exact hw hw'
      · rintro ⟨hb, hp, -⟩
        exact ⟨hb, hp⟩
  · intro c i op hp
    unfold ungranted at hp
    split at hp
    · cases hp
    · exact h.key c i op hp

end Queues

/-! ## Histories -/

variable {u : CollectorUnit d} {input output r : Nat} {stages : Nat → RegisterSet WarpInst}
  {regs : RegisterSet WarpInst} {x y : Option WarpInst}

theorem Occupancy.update {cu : Fin d.numCollectors → CollectorUnit d}
    (h : ∀ c, Occupancy c log (cu c).holds) (he : e.unit = some c)
    (hu : Occupancy c (log ++ [e]) u.holds) (c' : Fin d.numCollectors) :
    Occupancy c' (log ++ [e]) (Function.update cu c u c').holds := by
  by_cases hc : c' = c
  · subst hc
    rw [Function.update_self]
    exact hu
  · rw [Function.update_of_ne hc]
    apply (h c').other
    rw [he]
    intro heq
    exact hc (Option.some.inj heq).symm

theorem mem_log_append
    (h : .taken c w input output ∈ log ++ [e]) (he : ∀ c w input output, e ≠ .taken c w input output) :
    .taken c w input output ∈ log := by
  rcases List.mem_append.mp h with h | h
  · exact h
  · exact absurd (List.mem_singleton.mp h).symm (he c w input output)

/-- A register that goes from `x` to `y` is accounted for by an event that moves these out and in. -/
theorem count_replaced
    (hregs : Replaced x y (stages r) regs)
    (hinto : ∀ r' w', e.into r' w' = decide (r = r' ∧ y = some w'))
    (houtOf : ∀ r' w', e.outOf r' w' = decide (r = r' ∧ x = some w'))
    (h : ∀ r w, (stages r).count (some w) + log.countP (Event.outOf r w) = log.countP (Event.into r w))
    (r' : Nat) (w' : WarpInst) :
    (update stages r regs r').count (some w') + (log ++ [e]).countP (Event.outOf r' w') =
      (log ++ [e]).countP (Event.into r' w') := by
  have hold := h r' w'
  rw [List.countP_append, List.countP_append, List.countP_singleton, List.countP_singleton, hinto, houtOf]
  by_cases hr : r' = r
  · subst hr
    rw [update_self]
    have hcount := hregs.count (some w')
    simp only [beq_iff_eq] at hcount
    simp only [true_and, decide_eq_true_eq]
    omega
  · rw [update_of_ne hr]
    have hr' : r ≠ r' := fun heq => hr heq.symm
    simp only [hr', false_and, decide_false]
    simpa using hold

/-! ## `dispatch_ready_cu` -/

theorem ready_iff :
    u.ready stages = true ↔ u.free = false ∧ (∀ i, u.notReady i = false) ∧
      ∃ r, u.output = some r ∧ (stages r).hasFree = true := by
  unfold CollectorUnit.ready
  cases u.output with
  | none => simp
  | some r => simp [and_assoc]

theorem pending_dispatched (hnone : ∀ i, (s.cu c).notReady i = false) (r : Nat)
    (regs : RegisterSet WarpInst) : (s.dispatched c w r regs).pending = s.pending := by
  funext c' i
  by_cases hc : c' = c
  · subst hc
    simp [Rfu.pending, Rfu.dispatched, hnone i]
  · simp [Rfu.pending, Rfu.dispatched, update_of_ne hc]

/-- **A ready unit is dispatched.** -/
theorem Inv.dispatch (h : Inv cfg s) (hready : (s.cu c).ready s.stages = true) :
    ∃ s', s.dispatch c = .ok s' ∧ Inv cfg s' ∧ s'.arbiter = s.arbiter := by
  obtain ⟨hfree, hnone, r, hr, hroom⟩ := ready_iff.mp hready
  obtain ⟨w, o, hu⟩ := h.holds hfree
  obtain ⟨regs, hregs⟩ := RegisterSet.moveIn_ok Fault.noFreeRegister hroom w
  have hmoved := RegisterSet.moveIn_eq_ok hregs
  obtain rfl : o = r := Option.some.inj (hu.output.symm.trans hr)
  refine ⟨s.dispatched c w o regs, ?_, ?_, rfl⟩
  · rw [Rfu.dispatch, assert_pos hnone, ok_bind]
    simp only [hu.output, hu.warp]
    rw [hregs]
    rfl
  · refine ⟨?_, ?_, ?_, ?_, ?_⟩
    · intro c'
      by_cases hc : c' = c
      · subst hc
        left
        simp only [Rfu.dispatched, update_self]
        exact ⟨rfl, rfl, rfl, fun _ => rfl, hnone⟩
      · simp only [Rfu.dispatched, update_of_ne hc]
        exact h.unit c'
    · rw [pending_dispatched hnone]
      exact h.queues
    · have hocc := h.occupancy c
      rw [hu.holds_eq] at hocc
      exact Occupancy.update h.occupancy rfl hocc.moved
    · intro c' w' input output hmem
      exact h.ports c' w' input output (mem_log_append hmem (by simp))
    · apply count_replaced hmoved _ _ h.stages
      · intro r' w'
        simp [Event.into]
      · intro r' w'
        simp [Event.outOf]

theorem findReady_ready {p set k : Nat} (h : s.findReady cfg p set = some (k, c)) :
    (s.cu c).ready s.stages = true := by
  obtain ⟨n, -, hn⟩ := List.exists_of_findSome?_eq_some h
  obtain ⟨c', -, hc'⟩ := Option.bind_eq_some_iff.mp hn
  split at hc'
  · cases hc'
    assumption
  · cases hc'

theorem Inv.dispatchReady (h : Inv cfg s) (p set : Nat) :
    ∃ s', s.dispatchReady cfg p set = .ok s' ∧ Inv cfg s' ∧ s'.arbiter = s.arbiter := by
  unfold Rfu.dispatchReady
  cases hfind : s.findReady cfg p set with
  | none => exact ⟨s, rfl, h, rfl⟩
  | some q =>
    have h' : Inv cfg { s with lastCu := update s.lastCu p q.1 } :=
      ⟨h.unit, h.queues, h.occupancy, h.ports, h.stages⟩
    exact h'.dispatch (findReady_ready (s := s) hfind)

theorem Inv.dispatchReadyCu (h : Inv cfg s) :
    ∃ s', s.dispatchReadyCu cfg = .ok s' ∧ Inv cfg s' ∧ s'.arbiter = s.arbiter := by
  apply foldlM_invariant (fun _ s' => Inv cfg s' ∧ s'.arbiter = s.arbiter) ⟨h, rfl⟩
  intro _ e _ s₁ _ hs
  obtain ⟨s₂, hok, hs₂, harb⟩ := hs.1.dispatchReady e.2 e.1
  exact ⟨s₂, hok, hs₂, harb.trans hs.2⟩

/-! ## `allocate_reads` -/

section Reads

variable {a' : Arbiter d} {winner : Fin d.numBanks → Bool} {grants : List (Op d)}

theorem Inv.granted (h : Inv cfg s) (ha : s.arbiter.Arbitrated winner grants a') {op : Op d}
    (hop : op ∈ grants) : winner op.bank = true ∧ (s.arbiter.queue op.bank).head? = some op ∧
      registerBank d cfg.bankWarpShift op.register (s.cu op.ocId).warpId = op.bank := by
  obtain ⟨b, hw, hhead⟩ := ha.mem_grants.mp hop
  have hmem := List.mem_of_mem_head? hhead
  obtain ⟨rfl, -⟩ := (h.queues.mem_iff b op).mp hmem
  exact ⟨hw, hhead, h.bank_eq hmem⟩

theorem Inv.nodup_banks (h : Inv cfg s) (ha : s.arbiter.Arbitrated winner grants a') :
    (grants.map Op.bank).Nodup := by
  have hbank : ∀ b op, won s.arbiter winner b = some op → op.bank = b := by
    intro b op hop
    exact ((h.queues.mem_iff b op).mp (List.mem_of_mem_head? (won_eq_some.mp hop).2)).1
  rw [ha.grants_eq_filterMap, List.map_filterMap]
  apply (List.nodup_finRange _).filterMap
  intro b b' x hx hx'
  obtain ⟨op, hop, rfl⟩ := Option.map_eq_some_iff.mp (Option.mem_def.mp hx)
  obtain ⟨op', hop', heq⟩ := Option.map_eq_some_iff.mp (Option.mem_def.mp hx')
  rw [← hbank b op hop, ← hbank b' op' hop', heq]

/-- What the loop over the granted operands has reserved and noted. -/
structure Reserved (a' : Arbiter d) (done : List (Op d))
    (st : Arbiter d × (Fin d.numBanks → Option (Op d))) : Prop where
  queue_eq : st.1.queue = a'.queue
  allocatedBank_of_notMem : ∀ b, b ∉ done.map Op.bank → st.1.allocatedBank b = a'.allocatedBank b
  readOps : ∀ b op, st.2 b = some op ↔ op ∈ done ∧ op.bank = b

/-- **The granted banks are free.** -/
theorem Inv.reserveReads (h : Inv cfg s) (ha : s.arbiter.Arbitrated winner grants a')
    (hnoRead : ∀ b, s.arbiter.allocatedBank b ≠ .readAlloc) :
    ∃ st, grants.foldlM (s.reserveRead cfg) (a', fun _ => none) = .ok st ∧ Reserved a' grants st := by
  have hnodup := h.nodup_banks ha
  apply foldlM_invariant (Reserved a')
  · exact ⟨rfl, fun _ _ => rfl, by simp⟩
  · intro done op rest st hsplit hst
    obtain ⟨hw, hhead, hbank⟩ := h.granted ha (by rw [hsplit]; simp : op ∈ grants)
    rw [hsplit, List.map_append, List.map_cons] at hnodup
    -- no bank is granted twice, so this one is as it was before the loop
    have hnew : op.bank ∉ done.map Op.bank := by
      intro hmem
      exact (List.nodup_append.mp hnodup).2.2 _ hmem _ List.mem_cons_self rfl
    have hfree : (st.1.allocatedBank op.bank).isFree = true := by
      have hnot := ha.notWrite op.bank hw
      have hread := hnoRead op.bank
      rw [hst.allocatedBank_of_notMem _ hnew, ha.allocatedBank_eq]
      cases halloc : s.arbiter.allocatedBank op.bank with
      | noAlloc => rfl
      | readAlloc => exact absurd halloc hread
      | writeAlloc =>
        rw [halloc] at hnot
        cases hnot
    refine ⟨({ st.1 with allocatedBank := update st.1.allocatedBank op.bank .readAlloc },
      update st.2 op.bank (some op)), ?_, ?_⟩
    · rw [Rfu.reserveRead]
      simp only [hbank, Arbiter.allocateForRead]
      rw [assert_pos hfree]
      rfl
    · refine ⟨hst.queue_eq, ?_, ?_⟩
      · intro b hb
        rw [List.map_append, List.mem_append, not_or] at hb
        have hne : b ≠ op.bank := by simpa using hb.2
        rw [← hst.allocatedBank_of_notMem b hb.1]
        exact update_of_ne hne _ _
      · intro b op'
        by_cases hb : b = op.bank
        · subst hb
          simp only [update_self, List.mem_append, List.mem_singleton]
          constructor
          · intro heq
            obtain rfl := Option.some.inj heq
            exact ⟨.inr rfl, rfl⟩
          · rintro ⟨hop' | rfl, hb⟩
            · exact absurd (List.mem_map.mpr ⟨op', hop', hb⟩) hnew
            · rfl
        · simp only [update_of_ne hb, hst.readOps, List.mem_append, List.mem_singleton]
          constructor
          · rintro ⟨hop', hb'⟩
            exact ⟨.inl hop', hb'⟩
          · rintro ⟨hop' | rfl, hb'⟩
            · exact ⟨hop', hb'⟩
            · exact absurd hb'.symm hb

theorem foldl_collectOperand (l : List (Op d)) (cu : Fin d.numCollectors → CollectorUnit d)
    (c : Fin d.numCollectors) : l.foldl Rfu.collectOperand cu c =
      { cu c with notReady := fun i =>
          if ∃ op ∈ l, op.ocId = c ∧ op.operand = i then false else (cu c).notReady i } := by
  induction l generalizing cu with
  | nil => simp
  | cons op l ih =>
    rw [List.foldl_cons, ih]
    by_cases hc : c = op.ocId
    · subst hc
      simp only [Rfu.collectOperand, update_self, List.exists_mem_cons_iff, true_and]
      congr 1
      funext i
      by_cases hi : i = op.operand
      · subst hi
        simp
      · have hi' : op.operand ≠ i := fun heq => hi heq.symm
        simp [update_of_ne hi, hi']
    · have hc' : op.ocId ≠ c := fun heq => hc heq.symm
      simp [Rfu.collectOperand, update_of_ne hc, hc']

/-- The collector after the granted operands have been collected. -/
def collected (s : Rfu d) (st : Arbiter d × (Fin d.numBanks → Option (Op d))) : Rfu d :=
  { s with
    arbiter := st.1
    cu := ((List.finRange d.numBanks).filterMap st.2).foldl Rfu.collectOperand s.cu }

variable {st : Arbiter d × (Fin d.numBanks → Option (Op d))}

theorem Reserved.mem_readOps (h : Reserved a' grants st) {op : Op d} :
    op ∈ (List.finRange d.numBanks).filterMap st.2 ↔ op ∈ grants := by
  rw [List.mem_filterMap]
  constructor
  · rintro ⟨b, -, hb⟩
    exact ((h.readOps b op).mp hb).1
  · intro hop
    exact ⟨op.bank, List.mem_finRange _, (h.readOps _ _).mpr ⟨hop, rfl⟩⟩

theorem Reserved.collected_cu
    (h : Reserved a' grants st) (c : Fin d.numCollectors) : (collected s st).cu c =
      { s.cu c with notReady := fun i =>
          if ∃ op ∈ grants, op.ocId = c ∧ op.operand = i then false else (s.cu c).notReady i } := by
  refine (foldl_collectOperand _ _ c).trans ?_
  simp only [h.mem_readOps]

theorem Reserved.pending_eq
    (h : Reserved a' grants st) : (collected s st).pending = ungranted grants s.pending := by
  funext c i
  rw [Rfu.pending, h.collected_cu, ungranted]
  dsimp only
  split
  · rfl
  · rfl

/-- **Granted operands are collected.** -/
theorem Inv.collected (h : Inv cfg s) (ha : s.arbiter.Arbitrated winner grants a')
    (hst : Reserved a' grants st) : Inv cfg (collected s st) := by
  refine ⟨?_, ?_, ?_, h.ports, h.stages⟩
  · intro c
    rw [hst.collected_cu]
    rcases h.unit c with hu | ⟨w, o, hu⟩
    · left
      refine ⟨hu.free, hu.warp, hu.output, hu.srcOp, ?_⟩
      intro i
      dsimp only
      rw [hu.notReady i, ite_self]
    · right
      refine ⟨w, o, hu.free, hu.warp, hu.output, hu.warpId, hu.srcOp, ?_⟩
      intro i hi
      dsimp only at hi
      split at hi
      · cases hi
      · exact hu.notReady i hi
  · rw [hst.pending_eq]
    have hqueue : (OperandCollector.collected s st).arbiter.queue = a'.queue := hst.queue_eq
    rw [hqueue]
    exact h.queues.grant ha
  · intro c
    rw [hst.collected_cu]
    exact h.occupancy c

theorem Inv.allocateReads (h : Inv cfg s) (hnoRead : ∀ b, s.arbiter.allocatedBank b ≠ .readAlloc)
    (hle : d.numBanks ≤ d.numCollectors) : ∃ s', s.allocateReads cfg = .ok s' ∧ Inv cfg s' := by
  obtain ⟨winner, grants, a', hok, ha⟩ := s.arbiter.allocateReads_ok hle
  obtain ⟨st, hst, hreserved⟩ := h.reserveReads ha hnoRead
  refine ⟨OperandCollector.collected s st, ?_, h.collected ha hreserved⟩
  rw [Rfu.allocateReads, hok, ok_bind, hst]
  rfl

end Reads

/-! ## `allocate_cu` -/

theorem foldl_addReadRequest (src : OperandIdx → Option (Op d)) (l : List OperandIdx) (a : Arbiter d)
    (b : Fin d.numBanks) : (l.foldl (Arbiter.addReadRequest src) a).queue b =
      a.queue b ++ l.filterMap fun i => (src i).filter fun op => op.bank = b := by
  induction l generalizing a with
  | nil => simp
  | cons i l ih =>
    rw [List.foldl_cons, ih, List.filterMap_cons]
    unfold Arbiter.addReadRequest
    cases hop : src i with
    | none => simp
    | some op =>
      by_cases hb : op.bank = b
      · subst hb
        simp [Option.filter_some]
      · have hb' : b ≠ op.bank := fun heq => hb heq.symm
        simp [Option.filter_some, hb, update_of_ne hb']

theorem operandOp_key {i : OperandIdx} {op : Op d} (h : operandOp cfg c w i = some op) :
    op.ocId = c ∧ op.operand = i := by
  obtain ⟨reg, -, rfl⟩ := Option.map_eq_some_iff.mp h
  exact ⟨rfl, rfl⟩

theorem loaded_srcOp (hu : (s.cu c).IsFree) (w : WarpInst) (output : Nat) (i : OperandIdx) :
    (s.loaded cfg c w output).srcOp i = operandOp cfg c w i := by
  simp only [Rfu.loaded, operandOp]
  split
  · rfl
  · rename_i hi
    have hreg : w.sourceReg i = none := dif_neg hi
    rw [hu.srcOp i, hreg]
    rfl

/-- A unit after `allocate` and `add_read_requests`. -/
def requested (cfg : Config d) (s : Rfu d) (c : Fin d.numCollectors) (w : WarpInst)
    (i input output : Nat) : Rfu d :=
  { s.taken cfg c w i input output with
    arbiter := s.arbiter.addReadRequests ((s.taken cfg c w i input output).cu c).srcOp }

theorem requested_cu_self (cfg : Config d) (s : Rfu d) (c : Fin d.numCollectors) (w : WarpInst)
    (i input output : Nat) : (requested cfg s c w i input output).cu c = s.loaded cfg c w output :=
  update_self ..

theorem requested_cu_of_ne {c' : Fin d.numCollectors} (hc : c' ≠ c) (w : WarpInst)
    (i input output : Nat) : (requested cfg s c w i input output).cu c' = s.cu c' :=
  update_of_ne hc _ _

theorem pending_requested (hu : (s.cu c).IsFree) (w : WarpInst) (i input output : Nat) :
    (requested cfg s c w i input output).pending = update s.pending c (operandOp cfg c w) := by
  funext c' j
  by_cases hc : c' = c
  · subst hc
    rw [Rfu.pending, requested_cu_self, update_self, loaded_srcOp hu]
    -- all operands of the instruction are waited for
    cases hreg : w.sourceReg j with
    | none => simp [operandOp, hreg]
    | some reg => simp [Rfu.loaded, hreg]
  · rw [Rfu.pending, requested_cu_of_ne hc, update_of_ne hc]
    rfl

theorem queue_requested (hu : (s.cu c).IsFree) (w : WarpInst) (i input output : Nat)
    (b : Fin d.numBanks) : (requested cfg s c w i input output).arbiter.queue b =
      s.arbiter.queue b ++ (List.finRange _).filterMap fun j =>
        (operandOp cfg c w j).filter fun op => op.bank = b := by
  have hsrc : ((s.taken cfg c w i input output).cu c).srcOp = operandOp cfg c w := by
    funext j
    rw [← loaded_srcOp hu w output]
    exact congrArg (fun u => CollectorUnit.srcOp u j) (update_self ..)
  refine (foldl_addReadRequest _ _ _ b).trans ?_
  rw [hsrc]

/-- **A free unit takes the oldest instruction of its input.** -/
theorem Inv.requested (h : Inv cfg s) (hfree : (s.cu c).free = true) {i : Nat}
    (hready : (s.stages input).getReady WarpInst.uid = some (i, w))
    (hport : ∃ port ∈ cfg.ports, (input, output) ∈ port.regs) :
    Inv cfg (requested cfg s c w i input output) := by
  have hu := h.isFree hfree
  refine ⟨?_, ?_, ?_, ?_, ?_⟩
  · intro c'
    by_cases hc : c' = c
    · subst hc
      rw [requested_cu_self]
      refine .inr ⟨w, output, rfl, rfl, rfl, rfl, loaded_srcOp hu w output, ?_⟩
      intro j hj
      have hsome : (w.sourceReg j).isSome = true := by simpa [Rfu.loaded, hu.notReady j] using hj
      exact Option.isSome_iff_ne_none.mp hsome
    · rw [requested_cu_of_ne hc]
      exact h.unit c'
  · rw [pending_requested hu]
    rw [funext (queue_requested hu w i input output)]
    exact h.queues.add (fun j => pending_free hu j) fun j op => operandOp_key
  · have hocc := h.occupancy c
    rw [hu.holds_eq] at hocc
    exact Occupancy.update h.occupancy rfl hocc.taken
  · intro c' w' input' output' hmem
    rcases List.mem_append.mp hmem with hmem | hmem
    · exact h.ports c' w' input' output' hmem
    · cases List.mem_singleton.mp hmem
      exact hport
  · apply count_replaced (RegisterSet.clear_replaced hready) _ _ h.stages
    · intro r' w'
      simp [Event.into]
    · intro r' w'
      simp [Event.outOf]

theorem Inv.allocateIn (h : Inv cfg s) (hready : (s.stages input).hasReady = true)
    (hport : ∃ port ∈ cfg.ports, (input, output) ∈ port.regs) (sets : List Nat) :
    ∃ s', Rfu.allocateIn cfg input output sets s = .ok s' ∧ Inv cfg s' := by
  induction sets with
  | nil => exact ⟨s, rfl, h⟩
  | cons set sets ih =>
    rw [Rfu.allocateIn]
    cases hfind : (cfg.cus set).find? fun c => (s.cu c).free with
    | none => exact ih
    | some c =>
      have hfree : (s.cu c).free = true := by simpa using List.find?_some hfind
      have hu := h.isFree hfree
      obtain ⟨p, hp⟩ := RegisterSet.exists_getReady WarpInst.uid hready
      have hallocate : s.allocate cfg c input output = .ok (true, s.taken cfg c p.2 p.1 input output) := by
        rw [Rfu.allocate, assert_pos hfree, ok_bind, assert_pos hu.notReady, ok_bind, hp]
        exact congrArg (· >>= fun _ => _) (assert_pos hu.warp)
      refine ⟨OperandCollector.requested cfg s c p.2 p.1 input output, ?_, h.requested hfree hp hport⟩
      simp only [hallocate, ok_bind]
      rfl

theorem Inv.allocateCu (h : Inv cfg s) {port : Port} (hport : port ∈ cfg.ports) :
    ∃ s', s.allocateCu cfg port = .ok s' ∧ Inv cfg s' := by
  unfold Rfu.allocateCu
  cases hfind : port.regs.find? fun p => (s.stages p.1).hasReady with
  | none => exact ⟨s, rfl, h⟩
  | some p =>
    have hready : (s.stages p.1).hasReady = true := by simpa using List.find?_some hfind
    exact h.allocateIn hready ⟨port, hport, List.mem_of_find?_eq_some hfind⟩ port.cuSets

/-! ## Calls -/

/-- The invariant between the calls, when no bank is allocated to a read. -/
structure Quiet (cfg : Config d) (s : Rfu d) : Prop extends Inv cfg s where
  noRead : ∀ b, s.arbiter.allocatedBank b ≠ .readAlloc

/-- **With enough collector units `step` passes all its assertions.** -/
theorem Quiet.step (h : Quiet cfg s) (hle : d.numBanks ≤ d.numCollectors) :
    ∃ s', s.step cfg = .ok s' ∧ Quiet cfg s' := by
  obtain ⟨s₁, hs₁, h₁, harb⟩ := h.dispatchReadyCu
  obtain ⟨s₂, hs₂, h₂⟩ := h₁.allocateReads (by rw [harb]; exact h.noRead) hle
  have hports : ∃ s₃, cfg.ports.foldlM (Rfu.allocateCu cfg) s₂ = .ok s₃ ∧ Inv cfg s₃ :=
    foldlM_invariant (fun _ s => Inv cfg s) h₂ fun done port rest s hsplit hs =>
      hs.allocateCu (by rw [hsplit]; simp)
  obtain ⟨s₃, hs₃, h₃⟩ := hports
  refine ⟨s₃.processBanks, ?_, ?_⟩
  · rw [Rfu.step, hs₁, ok_bind, hs₂, ok_bind, hs₃]
    rfl
  · exact ⟨⟨h₃.unit, h₃.queues, h₃.occupancy, h₃.ports, h₃.stages⟩, fun _ => by simp [Rfu.processBanks,
      Arbiter.resetAlloction]⟩

theorem Arbiter.wavefront_error {a : Arbiter d} {e : Fault} (h : a.wavefront = .error e) : e = .output := by
  obtain ⟨p, -, m, hdiag⟩ := exists_of_foldlM_error h
  obtain ⟨input, -, st, hst⟩ := exists_of_foldlM_error (map_eq_error.mp hdiag)
  rw [Arbiter.stepDiagonal] at hst
  exact (assert_eq_error.mp (bind_return_eq_error.mp hst)).2.symm

theorem Quiet.step_error (h : Quiet cfg s) (hlt : d.numCollectors < d.numBanks) :
    s.step cfg = .error .output := by
  obtain ⟨s₁, hs₁, -, -⟩ := h.dispatchReadyCu
  have hreads : s₁.arbiter.allocateReads = .error .output := by
    rw [Arbiter.allocateReads_eq]
    cases hw : s₁.arbiter.wavefront with
    | error e =>
      obtain rfl := Arbiter.wavefront_error hw
      rfl
    | ok m => exact absurd hw (Arbiter.wavefront_ne_ok hlt m)
  rw [Rfu.step, hs₁, ok_bind, Rfu.allocateReads, hreads]
  rfl

theorem claimBanks_quiet {a a' : Arbiter d} {shift wid : Nat} {regs : List Nat} {done : Bool}
    (h : a.claimBanks shift wid regs = .ok (done, a')) : a'.queue = a.queue ∧
      ∀ b, a.allocatedBank b ≠ .readAlloc → a'.allocatedBank b ≠ .readAlloc := by
  induction regs generalizing a with
  | nil =>
    cases h
    exact ⟨rfl, fun _ hb => hb⟩
  | cons reg regs ih =>
    cases hfree : (a.allocatedBank (registerBank d shift reg wid)).isFree with
    | false =>
      rw [Arbiter.claimBanks_busy hfree] at h
      cases h
      exact ⟨rfl, fun _ hb => hb⟩
    | true =>
      rw [Arbiter.claimBanks_idle hfree] at h
      obtain ⟨hqueue, hread⟩ := ih h
      refine ⟨hqueue, ?_⟩
      intro b hb
      apply hread b
      by_cases heq : b = registerBank d shift reg wid
      · rw [heq, Arbiter.claim_self]
        simp
      · rwa [Arbiter.claim_of_ne heq]

theorem Quiet.writeback (h : Quiet cfg s) (inst : WarpInst) :
    ∃ s', s.call cfg (.writeback inst) = .ok s' ∧ Quiet cfg s' := by
  obtain ⟨done, a', hok, -⟩ := writeback_ok cfg.bankWarpShift s.arbiter inst
  obtain ⟨hqueue, hread⟩ := claimBanks_quiet hok
  refine ⟨{ s with arbiter := a' }, map_eq_ok.mpr ⟨_, hok, rfl⟩, ?_, fun b => hread b (h.noRead b)⟩
  refine ⟨h.unit, ?_, h.occupancy, h.ports, h.stages⟩
  have hq : ({ s with arbiter := a' } : Rfu d).arbiter.queue = s.arbiter.queue := hqueue
  rw [hq]
  exact h.queues

theorem Quiet.pipeline (h : Quiet cfg s)
    (he : e.unit = none) (hregs : Replaced x y (s.stages r) regs)
    (hinto : ∀ r' w', e.into r' w' = decide (r = r' ∧ y = some w'))
    (houtOf : ∀ r' w', e.outOf r' w' = decide (r = r' ∧ x = some w')) :
    Quiet cfg { s with stages := update s.stages r regs, log := s.log ++ [e] } := by
  refine ⟨⟨h.unit, h.queues, ?_, ?_, count_replaced hregs hinto houtOf h.stages⟩, h.noRead⟩
  · intro c
    apply (h.occupancy c).other
    simp [he]
  · intro c w input output hmem
    refine h.ports c w input output (mem_log_append hmem ?_)
    rintro c w input output rfl
    cases he

/-- **One call**: it keeps the invariant, or it is stopped by the arbiter. -/
theorem Quiet.call (h : Quiet cfg s) (e : Call) : (∃ s', s.call cfg e = .ok s' ∧ Quiet cfg s') ∨
      (s.call cfg e = .error .output ∧ d.numCollectors < d.numBanks) := by
  cases e with
  | step =>
    rcases Nat.lt_or_ge d.numCollectors d.numBanks with hlt | hle
    · exact .inr ⟨h.step_error hlt, hlt⟩
    · exact .inl (h.step hle)
  | writeback inst => exact .inl (h.writeback inst)
  | arrive r w =>
    left
    cases hfree : (s.stages r).hasFree with
    | false => exact ⟨s, if_neg (by simp [hfree]), h⟩
    | true =>
      obtain ⟨regs, hregs⟩ := RegisterSet.moveIn_ok Fault.noFreeRegister hfree w
      refine ⟨{ s with stages := update s.stages r regs, log := s.log ++ [.arrived r w] },
        (if_pos hfree).trans (by rw [hregs, ok_bind]), ?_⟩
      apply h.pipeline rfl (RegisterSet.moveIn_eq_ok hregs)
      · intro r' w'
        simp [Event.into]
      · intro r' w'
        simp [Event.outOf]
  | leave r =>
    left
    cases hready : (s.stages r).getReady WarpInst.uid with
    | none => exact ⟨s, by simp [Rfu.call, hready], h⟩
    | some p =>
      refine ⟨{ s with
        stages := update s.stages r ((s.stages r).clear p.1), log := s.log ++ [.left r p.2] },
        by simp [Rfu.call, hready], ?_⟩
      apply h.pipeline rfl (RegisterSet.clear_replaced hready)
      · intro r' w'
        simp [Event.into]
      · intro r' w'
        simp [Event.outOf]

/-! ## Runs -/

theorem Quiet.init (cfg : Config d) (size : Nat → Nat) : Quiet cfg (Rfu.init d size) where
  unit _ := .inl ⟨rfl, rfl, rfl, fun _ => rfl, fun _ => rfl⟩
  queues := by
    refine ⟨fun _ => List.nodup_nil, ?_, ?_⟩
    · intro b op
      simp [Rfu.init, Arbiter.init, Rfu.pending, CollectorUnit.init]
    · intro c i op hp
      cases hp
  occupancy _ := .nil
  ports _ _ _ _ h := absurd h List.not_mem_nil
  stages r w := by simp [Rfu.init, List.count_replicate]
  noRead _ h := by cases h

/-- **Conservation.** After every run the collector has its instructions and operands where they
belong, and the only assertion that a run can fail is the arbiter's on `output`, with more banks
than collector units. -/
theorem run_conserved (cfg : Config d) (size : Nat → Nat) (calls : List Call) :
    (∃ s, exec (.ok (Rfu.init d size)) (Rfu.call cfg) calls = .ok s ∧ s.Conserved cfg) ∨
      (exec (.ok (Rfu.init d size)) (Rfu.call cfg) calls = .error .output ∧
        d.numCollectors < d.numBanks) := by
  have hrun : (∃ s, exec (.ok (Rfu.init d size)) (Rfu.call cfg) calls = .ok s ∧ Quiet cfg s) ∨
      (exec (.ok (Rfu.init d size)) (Rfu.call cfg) calls = .error .output ∧
        d.numCollectors < d.numBanks) := by
    induction calls using List.reverseRecOn with
    | nil => exact .inl ⟨_, rfl, .init cfg size⟩
    | append_singleton calls e ih =>
      rcases ih with ⟨s, hok, hs⟩ | ⟨herr, hlt⟩
      · rw [exec_concat hok]
        exact hs.call e
      · rw [exec_append, herr]
        exact .inr ⟨rfl, hlt⟩
  rcases hrun with ⟨s, hok, hs⟩ | herr
  · exact .inl ⟨s, hok, hs.conserved⟩
  · exact .inr herr

end GpgpuSimRuby.Shader.OperandCollector
