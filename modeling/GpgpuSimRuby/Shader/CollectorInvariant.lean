import GpgpuSimRuby.Shader.OperandCollector

/-!
# The operand collector keeps its instructions

The queues of the banks hold exactly the operands that the collector units still wait for, each in
the queue of its bank. Every call keeps this, so an operand that is granted belongs to the
instruction that asked for it, and its bank is the one that the arbiter has granted.
-/

namespace GpgpuSimRuby.Shader.OperandCollector

open Library

variable {d : Dims}

/-! ## What a run has moved -/

namespace Event

/-- The collector unit of the event. -/
def unit : Event d → Option (Fin d.numCollectors)
  | .taken c _ _ _ => some c
  | .moved c _ _ => some c
  | _ => none

/-- Does the event move the instruction in to the register set? -/
def into (r : Nat) (w : WarpInst) : Event d → Bool
  | .arrived r' w' => r' = r ∧ w' = w
  | .moved _ w' r' => r' = r ∧ w' = w
  | _ => false

/-- Does the event move the instruction out of the register set? -/
def outOf (r : Nat) (w : WarpInst) : Event d → Bool
  | .left r' w' => r' = r ∧ w' = w
  | .taken _ w' r' _ => r' = r ∧ w' = w
  | _ => false

end Event

/-- What a collector unit holds after a history: it takes an instruction when it has none, and the
next thing it does is to move that instruction to the output register set it has been taken for. -/
inductive Occupancy (c : Fin d.numCollectors) : List (Event d) → Option (WarpInst × Nat) → Prop where
  | nil : Occupancy c [] none
  | taken {log : List (Event d)} {w : WarpInst} {input output : Nat} :
      Occupancy c log none → Occupancy c (log ++ [.taken c w input output]) (some (w, output))
  | moved {log : List (Event d)} {w : WarpInst} {output : Nat} :
      Occupancy c log (some (w, output)) → Occupancy c (log ++ [.moved c w output]) none
  | other {log : List (Event d)} {e : Event d} {x : Option (WarpInst × Nat)} :
      Occupancy c log x → e.unit ≠ some c → Occupancy c (log ++ [e]) x

/-- The instruction of a collector unit and the register set it goes to. -/
def CollectorUnit.holds (u : CollectorUnit d) : Option (WarpInst × Nat) :=
  u.warp.bind fun w => u.output.map fun o => (w, o)

namespace Rfu

variable (cfg : Config d) (s : Rfu d)

/-- How often an operand of a unit is in the queue of a bank. -/
def queuedAt (c : Fin d.numCollectors) (i : OperandIdx) (b : Fin d.numBanks) : Nat :=
  (s.arbiter.queue b).countP fun op => decide (op.ocId = c ∧ op.operand = i)

/-- The operand is in one queue, that of its register's bank, and there once. -/
def InItsQueue (c : Fin d.numCollectors) (w : WarpInst) (i : OperandIdx) : Prop :=
  ∃ reg, w.sourceReg i = some reg ∧
    ∀ b, s.queuedAt c i b = if b = registerBank d cfg.bankWarpShift reg w.warpId then 1 else 0

/-- The conservation of instructions and operands. -/
structure Conserved : Prop where
  /-- a unit is occupied as the history says, and free otherwise -/
  occupancy : ∀ c, Occupancy c s.log (s.cu c).holds
  free_iff : ∀ c, (s.cu c).free = true ↔ (s.cu c).holds = none
  /-- an instruction is taken from the input of a port, for the output beside it -/
  ports : ∀ c w input output, .taken c w input output ∈ s.log →
    ∃ port ∈ cfg.ports, (input, output) ∈ port.regs
  /-- a register set has what was moved in to it and not out of it -/
  stages : ∀ r w, (s.stages r).count (some w) + s.log.countP (Event.outOf r w) =
    s.log.countP (Event.into r w)
  notReady_iff : ∀ c w output, (s.cu c).holds = some (w, output) →
    ∀ i, (s.cu c).notReady i = true ↔ s.InItsQueue cfg c w i
  /-- an operand that is not waited for is in no queue -/
  ready : ∀ c i, (s.cu c).notReady i = false → ∀ b, s.queuedAt c i b = 0

/-- The operand that a unit waits for. -/
def pending (c : Fin d.numCollectors) (i : OperandIdx) : Option (Op d) :=
  if (s.cu c).notReady i then (s.cu c).srcOp i else none

end Rfu

/-! ## The invariant -/

/-- The operand `i` of the instruction that a unit has taken. -/
def operandOp (cfg : Config d) (c : Fin d.numCollectors) (w : WarpInst) (i : OperandIdx) : Option (Op d) :=
  (w.sourceReg i).map fun reg =>
    { ocId := c, operand := i, register := reg, bank := registerBank d cfg.bankWarpShift reg w.warpId }

structure CollectorUnit.IsFree (u : CollectorUnit d) : Prop where
  free : u.free = true
  warp : u.warp = none
  output : u.output = none
  srcOp : ∀ i, u.srcOp i = none
  notReady : ∀ i, u.notReady i = false

structure CollectorUnit.Holds (cfg : Config d) (c : Fin d.numCollectors) (w : WarpInst) (o : Nat)
    (u : CollectorUnit d) : Prop where
  free : u.free = false
  warp : u.warp = some w
  output : u.output = some o
  warpId : u.warpId = w.warpId
  srcOp : ∀ i, u.srcOp i = operandOp cfg c w i
  notReady : ∀ i, u.notReady i = true → w.sourceReg i ≠ none

/-- The queues hold the operands that are waited for, each once. -/
structure QueueInv (queue : Fin d.numBanks → List (Op d))
    (pending : Fin d.numCollectors → OperandIdx → Option (Op d)) : Prop where
  nodup : ∀ b, (queue b).Nodup
  mem_iff : ∀ b op, op ∈ queue b ↔ op.bank = b ∧ pending op.ocId op.operand = some op
  key : ∀ c i op, pending c i = some op → op.ocId = c ∧ op.operand = i

structure Inv (cfg : Config d) (s : Rfu d) : Prop where
  unit : ∀ c, (s.cu c).IsFree ∨ ∃ w o, (s.cu c).Holds cfg c w o
  queues : QueueInv s.arbiter.queue s.pending
  occupancy : ∀ c, Occupancy c s.log (s.cu c).holds
  ports : ∀ c w input output, .taken c w input output ∈ s.log →
    ∃ port ∈ cfg.ports, (input, output) ∈ port.regs
  stages : ∀ r w, (s.stages r).count (some w) + s.log.countP (Event.outOf r w) =
    s.log.countP (Event.into r w)

variable {cfg : Config d} {s s' : Rfu d} {c : Fin d.numCollectors} {op : Op d} {i : OperandIdx}

theorem CollectorUnit.IsFree.holds_eq {u : CollectorUnit d} (h : u.IsFree) : u.holds = none := by
  rw [CollectorUnit.holds, h.warp]
  rfl

theorem CollectorUnit.Holds.holds_eq {u : CollectorUnit d} {w : WarpInst} {o : Nat}
    (h : u.Holds cfg c w o) : u.holds = some (w, o) := by
  rw [CollectorUnit.holds, h.warp, h.output]
  rfl

theorem Inv.isFree (h : Inv cfg s) (hfree : (s.cu c).free = true) : (s.cu c).IsFree := by
  rcases h.unit c with hu | ⟨w, o, hu⟩
  · exact hu
  · rw [hu.free] at hfree
    cases hfree

theorem Inv.holds (h : Inv cfg s) (hfree : (s.cu c).free = false) : ∃ w o, (s.cu c).Holds cfg c w o := by
  rcases h.unit c with hu | hu
  · rw [hu.free] at hfree
    cases hfree
  · exact hu

theorem pending_free (hu : (s.cu c).IsFree) (i : OperandIdx) : s.pending c i = none := by
  rw [Rfu.pending, hu.notReady i]
  rfl

theorem Inv.pending_eq (h : Inv cfg s) (hp : s.pending c i = some op) :
    ∃ w o, (s.cu c).Holds cfg c w o ∧ operandOp cfg c w i = some op := by
  rcases h.unit c with hu | ⟨w, o, hu⟩
  · rw [pending_free hu] at hp
    cases hp
  · refine ⟨w, o, hu, ?_⟩
    unfold Rfu.pending at hp
    split at hp
    · rw [← hu.srcOp i, hp]
    · cases hp

theorem Inv.bank_eq (h : Inv cfg s) {b : Fin d.numBanks} (hop : op ∈ s.arbiter.queue b) :
    registerBank d cfg.bankWarpShift op.register (s.cu op.ocId).warpId = b := by
  obtain ⟨hbank, hp⟩ := (h.queues.mem_iff b op).mp hop
  obtain ⟨w, o, hu, hop⟩ := h.pending_eq hp
  obtain ⟨reg, -, heq⟩ := Option.map_eq_some_iff.mp hop
  have hreg : op.register = reg := congrArg Op.register heq.symm
  have hb : op.bank = registerBank d cfg.bankWarpShift reg w.warpId := congrArg Op.bank heq.symm
  rw [hreg, hu.warpId, ← hb, hbank]

/-! ## The queues count -/

theorem QueueInv.queuedAt_of_none (h : QueueInv s.arbiter.queue s.pending)
    (hp : s.pending c i = none) (b : Fin d.numBanks) : s.queuedAt c i b = 0 := by
  apply List.countP_eq_zero.mpr
  intro op hop hkey
  obtain ⟨rfl, rfl⟩ := of_decide_eq_true hkey
  rw [((h.mem_iff b op).mp hop).2] at hp
  cases hp

theorem QueueInv.queuedAt_of_some (h : QueueInv s.arbiter.queue s.pending)
    (hp : s.pending c i = some op) (b : Fin d.numBanks) :
    s.queuedAt c i b = if b = op.bank then 1 else 0 := by
  obtain ⟨rfl, rfl⟩ := h.key c i op hp
  -- an entry with this key is the operand itself
  have hcount : s.queuedAt op.ocId op.operand b = (s.arbiter.queue b).count op := by
    apply List.countP_congr
    intro op' hop'
    simp only [decide_eq_true_eq, beq_iff_eq]
    constructor
    · rintro ⟨hc, hi⟩
      have hp' := ((h.mem_iff b op').mp hop').2
      rw [hc, hi, hp] at hp'
      exact (Option.some.inj hp').symm
    · rintro rfl
      exact ⟨rfl, rfl⟩
  rw [hcount]
  split
  · rename_i hb
    exact List.count_eq_one_of_mem (h.nodup b) ((h.mem_iff b op).mpr ⟨hb.symm, hp⟩)
  · rename_i hb
    apply List.count_eq_zero_of_not_mem
    intro hop
    exact hb ((h.mem_iff b op).mp hop).1.symm

/-- **The invariant says what is conserved.** -/
theorem Inv.conserved (h : Inv cfg s) : s.Conserved cfg where
  occupancy := h.occupancy
  free_iff c := by
    rcases h.unit c with hu | ⟨w, o, hu⟩
    · simp [hu.free, hu.holds_eq]
    · simp [hu.free, hu.holds_eq]
  ports := h.ports
  stages := h.stages
  ready c i hready b := h.queues.queuedAt_of_none (by rw [Rfu.pending, hready]; rfl) b
  notReady_iff c w o hholds i := by
    rcases h.unit c with hu | ⟨w', o', hu⟩
    · rw [hu.holds_eq] at hholds
      cases hholds
    · rw [hu.holds_eq] at hholds
      cases hholds
      constructor
      · intro hn
        obtain ⟨reg, hreg⟩ := Option.ne_none_iff_exists'.mp (hu.notReady i hn)
        have hp : s.pending c i = operandOp cfg c w i := by
          rw [Rfu.pending, if_pos hn, hu.srcOp i]
        rw [operandOp, hreg, Option.map_some] at hp
        exact ⟨reg, hreg, h.queues.queuedAt_of_some hp⟩
      · rintro ⟨reg, hreg, hq⟩
        by_contra hn
        have hp : s.pending c i = none := if_neg hn
        have hzero := h.queues.queuedAt_of_none hp (registerBank d cfg.bankWarpShift reg w.warpId)
        rw [hq, if_pos rfl] at hzero
        cases hzero

end GpgpuSimRuby.Shader.OperandCollector
