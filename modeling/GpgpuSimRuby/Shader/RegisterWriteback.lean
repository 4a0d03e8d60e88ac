import GpgpuSimRuby.Shader.OperandCollector

/-!
# Writing registers back

`opndcoll_rfu_t::writeback` claims a bank for each destination register in turn, and gives up at the
first bank that is not idle. The banks claimed before stay claimed, and two registers of one
instruction may share a bank, so that the second of them finds the bank that the first has just
claimed.
-/

namespace GpgpuSimRuby.Shader.OperandCollector

open Library

variable {d : Dims}

namespace Arbiter

variable {a a' : Arbiter d} {shift wid reg : Nat} {regs : List Nat} {b : Fin d.numBanks} {done : Bool}

/-- `bank_idle` of every bank. -/
def Idle (a : Arbiter d) : Prop := ∀ b, (a.allocatedBank b).isFree = true

/-- The banks of some registers, in the order of the registers. -/
def banks (d : Dims) (shift wid : Nat) (regs : List Nat) : List (Fin d.numBanks) :=
  regs.map fun reg => registerBank d shift reg wid

/-- The arbiter with one more bank allocated to a write. -/
def claim (a : Arbiter d) (b : Fin d.numBanks) : Arbiter d :=
  { a with allocatedBank := Function.update a.allocatedBank b .writeAlloc }

theorem claim_self (a : Arbiter d) (b : Fin d.numBanks) : (a.claim b).allocatedBank b = .writeAlloc :=
  Function.update_self ..

theorem claim_of_ne {b' : Fin d.numBanks} (h : b' ≠ b) :
    (a.claim b).allocatedBank b' = a.allocatedBank b' := Function.update_of_ne h _ _

theorem claimBanks_idle (h : (a.allocatedBank (registerBank d shift reg wid)).isFree = true) :
    a.claimBanks shift wid (reg :: regs) =
      (a.claim (registerBank d shift reg wid)).claimBanks shift wid regs := by
  rw [claimBanks, if_pos h, allocateBankForWrite, assert_pos h]
  rfl

theorem claimBanks_busy (h : (a.allocatedBank (registerBank d shift reg wid)).isFree = false) :
    a.claimBanks shift wid (reg :: regs) = .ok (false, a) := by
  rw [claimBanks, if_neg (by simp [h])]

/-- **The loop over the registers** fails no assertion, and it is done if and only if the banks are idle
and no two registers share one. -/
theorem claimBanks_ok (a : Arbiter d) : ∃ done a', a.claimBanks shift wid regs = .ok (done, a') ∧
    (done = true ↔ (banks d shift wid regs).Nodup ∧
      ∀ b ∈ banks d shift wid regs, (a.allocatedBank b).isFree = true) := by
  induction regs generalizing a with
  | nil => exact ⟨true, a, rfl, by simp [banks]⟩
  | cons reg regs ih =>
    cases hfree : (a.allocatedBank (registerBank d shift reg wid)).isFree with
    | false =>
      refine ⟨false, a, claimBanks_busy hfree, ?_⟩
      simp [banks, hfree]
    | true =>
      rw [claimBanks_idle hfree]
      obtain ⟨done, a', hok, hdone⟩ := ih (a.claim (registerBank d shift reg wid))
      refine ⟨done, a', hok, hdone.trans ?_⟩
      have hcons : banks d shift wid (reg :: regs) =
          registerBank d shift reg wid :: banks d shift wid regs := rfl
      rw [hcons, List.nodup_cons, List.forall_mem_cons]
      -- the bank just claimed is idle no more, so the other registers must do without it
      constructor
      · rintro ⟨hnodup, hidle⟩
        have hne : ∀ b ∈ banks d shift wid regs, b ≠ registerBank d shift reg wid := by
          rintro b hb rfl
          have hw := hidle _ hb
          rw [claim_self] at hw
          cases hw
        refine ⟨⟨fun hmem => hne _ hmem rfl, hnodup⟩, hfree, ?_⟩
        intro b hb
        have hw := hidle b hb
        rwa [claim_of_ne (hne b hb)] at hw
      · rintro ⟨⟨hnot, hnodup⟩, -, hidle⟩
        refine ⟨hnodup, ?_⟩
        intro b hb
        have hne : b ≠ registerBank d shift reg wid := fun h => hnot (h ▸ hb)
        rw [claim_of_ne hne]
        exact hidle b hb

theorem claimBanks_frame (h : a.claimBanks shift wid regs = .ok (done, a'))
    (hb : (a.allocatedBank b).isFree = false) : a'.allocatedBank b = a.allocatedBank b := by
  induction regs generalizing a with
  | nil =>
    cases h
    rfl
  | cons reg regs ih =>
    cases hfree : (a.allocatedBank (registerBank d shift reg wid)).isFree with
    | false =>
      rw [claimBanks_busy hfree] at h
      cases h
      rfl
    | true =>
      have hne : b ≠ registerBank d shift reg wid := by
        rintro rfl
        rw [hfree] at hb
        cases hb
      rw [claimBanks_idle hfree] at h
      rw [ih h (by rw [claim_of_ne hne, hb]), claim_of_ne hne]

theorem claimBanks_first (hfree : (a.allocatedBank (registerBank d shift reg wid)).isFree = true)
    (h : a.claimBanks shift wid (reg :: regs) = .ok (done, a')) :
    a'.allocatedBank (registerBank d shift reg wid) = .writeAlloc := by
  rw [claimBanks_idle hfree] at h
  rw [claimBanks_frame h (by rw [claim_self]; rfl), claim_self]

end Arbiter

/-- The part of `ldst_unit::writeback` that retires `m_next_wb`: a refused instruction is kept for
the next cycle. -/
def retireNextWb (shift : Nat) (a : Arbiter d) (nextWb : Option WarpInst) :
    Except Fault (Option WarpInst × Arbiter d) :=
  match nextWb with
  | none => .ok (none, a)
  | some inst => (a.writeback shift inst).map fun p => (if p.1 then none else some inst, p.2)

variable {shift : Nat} {a a' : Arbiter d} {inst : WarpInst}

/-- Write-back is accepted whenever all banks are idle, also that of a load, and a refusal claims
nothing. -/
structure WritebackSound (shift : Nat) (a : Arbiter d) (inst : WarpInst) : Prop where
  accepted : a.Idle → ∃ a', a.writeback shift inst = .ok (true, a')
  unchanged : ∀ a', a.writeback shift inst = .ok (false, a') → a'.allocatedBank = a.allocatedBank
  retired : a.Idle → ∃ a', retireNextWb shift a (some inst) = .ok (none, a')

/-- The banks of the destination registers. -/
def WarpInst.destBanks (d : Dims) (shift : Nat) (inst : WarpInst) : List (Fin d.numBanks) :=
  Arbiter.banks d shift inst.warpId inst.regsWritten

theorem writeback_ok (shift : Nat) (a : Arbiter d) (inst : WarpInst) :
    ∃ done a', a.writeback shift inst = .ok (done, a') ∧ (done = true ↔ (inst.destBanks d shift).Nodup ∧
        ∀ b ∈ inst.destBanks d shift, (a.allocatedBank b).isFree = true) :=
  a.claimBanks_ok

/-- The write-back that claims all its banks, or gives up at the first of them. -/
def ClaimsAllOrNone (shift : Nat) (a : Arbiter d) (inst : WarpInst) : Prop :=
  ((inst.destBanks d shift).Nodup ∧ ∀ b ∈ inst.destBanks d shift, (a.allocatedBank b).isFree = true) ∨
    ∃ b, (inst.destBanks d shift).head? = some b ∧ (a.allocatedBank b).isFree = false

/-- **Write-back is sound exactly where it claims all its banks or none.** -/
theorem writebackSound_iff (shift : Nat) (a : Arbiter d) (inst : WarpInst) :
    WritebackSound shift a inst ↔ ClaimsAllOrNone shift a inst := by
  obtain ⟨done, a', hok, hdone⟩ := writeback_ok shift a inst
  constructor
  · intro h
    cases hd : done with
    | true => exact .inl (hdone.mp hd)
    | false =>
      rw [hd] at hok
      -- a refused instruction has a first register, and its bank was not idle
      cases hregs : inst.regsWritten with
      | nil =>
        rw [Arbiter.writeback, hregs] at hok
        cases hok
      | cons reg regs =>
        refine .inr ⟨registerBank d shift reg inst.warpId, ?_, ?_⟩
        · rw [WarpInst.destBanks, hregs]
          rfl
        · by_contra hbusy
          have hfree := Bool.not_eq_false _ ▸ hbusy
          have hsame := h.unchanged a' hok
          rw [Arbiter.writeback, hregs] at hok
          have hfirst := Arbiter.claimBanks_first hfree hok
          rw [hsame] at hfirst
          rw [hfirst] at hfree
          cases hfree
  · rintro (hall | ⟨b, hhead, hbusy⟩)
    · have hd : done = true := hdone.mpr hall
      rw [hd] at hok
      refine ⟨fun _ => ⟨a', hok⟩, ?_, ?_⟩
      · intro a'' hfalse
        rw [hok] at hfalse
        cases hfalse
      · exact fun _ => ⟨a', map_eq_ok.mpr ⟨_, hok, rfl⟩⟩
    · have hno : ¬ a.Idle := by
        intro hidle
        rw [hidle b] at hbusy
        cases hbusy
      refine ⟨fun h => absurd h hno, ?_, fun h => absurd h hno⟩
      intro a'' hfalse
      cases hregs : inst.regsWritten with
      | nil =>
        rw [WarpInst.destBanks, hregs] at hhead
        cases hhead
      | cons reg regs =>
        rw [WarpInst.destBanks, hregs] at hhead
        cases hhead
        rw [Arbiter.writeback, hregs, Arbiter.claimBanks_busy hbusy] at hfalse
        cases hfalse
        rfl

/-- Eight banks. -/
def eightBanks : Dims where
  numBanks := 8
  numCollectors := 10
  numBanks_pos := Nat.succ_pos 7
  numCollectors_pos := Nat.succ_pos 9

/-- A load of warp 0 into the registers 1 and 9. -/
def vectorLoad : WarpInst where
  uid := 1
  warpId := 0
  src _ := -1
  dst := ![1, 9, -1, -1, -1, -1, -1, -1]

/-- Its second register finds the bank that the first has claimed. -/
theorem not_writebackSound_vectorLoad : ¬ WritebackSound 5 (Arbiter.init eightBanks) vectorLoad := by
  intro h
  obtain ⟨a', hok⟩ := h.accepted fun _ => rfl
  have hrefused : ((Arbiter.init eightBanks).writeback 5 vectorLoad).map Prod.fst = .ok false := by
    decide
  rw [hok] at hrefused
  cases hrefused

end GpgpuSimRuby.Shader.OperandCollector
