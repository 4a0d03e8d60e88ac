import GpgpuSimRuby.Shader.Pending

/-!
# What the loads under way have in common

A load with destination registers holds them from its issue until its last access is accounted for, and
`m_pending_writes` counts those that are not. An action moves one instruction (`Place` says where an
instruction is), so the invariant is about one place at a time, apart from the registers, which no two
instructions under way share.
-/

namespace GpgpuSimRuby.Shader

open Library Ptx

/-! ## Places -/

/-- Where an instruction is: how often in each of the bags, and with how many accesses left in the
dispatch register. -/
structure Place where
  collector : Nat
  units : Nat
  dispatch : Option Nat
  pipe : Nat
  fetches : Nat
  nextWb : Bool
  deriving DecidableEq

namespace Place

def nowhere : Place := ⟨0, 0, none, 0, 0, false⟩

variable (p : Place) (w : WarpInst)

/-- The accesses that the `ldst_unit` has of the instruction. -/
def accesses : Nat := p.dispatch.getD 0 + p.fetches + p.nextWb.toNat

/-- Does the `ldst_unit` have the instruction? -/
def InUnit : Prop := p.dispatch.isSome = true ∨ 0 < p.fetches ∨ p.nextWb = true

/-- Is the instruction still to complete? One without destination registers completes when it leaves
the pipeline registers. -/
def Underway : Prop :=
  0 < p.collector ∨ 0 < p.units ∨ p.dispatch.isSome = true ∨ 0 < p.pipe ∨
    w.out ≠ [] ∧ (0 < p.fetches ∨ p.nextWb = true)

/-- An instruction is in one stage at a time, but for the accesses of a load that was dispatched. -/
structure Single : Prop where
  stages : p.collector + p.units + p.dispatch.isSome.toNat + p.pipe +
    (if w.space = .shared then p.nextWb.toNat else 0) ≤ 1
  dispatched : 0 < p.collector + p.units → p.fetches = 0 ∧ p.nextWb = false

instance : Decidable p.InUnit := inferInstanceAs (Decidable (_ ∨ _))

instance : Decidable (p.Underway w) := inferInstanceAs (Decidable (_ ∨ _))

theorem Single.waiting {p : Place} {w : WarpInst} (h : p.Single w) (hpos : 0 < p.collector + p.units) :
    p.collector + p.units = 1 ∧ p.dispatch = none ∧ p.pipe = 0 ∧ p.fetches = 0 ∧ p.nextWb = false := by
  obtain ⟨hstages, hdispatched⟩ := h
  obtain ⟨hf, hn⟩ := hdispatched hpos
  cases hd : p.dispatch with
  | none =>
    rw [hd, Option.isSome_none, Bool.toNat_false] at hstages
    exact ⟨by omega, rfl, by omega, hf, hn⟩
  | some k =>
    rw [hd, Option.isSome_some, Bool.toNat_true] at hstages
    omega

theorem Single.collected {p : Place} {w : WarpInst} (h : p.Single w) (hpos : 0 < p.collector) :
    p = ⟨1, 0, none, 0, 0, false⟩ := by
  obtain ⟨hone, hd, hp, hf, hn⟩ := h.waiting (by omega)
  obtain ⟨col, u, d, pi, f, n⟩ := p
  simp only at hone hd hp hf hn hpos
  subst hd hp hf hn
  obtain ⟨rfl, rfl⟩ : col = 1 ∧ u = 0 := by omega
  rfl

theorem Single.executing {p : Place} {w : WarpInst} (h : p.Single w) (hpos : 0 < p.units) :
    p = ⟨0, 1, none, 0, 0, false⟩ := by
  obtain ⟨hone, hd, hp, hf, hn⟩ := h.waiting (by omega)
  obtain ⟨col, u, d, pi, f, n⟩ := p
  simp only at hone hd hp hf hn hpos
  subst hd hp hf hn
  obtain ⟨rfl, rfl⟩ : col = 0 ∧ u = 1 := by omega
  rfl

end Place

namespace WarpInst

variable (w : WarpInst)

/-- The loads that `m_pending_writes` counts the accesses of. -/
def Counted : Prop := w.isLoad = true ∧ w.space ≠ .shared

/-- An atomic on shared memory without a destination register is the one kind of instruction that
never completes. -/
def Untracked : Prop := w.isLoad = true ∧ w.space = .shared ∧ w.out = []

instance : Decidable w.Counted := inferInstanceAs (Decidable (_ ∧ _))

instance : Decidable w.Untracked := inferInstanceAs (Decidable (_ ∧ _))

end WarpInst

namespace Core

variable {cfg : Config} {c c' : Core} {w : WarpInst}

def place (c : Core) (w : WarpInst) : Place where
  collector := (c.collector.map (·.inst)).count w
  units := c.units.count w
  dispatch := c.dispatchReg.bind fun p => if p.inst = w then some p.accessq.length else none
  pipe := c.pipelineReg.count w
  fetches := (c.fetches.map (·.inst)).count w
  nextWb := decide (c.nextWb = some w)

structure LoadInv (c : Core) : Prop where
  nodup : ∀ w ∈ c.issued, w.out.Nodup
  mem_issued : ∀ w, c.place w ≠ .nowhere → w ∈ c.issued
  uid_le : ∀ w ∈ c.issued, w.uid ≤ c.nextUid
  uid_inj : ∀ v ∈ c.issued, ∀ w ∈ c.issued, v.uid = w.uid → v = w
  single : ∀ w, (c.place w).Single w
  hold : ∀ w, (c.place w).Underway w → ∀ r ∈ w.out, r ∈ c.regTable w.warp
  excl : ∀ v w, (c.place v).Underway v → (c.place w).Underway w → v.warp = w.warp →
    ∀ r ∈ v.out, r ∈ w.out → v = w
  pending : ∀ w, w.Counted → (c.place w).Underway w → ∀ r ∈ w.out,
    c.pendingWrites w.warp r = if (c.place w).InUnit then some (c.place w).accesses else none
  counted : ∀ warp r n, c.pendingWrites warp r = some n →
    ∃ w, w.Counted ∧ (c.place w).InUnit ∧ w.warp = warp ∧ r ∈ w.out
  completed : ∀ w ∈ c.issued, ¬ w.Untracked →
    c.completed.count w.uid = if (c.place w).Underway w then 0 else 1
  released : ∀ w ∈ c.issued, ∀ r ∈ w.out,
    c.released.count (w.uid, r) = if (c.place w).Underway w then 0 else 1
  completed_le : ∀ u ∈ c.completed, u ≤ c.nextUid
  released_le : ∀ x ∈ c.released, x.1 ≤ c.nextUid

theorem not_underway_nowhere : ¬ Place.nowhere.Underway w := by
  simp [Place.Underway, Place.nowhere]

theorem inUnit_underway {p : Place} {r : Nat} (hr : r ∈ w.out) (h : p.InUnit) : p.Underway w :=
  .inr (.inr (h.imp id fun h => .inr ⟨List.ne_nil_of_mem hr, h⟩))

namespace LoadInv

theorem move (hc : c.LoadInv) (hw : w ∈ c.issued) (hplace : ∀ v, v ≠ w → c'.place v = c.place v)
    (hpend : ∀ warp r, ¬ (w.Counted ∧ warp = w.warp ∧ r ∈ w.out) →
      c'.pendingWrites warp r = c.pendingWrites warp r)
    (hold : w.out ≠ [] → (c.place w).Underway w)
    (hunder : w.Untracked ∨ ((c'.place w).Underway w ↔ (c.place w).Underway w))
    (hsingle : (c'.place w).Single w)
    (hcount : w.Counted → ∀ r ∈ w.out,
      c'.pendingWrites w.warp r = if (c'.place w).InUnit then some (c'.place w).accesses else none)
    (hbooks : (c'.issued, c'.nextUid, c'.regTable, c'.completed, c'.released) =
      (c.issued, c.nextUid, c.regTable, c.completed, c.released)) : c'.LoadInv := by
  simp only [Prod.mk.injEq] at hbooks
  obtain ⟨hissued, huid, hregs, hcompleted, hreleased⟩ := hbooks
  -- apart from atomics without destination, the same instructions are under way
  have hsame : ∀ v, ¬ v.Untracked → ((c'.place v).Underway v ↔ (c.place v).Underway v) := by
    intro v hv
    by_cases hvw : v = w
    · subst hvw
      exact hunder.resolve_left hv
    · rw [hplace v hvw]
  have hdest : ∀ v : WarpInst, ∀ r ∈ v.out, ¬ v.Untracked := fun v r hr hu => by
    rw [hu.2.2] at hr
    cases hr
  constructor
  case nodup =>
    rw [hissued]
    exact hc.nodup
  case mem_issued =>
    intro v hv
    rw [hissued]
    by_cases hvw : v = w
    · exact hvw ▸ hw
    · exact hc.mem_issued v (hplace v hvw ▸ hv)
  case uid_le =>
    rw [hissued, huid]
    exact hc.uid_le
  case uid_inj =>
    rw [hissued]
    exact hc.uid_inj
  case single =>
    intro v
    by_cases hvw : v = w
    · subst hvw
      exact hsingle
    · rw [hplace v hvw]
      exact hc.single v
  case hold =>
    intro v hv r hr
    rw [hregs]
    exact hc.hold v ((hsame v (hdest v r hr)).mp hv) r hr
  case excl =>
    intro u v hu hv hwarp r hru hrv
    exact hc.excl u v ((hsame u (hdest u r hru)).mp hu) ((hsame v (hdest v r hrv)).mp hv) hwarp r hru hrv
  case pending =>
    intro v hv hunder' r hr
    by_cases hvw : v = w
    · subst hvw
      exact hcount hv r hr
    · have hv' := (hsame v (hdest v r hr)).mp hunder'
      rw [hplace v hvw, ← hc.pending v hv hv' r hr]
      apply hpend
      rintro ⟨-, hwarp, hrw⟩
      exact hvw (hc.excl v w hv' (hold (List.ne_nil_of_mem hrw)) hwarp r hr hrw)
  case counted =>
    intro warp r n hn
    by_cases hw : w.Counted ∧ warp = w.warp ∧ r ∈ w.out
    · obtain ⟨hw, rfl, hr⟩ := hw
      rw [hcount hw r hr] at hn
      by_cases hin : (c'.place w).InUnit
      · exact ⟨w, hw, hin, rfl, hr⟩
      · rw [if_neg hin] at hn
        cases hn
    · rw [hpend warp r hw] at hn
      obtain ⟨v, hv, hin, hwarp, hr⟩ := hc.counted warp r n hn
      have hvw : v ≠ w := by
        rintro rfl
        exact hw ⟨hv, hwarp.symm, hr⟩
      exact ⟨v, hv, (hplace v hvw).symm ▸ hin, hwarp, hr⟩
  case completed =>
    intro v hv hu
    rw [hcompleted, hc.completed v (hissued ▸ hv) hu, if_congr (hsame v hu) rfl rfl]
  case released =>
    intro v hv r hr
    rw [hreleased, hc.released v (hissued ▸ hv) r hr, if_congr (hsame v (hdest v r hr)) rfl rfl]
  case completed_le =>
    rw [hcompleted, huid]
    exact hc.completed_le
  case released_le =>
    rw [hreleased, huid]
    exact hc.released_le

theorem finish (hc : c.LoadInv) (hplace : ∀ v, v ≠ w → c'.place v = c.place v)
    (hpend : ∀ warp r, c'.pendingWrites warp r =
      if w.Counted ∧ warp = w.warp ∧ r ∈ w.out then none else c.pendingWrites warp r)
    (hunder : (c.place w).Underway w) (hdone : ¬ (c'.place w).Underway w)
    (hsingle : (c'.place w).Single w)
    (hbooks : (c'.issued, c'.nextUid, c'.regTable, c'.completed, c'.released) =
      (c.issued, c.nextUid, (c.release w w.out).regTable, w.uid :: c.completed,
        (c.release w w.out).released)) : c'.LoadInv := by
  simp only [Prod.mk.injEq] at hbooks
  obtain ⟨hissued, huid, hregs, hcompleted, hreleased⟩ := hbooks
  have hw : w ∈ c.issued := by
    apply hc.mem_issued
    intro h
    rw [h] at hunder
    exact not_underway_nowhere hunder
  have hne : ∀ v, (c'.place v).Underway v → v ≠ w := by
    rintro v hv rfl
    exact hdone hv
  have hsame : ∀ v, v ≠ w → ((c'.place v).Underway v ↔ (c.place v).Underway v) := by
    intro v hvw
    rw [hplace v hvw]
  -- the instruction shares no register with one that is still under way
  have hdisjoint : ∀ v, v ≠ w → (c.place v).Underway v → v.warp = w.warp → ∀ r ∈ v.out, r ∉ w.out := by
    intro v hvw hv hwarp r hrv hrw
    exact hvw (hc.excl v w hv hunder hwarp r hrv hrw)
  constructor
  case nodup =>
    rw [hissued]
    exact hc.nodup
  case mem_issued =>
    intro v hv
    rw [hissued]
    by_cases hvw : v = w
    · exact hvw ▸ hw
    · exact hc.mem_issued v (hplace v hvw ▸ hv)
  case uid_le =>
    rw [hissued, huid]
    exact hc.uid_le
  case uid_inj =>
    rw [hissued]
    exact hc.uid_inj
  case single =>
    intro v
    by_cases hvw : v = w
    · subst hvw
      exact hsingle
    · rw [hplace v hvw]
      exact hc.single v
  case hold =>
    intro v hv r hr
    have hvw := hne v hv
    have hv' := (hsame v hvw).mp hv
    rw [hregs]
    show r ∈ Function.update c.regTable w.warp (c.regTable w.warp \ w.out.toFinset) v.warp
    by_cases hwarp : v.warp = w.warp
    · rw [hwarp, Function.update_self, Finset.mem_sdiff, List.mem_toFinset]
      exact ⟨hwarp ▸ hc.hold v hv' r hr, hdisjoint v hvw hv' hwarp r hr⟩
    · rw [Function.update_of_ne hwarp]
      exact hc.hold v hv' r hr
  case excl =>
    intro u v hu hv
    exact hc.excl u v ((hsame u (hne u hu)).mp hu) ((hsame v (hne v hv)).mp hv)
  case pending =>
    intro v hv hunder' r hr
    have hvw := hne v hunder'
    have hv' := (hsame v hvw).mp hunder'
    rw [hpend, if_neg, hc.pending v hv hv' r hr, hplace v hvw]
    rintro ⟨-, hwarp, hrw⟩
    exact hdisjoint v hvw hv' hwarp r hr hrw
  case counted =>
    intro warp r n hn
    rw [hpend] at hn
    split at hn
    case isTrue => cases hn
    case isFalse hnot =>
      obtain ⟨v, hv, hin, hwarp, hr⟩ := hc.counted warp r n hn
      have hvw : v ≠ w := by
        rintro rfl
        exact hnot ⟨hv, hwarp.symm, hr⟩
      exact ⟨v, hv, (hplace v hvw).symm ▸ hin, hwarp, hr⟩
  case completed =>
    intro v hv hu
    rw [hissued] at hv
    by_cases hvw : v = w
    · subst hvw
      rw [hcompleted, List.count_cons_self, hc.completed v hv hu, if_pos hunder, if_neg hdone]
    · have huid : ¬ (w.uid == v.uid) = true := by
        rw [beq_iff_eq]
        exact fun h => hvw (hc.uid_inj v hv w hw h.symm)
      rw [hcompleted, List.count_cons, if_neg huid, hc.completed v hv hu, if_congr (hsame v hvw) rfl rfl]
      rfl
  case released =>
    intro v hv r hr
    rw [hissued] at hv
    rw [hreleased]
    show ((w.out.map (w.uid, ·)).reverse ++ c.released).count (v.uid, r) = _
    rw [List.count_append, List.count_reverse]
    by_cases hvw : v = w
    · subst hvw
      have hinj : Function.Injective (Prod.mk v.uid : Nat → Nat × Nat) := fun a b h => (Prod.mk.inj h).2
      have hone : (v.out.map (Prod.mk v.uid)).count (v.uid, r) = 1 := by
        rw [List.count_map_of_injective _ _ hinj]
        exact List.count_eq_one_of_mem (hc.nodup v hv) hr
      rw [hone, hc.released v hv r hr, if_pos hunder, if_neg hdone]
    · have hzero : (w.out.map (w.uid, ·)).count (v.uid, r) = 0 := by
        apply List.count_eq_zero_of_not_mem
        intro hmem
        obtain ⟨q, -, hq⟩ := List.mem_map.mp hmem
        exact hvw (hc.uid_inj v hv w hw (Prod.mk.inj hq).1.symm)
      rw [hzero, Nat.zero_add, hc.released v hv r hr, if_congr (hsame v hvw) rfl rfl]
  case completed_le =>
    rw [hcompleted, huid]
    intro u hu
    rcases List.mem_cons.mp hu with rfl | hu
    · exact hc.uid_le w hw
    · exact hc.completed_le u hu
  case released_le =>
    rw [hreleased, huid]
    intro x hx
    rcases List.mem_append.mp hx with hx | hx
    · obtain ⟨q, -, rfl⟩ := List.mem_map.mp (List.mem_reverse.mp hx)
      exact hc.uid_le w hw
    · exact hc.released_le x hx

theorem init : LoadInv init := by
  have hplace : ∀ w, Core.init.place w = .nowhere := fun _ => rfl
  have hunder : ∀ w : WarpInst, ¬ (Core.init.place w).Underway w := fun w => not_underway_nowhere
  constructor
  case nodup => exact fun w hw => absurd hw List.not_mem_nil
  case mem_issued => exact fun w hw => absurd (hplace w) hw
  case uid_le => exact fun w hw => absurd hw List.not_mem_nil
  case uid_inj => exact fun w hw => absurd hw List.not_mem_nil
  case single => exact fun w => ⟨by simp [hplace, Place.nowhere], by simp [hplace, Place.nowhere]⟩
  case hold => exact fun w hw => absurd hw (hunder w)
  case excl => exact fun v w hv => absurd hv (hunder v)
  case pending => exact fun w _ hw => absurd hw (hunder w)
  case counted => exact fun warp r n hn => by cases hn
  case completed => exact fun w hw => absurd hw List.not_mem_nil
  case released => exact fun w hw => absurd hw List.not_mem_nil
  case completed_le => exact fun u hu => absurd hu List.not_mem_nil
  case released_le => exact fun x hx => absurd hx List.not_mem_nil

theorem congr (hc : c.LoadInv) (hplace : ∀ v, c'.place v = c.place v)
    (hpend : c'.pendingWrites = c.pendingWrites)
    (hbooks : (c'.issued, c'.nextUid, c'.regTable, c'.completed, c'.released) =
      (c.issued, c.nextUid, c.regTable, c.completed, c.released)) : c'.LoadInv := by
  simp only [Prod.mk.injEq] at hbooks
  obtain ⟨hissued, huid, hregs, hcompleted, hreleased⟩ := hbooks
  constructor
  all_goals simp only [hplace, hissued, huid, hregs, hpend, hcompleted, hreleased]
  case nodup => exact hc.nodup
  case mem_issued => exact hc.mem_issued
  case uid_le => exact hc.uid_le
  case uid_inj => exact hc.uid_inj
  case single => exact hc.single
  case hold => exact hc.hold
  case excl => exact hc.excl
  case pending => exact hc.pending
  case counted => exact hc.counted
  case completed => exact hc.completed
  case released => exact hc.released
  case completed_le => exact hc.completed_le
  case released_le => exact hc.released_le

end LoadInv

/-! ## Issue -/

theorem Issued.loadInv (hinv : c.LoadInv) {warp : Nat} {i : Inst} {lanes : List Lane}
    {accessq : List (Finset Nat)} {x : Exec} (h : Issued cfg c warp i lanes accessq x) :
    (c.afterIssue warp x accessq).LoadInv := by
  have hwarp := h.warp_eq
  have hfresh : x.inst ∉ c.issued := by
    intro hmem
    have := hinv.uid_le _ hmem
    rw [h.uid_eq] at this
    omega
  have hnowhere : c.place x.inst = .nowhere := by
    by_contra hne
    exact hfresh (hinv.mem_issued _ hne)
  have hplace : ∀ v, v ≠ x.inst → (c.afterIssue warp x accessq).place v = c.place v := by
    intro v hv
    by_cases ha : x.inst.op = .alu <;> simp [place, afterIssue, ha, hv.symm]
  have hself : (c.afterIssue warp x accessq).place x.inst =
      if x.inst.op = .alu then ⟨0, 1, none, 0, 0, false⟩ else ⟨1, 0, none, 0, 0, false⟩ := by
    simp only [place, Place.nowhere, Place.mk.injEq] at hnowhere
    obtain ⟨h₁, h₂, h₃, h₄, h₅, h₆⟩ := hnowhere
    by_cases ha : x.inst.op = .alu <;> simp_all [place, afterIssue]
  have hunder : ((c.afterIssue warp x accessq).place x.inst).Underway x.inst := by
    rw [hself]
    split <;> simp [Place.Underway]
  have hunit : ¬ ((c.afterIssue warp x accessq).place x.inst).InUnit := by
    rw [hself]
    split <;> simp [Place.InUnit]
  have hin : ∀ v, (c.place v).Underway v → v ≠ x.inst := by
    rintro v hv rfl
    rw [hnowhere] at hv
    exact not_underway_nowhere hv
  have hfree : ∀ v, (c.place v).Underway v → v.warp = x.inst.warp → ∀ r ∈ v.out, r ∉ x.inst.out := by
    intro v hv hvw r hr hrx
    have := hinv.hold v hv r hr
    rw [hvw, hwarp] at this
    exact h.free r hrx this
  have hregs : ∀ v r, r ∈ (c.afterIssue warp x accessq).regTable v ↔
      r ∈ c.regTable v ∨ v = x.inst.warp ∧ r ∈ x.inst.out := by
    intro v r
    show r ∈ Function.update c.regTable warp (c.regTable warp ∪ x.inst.out.toFinset) v ↔ _
    rw [hwarp]
    by_cases hv : v = warp
    · subst hv
      simp
    · simp [hv]
  constructor
  case nodup =>
    intro v hv
    rcases List.mem_cons.mp hv with rfl | hv
    · exact h.ok.nodup
    · exact hinv.nodup v hv
  case mem_issued =>
    intro v hv
    by_cases hvx : v = x.inst
    · exact hvx ▸ List.mem_cons_self
    · rw [hplace v hvx] at hv
      exact List.mem_cons_of_mem _ (hinv.mem_issued v hv)
  case uid_le =>
    intro v hv
    rcases List.mem_cons.mp hv with rfl | hv
    · exact h.uid_eq.le
    · exact (hinv.uid_le v hv).trans (Nat.le_succ _)
  case uid_inj =>
    have hne : ∀ v ∈ c.issued, v.uid ≠ x.inst.uid := by
      intro v hv huid
      have := hinv.uid_le v hv
      rw [huid, h.uid_eq] at this
      omega
    intro v hv w hw huid
    rcases List.mem_cons.mp hv with rfl | hv <;> rcases List.mem_cons.mp hw with rfl | hw
    · rfl
    · exact absurd huid.symm (hne w hw)
    · exact absurd huid (hne v hv)
    · exact hinv.uid_inj v hv w hw huid
  case single =>
    intro v
    by_cases hvx : v = x.inst
    · subst hvx
      rw [hself]
      split <;> exact ⟨by simp, by simp⟩
    · rw [hplace v hvx]
      exact hinv.single v
  case hold =>
    intro v hv r hr
    rw [hregs]
    by_cases hvx : v = x.inst
    · exact .inr ⟨by rw [hvx], hvx ▸ hr⟩
    · rw [hplace v hvx] at hv
      exact .inl (hinv.hold v hv r hr)
  case excl =>
    intro u v hu hv huv r hru hrv
    by_cases hux : u = x.inst <;> by_cases hvx : v = x.inst
    · rw [hux, hvx]
    · rw [hplace v hvx] at hv
      exact absurd (hux ▸ hru) (hfree v hv (hux ▸ huv.symm) r hrv)
    · rw [hplace u hux] at hu
      exact absurd (hvx ▸ hrv) (hfree u hu (hvx ▸ huv) r hru)
    · rw [hplace u hux] at hu
      rw [hplace v hvx] at hv
      exact hinv.excl u v hu hv huv r hru hrv
  case pending =>
    intro v hv hv' r hr
    show c.pendingWrites v.warp r = _
    by_cases hvx : v = x.inst
    · subst hvx
      rw [if_neg hunit]
      by_contra hsome
      obtain ⟨n, hn⟩ := Option.ne_none_iff_exists'.mp hsome
      obtain ⟨w, hw, hwin, hww, hrw⟩ := hinv.counted _ r n hn
      exact hfree w (inUnit_underway hrw hwin) hww r hrw hr
    · rw [hplace v hvx] at hv' ⊢
      exact hinv.pending v hv hv' r hr
  case counted =>
    intro v r n hn
    obtain ⟨w, hw, hwin, hww, hrw⟩ := hinv.counted v r n hn
    have hwx := hin w (inUnit_underway hrw hwin)
    exact ⟨w, hw, by rwa [hplace w hwx], hww, hrw⟩
  case completed =>
    intro v hv hu
    show c.completed.count v.uid = _
    by_cases hvx : v = x.inst
    · subst hvx
      rw [if_pos hunder]
      apply List.count_eq_zero_of_not_mem
      intro hmem
      have := hinv.completed_le _ hmem
      rw [h.uid_eq] at this
      omega
    · rw [hplace v hvx]
      exact hinv.completed v ((List.mem_cons.mp hv).resolve_left hvx) hu
  case released =>
    intro v hv r hr
    show c.released.count (v.uid, r) = _
    by_cases hvx : v = x.inst
    · subst hvx
      rw [if_pos hunder]
      apply List.count_eq_zero_of_not_mem
      intro hmem
      have := hinv.released_le _ hmem
      rw [h.uid_eq] at this
      omega
    · rw [hplace v hvx]
      exact hinv.released v ((List.mem_cons.mp hv).resolve_left hvx) r hr
  case completed_le => exact fun u hu => (hinv.completed_le u hu).trans (Nat.le_succ _)
  case released_le => exact fun u hu => (hinv.released_le u hu).trans (Nat.le_succ _)

end Core

end GpgpuSimRuby.Shader
