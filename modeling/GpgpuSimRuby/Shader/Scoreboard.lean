import GpgpuSimRuby.Library.Runs
import GpgpuSimRuby.Ptx.GenericAddress

/-!
# The scoreboard

`Scoreboard` with both of its tables. A register of a warp is pending exactly while an instruction
in flight writes it, if no instruction names an output twice. The second table holds the places of
the outputs of long operations, not their registers, and is cleared when any instruction of the warp
completes.
-/

open Function (update update_self update_of_ne update_idem)

namespace GpgpuSimRuby.Shader.Scoreboard

open Library Ptx

inductive Fault where
  | alreadyReserved
  deriving DecidableEq, Repr

variable {nWarps : Nat}

/-- The parts of a `warp_inst_t` that the scoreboard reads. -/
structure WarpInst (nWarps : Nat) where
  warpId : Fin nWarps
  out : Fin 4 → BitVec 32
  ins : Fin 4 → BitVec 32
  pred : BitVec 32
  ar1 : BitVec 32
  ar2 : BitVec 32
  isLoad : Bool
  space : MemorySpace

namespace WarpInst

variable (inst : WarpInst nWarps)

/-- The places of `out` that have a register. -/
def places : List (Fin 4) := (List.finRange 4).filter fun r => 0 < inst.out r

/-- The registers of `out`. -/
def outs : List (BitVec 32) := inst.places.map inst.out

/-- A load from global, local or texture memory. -/
def isLongOp : Bool := inst.isLoad && (inst.space = .global || inst.space = .local || inst.space = .tex)

/-- The registers that are checked; `pred`, `ar1` and `ar2` are signed. -/
def regs : List (BitVec 32) :=
  inst.outs ++ ((List.finRange 4).map inst.ins).filter (0 < ·) ++
    [inst.pred, inst.ar1, inst.ar2].filter fun r => 0 < r.toInt

/-- What a long operation puts into `longopregs`. -/
def marks : Finset (BitVec 32) :=
  if inst.isLongOp then (inst.places.map fun r => BitVec.ofNat 32 r.val).toFinset else ∅

/-- The registers a long operation writes. -/
def longOuts : Finset (BitVec 32) := if inst.isLongOp then inst.outs.toFinset else ∅

end WarpInst

/-- `reg_table` and `longopregs`. -/
structure Tables (nWarps : Nat) where
  regTable : Fin nWarps → Finset (BitVec 32)
  longopregs : Fin nWarps → Finset (BitVec 32)

namespace Tables

variable (b : Tables nWarps)

def new : Tables nWarps := ⟨fun _ => ∅, fun _ => ∅⟩

def reserveRegister (wid : Fin nWarps) (regnum : BitVec 32) : Except Fault (Tables nWarps) := do
  assert (regnum ∉ b.regTable wid) .alreadyReserved
  .ok { b with regTable := update b.regTable wid (insert regnum (b.regTable wid)) }

def releaseRegister (wid : Fin nWarps) (regnum : BitVec 32) : Tables nWarps :=
  { b with regTable := update b.regTable wid ((b.regTable wid).erase regnum) }

def islongop (warpId : Fin nWarps) (regnum : BitVec 32) : Bool := regnum ∈ b.longopregs warpId

/-- The place `r` goes to the table, not the register `out[r]`. -/
def insertLongop (wid : Fin nWarps) (r : Fin 4) : Tables nWarps :=
  { b with longopregs := update b.longopregs wid (insert (.ofNat 32 r) (b.longopregs wid)) }

def reserveRegisters (inst : WarpInst nWarps) : Except Fault (Tables nWarps) := do
  let b ← inst.outs.foldlM (fun b r => b.reserveRegister inst.warpId r) b
  .ok (if inst.isLongOp then inst.places.foldl (fun b r => b.insertLongop inst.warpId r) b else b)

def releaseRegisters (inst : WarpInst nWarps) : Tables nWarps :=
  let b := inst.outs.foldl (fun b r => b.releaseRegister inst.warpId r) b
  { b with longopregs := update b.longopregs inst.warpId ∅ }

def checkCollision (wid : Fin nWarps) (inst : WarpInst nWarps) : Bool :=
  inst.regs.any fun r => r ∈ b.regTable wid

end Tables

/-! ## Runs -/

/-- The instructions that were issued and have not completed. -/
structure State (nWarps : Nat) where
  board : Tables nWarps
  inFlight : List (WarpInst nWarps)

/-- An instruction that is to be issued, and the completion of one in flight. -/
inductive Event (nWarps : Nat) where
  | issue (inst : WarpInst nWarps)
  | complete (k : Nat)

/-- Nothing is issued on a collision. -/
def step (s : State nWarps) : Event nWarps → Except Fault (State nWarps)
  | .issue inst =>
    if s.board.checkCollision inst.warpId inst then .ok s
    else do
      let board ← s.board.reserveRegisters inst
      .ok ⟨board, inst :: s.inFlight⟩
  | .complete k =>
    match s.inFlight[k]? with
    | none => .ok s
    | some inst => .ok ⟨s.board.releaseRegisters inst, s.inFlight.eraseIdx k⟩

def start : Except Fault (State nWarps) := .ok ⟨.new, []⟩

/-! ## The tables -/

namespace Tables

variable {b b' : Tables nWarps} {w : Fin nWarps} {inst : WarpInst nWarps} {regs : List (BitVec 32)}

theorem reserve_loop : regs.foldlM (fun b r => b.reserveRegister w r) b = .ok b' ↔
    regs.Nodup ∧ (∀ r ∈ regs, r ∉ b.regTable w) ∧
      b' = { b with regTable := update b.regTable w (b.regTable w ∪ regs.toFinset) } := by
  induction regs generalizing b with
  | nil =>
    constructor
    · intro h
      cases h
      simp
    · rintro ⟨-, -, rfl⟩
      simp [pure, Except.pure]
  | cons r regs ih =>
    rw [List.foldlM_cons, bind_eq_ok]
    constructor
    · rintro ⟨b₁, hr, h⟩
      obtain ⟨_, hfree, hr⟩ := bind_eq_ok.mp hr
      cases hr
      obtain ⟨hnodup, hrest, rfl⟩ := ih.mp h
      simp only [update_self, Finset.mem_insert, not_or] at hrest
      refine ⟨List.nodup_cons.mpr ⟨fun hmem => (hrest r hmem).1 rfl, hnodup⟩, ?_, ?_⟩
      · exact List.forall_mem_cons.mpr ⟨assert_eq_ok.mp hfree, fun q hq => (hrest q hq).2⟩
      · simp only [update_self, update_idem, List.toFinset_cons, Finset.union_insert,
          Finset.insert_union]
    · rintro ⟨hnodup, hfree, rfl⟩
      obtain ⟨hr, hnodup⟩ := List.nodup_cons.mp hnodup
      obtain ⟨hr', hrest⟩ := List.forall_mem_cons.mp hfree
      refine ⟨_, bind_eq_ok.mpr ⟨_, assert_pos hr', rfl⟩, ih.mpr ⟨hnodup, ?_, ?_⟩⟩
      · intro q hq
        simp only [update_self, Finset.mem_insert, not_or]
        exact ⟨fun heq => hr (heq ▸ hq), hrest q hq⟩
      · simp only [update_self, update_idem, List.toFinset_cons, Finset.union_insert,
          Finset.insert_union]

theorem release_loop : regs.foldl (fun b r => b.releaseRegister w r) b =
    { b with regTable := update b.regTable w (b.regTable w \ regs.toFinset) } := by
  induction regs generalizing b with
  | nil => simp
  | cons r regs ih =>
    rw [List.foldl_cons, ih]
    unfold releaseRegister
    simp only [update_self, update_idem, List.toFinset_cons]
    congr 2
    ext q
    simp only [Finset.mem_sdiff, Finset.mem_erase, Finset.mem_insert, not_or]
    tauto

theorem longop_loop {places : List (Fin 4)} : places.foldl (fun b r => b.insertLongop w r) b =
    { b with longopregs := update b.longopregs w (b.longopregs w ∪
        (places.map fun r => BitVec.ofNat 32 r.val).toFinset) } := by
  induction places generalizing b with
  | nil => simp
  | cons r places ih =>
    rw [List.foldl_cons, ih]
    unfold insertLongop
    simp only [update_self, update_idem, List.map_cons, List.toFinset_cons,
      Finset.union_insert, Finset.insert_union]

theorem reserveRegisters_ok : b.reserveRegisters inst = .ok b' ↔
    inst.outs.Nodup ∧ (∀ r ∈ inst.outs, r ∉ b.regTable inst.warpId) ∧
      b' = ⟨update b.regTable inst.warpId (b.regTable inst.warpId ∪ inst.outs.toFinset),
        update b.longopregs inst.warpId (b.longopregs inst.warpId ∪ inst.marks)⟩ := by
  have hmarks (t : Fin nWarps → Finset (BitVec 32)) :
      (if inst.isLongOp then inst.places.foldl (fun b r => b.insertLongop inst.warpId r) ⟨t, b.longopregs⟩
        else ⟨t, b.longopregs⟩) =
      (⟨t, update b.longopregs inst.warpId (b.longopregs inst.warpId ∪ inst.marks)⟩ : Tables nWarps) := by
    unfold WarpInst.marks
    split
    · exact longop_loop
    · simp
  unfold reserveRegisters
  rw [bind_eq_ok]
  constructor
  · rintro ⟨b₁, h₁, h⟩
    cases h
    obtain ⟨hnodup, hfree, rfl⟩ := reserve_loop.mp h₁
    exact ⟨hnodup, hfree, hmarks _⟩
  · rintro ⟨hnodup, hfree, rfl⟩
    exact ⟨_, reserve_loop.mpr ⟨hnodup, hfree, rfl⟩, congrArg Except.ok (hmarks _)⟩

theorem releaseRegisters_eq : b.releaseRegisters inst =
    ⟨update b.regTable inst.warpId (b.regTable inst.warpId \ inst.outs.toFinset),
      update b.longopregs inst.warpId ∅⟩ := by
  unfold releaseRegisters
  rw [release_loop]

theorem free_of_checkCollision (h : b.checkCollision inst.warpId inst = false) :
    ∀ r ∈ inst.outs, r ∉ b.regTable inst.warpId := by
  intro r hr hpending
  have hnone := List.any_eq_false.mp h r (List.mem_append_left _ (List.mem_append_left _ hr))
  exact hnone (decide_eq_true hpending)

end Tables

/-! ## What the tables say -/

namespace WarpInst

variable {inst : WarpInst nWarps} {x : BitVec 32}

theorem mem_longOuts : x ∈ inst.longOuts ↔ inst.isLongOp = true ∧ x ∈ inst.outs := by
  unfold longOuts
  split
  case isTrue h => simp [h]
  case isFalse h => simp [h]

theorem card_marks_le : inst.marks.card ≤ inst.outs.length := by
  unfold marks outs
  split
  · apply (List.toFinset_card_le _).trans
    simp
  · simp

theorem longOuts_of_isLongOp (h : inst.isLongOp = true) : inst.longOuts = inst.outs.toFinset := if_pos h

theorem marks_of_not_isLongOp (h : inst.isLongOp ≠ true) : inst.marks = inst.longOuts := by
  unfold marks longOuts
  rw [if_neg h, if_neg h]

/-- Where the registers are not yet in the table, the table gets them only if they are their own
places. -/
theorem union_marks_iff {table : Finset (BitVec 32)} (hnodup : inst.outs.Nodup)
    (hfree : ∀ r ∈ inst.outs, r ∉ table) : table ∪ inst.marks = table ∪ inst.longOuts ↔
      inst.marks = inst.longOuts := by
  constructor
  · intro h
    by_cases hlong : inst.isLongOp = true
    · rw [longOuts_of_isLongOp hlong] at h ⊢
      have hsub : inst.outs.toFinset ⊆ inst.marks := by
        intro x hx
        have hmem : x ∈ table ∪ inst.marks := h ▸ Finset.mem_union_right _ hx
        exact (Finset.mem_union.mp hmem).resolve_left (hfree x (List.mem_toFinset.mp hx))
      have hcard : inst.marks.card ≤ inst.outs.toFinset.card := by
        rw [List.toFinset_card_of_nodup hnodup]
        exact card_marks_le
      exact (Finset.eq_of_subset_of_card_le hsub hcard).symm
    · exact marks_of_not_isLongOp hlong
  · intro h
    rw [h]

end WarpInst

/-- A register of a warp is pending exactly if an instruction in flight writes it. -/
def Pending (s : State nWarps) : Prop :=
  ∀ w x, x ∈ s.board.regTable w ↔ ∃ i ∈ s.inFlight, i.warpId = w ∧ x ∈ i.outs

/-- `islongop` answers for the loads in flight from global, local and texture memory. -/
def LongOps (s : State nWarps) : Prop :=
  ∀ w x, s.board.islongop w x = true ↔ ∃ i ∈ s.inFlight, i.warpId = w ∧ i.isLongOp = true ∧ x ∈ i.outs

def Accurate (s : State nWarps) : Prop := Pending s ∧ LongOps s

/-- An instruction that is issued names each output once, and if it is a long operation its
registers are their own places; when one completes, no long operation of its warp is left. -/
def Harmless (s : State nWarps) : Event nWarps → Prop
  | .issue inst => s.board.checkCollision inst.warpId inst = false →
      inst.outs.Nodup ∧ (inst.isLongOp = true →
        (inst.places.map fun r => BitVec.ofNat 32 r.val).toFinset = inst.outs.toFinset)
  | .complete k => ∀ inst, s.inFlight[k]? = some inst →
      ∀ other ∈ s.inFlight.eraseIdx k, other.warpId = inst.warpId → other.isLongOp = true → other.outs = []

/-- What the first table always is; two instructions of a warp in flight share no output. -/
structure Tracks (s : State nWarps) : Prop where
  pending : Pending s
  disjoint : s.inFlight.Pairwise fun i j => i.warpId = j.warpId → i.outs.Disjoint j.outs

/-! ## Steps -/

/-- A table that holds for each warp what its instructions in flight write. -/
def Lists (table : Fin nWarps → Finset (BitVec 32)) (writes : WarpInst nWarps → Finset (BitVec 32))
    (l : List (WarpInst nWarps)) : Prop :=
  ∀ w x, x ∈ table w ↔ ∃ i ∈ l, i.warpId = w ∧ x ∈ writes i

section Lists

variable {table : Fin nWarps → Finset (BitVec 32)} {writes : WarpInst nWarps → Finset (BitVec 32)}
  {l l₁ l₂ : List (WarpInst nWarps)} {inst : WarpInst nWarps} {t : Finset (BitVec 32)} {s s' : State nWarps}
  {e : Event nWarps} {k : Nat}

theorem pending_iff_lists : Pending s ↔ Lists s.board.regTable (fun i => i.outs.toFinset) s.inFlight := by
  simp only [Pending, Lists, List.mem_toFinset]

theorem longOps_iff_lists : LongOps s ↔ Lists s.board.longopregs WarpInst.longOuts s.inFlight := by
  simp only [LongOps, Lists, Tables.islongop, decide_eq_true_eq, WarpInst.mem_longOuts]

theorem Lists.cons_iff (h : Lists table writes l) :
    Lists (update table inst.warpId t) writes (inst :: l) ↔ t = table inst.warpId ∪ writes inst := by
  constructor
  · intro hnew
    ext x
    have hx := hnew inst.warpId x
    rw [update_self, List.exists_mem_cons_iff, ← h] at hx
    rw [hx, Finset.mem_union]
    tauto
  · rintro rfl w x
    rw [List.exists_mem_cons_iff, ← h]
    by_cases hw : w = inst.warpId
    · subst hw
      rw [update_self, Finset.mem_union]
      tauto
    · rw [update_of_ne hw]
      exact ⟨Or.inr, fun hx => hx.resolve_left fun hinst => hw hinst.1.symm⟩

theorem Lists.remove_iff (h : Lists table writes (l₁ ++ inst :: l₂)) :
    Lists (update table inst.warpId t) writes (l₁ ++ l₂) ↔
      ∀ x, x ∈ t ↔ ∃ i ∈ l₁ ++ l₂, i.warpId = inst.warpId ∧ x ∈ writes i := by
  constructor
  · intro hnew x
    rw [← hnew inst.warpId x, update_self]
  · intro ht w x
    by_cases hw : w = inst.warpId
    · subst hw
      rw [update_self]
      exact ht x
    · rw [update_of_ne hw, h]
      constructor
      · rintro ⟨i, hi, rfl, hx⟩
        rcases List.mem_append.mp hi with hi | hi
        · exact ⟨i, List.mem_append_left _ hi, rfl, hx⟩
        · rcases List.mem_cons.mp hi with rfl | hi
          · exact absurd rfl hw
          · exact ⟨i, List.mem_append_right _ hi, rfl, hx⟩
      · rintro ⟨i, hi, rfl, hx⟩
        rcases List.mem_append.mp hi with hi | hi
        · exact ⟨i, List.mem_append_left _ hi, rfl, hx⟩
        · exact ⟨i, List.mem_append_right _ (List.mem_cons_of_mem _ hi), rfl, hx⟩

theorem eraseIdx_split (h : l[k]? = some inst) : ∃ l₁ l₂, l = l₁ ++ inst :: l₂ ∧ l.eraseIdx k = l₁ ++ l₂ := by
  obtain ⟨hk, rfl⟩ := List.getElem?_eq_some_iff.mp h
  refine ⟨l.take k, l.drop (k + 1), ?_, List.eraseIdx_eq_take_drop_succ l k⟩
  rw [List.cons_getElem_drop_succ, List.take_append_drop]

/-- The tables with an instruction more. -/
def State.issued (s : State nWarps) (inst : WarpInst nWarps) : State nWarps :=
  ⟨⟨update s.board.regTable inst.warpId (s.board.regTable inst.warpId ∪ inst.outs.toFinset),
    update s.board.longopregs inst.warpId (s.board.longopregs inst.warpId ∪ inst.marks)⟩,
    inst :: s.inFlight⟩

/-- The tables without an instruction, and those that are left. -/
def State.completed (s : State nWarps) (inst : WarpInst nWarps) (left : List (WarpInst nWarps)) :
    State nWarps :=
  ⟨⟨update s.board.regTable inst.warpId (s.board.regTable inst.warpId \ inst.outs.toFinset),
    update s.board.longopregs inst.warpId ∅⟩, left⟩

theorem step_collision (h : s.board.checkCollision inst.warpId inst = true) : step s (.issue inst) = .ok s :=
  if_pos h

theorem step_issue (h : s.board.checkCollision inst.warpId inst = false) : step s (.issue inst) = .ok s' ↔
    inst.outs.Nodup ∧ s' = s.issued inst := by
  have hstep : step s (.issue inst) =
    (s.board.reserveRegisters inst >>= fun b => .ok ⟨b, inst :: s.inFlight⟩) :=
    if_neg (Bool.eq_false_iff.mp h)
  rw [hstep, bind_eq_ok]
  constructor
  · rintro ⟨b, hb, hs'⟩
    cases hs'
    obtain ⟨hnodup, -, rfl⟩ := Tables.reserveRegisters_ok.mp hb
    exact ⟨hnodup, rfl⟩
  · rintro ⟨hnodup, rfl⟩
    exact ⟨_, Tables.reserveRegisters_ok.mpr ⟨hnodup, Tables.free_of_checkCollision h, rfl⟩, rfl⟩

theorem step_complete_none (h : s.inFlight[k]? = none) : step s (.complete k) = .ok s := by
  unfold step
  dsimp only
  rw [h]

theorem step_complete (h : s.inFlight[k]? = some inst) :
    step s (.complete k) = .ok (s.completed inst (s.inFlight.eraseIdx k)) := by
  unfold step
  dsimp only
  rw [h]
  dsimp only
  rw [Tables.releaseRegisters_eq]
  rfl

theorem tracks_start : Tracks (⟨.new, []⟩ : State nWarps) := by
  refine ⟨fun w x => ?_, List.Pairwise.nil⟩
  simp [Tables.new]

theorem Tracks.sdiff (h : Tracks s) (hl : s.inFlight = l₁ ++ inst :: l₂) (x : BitVec 32) :
    x ∈ s.board.regTable inst.warpId \ inst.outs.toFinset ↔
      ∃ i ∈ l₁ ++ l₂, i.warpId = inst.warpId ∧ x ∈ i.outs.toFinset := by
  have hpair := h.disjoint
  have hdisj : ∀ i ∈ l₁ ++ l₂, i.warpId = inst.warpId → i.outs.Disjoint inst.outs := by
    rw [hl, List.pairwise_append, List.pairwise_cons] at hpair
    obtain ⟨-, ⟨hright, -⟩, hleft⟩ := hpair
    intro i hi hw
    rcases List.mem_append.mp hi with hi | hi
    · exact hleft i hi inst List.mem_cons_self hw
    · exact (hright i hi hw.symm).symm
  rw [Finset.mem_sdiff, h.pending, hl, List.mem_toFinset]
  constructor
  · rintro ⟨⟨i, hi, hw, hx⟩, hnot⟩
    rcases List.mem_append.mp hi with hi | hi
    · exact ⟨i, List.mem_append_left _ hi, hw, List.mem_toFinset.mpr hx⟩
    · rcases List.mem_cons.mp hi with rfl | hi
      · exact absurd hx hnot
      · exact ⟨i, List.mem_append_right _ hi, hw, List.mem_toFinset.mpr hx⟩
  · rintro ⟨i, hi, hw, hx⟩
    have hx := List.mem_toFinset.mp hx
    refine ⟨⟨i, ?_, hw, hx⟩, fun hinst => hdisj i hi hw hx hinst⟩
    rcases List.mem_append.mp hi with hi | hi
    · exact List.mem_append_left _ hi
    · exact List.mem_append_right _ (List.mem_cons_of_mem _ hi)

theorem Tracks.issued (h : Tracks s) (hfree : ∀ r ∈ inst.outs, r ∉ s.board.regTable inst.warpId) :
    Tracks (s.issued inst) := by
  refine ⟨pending_iff_lists.mpr ((pending_iff_lists.mp h.pending).cons_iff.mpr rfl), ?_⟩
  refine List.pairwise_cons.mpr ⟨fun j hj hw x hx hxj => ?_, h.disjoint⟩
  exact hfree x hx ((h.pending _ x).mpr ⟨j, hj, hw.symm, hxj⟩)

theorem Tracks.completed (h : Tracks s) (hl : s.inFlight = l₁ ++ inst :: l₂) :
    Tracks (s.completed inst (l₁ ++ l₂)) := by
  have hlists := pending_iff_lists.mp h.pending
  have hpair := h.disjoint
  rw [hl] at hlists hpair
  refine ⟨pending_iff_lists.mpr (hlists.remove_iff.mpr (h.sdiff hl)), hpair.sublist ?_⟩
  exact (List.Sublist.refl l₁).append (List.sublist_cons_self inst l₂)

theorem Tracks.step (h : Tracks s) (hs : step s e = .ok s') : Tracks s' := by
  cases e with
  | issue inst =>
    cases hcoll : s.board.checkCollision inst.warpId inst with
    | true =>
      rw [step_collision hcoll] at hs
      cases hs
      exact h
    | false =>
      obtain ⟨-, rfl⟩ := (step_issue hcoll).mp hs
      exact h.issued (Tables.free_of_checkCollision hcoll)
  | complete k =>
    cases hk : s.inFlight[k]? with
    | none =>
      rw [step_complete_none hk] at hs
      cases hs
      exact h
    | some inst =>
      rw [step_complete hk] at hs
      cases hs
      obtain ⟨l₁, l₂, hl, herase⟩ := eraseIdx_split hk
      rw [herase]
      exact h.completed hl

theorem harmless_issue (htracks : Tracks s) (hlong : LongOps s)
    (hcoll : s.board.checkCollision inst.warpId inst = false) : Harmless s (.issue inst) ↔
      inst.outs.Nodup ∧ LongOps (s.issued inst) := by
  have hfree := Tables.free_of_checkCollision hcoll
  have hfreeLong : ∀ r ∈ inst.outs, r ∉ s.board.longopregs inst.warpId := by
    intro r hr hmem
    obtain ⟨i, hi, hw, -, hx⟩ := (hlong _ r).mp (decide_eq_true hmem)
    exact hfree r hr ((htracks.pending _ r).mpr ⟨i, hi, hw, hx⟩)
  have hmarks : (inst.isLongOp = true → (inst.places.map fun r => BitVec.ofNat 32 r.val).toFinset =
      inst.outs.toFinset) ↔ inst.marks = inst.longOuts := by
    unfold WarpInst.marks WarpInst.longOuts
    split
    · next h => exact ⟨fun heq => heq h, fun heq _ => heq⟩
    · next h => exact ⟨fun _ => rfl, fun _ hinst => absurd hinst h⟩
  have hnew : LongOps (s.issued inst) ↔
      s.board.longopregs inst.warpId ∪ inst.marks = s.board.longopregs inst.warpId ∪ inst.longOuts :=
    longOps_iff_lists.trans (longOps_iff_lists.mp hlong).cons_iff
  constructor
  · intro h
    obtain ⟨hnodup, heq⟩ := h hcoll
    exact ⟨hnodup, hnew.mpr ((WarpInst.union_marks_iff hnodup hfreeLong).mpr (hmarks.mp heq))⟩
  · rintro ⟨hnodup, hlong'⟩ -
    exact ⟨hnodup, hmarks.mpr ((WarpInst.union_marks_iff hnodup hfreeLong).mp (hnew.mp hlong'))⟩

theorem harmless_complete (hlong : LongOps s) (hk : s.inFlight[k]? = some inst) :
    Harmless s (.complete k) ↔ LongOps (s.completed inst (s.inFlight.eraseIdx k)) := by
  obtain ⟨l₁, l₂, hl, herase⟩ := eraseIdx_split hk
  have hlists := longOps_iff_lists.mp hlong
  rw [hl] at hlists
  rw [herase]
  apply Iff.trans _ (longOps_iff_lists.trans hlists.remove_iff).symm
  constructor
  · intro h x
    constructor
    · intro hx
      exact absurd hx (Finset.notMem_empty x)
    · rintro ⟨i, hi, hw, hx⟩
      obtain ⟨hi', hx⟩ := WarpInst.mem_longOuts.mp hx
      rw [h inst hk i (herase ▸ hi) hw hi'] at hx
      cases hx
  · intro h other hother i hi hw hi'
    cases hother.symm.trans hk
    rw [herase] at hi
    apply List.eq_nil_iff_forall_not_mem.mpr
    intro x hx
    exact Finset.notMem_empty x ((h x).mpr ⟨i, hi, hw, WarpInst.mem_longOuts.mpr ⟨hi', hx⟩⟩)

theorem harmless_iff (htracks : Tracks s) (h : Accurate s) :
    Harmless s e ↔ ∃ s', step s e = .ok s' ∧ Accurate s' := by
  have hpending {s' : State nWarps} (hs' : step s e = .ok s') : Pending s' := (htracks.step hs').pending
  cases e with
  | issue inst =>
    cases hcoll : s.board.checkCollision inst.warpId inst with
    | true =>
      have hno : Harmless s (.issue inst) := fun hfalse => Bool.noConfusion (hcoll.symm.trans hfalse)
      exact ⟨fun _ => ⟨s, step_collision hcoll, h⟩, fun _ => hno⟩
    | false =>
      rw [harmless_issue htracks h.2 hcoll]
      constructor
      · rintro ⟨hnodup, hlong⟩
        have hs' := (step_issue hcoll).mpr ⟨hnodup, rfl⟩
        exact ⟨_, hs', hpending hs', hlong⟩
      · rintro ⟨s', hs', haccurate⟩
        obtain ⟨hnodup, rfl⟩ := (step_issue hcoll).mp hs'
        exact ⟨hnodup, haccurate.2⟩
  | complete k =>
    cases hk : s.inFlight[k]? with
    | none =>
      have hno : Harmless s (.complete k) := by
        intro inst hinst
        cases hk.symm.trans hinst
      exact ⟨fun _ => ⟨s, step_complete_none hk, h⟩, fun _ => hno⟩
    | some inst =>
      rw [harmless_complete h.2 hk]
      constructor
      · intro hlong
        exact ⟨_, step_complete hk, hpending (step_complete hk), hlong⟩
      · rintro ⟨s', hs', haccurate⟩
        cases (step_complete hk).symm.trans hs'
        exact haccurate.2

end Lists

/-- **Scoreboard**: whatever is issued and in whatever order it completes, the first table is right
and no reservation aborts, and the second table is right, exactly if every step is harmless. -/
theorem run_accurate_iff (events : List (Event nWarps)) :
    Always start step Accurate events ↔ Throughout start step Harmless events := by
  have hstart : start = .ok (⟨.new, []⟩ : State nWarps) := rfl
  apply always_iff_throughout hstart tracks_start
  · refine ⟨tracks_start.pending, fun w x => ?_⟩
    simp [Tables.islongop, Tables.new]
  · exact fun s e s' h hs => h.step hs
  · exact fun s e htracks h => harmless_iff htracks h

/-- A load of register 5 from global memory. -/
def load : WarpInst 1 := ⟨0, ![5, 0, 0, 0], ![0, 0, 0, 0], 0, 0, 0, true, .global⟩

theorem not_accurate : ∃ events : List (Event 1), ¬ Always start step Accurate events := by
  refine ⟨[.issue load], fun h => ?_⟩
  obtain ⟨s, hs, -, hlong⟩ := h [.issue load] [] rfl
  have hstep : step ⟨.new, []⟩ (.issue load) = .ok s := hs
  obtain ⟨-, rfl⟩ := (step_issue (by decide)).mp hstep
  have hmarked := (hlong 0 5).mpr ⟨load, List.mem_cons_self, rfl, rfl, by decide⟩
  exact absurd hmarked (by decide)

end GpgpuSimRuby.Shader.Scoreboard
