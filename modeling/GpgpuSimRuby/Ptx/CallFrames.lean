import GpgpuSimRuby.Library.Fault
import GpgpuSimRuby.Ptx.CallStack

/-!
# The frame of the caller

What a call and its return leave of the caller's frame, over every well-nested execution of the callee,
and what the callee sees of the arguments.
-/

open Function (update update_self update_of_ne)

namespace GpgpuSimRuby.Ptx

open Library

namespace CallThread

variable {t t' : CallThread}

/-! ## What the parts of a call change -/

/-- The states differ in the top register frame and in bytes that are not below the stack pointer. -/
structure SameBelow (t t' : CallThread) : Prop where
  pc : t'.pc = t.pc
  npc : t'.npc = t.npc
  rpc : t'.rpc = t.rpc
  symbolTable : t'.symbolTable = t.symbolTable
  funcInfo : t'.funcInfo = t.funcInfo
  callstack : t'.callstack = t.callstack
  sp : t'.sp = t.sp
  regs : t'.regs.tail = t.regs.tail
  done : t'.done = t.done
  localMem : ∀ b : Addr, b.toNat < t.sp.toNat → t'.localMem b = t.localMem b

theorem SameBelow.refl (t : CallThread) : SameBelow t t :=
  ⟨rfl, rfl, rfl, rfl, rfl, rfl, rfl, rfl, rfl, fun _ _ => rfl⟩

theorem SameBelow.trans {t'' : CallThread} (h : SameBelow t t') (h' : SameBelow t' t'') :
    SameBelow t t'' where
  pc := h'.pc.trans h.pc
  npc := h'.npc.trans h.npc
  rpc := h'.rpc.trans h.rpc
  symbolTable := h'.symbolTable.trans h.symbolTable
  funcInfo := h'.funcInfo.trans h.funcInfo
  callstack := h'.callstack.trans h.callstack
  sp := h'.sp.trans h.sp
  regs := h'.regs.trans h.regs
  done := h'.done.trans h.done
  localMem b hb := (h'.localMem b (by rw [h.sp]; exact hb)).trans (h.localMem b hb)

variable {r : Symbol} {v : RegValue}

theorem getReg_ok (h : t.getReg r = .ok v) :
    ∃ frame frames, t.regs = frame :: frames ∧ v = frame r := by
  unfold getReg at h
  split at h
  · cases h
  · next frame frames hregs =>
    cases h
    exact ⟨frame, frames, hregs, rfl⟩

theorem setReg_ok (h : t.setReg r v = .ok t') :
    ∃ frame frames, t.regs = frame :: frames ∧ t' = { t with regs := update frame r v :: frames } := by
  unfold setReg at h
  split at h
  · cases h
  · next frame frames hregs =>
    cases h
    exact ⟨frame, frames, hregs, rfl⟩

end CallThread

theorem Symbol.isReg_iff {s : Symbol} : s.isReg = true ↔ s.kind = .reg := decide_eq_true_iff

/-- What is written to the variable of a symbol, or a whole register, does not go round the end of the
address space. -/
def Symbol.Below (s : Symbol) (sp : Addr) : Prop :=
  ∀ a, s.kind = .paramLocal a → sp.toNat + a.toNat + 16 ≤ 2 ^ 32 ∧
    sp.toNat + a.toNat + s.sizeInBytes ≤ 2 ^ 32

/-- The number of bytes that a buffer writes to a `.param` variable. -/
def copyWidth (actual formal : Symbol) : Nat := if actual.isReg then 16 else formal.sizeInBytes

/-- What `copy_arg_to_buffer` reads. -/
inductive Copied (t : CallThread) (actual formal : Symbol) : ArgBuffer → Prop
  | regReg {frame frames} (ha : actual.kind = .reg) (hf : formal.kind = .reg)
      (hregs : t.regs = frame :: frames) : Copied t actual formal ⟨formal, .reg (frame actual)⟩
  | regParam {frame frames} (ha : actual.kind = .reg) (hf : formal.kind ≠ .reg)
      (hregs : t.regs = frame :: frames) :
      Copied t actual formal ⟨formal, .param (List.ofFn (frame actual))⟩
  | paramReg {a} (ha : actual.kind = .paramLocal a) (hf : formal.kind = .reg) :
      Copied t actual formal
        ⟨formal, .reg (regOfBytes (readBytes t.localMem (t.sp + a) formal.sizeInBytes))⟩
  | paramParam {a} (ha : actual.kind = .paramLocal a) (hf : formal.kind ≠ .reg)
      (hsize : formal.sizeInBytes < 1024) :
      Copied t actual formal
        ⟨formal, .param (readBytes t.localMem (t.sp + a) formal.sizeInBytes)⟩

variable {actual formal : Symbol} {b : ArgBuffer} {u : CallThread} {written : List Symbol}
  {stored : List Addr}

theorem CallThread.copyArgToBuffer_spec {t : CallThread}
    (h : t.copyArgToBuffer actual formal = .ok b) : Copied t actual formal b := by
  unfold CallThread.copyArgToBuffer at h
  split at h
  · next ha =>
    obtain ⟨v, hv, h⟩ := bind_eq_ok.mp h
    obtain ⟨frame, frames, hregs, rfl⟩ := CallThread.getReg_ok hv
    cases h
    unfold ArgBuffer.ofReg
    split
    · next hf => exact .regReg ha (Symbol.isReg_iff.mp hf) hregs
    · next hf => exact .regParam ha (mt Symbol.isReg_iff.mpr hf) hregs
  · next a ha =>
    split at h
    · next hsize =>
      cases h
      unfold ArgBuffer.ofParam
      split
      · next hf => exact .paramReg ha (Symbol.isReg_iff.mp hf)
      · next hf => exact .paramParam ha (mt Symbol.isReg_iff.mpr hf) hsize
    · cases h
  · cases h

theorem Copied.dst {t : CallThread} (h : Copied t actual formal b) : b.dst = formal := by
  cases h <;> rfl

variable {bytes : List Byte} {arg : Symbol × Symbol} {top : Addr × Addr}

theorem Copied.length {t : CallThread}
    (h : Copied t actual formal b) (hb : b.value = .param bytes) :
    bytes.length = copyWidth actual formal := by
  cases h with
  | regReg => cases hb
  | paramReg => cases hb
  | regParam ha hf hregs =>
    cases hb
    simp [copyWidth, Symbol.isReg, ha]
  | paramParam ha hf hsize =>
    cases hb
    simp [copyWidth, Symbol.isReg, ha]

/-- A buffer is copied to a frame: a register of the top frame or the bytes of a variable change. -/
inductive Written (t : CallThread) (b : ArgBuffer) : CallThread → Prop
  | reg {v frame frames} (hv : b.value = .reg v) (hregs : t.regs = frame :: frames) :
      Written t b { t with regs := update frame b.dst v :: frames }
  | param {bytes a} (hv : b.value = .param bytes) (ha : b.dst.kind = .paramLocal a) :
      Written t b { t with localMem := writeBytes t.localMem (t.sp + a) bytes }

theorem CallThread.copyBufferToFrame_spec {t t' : CallThread}
    (h : t.copyBufferToFrame b = .ok t') : Written t b t' := by
  unfold CallThread.copyBufferToFrame at h
  split at h
  · next v hv =>
    obtain ⟨frame, frames, hregs, rfl⟩ := CallThread.setReg_ok h
    exact .reg hv hregs
  · next bytes hv =>
    split at h
    · next a ha =>
      cases h
      exact .param hv ha
    · cases h
    · cases h

theorem Written.sameBelow {t t' : CallThread}
    (hc : Copied u actual formal b) (h : Written t b t') (hfit : formal.Below t.sp) : t.SameBelow t' := by
  cases h with
  | reg hv hregs =>
    refine ⟨rfl, rfl, rfl, rfl, rfl, rfl, rfl, ?_, rfl, fun _ _ => rfl⟩
    rw [hregs]
    rfl
  | param hv ha =>
    refine ⟨rfl, rfl, rfl, rfl, rfl, rfl, rfl, rfl, rfl, fun x hx => ?_⟩
    rw [hc.dst] at ha
    obtain ⟨hreg, hsize⟩ := hfit _ ha
    have hlen := hc.length hv
    apply writeBytes_of_le
    apply le_sub_of_lt hx
    rw [hlen]
    unfold copyWidth
    split
    · exact hreg
    · exact hsize

/-! ## Arguments -/

/-- The value of a register in the top frame. -/
def CallThread.regValue (t : CallThread) (r : Symbol) : RegValue :=
  match t.regs with
  | [] => fun _ => 0
  | frame :: _ => frame r

/-- The formal parameter has the value that the argument has in the caller `u`. -/
def SeesArg (u t : CallThread) (arg : Symbol × Symbol) : Prop :=
  match arg.1.kind, arg.2.kind with
  | .reg, .reg => t.regValue arg.2 = u.regValue arg.1
  | .reg, .paramLocal a => ∀ i : Fin 16, i.val < arg.2.sizeInBytes →
      t.localMem (t.sp + a + BitVec.ofNat 32 i) = u.regValue arg.1 i
  | .paramLocal a, .reg => ∀ i : Fin 16, i.val < arg.2.sizeInBytes →
      t.regValue arg.2 i = u.localMem (u.sp + a + BitVec.ofNat 32 i)
  | .paramLocal a, .paramLocal a' => ∀ i : Nat, i < arg.2.sizeInBytes →
      t.localMem (t.sp + a' + BitVec.ofNat 32 i) = u.localMem (u.sp + a + BitVec.ofNat 32 i)
  | _, _ => False

/-- The size of a `.param` variable that is copied to a register is one that registers have. -/
def RegSize (arg : Symbol × Symbol) : Prop :=
  ∀ a, arg.1.kind = .paramLocal a → arg.2.kind = .reg → arg.2.sizeInBytes ∈ [0, 1, 2, 4, 8]

/-- Copying one argument leaves the formal parameter of another. -/
def Spares (later arg : Symbol × Symbol) : Prop :=
  match later.2.kind, arg.2.kind with
  | .reg, .reg => arg.2 ≠ later.2
  | .paramLocal a, .paramLocal a' =>
    a.toNat + copyWidth later.1 later.2 ≤ a'.toNat ∨ a'.toNat + arg.2.sizeInBytes ≤ a.toNat
  | _, _ => True

theorem regOfBytes_apply {i : Fin 16} (h : bytes.length ∈ [0, 1, 2, 4, 8])
    (hi : i.val < bytes.length) : regOfBytes bytes i = bytes.getD i 0 := by
  simp only [List.mem_cons, List.not_mem_nil, or_false] at h
  rcases h with h | h | h | h | h
  · omega
  · simp only [regOfBytes, h]
  · simp only [regOfBytes, h]
  · simp only [regOfBytes, h]
  · simp only [regOfBytes, h]

theorem getD_ofFn (v : RegValue) (i : Fin 16) : (List.ofFn v).getD i 0 = v i := by
  rw [List.getD_eq_getElem _ _ (by rw [List.length_ofFn]; exact i.isLt), List.getElem_ofFn]

theorem Written.sees {t t' : CallThread}
    (hc : Copied u arg.1 arg.2 b) (h : Written t b t') (hsize : RegSize arg) : SeesArg u t' arg := by
  obtain ⟨actual, formal⟩ := arg
  unfold SeesArg
  cases hc with
  | @regReg frame frames ha hf hregs =>
    have ha : actual.kind = .reg := ha
    have hf : formal.kind = .reg := hf
    simp only [ha, hf]
    cases h with
    | reg hv hregs' =>
      cases hv
      simp only [CallThread.regValue, hregs, update_self]
    | param hv ha => cases hv
  | @regParam frame frames ha hf hregs =>
    have ha : actual.kind = .reg := ha
    cases h with
    | reg hv => cases hv
    | @param bytes a hv haddr =>
      cases hv
      have haddr : formal.kind = .paramLocal a := haddr
      simp only [ha, haddr]
      intro i hi
      rw [writeBytes_add (by rw [List.length_ofFn]; exact i.isLt) (by omega), getD_ofFn]
      simp only [CallThread.regValue, hregs]
  | @paramReg a ha hf =>
    have ha : actual.kind = .paramLocal a := ha
    have hf : formal.kind = .reg := hf
    simp only [ha, hf]
    cases h with
    | param hv => cases hv
    | reg hv hregs =>
      cases hv
      intro i hi
      have hlen : (readBytes u.localMem (u.sp + a) formal.sizeInBytes).length ∈ [0, 1, 2, 4, 8] := by
        rw [length_readBytes]
        exact hsize a ha hf
      simp only [CallThread.regValue, update_self]
      rw [regOfBytes_apply hlen (by simpa using hi), getD_readBytes _ _ hi]
  | @paramParam a ha hf hlt =>
    have ha : actual.kind = .paramLocal a := ha
    have hlt : formal.sizeInBytes < 1024 := hlt
    cases h with
    | reg hv => cases hv
    | @param bytes a' hv haddr =>
      cases hv
      have haddr : formal.kind = .paramLocal a' := haddr
      simp only [ha, haddr]
      intro i hi
      rw [writeBytes_add (by simpa using hi) (by omega), getD_readBytes _ _ hi]

theorem Written.spares {t t' : CallThread} {later : Symbol × Symbol}
    (hc : Copied u later.1 later.2 b) (h : Written t b t') (hspares : Spares later arg)
    (hlater : later.2.Below t.sp) (harg : arg.2.Below t.sp) (hsees : SeesArg u t arg) : SeesArg u t' arg := by
  -- only the formal parameter of the argument is looked at
  have hreg : arg.2.kind = .reg → t'.regValue arg.2 = t.regValue arg.2 := by
    intro hkind
    cases h with
    | param => rfl
    | @reg v frame frames hv hregs =>
      have hformal : later.2.kind = .reg := by
        cases hc with
        | regReg ha hf => exact hf
        | paramReg ha hf => exact hf
        | regParam => cases hv
        | paramParam => cases hv
      have hne : arg.2 ≠ later.2 := by
        unfold Spares at hspares
        simpa only [hformal, hkind] using hspares
      simp only [CallThread.regValue, hregs, hc.dst, update_of_ne hne]
  have hmem : ∀ a, arg.2.kind = .paramLocal a → ∀ i, i < arg.2.sizeInBytes →
      t'.localMem (t'.sp + a + BitVec.ofNat 32 i) = t.localMem (t.sp + a + BitVec.ofNat 32 i) := by
    intro a hkind i hi
    cases h with
    | reg => rfl
    | @param bytes a' hv ha =>
      rw [hc.dst] at ha
      have hlen := hc.length hv
      have hoff : a'.toNat + copyWidth later.1 later.2 ≤ a.toNat ∨
          a.toNat + arg.2.sizeInBytes ≤ a'.toNat := by
        unfold Spares at hspares
        simpa only [ha, hkind] using hspares
      have hfit := harg a hkind
      have hfit' : t.sp.toNat + a'.toNat + copyWidth later.1 later.2 ≤ 2 ^ 32 := by
        unfold copyWidth
        split
        · exact (hlater a' ha).1
        · exact (hlater a' ha).2
      apply writeBytes_of_le
      rw [hlen]
      have hdiff : t.sp + a + BitVec.ofNat 32 i - (t.sp + a') = a + BitVec.ofNat 32 i - a' := by
        ring
      rw [hdiff, BitVec.toNat_sub, BitVec.toNat_add, BitVec.toNat_ofNat]
      omega
  unfold SeesArg at hsees ⊢
  cases ha : arg.1.kind with
  | other => simp only [ha] at hsees
  | reg =>
    cases hf : arg.2.kind with
    | other => simp only [ha, hf] at hsees
    | reg =>
      simp only [ha, hf] at hsees ⊢
      rw [hreg hf, hsees]
    | paramLocal a =>
      simp only [ha, hf] at hsees ⊢
      intro i hi
      rw [hmem a hf i hi, hsees i hi]
  | paramLocal a =>
    cases hf : arg.2.kind with
    | other => simp only [ha, hf] at hsees
    | reg =>
      simp only [ha, hf] at hsees ⊢
      intro i hi
      rw [hreg hf, hsees i hi]
    | paramLocal a' =>
      simp only [ha, hf] at hsees ⊢
      intro i hi
      rw [hmem a' hf i hi, hsees i hi]

theorem CallThread.copyArgs_spec {t : CallThread} : ∀ {actuals formals : List Symbol}
    {buffers : List ArgBuffer}, t.copyArgs actuals formals = .ok buffers →
      List.Forall₂ (fun arg b => Copied t arg.1 arg.2 b) (actuals.zip formals) buffers
  | [], _, buffers, h => by
    cases h
    exact .nil
  | _ :: _, [], buffers, h => by
    cases h
    exact .nil
  | actual :: actuals, formal :: formals, buffers, h => by
    unfold CallThread.copyArgs at h
    obtain ⟨b, hb, h⟩ := bind_eq_ok.mp h
    obtain ⟨bs, hbs, h⟩ := bind_eq_ok.mp h
    cases h
    exact .cons (CallThread.copyArgToBuffer_spec hb) (CallThread.copyArgs_spec hbs)

theorem CallThread.copyBuffers_spec {args : List (Symbol × Symbol)}
    {buffers : List ArgBuffer}
    (hcopied : List.Forall₂ (fun arg b => Copied u arg.1 arg.2 b) args buffers) :
    ∀ {t t' : CallThread}, t.copyBuffers buffers = .ok t' →
      (∀ arg ∈ args, arg.2.Below t.sp) → t.SameBelow t' ∧
        (args.Pairwise (fun arg later => Spares later arg) → (∀ arg ∈ args, RegSize arg) →
          (∀ arg ∈ args, SeesArg u t' arg) ∧
            ∀ arg, arg.2.Below t.sp → (∀ later ∈ args, Spares later arg) → SeesArg u t arg →
              SeesArg u t' arg) := by
  induction hcopied with
  | nil =>
    intro t t' h hfit
    cases h
    refine ⟨.refl t, fun _ _ => ⟨fun arg harg => (by cases harg), fun arg _ _ hsees => hsees⟩⟩
  | @cons head b args buffers hc htail ih =>
    intro t t' h hfit
    unfold CallThread.copyBuffers at h
    obtain ⟨t₁, ht, h⟩ := bind_eq_ok.mp h
    have hw := CallThread.copyBufferToFrame_spec ht
    have hhead := hfit head (List.mem_cons_self ..)
    have hsame := hw.sameBelow hc hhead
    have hrest : ∀ arg ∈ args, arg.2.Below t₁.sp := by
      intro arg harg
      rw [hsame.sp]
      exact hfit arg (List.mem_cons_of_mem _ harg)
    obtain ⟨hsame', hsees'⟩ := ih h hrest
    refine ⟨hsame.trans hsame', fun hpair hsizes => ?_⟩
    rw [List.pairwise_cons] at hpair
    obtain ⟨hall, hkeep⟩ := hsees' hpair.2 (fun arg harg => hsizes arg (List.mem_cons_of_mem _ harg))
    constructor
    · intro arg harg
      rcases List.mem_cons.mp harg with rfl | harg
      · apply hkeep arg (by rw [hsame.sp]; exact hhead) hpair.1
        exact hw.sees hc (hsizes arg (List.mem_cons_self ..))
      · exact hall arg harg
    · intro arg hbelow hspares hsees
      apply hkeep arg (by rw [hsame.sp]; exact hbelow)
        (fun later hl => hspares later (List.mem_cons_of_mem _ hl))
      exact hw.spares hc (hspares head (List.mem_cons_self ..)) hhead hbelow hsees

/-! ## Calls -/

/-- The two kinds of calls. -/
inductive Call where
  | call (i : CallInst)
  | callp (targetPC instSize : Addr)

namespace Call

def enter (c : Call) (top : Addr × Addr) (t : CallThread) : Except CallFault CallThread :=
  match c with
  | call i => t.callImpl i top
  | callp targetPC instSize => t.callpImpl targetPC instSize top

/-- The registers of PTXPlus are those of the caller. -/
def newFrame : Call → Bool
  | call _ => true
  | callp .. => false

def leave (c : Call) (t : CallThread) : Except CallFault CallThread := t.retImpl c.newFrame

def instSize : Call → Addr
  | call i => i.instSize
  | callp _ instSize => instSize

def returnSrc : Call → Option Symbol
  | call i => i.target.returnVar
  | callp .. => none

def returnDst : Call → Option Symbol
  | call i => i.returnVar
  | callp .. => none

/-- The arguments with their formal parameters. -/
def args : Call → List (Symbol × Symbol)
  | call i => i.args.zip i.target.args
  | callp .. => []

/-- The call is one, and the local memory does not go round. -/
structure Fits (c : Call) (t : CallThread) : Prop where
  notIntrinsic : ∀ i, c = call i → i.target.name ≠ "vprintf"
  args : ∀ f, t.funcInfo = some f → ∀ arg ∈ c.args, arg.2.Below (t.sp + f.localMemFramesize)
  dst : ∀ d, c.returnDst = some d → d.Below t.sp

/-- The thread at the beginning of the callee. -/
structure Entered (c : Call) (rpc : Addr) (t t' : CallThread) (f : FuncInfo) : Prop where
  callstack : t'.callstack =
    ⟨t.symbolTable, some f, t.pc + c.instSize, rpc, c.returnSrc, c.returnDst⟩ :: t.callstack
  sp : t'.sp = t.sp + f.localMemFramesize
  regs : t'.regs.tail = if c.newFrame then t.regs else t.regs.tail
  shared : c.newFrame = false → t'.regs = t.regs
  localMem : ∀ b : Addr, b.toNat < t'.sp.toNat → t'.localMem b = t.localMem b
  sees : c.args.Pairwise (fun arg later => Spares later arg) → (∀ arg ∈ c.args, RegSize arg) →
    ∀ arg ∈ c.args, SeesArg t t' arg

variable {newFrame : Bool} {c : Call} {e : StackEntry} {f : FuncInfo} {entries : List StackEntry}

theorem callstackPush_ok {pc rpc : Addr} {src dst : Option Symbol} {t t' : CallThread}
    (h : t.callstackPush newFrame pc rpc src dst = .ok t') : ∃ f, t.funcInfo = some f ∧
      t' = { t with
        rpc := -1
        callstack := ⟨t.symbolTable, some f, pc, rpc, src, dst⟩ :: t.callstack
        regs := if newFrame then (fun _ _ => 0) :: t.regs else t.regs
        sp := t.sp + f.localMemFramesize } := by
  unfold CallThread.callstackPush at h
  split at h
  · cases h
  · next f hf =>
    cases h
    exact ⟨f, hf, by rw [hf]⟩

theorem enter_spec {t t' : CallThread} (h : c.enter top t = .ok t')
    (hfits : c.Fits t) : ∃ f, t.funcInfo = some f ∧ c.Entered top.2 t t' f := by
  cases c with
  | callp targetPC instSize =>
    have h : t.callpImpl targetPC instSize top = .ok t' := h
    unfold CallThread.callpImpl at h
    split at h
    · next htop =>
      obtain ⟨t₁, hpush, h⟩ := bind_eq_ok.mp h
      obtain ⟨f, hf, rfl⟩ := callstackPush_ok hpush
      cases h
      refine ⟨f, hf, ?_, rfl, rfl, fun _ => rfl, fun _ _ => rfl, fun _ _ arg harg => (by cases harg)⟩
      rw [htop]
      rfl
    · cases h
  | call i =>
    have h : t.callImpl i top = .ok t' := h
    unfold CallThread.callImpl at h
    split at h
    · cases h
    split at h
    · cases h
    rw [if_neg (hfits.notIntrinsic i rfl)] at h
    obtain ⟨buffers, hbuffers, h⟩ := bind_eq_ok.mp h
    split at h
    · next htop =>
      obtain ⟨t₁, hpush, h⟩ := bind_eq_ok.mp h
      obtain ⟨f, hf, rfl⟩ := callstackPush_ok hpush
      obtain ⟨callee, hcopy, h⟩ := bind_eq_ok.mp h
      cases h
      obtain ⟨hsame, hsees⟩ :=
        CallThread.copyBuffers_spec (CallThread.copyArgs_spec hbuffers) hcopy (hfits.args f hf)
      refine ⟨f, hf, ?_, hsame.sp, hsame.regs, fun hnew => absurd hnew Bool.noConfusion, ?_, ?_⟩
      · rw [← htop]
        exact hsame.callstack
      · intro b hb
        have hb : b.toNat < callee.sp.toNat := hb
        rw [hsame.sp] at hb
        exact hsame.localMem b hb
      · intro hpair hsizes
        exact (hsees hpair hsizes).1
    · cases h

/-- What is popped of an entry, before the return value is written. -/
def popped (newFrame : Bool) (e : StackEntry) (f : FuncInfo) (entries : List StackEntry)
    (t : CallThread) : CallThread :=
  { t with
    symbolTable := e.symbolTable
    npc := e.pc
    rpc := e.rpc
    funcInfo := e.funcInfo
    sp := t.sp - f.localMemFramesize
    callstack := entries
    regs := if newFrame then t.regs.tail else t.regs }

theorem callstackPop_spec
    {t t' : CallThread} (h : t.callstackPop newFrame = .ok t')
    (hstack : t.callstack = e :: entries) (hf : e.funcInfo = some f) : f.localMemFramesize ≤ t.sp ∧
      ((e.returnVarDst = none ∧ t' = popped newFrame e f entries t) ∨
        ∃ s d b, e.returnVarSrc = some s ∧ e.returnVarDst = some d ∧ Copied t s d b ∧
          Written (popped newFrame e f entries t) b t') := by
  unfold CallThread.callstackPop at h
  rw [hstack] at h
  dsimp only at h
  rw [hf] at h
  by_cases hsp : f.localMemFramesize ≤ t.sp
  · simp only [if_pos hsp, ok_bind] at h
    refine ⟨hsp, ?_⟩
    split at h
    · next hsrc hdst =>
      cases h
      exact .inl ⟨hdst, by rw [popped, hf]⟩
    · next s d hsrc hdst =>
      obtain ⟨_, hmap, h⟩ := bind_eq_ok.mp h
      obtain ⟨b, hb, rfl⟩ := map_eq_ok.mp hmap
      refine .inr ⟨s, d, b, hsrc, hdst, CallThread.copyArgToBuffer_spec hb, ?_⟩
      apply CallThread.copyBufferToFrame_spec
      rw [popped, hf]
      exact h
    · cases h
  · simp only [if_neg hsp] at h
    split at h
    · cases h
    · obtain ⟨_, -, h⟩ := bind_eq_ok.mp h
      cases h
    · cases h

/-- The caller after the return. -/
structure Left (c : Call) (e : StackEntry) (f : FuncInfo) (entries : List StackEntry)
    (t t' : CallThread) : Prop where
  symbolTable : t'.symbolTable = e.symbolTable
  funcInfo : t'.funcInfo = some f
  npc : t'.npc = e.pc
  rpc : t'.rpc = e.rpc
  callstack : t'.callstack = entries
  frame : f.localMemFramesize ≤ t.sp
  sp : t'.sp = t.sp - f.localMemFramesize
  regs : t'.regs.tail = (if c.newFrame then t.regs.tail else t.regs).tail
  reg : ∀ r, e.returnVarDst ≠ some r →
    t'.regValue r = { t with regs := if c.newFrame then t.regs.tail else t.regs }.regValue r
  localMem : ∀ b : Addr, (∀ s d a, e.returnVarSrc = some s → e.returnVarDst = some d →
    d.kind = .paramLocal a → copyWidth s d ≤ (b - (t'.sp + a)).toNat) → t'.localMem b = t.localMem b

theorem leave_spec
    {t t' : CallThread} (h : c.leave t = .ok t') (hstack : t.callstack = e :: entries)
    (hf : e.funcInfo = some f) : c.Left e f entries t t' := by
  obtain ⟨t₁, hpop, h⟩ := bind_eq_ok.mp h
  cases h
  obtain ⟨hframe, ⟨hdst, rfl⟩ | ⟨s, d, b, hsrc, hdst, hc, hw⟩⟩ := callstackPop_spec hpop hstack hf
  · exact ⟨rfl, hf, rfl, rfl, rfl, hframe, rfl, rfl, fun _ _ => rfl, fun _ _ => rfl⟩
  · cases hw with
    | @reg v frame frames hv hregs =>
      have hregs : (if c.newFrame then t.regs.tail else t.regs) = frame :: frames := hregs
      refine ⟨rfl, hf, rfl, rfl, rfl, hframe, rfl, ?_, fun r hr => ?_, fun _ _ => rfl⟩
      · rw [hregs]
        rfl
      · have hne : r ≠ b.dst := by
          rintro rfl
          rw [hc.dst] at hr
          exact hr hdst
        simp only [CallThread.regValue, hregs, update_of_ne hne]
    | @param bytes a hv ha =>
      refine ⟨rfl, hf, rfl, rfl, rfl, hframe, rfl, rfl, fun _ _ => rfl, fun x hx => ?_⟩
      rw [hc.dst] at ha
      apply writeBytes_of_le
      rw [hc.length hv]
      exact hx s d a hsrc hdst ha

end Call

/-! ## Well-nested executions -/

/-- The registers of its caller's frame that a call writes, of which the callee writes `written`. -/
def Call.writes (c : Call) (written : List Symbol) : List Symbol :=
  if c.newFrame then c.returnDst.toList else written

/-- The executions of a function up to a return of its own, with the registers of its frame that it
writes and the bytes that it stores to. Calls in it have returned. -/
inductive Body : List Symbol → List Addr → CallThread → CallThread → Prop
  | nil (t : CallThread) : Body [] [] t t
  | setReg {t t₁ t' written stored} (r : Symbol) (v : RegValue) (h : t.setReg r v = .ok t₁)
      (rest : Body written stored t₁ t') : Body (r :: written) stored t t'
  | jump {t t' written stored} (pc npc rpc : Addr)
      (rest : Body written stored { t with pc := pc, npc := npc, rpc := rpc } t') :
      Body written stored t t'
  | store {t t' written stored} (a : Addr) (v : Byte)
      (rest : Body written stored { t with localMem := update t.localMem a v } t') :
      Body written (a :: stored) t t'
  | call {t t₁ t₂ t₃ t' written written' stored stored'} (c : Call) (top : Addr × Addr)
      (hfits : c.Fits t) (henter : c.enter top t = .ok t₁) (body : Body written stored t₁ t₂)
      (hleave : c.leave t₂ = .ok t₃) (rest : Body written' stored' t₃ t') :
      Body (c.writes written ++ written') (stored ++ stored') t t'

/-- What executions of a function leave. -/
structure BodyKept (written : List Symbol) (stored : List Addr) (t t' : CallThread) : Prop where
  symbolTable : t'.symbolTable = t.symbolTable
  funcInfo : t'.funcInfo = t.funcInfo
  callstack : t'.callstack = t.callstack
  sp : t'.sp = t.sp
  regs : t'.regs.tail = t.regs.tail
  reg : ∀ r ∉ written, t'.regValue r = t.regValue r
  localMem : ∀ b : Addr, b.toNat < t.sp.toNat → b ∉ stored → t'.localMem b = t.localMem b

theorem BodyKept.refl (t : CallThread) : BodyKept [] [] t t :=
  ⟨rfl, rfl, rfl, rfl, rfl, fun _ _ => rfl, fun _ _ _ => rfl⟩

theorem BodyKept.trans {written' : List Symbol} {stored' : List Addr}
    {t t' t'' : CallThread} (h : BodyKept written stored t t')
    (h' : BodyKept written' stored' t' t'') :
    BodyKept (written ++ written') (stored ++ stored') t t'' where
  symbolTable := h'.symbolTable.trans h.symbolTable
  funcInfo := h'.funcInfo.trans h.funcInfo
  callstack := h'.callstack.trans h.callstack
  sp := h'.sp.trans h.sp
  regs := h'.regs.trans h.regs
  reg r hr := by
    rw [List.mem_append, not_or] at hr
    exact (h'.reg r hr.2).trans (h.reg r hr.1)
  localMem b hb hn := by
    rw [List.mem_append, not_or] at hn
    exact (h'.localMem b (by rw [h.sp]; exact hb) hn.2).trans (h.localMem b hb hn.1)

theorem toNat_frame {sp framesize : Addr} (h : framesize ≤ sp + framesize) :
    (sp + framesize).toNat = sp.toNat + framesize.toNat := by
  rw [BitVec.le_def, BitVec.toNat_add] at h
  rw [BitVec.toNat_add]
  omega

/-- The caller after a call, of which the body has left what bodies leave. -/
structure Call.Back (c : Call) (written : List Symbol) (stored : List Addr) (f : FuncInfo)
    (t t₁ t₃ : CallThread) : Prop where
  symbolTable : t₃.symbolTable = t.symbolTable
  funcInfo : t₃.funcInfo = t.funcInfo
  npc : t₃.npc = t.pc + c.instSize
  callstack : t₃.callstack = t.callstack
  sp : t₃.sp = t.sp
  regs : t₃.regs.tail = t.regs.tail
  reg : ∀ r, c.returnDst ≠ some r → (c.newFrame = false → r ∉ written) →
    t₃.regValue r = t.regValue r
  frame : t₁.sp.toNat = t.sp.toNat + f.localMemFramesize.toNat
  localMem : ∀ b : Addr, b.toNat < t₁.sp.toNat → b ∉ stored →
    (∀ s d a, c.returnSrc = some s → c.returnDst = some d → d.kind = .paramLocal a →
      copyWidth s d ≤ (b - (t.sp + a)).toNat) → t₃.localMem b = t.localMem b

theorem Call.back {c : Call}
    {f : FuncInfo} {t t₁ t₂ t₃ : CallThread} (hf : t.funcInfo = some f)
    (henter : c.Entered top.2 t t₁ f) (hbody : BodyKept written stored t₁ t₂)
    (hleave : c.leave t₂ = .ok t₃) : c.Back written stored f t t₁ t₃ := by
  have hleft := Call.leave_spec hleave (hbody.callstack.trans henter.callstack) rfl
  have hsp₂ : t₂.sp = t.sp + f.localMemFramesize := hbody.sp.trans henter.sp
  have hsp : t₃.sp = t.sp := by
    rw [hleft.sp, hsp₂]
    exact add_sub_cancel_right _ _
  have hframe : t₁.sp.toNat = t.sp.toNat + f.localMemFramesize.toNat := by
    rw [henter.sp]
    apply toNat_frame
    rw [← hsp₂]
    exact hleft.frame
  have hregs : t₂.regs.tail = if c.newFrame then t.regs else t.regs.tail :=
    hbody.regs.trans henter.regs
  refine ⟨hleft.symbolTable, hleft.funcInfo.trans hf.symm, hleft.npc, hleft.callstack, hsp, ?_, ?_,
    hframe, ?_⟩
  · rw [hleft.regs]
    cases hnew : c.newFrame with
    | true =>
      rw [if_pos rfl, hregs, if_pos hnew]
    | false =>
      rw [if_neg (by simp), hregs, if_neg (by simp [hnew])]
  · intro r hr hw
    rw [hleft.reg r hr]
    cases hnew : c.newFrame with
    | true => simp only [CallThread.regValue, hregs, hnew, if_true]
    | false =>
      -- the frame is that of the callee
      have hkept := hbody.reg r (hw hnew)
      simp only [CallThread.regValue, henter.shared hnew] at hkept
      simpa only [CallThread.regValue, Bool.false_eq_true, if_false] using hkept
  · intro b hb hn hdst
    have hleave := hleft.localMem b (fun s d a hs hd ha => by rw [hsp]; exact hdst s d a hs hd ha)
    rw [hleave, hbody.localMem b hb hn, henter.localMem b hb]

/-- **Executions of a function** keep the frames below theirs, by induction on the execution. -/
theorem Body.kept {t t' : CallThread}
    (h : Body written stored t t') : BodyKept written stored t t' := by
  induction h with
  | nil t => exact .refl t
  | @setReg t t₁ t' written stored r v h rest ih =>
    obtain ⟨frame, frames, hregs, rfl⟩ := CallThread.setReg_ok h
    refine ⟨ih.symbolTable, ih.funcInfo, ih.callstack, ih.sp, ?_, fun s hs => ?_, ih.localMem⟩
    · rw [ih.regs, hregs]
      rfl
    · rw [List.mem_cons, not_or] at hs
      rw [ih.reg s hs.2]
      simp only [CallThread.regValue, hregs, update_of_ne hs.1]
  | jump pc npc rpc rest ih =>
    exact ⟨ih.symbolTable, ih.funcInfo, ih.callstack, ih.sp, ih.regs, ih.reg, ih.localMem⟩
  | @store t t' written stored a v rest ih =>
    refine ⟨ih.symbolTable, ih.funcInfo, ih.callstack, ih.sp, ih.regs, ih.reg, fun b hb hn => ?_⟩
    rw [List.mem_cons, not_or] at hn
    rw [ih.localMem b hb hn.2]
    exact update_of_ne hn.1 _ _
  | @call t t₁ t₂ t₃ t' written written' stored stored' c top hfits henter body hleave rest ihbody
      ihrest =>
    obtain ⟨f, hf, hentered⟩ := Call.enter_spec henter hfits
    have hback := Call.back hf hentered ihbody hleave
    have hkept : BodyKept (c.writes written) stored t t₃ := by
      refine ⟨hback.symbolTable, hback.funcInfo, hback.callstack, hback.sp, hback.regs, ?_, ?_⟩
      · intro r hr
        unfold Call.writes at hr
        apply hback.reg r
        · rintro hdst
          cases hnew : c.newFrame with
          | true => simp [hnew, hdst] at hr
          | false =>
            cases c with
            | call i => cases hnew
            | callp => cases hdst
        · intro hnew
          simpa [hnew] using hr
      · intro b hb hn
        have hframe := hback.frame
        apply hback.localMem b (by omega) hn
        -- the return value is copied to the frame of this function
        intro s d a hs hd ha
        obtain ⟨hreg, hsize⟩ := hfits.dst d hd a ha
        apply le_sub_of_lt hb
        unfold copyWidth
        split
        · exact hreg
        · exact hsize
    exact hkept.trans ihrest

/-! ## The discipline -/

/-- When a call and its return keep the frame of the caller: no copy of an argument overwrites an
earlier one, and a register is only returned to a `.param` variable that has its size or none of the
frame behind it. -/
structure Call.Sound (c : Call) (t : CallThread) : Prop extends c.Fits t where
  spares : c.args.Pairwise fun arg later => Spares later arg
  sizes : ∀ arg ∈ c.args, RegSize arg
  returned : ∀ f s d a, t.funcInfo = some f → c.returnSrc = some s → c.returnDst = some d →
    s.kind = .reg → d.kind = .paramLocal a →
      16 ≤ d.sizeInBytes ∨ f.localMemFramesize.toNat ≤ a.toNat + d.sizeInBytes

/-- After the return the caller is as it was before the call, and its frame is but for the return
destination and what the callee has stored. Where the registers are shared, those that the callee has
not written are kept. -/
structure Call.FrameKept (c : Call) (written : List Symbol) (stored : List Addr)
    (t callee t' : CallThread) : Prop where
  symbolTable : t'.symbolTable = t.symbolTable
  funcInfo : t'.funcInfo = t.funcInfo
  npc : t'.npc = t.pc + c.instSize
  callstack : t'.callstack = t.callstack
  sp : t'.sp = t.sp
  regs : t'.regs.tail = t.regs.tail
  reg : ∀ r, c.returnDst ≠ some r → (c.newFrame = false → r ∉ written) →
    t'.regValue r = t.regValue r
  sees : ∀ arg ∈ c.args, SeesArg t callee arg
  localMem : ∀ f, t.funcInfo = some f → ∀ b : Addr,
    b.toNat < t.sp.toNat + f.localMemFramesize.toNat → b ∉ stored →
      (∀ d a, c.returnDst = some d → d.kind = .paramLocal a → d.sizeInBytes ≤ (b - (t.sp + a)).toNat) →
        t'.localMem b = t.localMem b

/-- **Frame discipline.** -/
theorem Call.frameKept {c : Call}
    {t callee callee' t' : CallThread} (hsound : c.Sound t) (henter : c.enter top t = .ok callee)
    (hbody : Body written stored callee callee') (hleave : c.leave callee' = .ok t') :
    c.FrameKept written stored t callee t' := by
  obtain ⟨f, hf, hentered⟩ := Call.enter_spec henter hsound.toFits
  have hback := Call.back hf hentered hbody.kept hleave
  refine ⟨hback.symbolTable, hback.funcInfo, hback.npc, hback.callstack, hback.sp, hback.regs,
    hback.reg, hentered.sees hsound.spares hsound.sizes, ?_⟩
  intro f' hf' b hb hn hdst
  have heq : f' = f := Option.some.inj (hf'.symm.trans hf)
  subst heq
  have hframe := hback.frame
  apply hback.localMem b (by omega) hn
  intro s d a hs hd ha
  have hown := hdst d a hd ha
  obtain ⟨hreg, hsize⟩ := hsound.dst d hd a ha
  unfold copyWidth
  by_cases hkind : s.isReg = true
  · rw [if_pos hkind]
    rcases hsound.returned f' s d a hf hs hd (Symbol.isReg_iff.mp hkind) ha with h16 | hend
    · omega
    · -- a byte of the frame that is not of the destination is before it
      rw [BitVec.toNat_sub, BitVec.toNat_add] at hown ⊢
      omega
  · rw [if_neg hkind]
    exact hown

/-! ## Return values in registers -/

/-- A kernel with two `.param` variables of 4 bytes, at a call. Its local memory is filled with ones. -/
def callingThread : CallThread where
  pc := 16
  npc := 24
  rpc := -1
  symbolTable := some 0
  funcInfo := some ⟨"kernel", 0, [], none, 8, 0⟩
  callstack := [⟨none, none, 0, -1, none, none⟩]
  sp := 0
  regs := [fun _ _ => 0]
  localMem := fun _ => 1
  done := false

/-- The call of a function with one argument. Both are `.param` variables, the return value is as
given. -/
def callReturning (src : Symbol) : Call := .call {
  target := ⟨"f", 1, [⟨"a", .paramLocal 4, 4⟩], some src, 8, 100⟩
  returnVar := some ⟨"x", .paramLocal 0, 4⟩
  args := [⟨"y", .paramLocal 4, 4⟩]
  instSize := 8 }

/-- A `.param` variable is returned. -/
theorem frameKept_param : ∃ callee t',
    (callReturning ⟨"r", .paramLocal 0, 4⟩).enter (16, 0) callingThread = .ok callee ∧
      (callReturning ⟨"r", .paramLocal 0, 4⟩).FrameKept [] [] callingThread callee t' := by
  have hsound : (callReturning ⟨"r", .paramLocal 0, 4⟩).Sound callingThread := by
    refine ⟨⟨?_, ?_, ?_⟩, ?_, ?_, ?_⟩
    · rintro i h
      cases h
      decide
    · rintro f hf arg harg a ha
      cases hf
      cases List.mem_singleton.mp harg
      cases ha
      decide
    · rintro d hd a ha
      cases hd
      cases ha
      decide
    · exact List.pairwise_singleton ..
    · intro arg harg a ha hf
      cases List.mem_singleton.mp harg
      cases hf
    · intro f s d a _ hs _ hreg
      cases hs
      cases hreg
  have henter : (callReturning ⟨"r", .paramLocal 0, 4⟩).enter (16, 0) callingThread = .ok _ := rfl
  exact ⟨_, _, henter, Call.frameKept hsound henter (.nil _) rfl⟩

/-- A register is returned: the other variable of the caller is overwritten. -/
theorem not_frameKept_reg : ∃ callee t',
    (callReturning ⟨"r", .reg, 4⟩).enter (16, 0) callingThread = .ok callee ∧
      Body [] [] callee callee ∧ (callReturning ⟨"r", .reg, 4⟩).leave callee = .ok t' ∧
        ¬ (callReturning ⟨"r", .reg, 4⟩).FrameKept [] [] callingThread callee t' := by
  refine ⟨_, _, rfl, .nil _, rfl, fun h => ?_⟩
  have hkept := h.localMem _ rfl 4 (by decide) (by simp) (by
    rintro d a hd ha
    cases hd
    cases ha
    decide)
  exact absurd hkept (by decide)

end GpgpuSimRuby.Ptx
