import GpgpuSimRuby.Ptx.GenericAddress

/-!
# Calls and returns

`call_impl`, `callp_impl`, `ret_impl` and `retp_impl`: arguments and return values are copied through
buffers between the frames of the caller and the callee, whose variables are addressed relative to the
stack pointer of the local memory.

* A register is a `ptx_reg_t`, of which all 16 bytes are kept. Those that its constructor leaves
  uninitialized are zero.
* The program counter of a warp is the top of its divergence stack, which is a parameter. There is
  no other divergence model than `POST_DOMINATOR`.
* The identifiers of calls, which are only printed, are left out.
-/

namespace GpgpuSimRuby.Ptx

abbrev Byte := BitVec 8

/-- The bytes of a `ptx_reg_t`. -/
abbrev RegValue := Fin 16 → Byte

/-! ## Byte memory -/

section Memory

variable (m : Addr → Byte) (a : Addr)

/-- `memory_space::read`. -/
def readBytes (n : Nat) : List Byte := (List.range n).map fun i => m (a + BitVec.ofNat 32 i)

/-- `memory_space::write`. -/
def writeBytes (bytes : List Byte) : Addr → Byte := fun b =>
  if (b - a).toNat < bytes.length then bytes.getD (b - a).toNat 0 else m b

@[simp] theorem length_readBytes (n : Nat) : (readBytes m a n).length = n := by
  simp [readBytes]

theorem getD_readBytes {n i : Nat} (h : i < n) : (readBytes m a n).getD i 0 = m (a + BitVec.ofNat 32 i) := by
  simp [readBytes, List.getD_eq_getElem?_getD, h]

variable {m a}

theorem writeBytes_of_le {bytes : List Byte} {b : Addr} (h : bytes.length ≤ (b - a).toNat) :
    writeBytes m a bytes b = m b := if_neg (not_lt.mpr h)

theorem writeBytes_add {bytes : List Byte} {i : Nat} (h : i < bytes.length) (hi : i < 2 ^ 32) :
    writeBytes m a bytes (a + BitVec.ofNat 32 i) = bytes.getD i 0 := by
  have hoff : (a + BitVec.ofNat 32 i - a).toNat = i := by
    rw [add_sub_cancel_left, BitVec.toNat_ofNat]
    exact Nat.mod_eq_of_lt hi
  unfold writeBytes
  rw [hoff, if_pos h]

theorem le_sub_of_lt {sp b : Addr} {n : Nat} (hb : b.toNat < sp.toNat)
    (hfit : sp.toNat + a.toNat + n ≤ 2 ^ 32) : n ≤ (b - (sp + a)).toNat := by
  rw [BitVec.toNat_sub, BitVec.toNat_add]
  omega

end Memory

/-! ## Functions and threads -/

inductive SymbolKind where
  | reg
  | paramLocal (address : Addr)
  | other
  deriving DecidableEq, Repr

/-- A symbol, of a register or of a `.param` variable in the local frame. The null register `_` has no
type and is neither. -/
structure Symbol where
  name : String
  kind : SymbolKind
  sizeInBytes : Nat
  deriving DecidableEq, Repr

def Symbol.isReg (s : Symbol) : Bool := s.kind = .reg

/-- What calls read of a `function_info`. -/
structure FuncInfo where
  name : String
  symtab : Nat
  args : List Symbol
  returnVar : Option Symbol
  localMemFramesize : Addr
  startPC : Addr
  deriving DecidableEq, Repr

/-- An entry of the call stack. -/
structure StackEntry where
  symbolTable : Option Nat
  funcInfo : Option FuncInfo
  pc : Addr
  rpc : Addr
  returnVarSrc : Option Symbol
  returnVarDst : Option Symbol

/-- The state of a thread that calls and returns change. The top of a stack is its head. -/
structure CallThread where
  pc : Addr
  npc : Addr
  rpc : Addr
  symbolTable : Option Nat
  funcInfo : Option FuncInfo
  callstack : List StackEntry
  sp : Addr
  regs : List (Symbol → RegValue)
  localMem : Addr → Byte
  done : Bool

inductive CallFault where
  | assertion
  | abort
  deriving DecidableEq, Repr

/-- A call with its operands. -/
structure CallInst where
  target : FuncInfo
  returnVar : Option Symbol
  args : List Symbol
  instSize : Addr

/-! ## Argument buffers -/

/-- What an `arg_buffer_t` holds. -/
inductive ArgValue where
  | reg (value : RegValue)
  | param (bytes : List Byte)

structure ArgBuffer where
  dst : Symbol
  value : ArgValue

/-- The register that is read from a `.param` variable of its size. -/
def regOfBytes (bytes : List Byte) : RegValue :=
  match bytes.length with
  | 1 | 2 | 4 | 8 => fun i => bytes.getD i 0
  | _ => fun _ => 0

/-- The constructor of `arg_buffer_t` from a register. Into a `.param` variable go all bytes of the
union. -/
def ArgBuffer.ofReg (dst : Symbol) (value : RegValue) : ArgBuffer :=
  if dst.isReg then ⟨dst, .reg value⟩ else ⟨dst, .param (List.ofFn value)⟩

/-- The constructor of `arg_buffer_t` from a `.param` variable. -/
def ArgBuffer.ofParam (dst : Symbol) (bytes : List Byte) : ArgBuffer :=
  if dst.isReg then ⟨dst, .reg (regOfBytes bytes)⟩ else ⟨dst, .param bytes⟩

namespace CallThread

variable (t : CallThread)

def getReg (r : Symbol) : Except CallFault RegValue :=
  match t.regs with
  | [] => .error .assertion
  | frame :: _ => .ok (frame r)

def setReg (r : Symbol) (value : RegValue) : Except CallFault CallThread :=
  match t.regs with
  | [] => .error .assertion
  | frame :: frames => .ok { t with regs := Function.update frame r value :: frames }

def copyArgToBuffer (actual formal : Symbol) : Except CallFault ArgBuffer :=
  match actual.kind with
  | .reg => do
    let value ← t.getReg actual
    .ok (.ofReg formal value)
  | .paramLocal address =>
    if formal.sizeInBytes < 1024 then
      .ok (.ofParam formal (readBytes t.localMem (t.sp + address) formal.sizeInBytes))
    else .error .assertion
  | .other => .error .abort

/-- `copy_args_into_buffer_list`. -/
def copyArgs : List Symbol → List Symbol → Except CallFault (List ArgBuffer)
  | actual :: actuals, formal :: formals => do
    let buffer ← t.copyArgToBuffer actual formal
    let buffers ← copyArgs actuals formals
    .ok (buffer :: buffers)
  | _, _ => .ok []

def copyBufferToFrame (a : ArgBuffer) : Except CallFault CallThread :=
  match a.value with
  | .reg value => t.setReg a.dst value
  | .param bytes =>
    match a.dst.kind with
    | .paramLocal address => .ok { t with localMem := writeBytes t.localMem (t.sp + address) bytes }
    | .reg | .other => .error .assertion

/-- `copy_buffer_list_into_frame`. -/
def copyBuffers (t : CallThread) : List ArgBuffer → Except CallFault CallThread
  | [] => .ok t
  | a :: buffers => do
    let t ← t.copyBufferToFrame a
    copyBuffers t buffers

/-! ## Calls and returns -/

/-- `callstack_push`, with a new register frame, and `callstack_push_plus`, without. -/
def callstackPush (newFrame : Bool) (pc rpc : Addr) (src dst : Option Symbol) :
    Except CallFault CallThread :=
  match t.funcInfo with
  | none => .error .assertion
  | some f => .ok { t with
      rpc := -1
      callstack := ⟨t.symbolTable, t.funcInfo, pc, rpc, src, dst⟩ :: t.callstack
      regs := if newFrame then (fun _ _ => 0) :: t.regs else t.regs
      sp := t.sp + f.localMemFramesize }

/-- `callstack_pop` and `callstack_pop_plus`. -/
def callstackPop (newFrame : Bool) : Except CallFault CallThread :=
  match t.callstack with
  | [] => .error .assertion
  | e :: entries => do
    -- the return value is read in the frame of the callee
    let buffer ←
      match e.returnVarSrc, e.returnVarDst with
      | none, none => .ok none
      | some src, some dst => (t.copyArgToBuffer src dst).map some
      | _, _ => .error .assertion
    let sp ←
      match e.funcInfo with
      | none => .ok t.sp
      | some f =>
        if f.localMemFramesize ≤ t.sp then .ok (t.sp - f.localMemFramesize) else .error .assertion
    let t' := { t with
      symbolTable := e.symbolTable
      npc := e.pc
      rpc := e.rpc
      funcInfo := e.funcInfo
      sp := sp
      callstack := entries
      regs := if newFrame then t.regs.tail else t.regs }
    match buffer with
    | none => .ok t'
    | some buffer => t'.copyBufferToFrame buffer

/-- `call_impl`, where `top` is the program counter and the reconvergence point on the top of the
divergence stack. What `vprintf` prints is left out. -/
def callImpl (i : CallInst) (top : Addr × Addr) : Except CallFault CallThread :=
  if i.returnVar.isSome ≠ i.target.returnVar.isSome then .error .abort
  else if i.args.length ≠ i.target.args.length then .error .abort
  else if i.target.name = "vprintf" then .ok t
  else do
    let buffers ← t.copyArgs i.args i.target.args
    if top.1 = t.pc then
      let t ← t.callstackPush true (top.1 + i.instSize) top.2 i.target.returnVar i.returnVar
      let t ← t.copyBuffers buffers
      .ok { t with
        npc := i.target.startPC
        funcInfo := some i.target
        symbolTable := some i.target.symtab }
    else .error .assertion

/-- `callp_impl`, the call to a label. -/
def callpImpl (targetPC instSize : Addr) (top : Addr × Addr) : Except CallFault CallThread :=
  if top.1 = t.pc then do
    let t ← t.callstackPush false (top.1 + instSize) top.2 none none
    .ok { t with npc := targetPC }
  else .error .assertion

/-- `ret_impl` and `retp_impl`. -/
def retImpl (newFrame : Bool) : Except CallFault CallThread := do
  let t ← t.callstackPop newFrame
  .ok { t with done := t.done || t.callstack.isEmpty }

end CallThread

end GpgpuSimRuby.Ptx
