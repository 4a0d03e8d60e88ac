import GpgpuSimRuby.Ptx.Operands

/-!
# Registers of instructions

The execution functions of `instructions.cc`, as far as the registers go that they read and write.

* The functions of the instructions that are not implemented, and `isspacep_impl`, abort.
* The targets of branches are labels, so that nothing is read when one is pushed or popped.
* The callback of an atomic instruction is part of it.
-/

namespace GpgpuSimRuby.Ptx

/-- The opcodes of `opcodes.def`. -/
inductive PtxOp where
  | ABS | ADD | ADDP | ADDC | AND | ANDN | ATOM | BAR | BFE | BFI | BFIND | BRA | BRX | BREV | BRKPT | CALL
  | CALLP | CLZ | CNOT | COS | CVT | CVTA | DIV | EX2 | EXIT | FMA | ISSPACEP | LD | LDU | LG2 | MAD24 | MAD
  | MADP | MAX | MEMBAR | MIN | MOV | MUL24 | MUL | NEG | NANDN | NORN | NOT | OR | ORN | PMEVENT | POPC
  | PREFETCH | PREFETCHU | PRMT | RCP | RED | REM | RET | RETP | RSQRT | SAD | SELP | SETP | SET | SHL | SHR
  | SIN | SLCT | SQRT | SSY | ST | SUB | SUBC | SULD | SURED | SUST | SUQ | TEX | TRAP | VABSDIFF
  | VADD | VMAD | VMAX | VMIN | VSET | VSHL | VSHR | VSUB | VOTE | XOR | NOP | BREAK | BREAKADDR
  deriving DecidableEq, Repr

/-- The column `DST` of `opcodes.def`. -/
def PtxOp.hasDst : PtxOp → Bool
  | .BRA | .BRX | .RET | .RETP | .SSY | .ST | .VABSDIFF | .VADD | .VMAD | .VMAX | .VMIN | .VSET | .VSHL
  | .VSHR | .VSUB | .VOTE | .NOP | .BREAK | .BREAKADDR => false
  | _ => true

/-- The function that a `call` names. -/
structure CalleeInfo where
  returns : Bool
  formals : List OpSymbol
  isVprintf : Bool
  deriving DecidableEq, Repr

/-- A `ptx_instruction`. `type` and `type2` are what `get_type` and `get_type2` return, `vectorSpec`
is the number of elements of `V2_TYPE` to `V4_TYPE`, and `hasReturn` is that of a call. -/
structure PtxInst where
  opcode : PtxOp
  operands : List OperandInfo
  pred : Option OpSymbol
  type : ValueType
  type2 : ValueType
  vectorSpec : Option Nat
  isCas : Bool
  isBallot : Bool
  hasReturn : Bool
  callee : CalleeInfo
  deriving DecidableEq, Repr

namespace PtxInst

variable (i : PtxInst)

def operandLookup (n : Nat) : OperandInfo := i.operands.getD n .missing
def dst : OperandInfo := i.operandLookup 0
def src1 : OperandInfo := i.operandLookup 1
def src2 : OperandInfo := i.operandLookup 2
def src3 : OperandInfo := i.operandLookup 3

/-! ## Arithmetic -/

def unary (fromType toType : ValueType) : Accesses :=
  i.src1.getOperandValue fromType ++ i.dst.setOperandValue toType

def binary (fromType toType : ValueType) : Accesses :=
  i.src1.getOperandValue fromType ++ i.src2.getOperandValue fromType ++ i.dst.setOperandValue toType

def ternary (fromType fromType3 toType : ValueType) : Accesses :=
  i.src1.getOperandValue fromType ++ i.src2.getOperandValue fromType ++ i.src3.getOperandValue fromType3 ++
    i.dst.setOperandValue toType

def absImpl : Accesses := i.unary i.type i.type
def cnotImpl : Accesses := i.unary i.type i.type
def cosImpl : Accesses := i.unary i.type i.type
def ex2Impl : Accesses := i.unary i.type i.type
def lg2Impl : Accesses := i.unary i.type i.type
def negImpl : Accesses := i.unary i.type i.type
def notImpl : Accesses := i.unary i.type i.type
def popcImpl : Accesses := i.unary i.type i.type
def rcpImpl : Accesses := i.unary i.type i.type
def rsqrtImpl : Accesses := i.unary i.type i.type
def sinImpl : Accesses := i.unary i.type i.type
def sqrtImpl : Accesses := i.unary i.type i.type
def clzImpl : Accesses := i.unary i.type .single
def cvtImpl : Accesses := i.unary i.type2 i.type

/-- All three sources are the first one. -/
def sadImpl : Accesses :=
  i.src1.getOperandValue i.type ++ i.src1.getOperandValue i.type ++ i.src1.getOperandValue i.type ++
    i.dst.setOperandValue i.type

def andImpl : Accesses := i.binary i.type i.type
def andnImpl : Accesses := i.binary i.type i.type
def divImpl : Accesses := i.binary i.type i.type
def maxImpl : Accesses := i.binary i.type i.type
def minImpl : Accesses := i.binary i.type i.type
def mul24Impl : Accesses := i.binary i.type i.type
def mulImpl : Accesses := i.binary i.type i.type
def nandnImpl : Accesses := i.binary i.type i.type
def nornImpl : Accesses := i.binary i.type i.type
def orImpl : Accesses := i.binary i.type i.type
def ornImpl : Accesses := i.binary i.type i.type
def remImpl : Accesses := i.binary i.type i.type
def shlImpl : Accesses := i.binary i.type i.type
def shrImpl : Accesses := i.binary i.type i.type
def xorImpl : Accesses := i.binary i.type i.type
def setpImpl : Accesses := i.binary i.type .single
def setImpl : Accesses := i.binary i.type2 i.type

/-- `add_impl` and `sub_impl` set flags. -/
def binaryFlags : Accesses :=
  i.src1.getOperandValue i.type ++ i.src2.getOperandValue i.type ++ i.dst.setOperandValueFlags i.type

def addImpl : Accesses := i.binaryFlags
def subImpl : Accesses := i.binaryFlags

def addpImpl : Accesses :=
  i.src1.getOperandValue i.type ++ i.src2.getOperandValue i.type ++ i.src3.getOperandValue i.type ++
    i.dst.setOperandValueFlags i.type

def mad24Impl : Accesses := i.ternary i.type i.type i.type
def selpImpl : Accesses := i.ternary i.type i.type .single
def slctImpl : Accesses := i.ternary i.type i.type2 i.type

def madDef (useCarry : Bool) : Accesses :=
  i.src1.getOperandValue i.type ++ i.src2.getOperandValue i.type ++ i.src3.getOperandValue i.type ++
    (if useCarry then (i.operandLookup 4).getOperandValue .single else .none) ++
      i.dst.setOperandValueFlags i.type

def fmaImpl : Accesses := i.madDef false
def madImpl : Accesses := i.madDef false
def madpImpl : Accesses := i.madDef true

def cvtaImpl : Accesses := i.src1.getOperandValue i.type ++ setReg i.dst.getSymbol

/-! ## Memory -/

def ldExec : Accesses :=
  i.src1.getOperandValue i.type ++
    if i.vectorSpec = none then i.dst.setOperandValue i.type else i.dst.setVectorOperandValues

def ldImpl : Accesses := i.ldExec
def lduImpl : Accesses := i.ldExec

def stImpl : Accesses :=
  i.dst.getOperandValue i.type ++
    match i.vectorSpec with
    | none => i.src1.getOperandValue i.type
    | some n => i.src1.getVectorOperandValues n

/-- `atom_impl` and then `atom_callback`. -/
def atomImpl : Accesses :=
  i.src1.getOperandValue i.type ++ i.src1.getOperandValue i.type ++ i.src2.getOperandValue i.type ++
    (if i.dst.getSymbol.any (·.cls ≠ .untyped) then i.dst.setOperandValue i.type else .none) ++
      if i.isCas then i.src3.getOperandValue i.type else .none

def movImpl : Accesses :=
  if (i.src1.isVector || i.dst.isVector) ∧ i.type = .single then
    -- a pack or an unpack
    (if i.src1.isVector then i.src1.getVectorOperandValues i.src1.getVectNelem
      else i.src1.getOperandValue i.type) ++
      if i.dst.isVector then i.dst.setVectorOperandValues else i.dst.setOperandValue i.type
  else i.src1.getOperandValue i.type ++ i.dst.setOperandValue i.type

def texImpl : Accesses := i.src2.getVectorOperandValues i.src2.getVectNelem ++ i.dst.setVectorOperandValues

/-! ## Control -/

def barSyncImpl : Accesses := i.dst.getOperandValue .single
def braImpl : Accesses := i.dst.getOperandValue .single
def brxImpl : Accesses := i.dst.getOperandValue .single
def callpImpl : Accesses := i.dst.getOperandValue .single

/-- The registers of `copy_arg_to_buffer`. -/
def copyArgToBuffer (actual : OperandInfo) : Accesses :=
  if actual.isReg then getReg actual.getSymbol else .none

/-- An argument that is neither a register nor a local `.param` variable makes it abort, and one
that has no room in the buffer. -/
def copies (actual : OperandInfo) (formal : OpSymbol) : Bool :=
  actual.isReg || (actual.isParamLocal && formal.sizeInBytes < 1024)

/-- The registers of `copy_buffer_to_frame`: the buffer has a register if the destination is one. -/
def copyBufferToFrame (dst : OpSymbol) : Accesses := if dst.isReg then setReg (some dst) else .none

/-- It aborts if the operands do not match the function. -/
def callImpl : Accesses :=
  let nReturn := if i.callee.returns then 1 else 0
  let args := (i.operands.drop (nReturn + 1)).zip i.callee.formals
  if i.hasReturn ≠ i.callee.returns ∨ i.operands.length ≠ nReturn + 1 + i.callee.formals.length then .none
  else if i.callee.isVprintf then .none
  else
    ((args.takeWhile fun a => copies a.1 a.2).map fun a => copyArgToBuffer a.1).foldr (· ++ ·) .none ++
      if args.all fun a => copies a.1 a.2 then
        (args.map fun a => copyBufferToFrame a.2).foldr (· ++ ·) .none
      else .none

/-- `callstack_pop`, with the return variables of the frame. -/
def retImpl (returnVar : Option (OpSymbol × OpSymbol)) : Accesses :=
  match returnVar with
  | none => .none
  | some (src, dst) =>
    copyArgToBuffer (.ofSymbol src) ++ if copies (.ofSymbol src) dst then copyBufferToFrame dst else .none

/-- The last thread of the warp writes the destinations of all. -/
def voteImpl : Accesses :=
  i.src1.getOperandValue .single ++ i.dst.setOperandValue (if i.isBallot then i.type else .single)

/-! ## Dispatch -/

def execute (returnVar : Option (OpSymbol × OpSymbol)) : Accesses :=
  match i.opcode with
  | .ABS => i.absImpl
  | .ADD => i.addImpl
  | .ADDP => i.addpImpl
  | .AND => i.andImpl
  | .ANDN => i.andnImpl
  | .ATOM => i.atomImpl
  | .BAR => i.barSyncImpl
  | .BRA => i.braImpl
  | .BRX => i.brxImpl
  | .CALL => i.callImpl
  | .CALLP => i.callpImpl
  | .CLZ => i.clzImpl
  | .CNOT => i.cnotImpl
  | .COS => i.cosImpl
  | .CVT => i.cvtImpl
  | .CVTA => i.cvtaImpl
  | .DIV => i.divImpl
  | .EX2 => i.ex2Impl
  | .FMA => i.fmaImpl
  | .LD => i.ldImpl
  | .LDU => i.lduImpl
  | .LG2 => i.lg2Impl
  | .MAD24 => i.mad24Impl
  | .MAD => i.madImpl
  | .MADP => i.madpImpl
  | .MAX => i.maxImpl
  | .MIN => i.minImpl
  | .MOV => i.movImpl
  | .MUL24 => i.mul24Impl
  | .MUL => i.mulImpl
  | .NEG => i.negImpl
  | .NANDN => i.nandnImpl
  | .NORN => i.nornImpl
  | .NOT => i.notImpl
  | .OR => i.orImpl
  | .ORN => i.ornImpl
  | .POPC => i.popcImpl
  | .RCP => i.rcpImpl
  | .REM => i.remImpl
  | .RET | .RETP => retImpl returnVar
  | .RSQRT => i.rsqrtImpl
  | .SAD => i.sadImpl
  | .SELP => i.selpImpl
  | .SETP => i.setpImpl
  | .SET => i.setImpl
  | .SHL => i.shlImpl
  | .SHR => i.shrImpl
  | .SIN => i.sinImpl
  | .SLCT => i.slctImpl
  | .SQRT => i.sqrtImpl
  | .ST => i.stImpl
  | .SUB => i.subImpl
  | .TEX => i.texImpl
  | .VOTE => i.voteImpl
  | .XOR => i.xorImpl
  | .EXIT | .MEMBAR | .SSY | .NOP | .BREAK | .BREAKADDR => .none
  | _ => .none

/-- `ptx_exec_inst`. -/
def ptxExecInst (returnVar : Option (OpSymbol × OpSymbol)) : Accesses :=
  i.pred.elim .none (fun p => (OperandInfo.ofSymbol p).getOperandValue .single) ++ i.execute returnVar

end PtxInst

end GpgpuSimRuby.Ptx
